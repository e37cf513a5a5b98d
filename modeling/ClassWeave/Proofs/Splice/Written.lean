import ClassWeave.Proofs.Splice.Patched

namespace ClassWeave

open Text
open Patched (Cuts)

inductive Change
  | overwrite (e : Edit)
  | insert (i : Insert)
  | append (text : String)

namespace Change

def edit? : Change → Option Edit
  | overwrite e => some e
  | _ => none

def insert? : Change → Option Insert
  | insert i => some i
  | _ => none

def appended? : Change → Option String
  | append text => some text
  | _ => none

end Change

namespace Splice

def change (s : Splice) : Change → Splice
  | .overwrite e => s.overwrite e
  | .insert i => s.insert i.offset i.text
  | .append text => s.append text

def queue (source : String) (changes : List Change) : Splice := changes.foldl change (ofText source)

theorem foldl_change (s : Splice) (changes : List Change) :
    changes.foldl change s =
      ⟨s.source, s.edits ++ changes.filterMap Change.edit?,
        s.inserts ++ changes.filterMap Change.insert?,
        (changes.filterMap Change.appended?).getLast?.or s.appended⟩ := by
  induction changes generalizing s with
  | nil => simp
  | cons c changes ih =>
    rw [List.foldl_cons, ih]
    cases c <;>
      simp [change, overwrite, insert, append, Change.edit?, Change.insert?, Change.appended?,
        List.filterMap_cons, List.getLast?_cons]

theorem queue_eq (source : String) (changes : List Change) :
    queue source changes =
      ⟨source.toList, changes.filterMap Change.edit?, changes.filterMap Change.insert?,
        (changes.filterMap Change.appended?).getLast?⟩ := by
  simp [queue, foldl_change, ofText]

end Splice

def writtenAt (edits : List Edit) (inserts : List Insert) (n : Nat) : List Char :=
  (inserts.filter fun i => i.offset == n).flatMap (fun i => i.text.toList) ++
    (edits.filter fun e => e.span.start == n).flatMap fun e => e.replacement.toList

def Overwritten (edits : List Edit) (n : Nat) : Prop :=
  ∃ e ∈ edits, e.span.start ≤ n ∧ n < e.span.stop

instance (edits : List Edit) (n : Nat) : Decidable (Overwritten edits n) :=
  inferInstanceAs (Decidable (∃ e ∈ edits, _))

def written (edits : List Edit) (inserts : List Insert) (n : Nat) : List Char → List Char
  | [] => writtenAt edits inserts n
  | c :: cs =>
    writtenAt edits inserts n ++ (if Overwritten edits n then [] else [c]) ++
      written edits inserts (n + c.utf8Size) cs

example :
    written [⟨⟨1, 2⟩, "B"⟩] [⟨1, "<"⟩, ⟨2, ">"⟩, ⟨1, "["⟩] 0 "abc".toList = "a<[B>c".toList := by
  decide

section

variable {edits edits' : List Edit} {inserts inserts' : List Insert} {n : Nat}

theorem writtenAt_eq_nil (he : ∀ e ∈ edits, e.span.start ≠ n) (hi : ∀ i ∈ inserts, i.offset ≠ n) :
    writtenAt edits inserts n = [] := by
  have hedits : edits.filter (fun e => e.span.start == n) = [] :=
    List.filter_eq_nil_iff.2 fun e h => by simpa using he e h
  have hinserts : inserts.filter (fun i => i.offset == n) = [] :=
    List.filter_eq_nil_iff.2 fun i h => by simpa using hi i h
  rw [writtenAt, hedits, hinserts]
  rfl

theorem written_congr
    (h : ∀ m, n ≤ m → writtenAt edits inserts m = writtenAt edits' inserts' m ∧
      (Overwritten edits m ↔ Overwritten edits' m)) (cs : List Char) :
    written edits inserts n cs = written edits' inserts' n cs := by
  induction cs generalizing n with
  | nil => exact (h n (Nat.le_refl n)).1
  | cons c cs ih =>
    have hrest := ih (n := n + c.utf8Size) fun m hm => h m (Nat.le_of_add_right_le hm)
    obtain ⟨hat, hover⟩ := h n (Nat.le_refl n)
    simp only [written, hat, hover, hrest]

theorem written_kept {w : List Char} (he : ∀ e ∈ edits, n + byteLength w ≤ e.span.start)
    (hi : ∀ i ∈ inserts, n + byteLength w ≤ i.offset) (r : List Char) :
    written edits inserts n (w ++ r) = w ++ written edits inserts (n + byteLength w) r := by
  induction w generalizing n with
  | nil => rfl
  | cons c w ih =>
    have hc := c.utf8Size_pos
    rw [byteLength_cons, ← Nat.add_assoc] at he hi ⊢
    have hat : writtenAt edits inserts n = [] := writtenAt_eq_nil
      (fun e h => Nat.ne_of_gt (by have := he e h; omega))
      fun i h => Nat.ne_of_gt (by have := hi i h; omega)
    have hover : ¬ Overwritten edits n := by
      rintro ⟨e, h, hle, -⟩
      have := he e h
      omega
    rw [List.cons_append, written, hat, if_neg hover, ih he hi]
    rfl

theorem written_overwritten {w : List Char}
    (h : ∀ m, n ≤ m → m < n + byteLength w →
      writtenAt edits inserts m = [] ∧ Overwritten edits m) (r : List Char) :
    written edits inserts n (w ++ r) = written edits inserts (n + byteLength w) r := by
  induction w generalizing n with
  | nil => rfl
  | cons c w ih =>
    have hc := c.utf8Size_pos
    rw [byteLength_cons, ← Nat.add_assoc] at h ⊢
    obtain ⟨hat, hover⟩ := h n (Nat.le_refl n) (by omega)
    rw [List.cons_append, written, hat, if_pos hover, ih fun m hm => h m (by omega)]
    rfl

theorem written_nil (n : Nat) (cs : List Char) : written [] [] n cs = cs := by
  have h : written [] [] n (cs ++ []) = cs ++ written [] [] (n + byteLength cs) [] :=
    written_kept (by simp) (by simp) []
  rw [List.append_nil] at h
  exact h.trans (List.append_nil cs)

theorem written_head {v : List Char}
    (hat : writtenAt edits inserts n = v ++ writtenAt edits' inserts' n)
    (hover : Overwritten edits n ↔ Overwritten edits' n)
    (hpast : ∀ m, n < m → writtenAt edits inserts m = writtenAt edits' inserts' m ∧
      (Overwritten edits m ↔ Overwritten edits' m)) (cs : List Char) :
    written edits inserts n cs = v ++ written edits' inserts' n cs := by
  cases cs with
  | nil => exact hat
  | cons c cs =>
    have hc := c.utf8Size_pos
    have hrest := written_congr (n := n + c.utf8Size) (fun m hm => hpast m (by omega)) cs
    simp only [written, hat, hover, hrest, List.append_assoc]

theorem written_insert (edits : List Edit) (i : Insert) (inserts : List Insert) (cs : List Char) :
    written edits (i :: inserts) i.offset cs =
      i.text.toList ++ written edits inserts i.offset cs := by
  refine written_head (by simp [writtenAt]) Iff.rfl (fun m hm => ⟨?_, Iff.rfl⟩) cs
  rw [writtenAt, List.filter_cons_of_neg (by simpa using Nat.ne_of_lt hm), writtenAt]

theorem written_edit {e : Edit} {v : List Char} (hstop : e.span.stop = e.span.start + byteLength v)
    (he : ∀ e' ∈ edits, e.span.stop ≤ e'.span.start)
    (hi : ∀ i ∈ inserts, e.span.start < i.offset ∧ e.span.stop ≤ i.offset) (r : List Char) :
    written (e :: edits) inserts e.span.start (v ++ r) =
      e.replacement.toList ++ written edits inserts e.span.stop r := by
  have hat : writtenAt (e :: edits) inserts e.span.start =
      e.replacement.toList ++ writtenAt edits inserts e.span.start := by
    have hinserts : inserts.filter (fun i => i.offset == e.span.start) = [] :=
      List.filter_eq_nil_iff.2 fun i h => by simpa using Nat.ne_of_gt (hi i h).1
    simp [writtenAt, hinserts]
  have hlater (m : Nat) (hm : e.span.start < m) :
      writtenAt (e :: edits) inserts m = writtenAt edits inserts m := by
    rw [writtenAt, List.filter_cons_of_neg (by simpa using Nat.ne_of_lt hm), writtenAt]
  have hpast (m : Nat) (hm : e.span.stop ≤ m) :
      Overwritten (e :: edits) m ↔ Overwritten edits m := by
    simp [Overwritten, Nat.not_lt.2 hm]
  -- An edit of an empty part leaves the place to the changes after it, any other one ends first.
  cases v with
  | nil =>
    rw [byteLength_nil, Nat.add_zero] at hstop
    rw [hstop, List.nil_append]
    exact written_head hat (hpast _ (by omega)) (fun m hm => ⟨hlater m hm, hpast m (by omega)⟩) r
  | cons c v =>
    have hc := c.utf8Size_pos
    rw [byteLength_cons, ← Nat.add_assoc] at hstop
    have hnil (m : Nat) (hm : e.span.start ≤ m) (hlt : m < e.span.stop) :
        writtenAt edits inserts m = [] :=
      writtenAt_eq_nil (fun e' h => Nat.ne_of_gt (Nat.lt_of_lt_of_le hlt (he e' h)))
        fun i h => Nat.ne_of_gt (Nat.lt_of_lt_of_le hlt (hi i h).2)
    have hover (m : Nat) (hm : e.span.start ≤ m) (hlt : m < e.span.stop) :
        Overwritten (e :: edits) m := ⟨e, List.mem_cons_self, hm, hlt⟩
    have hrest : written (e :: edits) inserts (e.span.start + c.utf8Size) (v ++ r) =
        written edits inserts e.span.stop r := by
      rw [written_overwritten, ← hstop]
      · exact written_congr (fun m hm => ⟨hlater m (by omega), hpast m hm⟩) r
      · intro m hm hlt
        rw [hlater m (by omega)]
        exact ⟨hnil m (by omega) (by omega), hover m (by omega) (by omega)⟩
    rw [List.cons_append, written, hat, hnil _ (Nat.le_refl _) (by omega),
      if_pos (hover _ (Nat.le_refl _) (by omega)), hrest, List.append_nil, List.append_nil]

end

end ClassWeave

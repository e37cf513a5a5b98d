import ClassWeave.Proofs.Slicing.Basic
import ClassWeave.Proofs.Splice.Written

namespace ClassWeave

open Text
open Patched (Cuts)

/-- `Ordered n cs edits inserts`: in a text `cs` at byte `n` each change is made where the one before
it ends, or further on. At one place an insert comes before an edit. -/
inductive Ordered : Nat → List Char → List Edit → List Insert → Prop
  | nil {n cs} : Ordered n cs [] []
  | insert {n w r edits i inserts} (hoffset : i.offset = n + byteLength w)
      (hedits : ∀ e ∈ edits, i.offset ≤ e.span.start)
      (hinserts : ∀ j ∈ inserts, i.offset ≤ j.offset) (h : Ordered i.offset r edits inserts) :
      Ordered n (w ++ r) edits (i :: inserts)
  | edit {n w v r e edits inserts} (hstart : e.span.start = n + byteLength w)
      (hstop : e.span.stop = e.span.start + byteLength v)
      (hedits : ∀ e' ∈ edits, e.span.stop ≤ e'.span.start)
      (hinserts : ∀ i ∈ inserts, e.span.start < i.offset ∧ e.span.stop ≤ i.offset)
      (h : Ordered e.span.stop r edits inserts) :
      Ordered n (w ++ (v ++ r)) (e :: edits) inserts

structure Fits (n : Nat) (cs : List Char) (edits : List Edit) (inserts : List Insert) : Prop where
  spans : ∀ e ∈ edits, Cuts n cs e.span.start ∧ Cuts n cs e.span.stop ∧ e.span.start ≤ e.span.stop
  offsets : ∀ i ∈ inserts, Cuts n cs i.offset
  apart : edits.Pairwise fun a b => a.span.stop ≤ b.span.start
  sorted : inserts.Pairwise fun i j => i.offset ≤ j.offset
  outside : ∀ e ∈ edits, ∀ i ∈ inserts, i.offset ≤ e.span.start ∨ e.span.stop ≤ i.offset

section

variable {n m : Nat} {w r cs : List Char} {edits : List Edit} {inserts : List Insert}

theorem Patched.Cuts.right (h : Cuts n (w ++ r) m) (hle : n + byteLength w ≤ m) :
    Cuts (n + byteLength w) r m := by
  obtain ⟨a, b, heq, rfl⟩ := h
  rcases List.append_eq_append_iff.1 heq with ⟨c, rfl, rfl⟩ | ⟨c, rfl, rfl⟩
  · exact ⟨c, b, rfl, by rw [byteLength_append, Nat.add_assoc]⟩
  · have hc : c = [] := by
      by_contra hne
      have := byteLength_pos hne
      rw [byteLength_append] at hle
      omega
    subst hc
    exact ⟨[], r, rfl, by simp⟩

namespace Fits

theorem tail_insert {i : Insert} (h : Fits n cs edits (i :: inserts)) : Fits n cs edits inserts :=
  ⟨h.spans, fun j hj => h.offsets j (List.mem_cons_of_mem _ hj), h.apart,
    (List.pairwise_cons.1 h.sorted).2,
    fun e he j hj => h.outside e he j (List.mem_cons_of_mem _ hj)⟩

theorem tail_edit {e : Edit} (h : Fits n cs (e :: edits) inserts) : Fits n cs edits inserts :=
  ⟨fun e' he => h.spans e' (List.mem_cons_of_mem _ he), h.offsets,
    (List.pairwise_cons.1 h.apart).2, h.sorted,
    fun e' he => h.outside e' (List.mem_cons_of_mem _ he)⟩

theorem right (h : Fits n (w ++ r) edits inserts)
    (hedits : ∀ e ∈ edits, n + byteLength w ≤ e.span.start)
    (hinserts : ∀ i ∈ inserts, n + byteLength w ≤ i.offset) :
    Fits (n + byteLength w) r edits inserts := by
  refine ⟨fun e he => ?_, fun i hi => (h.offsets i hi).right (hinserts i hi), h.apart, h.sorted,
    h.outside⟩
  obtain ⟨hstart, hstop, hle⟩ := h.spans e he
  have hfirst := hedits e he
  exact ⟨hstart.right hfirst, hstop.right (Nat.le_trans hfirst hle), hle⟩

theorem ordered_insert {i : Insert} (h : Fits n cs edits (i :: inserts))
    (hedits : ∀ e ∈ edits, i.offset ≤ e.span.start)
    (ih : ∀ r, Fits i.offset r edits inserts → Ordered i.offset r edits inserts) :
    Ordered n cs edits (i :: inserts) := by
  obtain ⟨w, r, rfl, hoffset⟩ := h.offsets i List.mem_cons_self
  have hinserts := (List.pairwise_cons.1 h.sorted).1
  refine .insert hoffset hedits hinserts (ih r ?_)
  rw [hoffset] at hedits hinserts ⊢
  exact h.tail_insert.right hedits hinserts

theorem ordered_edit {e : Edit} (h : Fits n cs (e :: edits) inserts)
    (hinserts : ∀ i ∈ inserts, e.span.start < i.offset)
    (ih : ∀ r, Fits e.span.stop r edits inserts → Ordered e.span.stop r edits inserts) :
    Ordered n cs (e :: edits) inserts := by
  obtain ⟨⟨w, u, rfl, hstart⟩, hcuts, hle⟩ := h.spans e List.mem_cons_self
  obtain ⟨v, r, rfl, hstop⟩ := hcuts.right (hstart ▸ hle)
  rw [← hstart] at hstop
  have hedits := (List.pairwise_cons.1 h.apart).1
  have hafter (i : Insert) (hi : i ∈ inserts) : e.span.stop ≤ i.offset := by
    have := h.outside e List.mem_cons_self i hi
    have := hinserts i hi
    omega
  refine .edit hstart hstop hedits (fun i hi => ⟨hinserts i hi, hafter i hi⟩) (ih r ?_)
  have hrest := h.tail_edit
  have hwidth : e.span.stop = n + byteLength (w ++ v) := by
    rw [hstop, hstart, byteLength_append, Nat.add_assoc]
  rw [← List.append_assoc] at hrest
  rw [hwidth] at hedits hafter ⊢
  exact hrest.right hedits hafter

theorem ordered {n : Nat} {cs : List Char} {edits : List Edit} {inserts : List Insert}
    (h : Fits n cs edits inserts) : Ordered n cs edits inserts := by
  -- The first change is the first insert, unless an edit starts before it.
  match edits, inserts with
  | [], [] => exact .nil
  | [], i :: inserts => exact h.ordered_insert (by simp) fun r hr => hr.ordered
  | e :: edits, [] => exact h.ordered_edit (by simp) fun r hr => hr.ordered
  | e :: edits, i :: inserts =>
    by_cases hle : i.offset ≤ e.span.start
    · refine h.ordered_insert (fun e' he => ?_) fun r hr => hr.ordered
      rcases List.mem_cons.1 he with rfl | he
      · exact hle
      · have := (List.pairwise_cons.1 h.apart).1 e' he
        have := (h.spans e List.mem_cons_self).2.2
        omega
    · refine h.ordered_edit (fun j hj => ?_) fun r hr => hr.ordered
      rcases List.mem_cons.1 hj with rfl | hj
      · omega
      · have := (List.pairwise_cons.1 h.sorted).1 j hj
        omega
termination_by edits.length + inserts.length

end Fits

namespace Splice

theorem takeBytes_append (a b : List Char) : takeBytes (byteLength a) (a ++ b) = a := by
  induction a with
  | nil => exact takeBytes_zero b
  | cons c a ih => simpa [takeBytes] using ih

theorem render_insert {i : Insert} (hoffset : i.offset = n + byteLength w)
    (hedits : ∀ e ∈ edits, i.offset ≤ e.span.start) :
    render n (w ++ r) edits (i :: inserts) =
      w ++ (i.text.toList ++ render i.offset r edits inserts) := by
  have hsub : i.offset - n = byteLength w := by omega
  cases edits with
  | nil => rw [render, hsub, takeBytes_append, dropBytes_append, List.append_assoc]
  | cons e edits =>
    rw [render, if_pos (hedits e List.mem_cons_self), hsub, takeBytes_append, dropBytes_append,
      List.append_assoc]

theorem render_edit {e : Edit} {v : List Char} (hstart : e.span.start = n + byteLength w)
    (hstop : e.span.stop = e.span.start + byteLength v)
    (hinserts : ∀ i ∈ inserts, e.span.start < i.offset) :
    render n (w ++ (v ++ r)) (e :: edits) inserts =
      w ++ (e.replacement.toList ++ render e.span.stop r edits inserts) := by
  have htake : takeBytes (e.span.start - n) (w ++ (v ++ r)) = w := by
    rw [hstart, Nat.add_sub_cancel_left, takeBytes_append]
  have hdrop : dropBytes (e.span.stop - n) (w ++ (v ++ r)) = r := by
    rw [hstop, hstart, Nat.add_assoc, Nat.add_sub_cancel_left, ← byteLength_append,
      ← List.append_assoc, dropBytes_append]
  cases inserts with
  | nil => rw [render, htake, hdrop, List.append_assoc]
  | cons i inserts =>
    rw [render, if_neg (Nat.not_le.2 (hinserts i List.mem_cons_self)), htake, hdrop,
      List.append_assoc]

theorem render_of_ordered (h : Ordered n cs edits inserts) :
    render n cs edits inserts = written edits inserts n cs := by
  induction h with
  | nil => rw [written_nil, render]
  | @insert n w r edits i inserts hoffset hedits hinserts _ ih =>
    have hkept : written edits (i :: inserts) n (w ++ r) =
        w ++ written edits (i :: inserts) (n + byteLength w) r := by
      refine written_kept (fun e he => hoffset ▸ hedits e he) (fun j hj => ?_) r
      rcases List.mem_cons.1 hj with rfl | hj
      · exact Nat.le_of_eq hoffset.symm
      · exact hoffset ▸ hinserts j hj
    rw [render_insert hoffset hedits, hkept, ← hoffset, written_insert, ih]
  | @edit n w v r e edits inserts hstart hstop hedits hinserts _ ih =>
    have hle : e.span.start ≤ e.span.stop := hstop ▸ Nat.le_add_right _ _
    have hkept : written (e :: edits) inserts n (w ++ (v ++ r)) =
        w ++ written (e :: edits) inserts (n + byteLength w) (v ++ r) := by
      refine written_kept (fun e' he => ?_)
        (fun i hi => hstart ▸ Nat.le_of_lt (hinserts i hi).1) (v ++ r)
      rcases List.mem_cons.1 he with rfl | he
      · exact Nat.le_of_eq hstart.symm
      · exact hstart ▸ Nat.le_trans hle (hedits e' he)
    rw [render_edit hstart hstop fun i hi => (hinserts i hi).1, hkept, ← hstart,
      written_edit hstop hedits hinserts, ih]

end Splice

end

section

variable {α : Type} (key : α → Nat)

/-- `xs` are the members of `queued` in the order of their keys, in which those of one key stay in
the order in which they were queued. -/
structure StableOrder (queued xs : List α) : Prop where
  perm : xs.Perm queued
  sorted : xs.Pairwise fun a b => key a ≤ key b
  stable : ∀ n, (xs.filter fun a => key a == n) = queued.filter fun a => key a == n

theorem filter_mergeSort (l : List α) (n : Nat) :
    (l.mergeSort fun a b => key a ≤ key b).filter (fun a => key a == n) =
      l.filter fun a => key a == n := by
  have hpairwise : (l.filter fun a => key a == n).Pairwise fun a b => decide (key a ≤ key b) := by
    apply List.pairwise_of_forall_mem_list
    intro a ha b hb
    have ha := (List.mem_filter.1 ha).2
    have hb := (List.mem_filter.1 hb).2
    simp only [beq_iff_eq] at ha hb
    simp [ha, hb]
  have hsub := List.sublist_mergeSort (by simp; omega) (by simp; omega) hpairwise
    List.filter_sublist
  have hfilter := hsub.filter fun a => key a == n
  simp only [List.filter_filter, Bool.and_self] at hfilter
  exact (hfilter.eq_of_length ((List.mergeSort_perm l _).filter _).length_eq.symm).symm

theorem stableOrder_mergeSort (l : List α) :
    StableOrder key l (l.mergeSort fun a b => key a ≤ key b) where
  perm := List.mergeSort_perm _ _
  sorted := by
    have hsorted : (l.mergeSort fun a b => key a ≤ key b).Pairwise fun a b =>
        decide (key a ≤ key b) :=
      List.pairwise_mergeSort (by simp; omega) (by simp; omega) l
    exact hsorted.imp of_decide_eq_true
  stable := filter_mergeSort key l

variable {key}

theorem eq_of_filter_eq {l k : List α} (hl : l.Pairwise fun a b => key a ≤ key b)
    (hk : k.Pairwise fun a b => key a ≤ key b)
    (h : ∀ n, (l.filter fun a => key a == n) = k.filter fun a => key a == n) : l = k := by
  have hleast {a : α} {xs : List α} (hxs : (a :: xs).Pairwise fun a b => key a ≤ key b) :
      ∀ x ∈ a :: xs, key a ≤ key x := by
    intro x hx
    rcases List.mem_cons.1 hx with rfl | hx
    · exact Nat.le_refl _
    · exact (List.pairwise_cons.1 hxs).1 x hx
  induction l generalizing k with
  | nil =>
    cases k with
    | nil => rfl
    | cons b k => simpa using h (key b)
  | cons a l ih =>
    cases k with
    | nil => simpa using h (key a)
    | cons b k =>
      have hmem (x : α) : x ∈ a :: l ↔ x ∈ b :: k := by
        have hx := congrArg (x ∈ ·) (h (key x))
        simpa only [List.mem_filter, beq_self_eq_true, and_true, eq_iff_iff] using hx
      -- each list begins with one of the least keys of both
      have hkey : key a = key b := by
        apply Nat.le_antisymm
        · exact hleast hl b ((hmem b).2 List.mem_cons_self)
        · exact hleast hk a ((hmem a).1 List.mem_cons_self)
      have hhead := h (key b)
      simp only [List.filter_cons, hkey, beq_self_eq_true, if_true, List.cons.injEq] at hhead
      obtain ⟨rfl, hrest⟩ := hhead
      rw [ih (List.pairwise_cons.1 hl).2 (List.pairwise_cons.1 hk).2]
      intro n
      by_cases hn : key a = n
      · subst hn
        exact hrest
      · simpa [List.filter_cons, hn] using h n

theorem StableOrder.unique {queued xs ys : List α} (h : StableOrder key queued xs)
    (h' : StableOrder key queued ys) : xs = ys := by
  apply eq_of_filter_eq h.sorted h'.sorted
  intro n
  rw [h.stable, h'.stable]

end

theorem pairwise_of_isChain {edits : List Edit}
    (h : edits.IsChain fun a b => a.span.stop ≤ b.span.start)
    (hspans : ∀ e ∈ edits, e.span.start ≤ e.span.stop) :
    edits.Pairwise fun a b => a.span.stop ≤ b.span.start := by
  induction edits with
  | nil => exact .nil
  | cons a edits ih =>
    cases edits with
    | nil => exact List.pairwise_singleton _ _
    | cons b edits =>
      obtain ⟨hab, hchain⟩ := List.isChain_cons_cons.1 h
      have hrest := ih hchain fun e he => hspans e (List.mem_cons_of_mem _ he)
      refine .cons (fun e he => ?_) hrest
      rcases List.mem_cons.1 he with rfl | he
      · exact hab
      · have := (List.pairwise_cons.1 hrest).1 e he
        have := hspans b (by simp)
        omega

theorem isBoundary_iff_cuts (cs : List Char) (n : Nat) :
    isBoundary n cs = true ↔ Cuts 0 cs n := by
  refine ⟨fun h => ?_, Splice.isBoundary_of_cuts⟩
  obtain ⟨⟨a, b⟩, hcut⟩ := Option.isSome_iff_exists.1 h
  obtain ⟨rfl, rfl⟩ := cutAt_append hcut
  exact ⟨a, b, rfl, (Nat.zero_add _).symm⟩

namespace Splice

structure InBounds (s : Splice) : Prop where
  spans : ∀ e ∈ s.edits, Cuts 0 s.source e.span.start ∧ Cuts 0 s.source e.span.stop ∧
    e.span.start ≤ e.span.stop
  offsets : ∀ i ∈ s.inserts, Cuts 0 s.source i.offset

/-- In the order of their starts no edit ends behind the start of the next one, and no insert lies
strictly inside an edit. -/
structure Apart (s : Splice) : Prop where
  neighbours : ∃ edits, StableOrder (fun e : Edit => e.span.start) s.edits edits ∧
    edits.IsChain fun a b => a.span.stop ≤ b.span.start
  outside : ∀ e ∈ s.edits, ∀ i ∈ s.inserts, i.offset ≤ e.span.start ∨ e.span.stop ≤ i.offset

variable {s : Splice}

theorem badOffset?_eq_none : s.badOffset? = none ↔ s.InBounds := by
  simp only [badOffset?_eq_none_iff, isBoundary_iff_cuts]
  exact ⟨fun h => ⟨h.1, h.2⟩, fun h => ⟨h.spans, h.offsets⟩⟩

theorem stableOrder_sortedEdits (s : Splice) :
    StableOrder (fun e : Edit => e.span.start) s.edits s.sortedEdits :=
  stableOrder_mergeSort (fun e : Edit => e.span.start) s.edits

theorem stableOrder_sortedInserts (s : Splice) :
    StableOrder Insert.offset s.inserts s.sortedInserts :=
  stableOrder_mergeSort Insert.offset s.inserts

theorem Apart.isChain_sortedEdits (h : s.Apart) :
    s.sortedEdits.IsChain fun a b => a.span.stop ≤ b.span.start := by
  obtain ⟨edits, horder, hchain⟩ := h.neighbours
  rwa [horder.unique s.stableOrder_sortedEdits] at hchain

theorem overlaps_eq_none :
    (overlap? s.sortedEdits).or (insideEdit? s.sortedEdits s.inserts) = none ↔ s.Apart := by
  rw [Option.or_eq_none_iff, overlap?_eq_none_iff, insideEdit?_eq_none_iff]
  simp only [s.stableOrder_sortedEdits.perm.mem_iff]
  constructor
  · rintro ⟨hchain, houtside⟩
    exact ⟨⟨s.sortedEdits, s.stableOrder_sortedEdits, hchain⟩, houtside⟩
  · intro h
    exact ⟨h.isChain_sortedEdits, h.outside⟩

theorem fits (hbounds : s.InBounds) (hapart : s.Apart) :
    Fits 0 s.source s.sortedEdits s.sortedInserts := by
  have hedits (e : Edit) : e ∈ s.sortedEdits ↔ e ∈ s.edits :=
    s.stableOrder_sortedEdits.perm.mem_iff
  have hinserts (i : Insert) : i ∈ s.sortedInserts ↔ i ∈ s.inserts :=
    s.stableOrder_sortedInserts.perm.mem_iff
  refine ⟨fun e he => hbounds.spans e ((hedits e).1 he),
    fun i hi => hbounds.offsets i ((hinserts i).1 hi), ?_, s.stableOrder_sortedInserts.sorted,
    fun e he i hi => hapart.outside e ((hedits e).1 he) i ((hinserts i).1 hi)⟩
  exact pairwise_of_isChain hapart.isChain_sortedEdits
    fun e he => (hbounds.spans e ((hedits e).1 he)).2.2

theorem written_sorted (s : Splice) (n : Nat) (cs : List Char) :
    written s.sortedEdits s.sortedInserts n cs = written s.edits s.inserts n cs := by
  apply written_congr
  intro m _
  constructor
  · rw [writtenAt, writtenAt, s.stableOrder_sortedEdits.stable, s.stableOrder_sortedInserts.stable]
  · simp only [Overwritten, s.stableOrder_sortedEdits.perm.mem_iff]

def output (s : Splice) : List Char :=
  match s.appended with
  | some text => trimEnd (written s.edits s.inserts 0 s.source) ++ text.toList
  | none => written s.edits s.inserts 0 s.source

theorem finish_of_apart (hbounds : s.InBounds) (hapart : s.Apart) :
    s.finish = .ok (.ofList s.output) := by
  have hrender : render 0 s.source s.sortedEdits s.sortedInserts =
      written s.edits s.inserts 0 s.source :=
    (render_of_ordered (fits hbounds hapart).ordered).trans (s.written_sorted 0 s.source)
  rw [finish, badOffset?_eq_none.2 hbounds]
  dsimp only
  rw [overlaps_eq_none.2 hapart, hrender, output]
  cases s.appended <;> rfl

theorem finish_of_not_inBounds (h : ¬ s.InBounds) :
    ∃ n, s.finish = .error (.outOfBounds n (byteLength s.source)) := by
  cases hbad : s.badOffset? with
  | none => exact absurd (badOffset?_eq_none.1 hbad) h
  | some n => exact ⟨n, by rw [finish, hbad]⟩

theorem finish_of_not_apart (hbounds : s.InBounds) (h : ¬ s.Apart) :
    ∃ first second, s.finish = .error (.overlap first second) := by
  cases hover : (overlap? s.sortedEdits).or (insideEdit? s.sortedEdits s.inserts) with
  | none => exact absurd (overlaps_eq_none.1 hover) h
  | some spans =>
    refine ⟨spans.1, spans.2, ?_⟩
    rw [finish, badOffset?_eq_none.2 hbounds]
    dsimp only
    rw [hover]

end Splice

end ClassWeave

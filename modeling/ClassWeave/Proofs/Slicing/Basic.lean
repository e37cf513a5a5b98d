import ClassWeave.Proofs.Text.Stands

/-!
Reading by offsets into a text. Every cut is refused that lies outside of the text or inside a
character, and so is every subtraction below zero, every index past the end of a list, and every
loop that does not move on within its text. A reader by offsets keeps up with a reader by cursors if
it comes to the same results and fails where the other one fails.
-/

namespace ClassWeave

namespace Slicing

open Text

/-- A `lookahead` is the cut behind the first byte of a character in a binding. -/
inductive Fault
  | lookahead
  | cut
  | subtraction
  | index
  | standstill
deriving DecidableEq, Repr

inductive Halt
  | failure (failure : Failure)
  | fault (fault : Fault)
deriving DecidableEq, Repr

def Halt.ofFailure : Failure → Halt
  | .wideBinding _ => .fault .lookahead
  | f => .failure f

def cutFor (fault : Fault) (cs : List Char) (n : Nat) : Except Halt (List Char × List Char) :=
  match cutAt n cs with
  | some p => .ok p
  | none => .error (.fault fault)

def cutTo (cs : List Char) (n : Nat) : Except Halt (List Char) :=
  (cutFor .cut cs n).map Prod.fst

def cutFrom (cs : List Char) (n : Nat) : Except Halt (List Char) :=
  (cutFor .cut cs n).map Prod.snd

def cutOut (cs : List Char) (start stop : Nat) : Except Halt (List Char) := do
  let rest ← cutFrom cs start
  if start ≤ stop then cutTo rest (stop - start) else throw (.fault .cut)

def minus (m n : Nat) : Except Halt Nat :=
  if n ≤ m then .ok (m - n) else .error (.fault .subtraction)

def onward (cs : List Char) (pos next : Nat) :
    Except Halt { n // pos < n ∧ n ≤ byteLength cs } :=
  if h : pos < next ∧ next ≤ byteLength cs then .ok ⟨next, h⟩ else .error (.fault .standstill)

def inward (cs part : List Char) : Except Halt { w : List Char // w.length < cs.length } :=
  if h : part.length < cs.length then .ok ⟨part, h⟩ else .error (.fault .standstill)

theorem ok_bind {ε α β : Type} (a : α) (f : α → Except ε β) : (Except.ok a >>= f) = f a := rfl

theorem cutAt_append_right (a b : List Char) : cutAt (byteLength a) (a ++ b) = some (a, b) := by
  have h := isBoundary_append a b
  rw [isBoundary, Option.isSome_iff_exists] at h
  obtain ⟨⟨c, d⟩, h⟩ := h
  obtain ⟨heq, hlen⟩ := cutAt_append h
  obtain rfl := eq_of_byteLength_eq heq hlen.symm
  rw [h, List.append_cancel_left heq]

theorem le_byteLength_of_isBoundary {n : Nat} {cs : List Char} (h : isBoundary n cs = true) :
    n ≤ byteLength cs := by
  obtain ⟨⟨a, b⟩, hcut⟩ := Option.isSome_iff_exists.1 h
  obtain ⟨rfl, rfl⟩ := cutAt_append hcut
  rw [byteLength_append]
  exact Nat.le_add_right _ _

theorem cutFor_append (fault : Fault) (a b : List Char) :
    cutFor fault (a ++ b) (byteLength a) = .ok (a, b) := by
  rw [cutFor, cutAt_append_right]

theorem cutTo_append (a b : List Char) : cutTo (a ++ b) (byteLength a) = .ok a := by
  rw [cutTo, cutFor_append]
  rfl

theorem cutFrom_append (a b : List Char) : cutFrom (a ++ b) (byteLength a) = .ok b := by
  rw [cutFrom, cutFor_append]
  rfl

theorem cutOut_append (a b c : List Char) :
    cutOut (a ++ (b ++ c)) (byteLength a) (byteLength a + byteLength b) = .ok b := by
  rw [cutOut, cutFrom_append]
  change (if _ then _ else _) = _
  rw [if_pos (Nat.le_add_right _ _), Nat.add_sub_cancel_left, cutTo_append]

theorem minus_of_le {m n : Nat} (h : n ≤ m) : minus m n = .ok (m - n) := if_pos h

theorem minus_add (m n : Nat) : minus (m + n) n = .ok m := by
  rw [minus_of_le (Nat.le_add_left _ _), Nat.add_sub_cancel]

theorem minus_trimStart (cs : List Char) :
    minus (byteLength cs) (byteLength (trimStart cs)) = .ok (byteLength (leading cs)) := by
  have h := congrArg byteLength (leading_append_trimStart cs)
  rw [byteLength_append] at h
  rw [← h, minus_add]

theorem cutFrom_leading (cs : List Char) :
    cutFrom cs (byteLength (leading cs)) = .ok (trimStart cs) := by
  have hcut := cutFrom_append (leading cs) (trimStart cs)
  rwa [leading_append_trimStart] at hcut

theorem inward_of_lt {cs part : List Char} (h : part.length < cs.length) :
    inward cs part = .ok ⟨part, h⟩ := dif_pos h

variable {cs w : List Char} {c d : Cursor}

theorem exists_append (h : Cursor.ofText cs ≤ c) :
    ∃ before, cs = before ++ c.rest ∧ c.offset = byteLength before := by
  obtain ⟨before, hr⟩ := h
  refine ⟨before, hr.rest_eq, ?_⟩
  rw [hr.offset_eq]
  exact Nat.zero_add _

theorem isBoundary_offset (h : Cursor.ofText cs ≤ c) : isBoundary c.offset cs = true := by
  obtain ⟨before, rfl, ho⟩ := exists_append h
  rw [ho]
  exact isBoundary_append before c.rest

theorem offset_add_byteLength (h : Cursor.ofText cs ≤ c) :
    c.offset + byteLength c.rest = byteLength cs := by
  obtain ⟨before, heq, ho⟩ := exists_append h
  rw [heq, ho, byteLength_append]

theorem cutFrom_offset (h : Cursor.ofText cs ≤ c) : cutFrom cs c.offset = .ok c.rest := by
  obtain ⟨before, heq, ho⟩ := exists_append h
  rw [heq, ho, cutFrom_append]

theorem cutOut_reads (h : Cursor.ofText cs ≤ c) (hr : c.Reads w d) :
    cutOut cs c.offset d.offset = .ok w := by
  obtain ⟨before, heq, ho⟩ := exists_append h
  rw [heq, hr.rest_eq, hr.offset_eq, ho, cutOut_append]

theorem reads_advance_of_append {r : List Char} (h : c.rest = w ++ r) :
    c.Reads w (c.advance w.length) := by
  have hr := c.reads_advance w.length
  rwa [h, List.take_left] at hr

theorem offset_advance {r : List Char} (h : c.rest = w ++ r) :
    (c.advance w.length).offset = c.offset + byteLength w := (reads_advance_of_append h).offset_eq

theorem offset_advance_one {x : Char} {r : List Char} (hx : x.utf8Size = 1) (h : c.rest = x :: r) :
    (c.advance 1).offset = c.offset + 1 := by
  have hoffset := offset_advance (w := [x]) h
  rwa [byteLength_cons, byteLength_nil, hx] at hoffset

theorem offset_lt (h : c < d) : c.offset < d.offset := by
  obtain ⟨x, w, hr⟩ := h
  rw [hr.offset_eq]
  have := byteLength_pos (List.cons_ne_nil x w)
  omega

theorem onward_of_lt (h : Cursor.ofText cs ≤ c) (hlt : c < d) :
    ∃ hd, onward cs c.offset d.offset = .ok ⟨d.offset, hd⟩ := by
  have hle := offset_add_byteLength (Cursor.le_trans h (Cursor.le_of_lt hlt))
  have hd : c.offset < d.offset ∧ d.offset ≤ byteLength cs := ⟨offset_lt hlt, by omega⟩
  exact ⟨hd, dif_pos hd⟩

/-- The left reader keeps up with the right one, which fails only as `P` allows: their results are
related by `R`, or the left one halts with the failure of the right one. -/
inductive Follows {α β : Type} (P : Failure → Prop) (R : α → β → Prop) :
    Except Halt α → Except Failure β → Prop
  | read {a : α} {b : β} (h : R a b) : Follows P R (.ok a) (.ok b)
  | failed {f : Failure} (h : P f) : Follows P R (.error (.ofFailure f)) (.error f)

namespace Follows

variable {α β γ δ : Type} {P Q : Failure → Prop} {R : α → β → Prop} {S : γ → δ → Prop}
  {x : Except Halt α} {y : Except Failure β}

theorem bind {f : α → Except Halt γ} {g : β → Except Failure δ} (h : Follows P R x y)
    (hfg : ∀ a b, R a b → y = .ok b → Follows P S (f a) (g b)) :
    Follows P S (x >>= f) (y >>= g) := by
  cases h with
  | read h => exact hfg _ _ h rfl
  | failed h => exact .failed h

theorem map {f : α → γ} {g : β → δ} (h : Follows P R x y)
    (hfg : ∀ a b, R a b → y = .ok b → S (f a) (g b)) : Follows P S (x.map f) (y.map g) := by
  cases h with
  | read h => exact .read (hfg _ _ h rfl)
  | failed h => exact .failed h

theorem mono (h : Follows P R x y) (hP : ∀ f, P f → Q f) : Follows Q R x y := by
  cases h with
  | read h => exact .read h
  | failed h => exact .failed (hP _ h)

end Follows

def Reached {α : Type} (cs : List Char) (p : α × Nat) (q : α × Cursor) : Prop :=
  p = (q.1, q.2.offset) ∧ Cursor.ofText cs ≤ q.2

end Slicing

end ClassWeave

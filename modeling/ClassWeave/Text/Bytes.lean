/-!
Offsets into a text are counted in the bytes of its UTF-8 form. Such an offset is usable only where
a character ends, which is where `cutAt` succeeds.
-/

namespace ClassWeave.Text

def byteLength : List Char → Nat
  | [] => 0
  | c :: cs => c.utf8Size + byteLength cs

@[simp]
theorem byteLength_nil : byteLength [] = 0 := rfl

@[simp]
theorem byteLength_cons (c : Char) (cs : List Char) :
    byteLength (c :: cs) = c.utf8Size + byteLength cs := rfl

@[simp]
theorem byteLength_append (a b : List Char) :
    byteLength (a ++ b) = byteLength a + byteLength b := by
  induction a with
  | nil => simp
  | cons c a ih => simp [ih, Nat.add_assoc]

@[simp]
theorem byteLength_reverse (cs : List Char) : byteLength cs.reverse = byteLength cs := by
  induction cs with
  | nil => rfl
  | cons c cs ih => simp [ih, Nat.add_comm]

def utf8 (cs : List Char) : List UInt8 := cs.flatMap String.utf8EncodeChar

@[simp]
theorem length_utf8 (cs : List Char) : (utf8 cs).length = byteLength cs := by
  induction cs with
  | nil => rfl
  | cons c cs ih => simp [utf8, byteLength] at ih ⊢; omega

def cutAt : Nat → List Char → Option (List Char × List Char)
  | 0, cs => some ([], cs)
  | _ + 1, [] => none
  | n + 1, c :: cs =>
    if c.utf8Size ≤ n + 1 then (cutAt (n + 1 - c.utf8Size) cs).map fun p => (c :: p.1, p.2)
    else none

def isBoundary (n : Nat) (cs : List Char) : Bool := (cutAt n cs).isSome

def takeBytes : Nat → List Char → List Char
  | _, [] => []
  | n, c :: cs => if c.utf8Size ≤ n then c :: takeBytes (n - c.utf8Size) cs else []

def dropBytes : Nat → List Char → List Char
  | _, [] => []
  | n, c :: cs => if c.utf8Size ≤ n then dropBytes (n - c.utf8Size) cs else c :: cs

theorem cutAt_append {n : Nat} {cs a b : List Char} (h : cutAt n cs = some (a, b)) :
    cs = a ++ b ∧ byteLength a = n := by
  induction cs generalizing n a with
  | nil =>
    cases n with
    | zero => simp [cutAt] at h; simp [h]
    | succ n => simp [cutAt] at h
  | cons c cs ih =>
    cases n with
    | zero => simp [cutAt] at h; simp [h]
    | succ n =>
      rw [cutAt] at h
      split at h
      · obtain ⟨⟨a', b'⟩, hp, hq⟩ := Option.map_eq_some_iff.1 h
        obtain ⟨rfl, rfl⟩ := Prod.mk.inj hq
        obtain ⟨rfl, hl⟩ := ih hp
        simp; omega
      · simp at h

end ClassWeave.Text

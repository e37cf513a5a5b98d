import ClassWeave.Text.Bytes

/-!
Patterns for paths, and the texts that they match. A pattern takes bytes from the front of a text;
`Glob.rests` lists what it can leave of it, and it matches a text of which it can leave nothing.
-/

namespace ClassWeave

inductive Glob
  | empty
  | literal (c : Char)
  | single
  | run
  | leadingPath
  | innerPath
  | trailingPath
  | oneOf (negated : Bool) (ranges : List (Char × Char))
  | append (a b : Glob)
  | either (a b : Glob)
deriving DecidableEq, Repr, Inhabited

namespace Glob

def slash : UInt8 := 47

def restsWhile (p : UInt8 → Bool) : List UInt8 → List (List UInt8)
  | [] => [[]]
  | b :: bs => (b :: bs) :: if p b then restsWhile p bs else []

def restsAfterSlash : List UInt8 → List (List UInt8)
  | [] => []
  | b :: bs => if b = slash then bs :: restsAfterSlash bs else restsAfterSlash bs

/-- A range takes the bytes from the last one of its first character to the first one of its last
character, and all other bytes of the two. -/
def rangeTakes (r : Char × Char) (b : UInt8) : Bool :=
  let low := String.utf8EncodeChar r.1
  let high := String.utf8EncodeChar r.2
  if r.1 = r.2 then low.contains b
  else low.dropLast.contains b || high.tail.contains b ||
    low.getLastD 0 ≤ b && b ≤ high.headD 0

def rests (crossing : Bool) : Glob → List UInt8 → List (List UInt8)
  | empty, s => [s]
  | literal c, s =>
    let w := String.utf8EncodeChar c
    if w <+: s then [s.drop w.length] else []
  | single, [] => []
  | single, b :: bs => if crossing || b != slash then [bs] else []
  | run, s => restsWhile (fun b => crossing || b != slash) s
  | leadingPath, s => s :: restsAfterSlash s
  | innerPath, b :: bs => if b = slash then bs :: restsAfterSlash bs else []
  | innerPath, [] => []
  | trailingPath, b :: bs => if b = slash then restsWhile (fun _ => true) bs else []
  | trailingPath, [] => []
  | oneOf _ _, [] => []
  | oneOf negated ranges, b :: bs => if (ranges.any (rangeTakes · b)) != negated then [bs] else []
  | append a b, s => ((a.rests crossing s).flatMap (b.rests crossing)).eraseDups
  | either a b, s => a.rests crossing s ++ b.rests crossing s

/-- A pattern that is nothing but `**` or `**/` matches every text. -/
def accepts (crossing : Bool) (g : Glob) (s : List UInt8) : Bool :=
  g == append empty leadingPath || (g.rests crossing s).contains []

def isVoid : Glob → Bool
  | empty => true
  | append a b => a.isVoid && b.isVoid
  | _ => false

def choice (branches : List Glob) : Glob :=
  match branches.filter fun g => !g.isVoid with
  | [] => empty
  | g :: gs => gs.foldl either g

theorem suffix_of_mem_restsWhile {p : UInt8 → Bool} {s r : List UInt8}
    (h : r ∈ restsWhile p s) : r <:+ s := by
  induction s with
  | nil => simp [restsWhile] at h; simp [h]
  | cons b bs ih =>
    rw [restsWhile, List.mem_cons] at h
    rcases h with rfl | h
    · exact List.suffix_refl _
    · split at h
      · exact (ih h).trans (List.suffix_cons b bs)
      · simp at h

theorem suffix_of_mem_restsAfterSlash {s r : List UInt8} (h : r ∈ restsAfterSlash s) : r <:+ s := by
  induction s with
  | nil => simp [restsAfterSlash] at h
  | cons b bs ih =>
    rw [restsAfterSlash] at h
    split at h
    · rcases List.mem_cons.1 h with rfl | h
      · exact List.suffix_cons b _
      · exact (ih h).trans (List.suffix_cons b bs)
    · exact (ih h).trans (List.suffix_cons b bs)

theorem suffix_of_mem_rests {crossing : Bool} {g : Glob} {s r : List UInt8}
    (h : r ∈ g.rests crossing s) : r <:+ s := by
  induction g generalizing s r with
  | empty => simp [rests] at h; simp [h]
  | literal c =>
    simp only [rests] at h
    split at h
    · rw [List.mem_singleton.1 h]; exact List.drop_suffix _ _
    · simp at h
  | single =>
    cases s <;> simp only [rests] at h
    · simp at h
    · split at h
      · rw [List.mem_singleton.1 h]; exact List.suffix_cons _ _
      · simp at h
  | run => exact suffix_of_mem_restsWhile (by simpa [rests] using h)
  | leadingPath =>
    rcases List.mem_cons.1 h with rfl | h
    · exact List.suffix_refl _
    · exact suffix_of_mem_restsAfterSlash h
  | innerPath =>
    cases s <;> simp only [rests] at h
    · simp at h
    · split at h
      · rcases List.mem_cons.1 h with rfl | h
        · exact List.suffix_cons _ _
        · exact (suffix_of_mem_restsAfterSlash h).trans (List.suffix_cons _ _)
      · simp at h
  | trailingPath =>
    cases s <;> simp only [rests] at h
    · simp at h
    · split at h
      · exact (suffix_of_mem_restsWhile h).trans (List.suffix_cons _ _)
      · simp at h
  | oneOf negated ranges =>
    cases s <;> simp only [rests] at h
    · simp at h
    · split at h
      · rw [List.mem_singleton.1 h]; exact List.suffix_cons _ _
      · simp at h
  | append a b iha ihb =>
    simp only [rests, List.mem_eraseDups, List.mem_flatMap] at h
    obtain ⟨t, ht, hr⟩ := h
    exact (ihb hr).trans (iha ht)
  | either a b iha ihb =>
    rcases List.mem_append.1 h with h | h
    · exact iha h
    · exact ihb h

end Glob

end ClassWeave

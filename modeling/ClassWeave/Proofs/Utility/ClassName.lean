import ClassWeave.Proofs.Text.Blank
import ClassWeave.Toml.Text
import ClassWeave.Toml.Word
import ClassWeave.Utility.ClassName

namespace ClassWeave.Utility

open Text (toNat_of_isDigit)
open Toml (codePoint? isHexDigit valueOf)

def codeDigits (cs : List Char) : List Char := (cs.take 6).takeWhile isHexDigit

def withoutSpace : List Char → List Char
  | ' ' :: cs => cs
  | cs => cs

theorem length_withoutSpace_le (cs : List Char) : (withoutSpace cs).length ≤ cs.length := by
  rw [withoutSpace.eq_def]
  split
  · exact Nat.le_succ _
  · exact Nat.le_refl _

/-- Undoes the escapes of a text. A backslash before hexadecimal digits and the space that may follow
them stands for their code point, a backslash before any other character for that character. -/
def unescape : List Char → List Char
  | '\x5c' :: c :: cs =>
    if isHexDigit c then
      let digits := codeDigits (c :: cs)
      (codePoint? (valueOf 16 digits)).getD '\ufffd' ::
        unescape (withoutSpace ((c :: cs).drop digits.length))
    else c :: unescape cs
  | c :: cs => c :: unescape cs
  | [] => []
termination_by cs => cs.length
decreasing_by
  · have := length_withoutSpace_le ((c :: cs).drop (codeDigits (c :: cs)).length)
    simp only [List.length_drop, List.length_cons] at this ⊢
    omega
  · simp only [List.length_cons]
    omega
  · simp only [List.length_cons]
    omega

theorem unescape_of_ne {c : Char} (h : c ≠ '\x5c') (cs : List Char) :
    unescape (c :: cs) = c :: unescape cs := by
  rw [unescape]
  rintro _ _ rfl
  exact absurd rfl h

theorem unescape_escape {c : Char} (h : isHexDigit c = false) (cs : List Char) :
    unescape ('\x5c' :: c :: cs) = c :: unescape cs := by
  rw [unescape, h]
  exact if_neg Bool.false_ne_true

theorem codeDigits_digit {c : Char} (h : c.isDigit = true) (cs : List Char) :
    codeDigits ('3' :: c :: ' ' :: cs) = ['3', c] := by
  have hc : isHexDigit c = true := by rw [isHexDigit, h, Bool.true_or]
  have hthree : isHexDigit '3' = true := rfl
  have hspace : isHexDigit ' ' = false := rfl
  simp [codeDigits, hc, hthree, hspace]

theorem codePoint?_digit {c : Char} (h : c.isDigit = true) :
    codePoint? (valueOf 16 ['3', c]) = some c := by
  have hvalue : valueOf 16 ['3', c] = c.toNat := by
    have := (toNat_of_isDigit h).1
    simp only [valueOf, List.foldl_cons, List.foldl_nil, h, if_true]
    change 16 * 3 + (c.toNat - 48) = c.toNat
    omega
  have hvalid : c.toNat.isValidChar := c.valid
  rw [hvalue, codePoint?, if_pos hvalid, Char.ofNat_toNat]

/-- A space ends the code point, so that it is not read into the digits of the name. -/
theorem unescape_digit {c : Char} (h : c.isDigit = true) (cs : List Char) :
    unescape ('\x5c' :: '3' :: c :: ' ' :: cs) = c :: unescape cs := by
  have hthree : isHexDigit '3' = true := rfl
  rw [unescape, if_pos hthree, codeDigits_digit h cs]
  simp [codePoint?_digit h, withoutSpace]

theorem unescape_escapeChar_append (c : Char) (cs : List Char) :
    unescape (escapeChar c ++ cs) = c :: unescape cs := by
  rw [escapeChar]
  split
  · next h =>
    have hall : ∀ x ∈ escapedChars, (!isHexDigit x) = true := List.all_eq_true.1 rfl
    have hplain : isHexDigit c = false := by
      simpa using hall c (List.contains_iff_mem.1 h)
    exact unescape_escape hplain cs
  · next h =>
    apply unescape_of_ne
    rintro rfl
    exact h (by decide)

theorem unescape_flatMap_append (cs rest : List Char) :
    unescape (cs.flatMap escapeChar ++ rest) = cs ++ unescape rest := by
  induction cs with
  | nil => rfl
  | cons c cs ih =>
    rw [List.flatMap_cons, List.append_assoc, unescape_escapeChar_append, ih, List.cons_append]

theorem unescape_escapeClass_append (name rest : List Char) :
    unescape (escapeClass name ++ rest) = name ++ unescape rest := by
  cases name with
  | nil => rfl
  | cons c cs =>
    rw [escapeClass]
    split
    · next h =>
      have := unescape_digit h (cs.flatMap escapeChar ++ rest)
      rw [unescape_flatMap_append] at this
      exact this
    · rw [List.append_assoc, unescape_escapeChar_append, unescape_flatMap_append, List.cons_append]

theorem unescape_escapeClass (name : List Char) : unescape (escapeClass name) = name := by
  have h := unescape_escapeClass_append name []
  have hnil : unescape [] = [] := by rw [unescape]
  rwa [hnil, List.append_nil, List.append_nil] at h

theorem classSelector_inj {a b : String} (h : classSelector a = classSelector b) : a = b := by
  have hname := List.cons.inj (String.ofList_injective h)
  apply String.toList_injective
  calc a.toList = unescape (escapeClass a.toList) := (unescape_escapeClass _).symm
    _ = unescape (escapeClass b.toList) := congrArg unescape hname.2
    _ = b.toList := unescape_escapeClass _

/-- An escaped name is read back, whatever stands behind it, so that no other name has its selector. -/
theorem unescape_escaped (name : String) :
    unescape (escapeClass name.toList) = name.toList ∧
      (∀ rest, unescape (escapeClass name.toList ++ rest) = name.toList ++ unescape rest) ∧
        ∀ other, classSelector other = classSelector name ↔ other = name := by
  refine ⟨unescape_escapeClass name.toList, unescape_escapeClass_append name.toList, ?_⟩
  intro other
  constructor
  · exact classSelector_inj
  · exact congrArg classSelector

end ClassWeave.Utility

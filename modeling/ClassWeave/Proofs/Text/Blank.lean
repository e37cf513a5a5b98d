import Mathlib.Data.List.DropRight
import ClassWeave.Text.Blank

namespace ClassWeave.Text

theorem not_isBlank_of_ascii {c : Char} (hl : 0x20 < c.toNat) (hu : c.toNat < 0x80) :
    isBlank c = false := by
  simp only [isBlank, blankRanges, List.any_cons, List.any_nil, Bool.or_false, Bool.or_eq_false_iff,
    Bool.and_eq_false_iff, decide_eq_false_iff_not]
  omega

theorem toNat_of_isAlpha {c : Char} (h : c.isAlpha = true) : 0x40 < c.toNat ∧ c.toNat < 0x7B := by
  change (decide ('A'.val ≤ c.val ∧ c.val ≤ 'Z'.val) ||
    (decide ('a'.val ≤ c.val) && decide (c.val ≤ 'z'.val))) = true at h
  simp only [Bool.or_eq_true, Bool.and_eq_true, decide_eq_true_eq, UInt32.le_iff_toNat_le] at h
  change (65 ≤ c.toNat ∧ c.toNat ≤ 90) ∨ (97 ≤ c.toNat ∧ c.toNat ≤ 122) at h
  omega

theorem toNat_of_isDigit {c : Char} (h : c.isDigit = true) : 0x2F < c.toNat ∧ c.toNat < 0x3A := by
  have := Char.isDigit_iff_toNat.1 h
  change 48 ≤ c.toNat ∧ c.toNat ≤ 57 at this
  omega

theorem trimEnd_append {a b : List Char} (h : trimEnd b ≠ []) :
    trimEnd (a ++ b) = a ++ trimEnd b := by
  rw [trimEnd, List.reverse_ne_nil_iff] at h
  rw [trimEnd, List.reverse_append, List.dropWhile_append, if_neg (by simpa using h)]
  simp [trimEnd]

theorem trimEnd_append_of_eq_nil {a b : List Char} (h : trimEnd b = []) :
    trimEnd (a ++ b) = trimEnd a := by
  rw [trimEnd, List.reverse_eq_nil_iff] at h
  rw [trimEnd, List.reverse_append, List.dropWhile_append, if_pos (by simpa using h)]
  rfl

theorem trimEnd_concat {x : Char} (w : List Char) (hx : isBlank x = false) :
    trimEnd (w ++ [x]) = w ++ [x] := by
  simp [trimEnd, hx]

theorem isPrefix_trimEnd (w : List Char) : trimEnd w <+: w := ⟨trailing w, trimEnd_append_trailing w⟩

theorem trim_subset (w : List Char) : trim w ⊆ w := by
  intro x hx
  have hstart : trimStart w <:+ w := List.dropWhile_suffix isBlank
  exact hstart.subset ((isPrefix_trimEnd _).subset hx)

theorem head?_trimEnd {x : Char} (w : List Char) (hx : isBlank x = false) :
    (trimEnd (x :: w)).head? = some x := by
  by_cases hw : trimEnd w = []
  · have : trimEnd [x] = [x] := trimEnd_concat [] hx
    rw [← List.singleton_append, trimEnd_append_of_eq_nil hw, this]
    rfl
  · rw [← List.singleton_append, trimEnd_append hw]
    rfl

theorem trimEnd_trimEnd (w : List Char) : trimEnd (trimEnd w) = trimEnd w := by
  rw [trimEnd, trimEnd, List.reverse_reverse, List.dropWhile_idempotent]

theorem trimStart_trim (w : List Char) : trimStart (trim w) = trim w := by
  rw [trim]
  cases hw : trimStart w with
  | nil => rfl
  | cons x u =>
    have hx : isBlank x = false := by
      have := List.head?_dropWhile_not isBlank w
      rw [show w.dropWhile isBlank = x :: u from hw] at this
      exact this
    obtain ⟨v, hv⟩ := List.head?_eq_some_iff.1 (head?_trimEnd u hx)
    rw [hv, trimStart, List.dropWhile_cons_of_neg (by simp [hx])]

theorem trim_trim (w : List Char) : trim (trim w) = trim w := by
  have hstart := trimStart_trim w
  rw [trim, hstart, trim, trimEnd_trimEnd]

theorem mem_intercalate {sep : List Char} {ls : List (List Char)} {x : Char}
    (h : x ∈ sep.intercalate ls) : x ∈ sep ∨ ∃ l ∈ ls, x ∈ l := by
  induction ls with
  | nil => cases h
  | cons l ls ih =>
    by_cases hne : ls = []
    · subst hne
      rw [List.intercalate_singleton] at h
      exact .inr ⟨l, by simp, h⟩
    · rw [List.intercalate_cons_of_ne_nil hne, List.mem_append, List.mem_append] at h
      rcases h with (h | h) | h
      · exact .inr ⟨l, by simp, h⟩
      · exact .inl h
      · apply (ih h).imp_right
        rintro ⟨k, hk, hx⟩
        exact ⟨k, List.mem_cons_of_mem _ hk, hx⟩

end ClassWeave.Text

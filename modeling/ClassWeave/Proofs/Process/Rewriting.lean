import ClassWeave.Proofs.Markup.Fitting
import ClassWeave.Proofs.Process.Frame
import ClassWeave.Proofs.Utility.Compiled

namespace ClassWeave

open Markup Text Utility

def Utility.Table.replaced (t : Table) (options : Options) (w : List Char) : List Char :=
  (" ".intercalate (t.compile (.ofList (trim w)) options.classStem).classes).toList

namespace Processor

variable {t : Table} {options : Options} {css : String}

theorem apply_of_classes (hmode : options.mode = .replace) {w : List Char} (hw : trim w ≠ []) :
    (revision t.resolver options css).apply w =
      leading w ++ (t.replaced options w ++ trailing w) := by
  have htouches : (revision t.resolver options css).touches w = true := by
    simp [revision, hmode, hw]
  rw [Revision.apply, if_pos htouches, revision]
  dsimp only
  rw [Table.replacement_ofAttribute hmode, List.append_assoc]
  rfl

theorem apply_of_not {w : List Char} (h : ¬ (options.mode = .replace ∧ trim w ≠ [])) :
    (revision t.resolver options css).apply w = w := by
  have htouches : (revision t.resolver options css).touches w = false := by
    by_cases hmode : options.mode = .replace
    · have hw : trim w = [] := by simpa [hmode] using h
      simp [revision, hw]
    · simp [revision, hmode]
  simp [Revision.apply, htouches]

theorem wordsOf_trim_ne_nil {w : List Char} (hw : trim w ≠ []) :
    wordsOf (.ofList (trim w)) ≠ [] := by
  obtain ⟨x, u, hx⟩ := List.exists_cons_of_ne_nil (fun h => hw (by rw [trim, h]; rfl) :
    trimStart w ≠ [])
  have hblank : isBlank x = false := by
    have := List.head?_dropWhile_not isBlank w
    rw [trimStart] at hx
    simpa [hx] using this
  have hmem : x ∈ trim w := by
    rw [trim, hx]
    exact List.mem_of_head? (head?_trimEnd u hblank)
  rw [wordsOf, String.toList_ofList]
  simpa using words_ne_nil hmem hblank

theorem bare_of_isNameChar {w next : List Char} (hne : w ≠ [])
    (hw : ∀ x ∈ w, isNameChar x = true) (hnext : endsBare next = true) :
    (ValueLayout.bare w).Valid next := by
  refine ⟨hnext, ?_, ?_⟩
  · apply unquotedText_append _ hnext
    intro x hx
    exact ⟨not_isBlank_of_isNameChar (hw x hx), ne_of_isNameChar (hw x hx) rfl,
      ne_of_isNameChar (hw x hx) rfl⟩
  · obtain ⟨x, u, rfl⟩ := List.exists_cons_of_ne_nil hne
    have hx := hw x (by simp)
    have hquote : x ≠ '\x22' := ne_of_isNameChar hx rfl
    have hsingle : x ≠ '\x27' := ne_of_isNameChar hx rfl
    have hbrace : x ≠ '\x7b' := ne_of_isNameChar hx rfl
    simp [opensValue, hquote, hsingle, hbrace, not_isBlank_of_isNameChar hx]

section

variable (hstem : IsPlainStem options.classStem)

include hstem

theorem isWord_of_mem_classes {classes v : String}
    (h : v ∈ (t.compile classes options.classStem).classes) : IsWord v.toList := by
  rcases Table.of_mem_classes h with ⟨text, rfl⟩ | h
  · constructor
    · intro hnil
      have hlen := Digest.length_shortText text
      rw [String.toList_append, List.append_eq_nil_iff] at hnil
      simp [hnil.2] at hlen
    · exact fun x hx => not_isBlank_of_isNameChar (isNameChar_of_mem hstem hx)
  · exact isWord_of_mem_wordsOf h.1

theorem tight_replaced {w : List Char} (hw : trim w ≠ []) : Tight (t.replaced options w) := by
  have hspace : " ".toList = [' '] := rfl
  rw [Table.replaced, String.toList_intercalate, hspace]
  apply tight_intercalate
  · intro v hv
    obtain ⟨name, hname, rfl⟩ := List.mem_map.1 hv
    exact isWord_of_mem_classes hstem hname
  · intro hnil
    exact Table.classes_compile_ne_nil (wordsOf_trim_ne_nil hw) (List.map_eq_nil_iff.1 hnil)

theorem of_mem_replaced {w : List Char} {x : Char} (hx : x ∈ t.replaced options w) :
    x ∈ w ∨ x = ' ' ∨ isNameChar x = true := by
  rw [Table.replaced, String.toList_intercalate] at hx
  rcases mem_intercalate hx with hx | ⟨v, hv, hx⟩
  · exact .inr (.inl (by simpa using hx))
  · obtain ⟨name, hname, rfl⟩ := List.mem_map.1 hv
    rcases Table.of_mem_classes hname with ⟨text, rfl⟩ | hname
    · exact .inr (.inr (isNameChar_of_mem hstem hx))
    · have htrim := mem_of_mem_wordsOf hname.1 x hx
      rw [String.toList_ofList] at htrim
      exact .inl (trim_subset w htrim)

theorem replaced_replaced (hfresh : t.IsFresh options.classStem) {w u : List Char}
    (hu : trim u = t.replaced options w) : t.replaced options u = t.replaced options w := by
  have hwords : wordsOf (.ofList (t.replaced options w)) =
      (t.compile (.ofList (trim w)) options.classStem).classes := by
    rw [Table.replaced, String.ofList_toList]
    exact wordsOf_intercalate fun v hv => isWord_of_mem_classes hstem hv
  have hunknown : ∀ v ∈ wordsOf (.ofList (t.replaced options w)), t.knows v = false := by
    intro v hv
    rw [hwords] at hv
    rcases Table.of_mem_classes hv with ⟨text, rfl⟩ | hv
    · exact hfresh text
    · exact hv.2
  rw [Table.replaced, hu, Table.classes_compile_of_unknown hunknown, hwords, Table.replaced]

theorem apply_apply (hfresh : t.IsFresh options.classStem) (w : List Char) :
    (revision t.resolver options css).apply ((revision t.resolver options css).apply w) =
      (revision t.resolver options css).apply w := by
  by_cases h : options.mode = .replace ∧ trim w ≠ []
  · have htight := tight_replaced (t := t) hstem h.2
    have hleading := leading_around (b := trailing w) (blanks_leading w) htight
    have htrim := trim_around (blanks_leading w) htight (blanks_trailing w)
    have htrailing := trailing_around (a := leading w) htight (blanks_trailing w)
    rw [apply_of_classes h.1 h.2, apply_of_classes h.1 (htrim.symm ▸ htight.ne_nil), hleading,
      htrailing, replaced_replaced hstem hfresh htrim]
  · rw [apply_of_not h, apply_of_not h]

theorem of_mem_apply {w : List Char} {x : Char}
    (hx : x ∈ (revision t.resolver options css).apply w) :
    x ∈ w ∨ x = ' ' ∨ isNameChar x = true := by
  by_cases h : options.mode = .replace ∧ trim w ≠ []
  · rw [apply_of_classes h.1 h.2, List.mem_append, List.mem_append] at hx
    rcases hx with hx | hx | hx
    · exact .inl ((List.takeWhile_subset _) hx)
    · exact of_mem_replaced hstem hx
    · rw [← trimEnd_append_trailing w]
      exact .inl (List.mem_append_right _ hx)
  · rw [apply_of_not h] at hx
    exact .inl hx

theorem apply_eq_nil {w : List Char} :
    (revision t.resolver options css).apply w = [] ↔ w = [] := by
  by_cases h : options.mode = .replace ∧ trim w ≠ []
  · have hw : w ≠ [] := by
      rintro rfl
      exact h.2 rfl
    have htight := tight_replaced (t := t) hstem h.2
    simp [apply_of_classes h.1 h.2, hw, htight.ne_nil]
  · rw [apply_of_not h]

theorem bare_apply {w next : List Char} (h : (ValueLayout.bare w).Valid next) :
    (ValueLayout.bare ((revision t.resolver options css).apply w)).Valid next := by
  by_cases hw : options.mode = .replace ∧ trim w ≠ []
  · have hne : w ≠ [] := by
      rintro rfl
      exact hw.2 rfl
    have hword : IsWord w := ⟨hne, not_isBlank_of_unquotedText h.2.1⟩
    have happly : (revision t.resolver options css).apply w = t.replaced options w := by
      rw [apply_of_classes hw.1 hw.2, hword.leading_eq, hword.trailing_eq, List.nil_append,
        List.append_nil]
    have hwords : wordsOf (.ofList (trim w)) = [String.ofList w] := by
      rw [wordsOf, String.toList_ofList, hword.trim_eq, words_of_isWord hword]
      rfl
    rw [happly, Table.replaced]
    rcases t.classes_compile_of_word options.classStem hwords with ⟨text, hclasses⟩ | hclasses
    · have hmem : options.classStem ++ Digest.shortText text ∈
          (t.compile (.ofList (trim w)) options.classStem).classes := by simp [hclasses]
      have hchar : ∀ x ∈ (options.classStem ++ Digest.shortText text).toList,
          isNameChar x = true := fun x hx => isNameChar_of_mem hstem hx
      rw [hclasses]
      exact bare_of_isNameChar (isWord_of_mem_classes hstem hmem).1 hchar h.1
    · rw [hclasses]
      simpa using h
  · rwa [apply_of_not hw]

theorem fits_revision (hcss : '<' ∉ css.toList) : (revision t.resolver options css).Fits := by
  constructor
  · exact fun w => apply_eq_nil hstem
  · intro quote w hquote hw x hx
    rcases of_mem_apply hstem hx with hx | rfl | hx
    · exact hw x hx
    · rcases hquote with rfl | rfl <;> decide
    · refine ⟨?_, ne_of_isNameChar hx rfl⟩
      rcases hquote with rfl | rfl <;> exact ne_of_isNameChar hx rfl
  · exact bare_apply hstem
  · rw [revision]
    simpa using hcss

end

end Processor

end ClassWeave

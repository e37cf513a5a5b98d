import ClassWeave.Proofs.Style.TopLevel
import ClassWeave.Utility.Table

/-!
The elements that a base style is emitted for, against the selectors that it lists. Splitting at
every comma refines the splitting that minds quotes and brackets, so each selector of the list gives
the element that it begins with, and besides whatever stands behind a comma inside of it.
-/

namespace ClassWeave.Style

theorem splitOnP_eq_flatMap_splitFrom (separator : Char) (s : SplitState) (cs : List Char) :
    cs.splitOnP (· == separator) =
      (splitFrom separator s cs).flatMap fun w => w.splitOnP (· == separator) := by
  induction cs generalizing s with
  | nil => rfl
  | cons c cs ih =>
    rw [splitFrom]
    split
    · next h =>
      obtain ⟨-, rfl, -⟩ := h
      simp [List.splitOnP_cons_eq_if_modifyHead, ← ih]
    · obtain ⟨w, ws, hw⟩ := exists_splitFrom separator (s.next c) cs
      obtain ⟨v, vs, hv⟩ :=
        List.exists_cons_of_ne_nil (List.splitOnP_ne_nil (· == separator) w)
      have htail := ih (s.next c)
      rw [hw, List.flatMap_cons, hv] at htail
      rw [hw, List.modifyHead_cons, List.flatMap_cons, List.splitOnP_cons_eq_if_modifyHead,
        List.splitOnP_cons_eq_if_modifyHead, htail, hv]
      split <;> rfl

theorem exists_behind_cons {x separator : Char} {cs : List Char} {P : List Char → Prop} :
    (∃ u v, x :: cs = u ++ separator :: v ∧ P v) ↔
      (x = separator ∧ P cs) ∨ ∃ u v, cs = u ++ separator :: v ∧ P v := by
  constructor
  · rintro ⟨u, v, h, hv⟩
    rcases List.cons_eq_append_iff.1 h with ⟨-, h⟩ | ⟨u, -, h⟩
    · cases h
      exact .inl ⟨rfl, hv⟩
    · exact .inr ⟨u, v, h, hv⟩
  · rintro (⟨rfl, h⟩ | ⟨u, v, rfl, hv⟩)
    · exact ⟨[], cs, rfl, h⟩
    · exact ⟨x :: u, v, rfl, hv⟩

theorem splitOnP_eq_cons (separator : Char) (cs : List Char) :
    ∃ ws, cs.splitOnP (· == separator) = cs.takeWhile (· != separator) :: ws ∧
      ∀ w, w ∈ ws ↔ ∃ u v, cs = u ++ separator :: v ∧ v.takeWhile (· != separator) = w := by
  induction cs with
  | nil => exact ⟨[], rfl, by simp⟩
  | cons c cs ih =>
    obtain ⟨ws, hsplit, hws⟩ := ih
    simp only [exists_behind_cons, List.splitOnP_cons_eq_if_modifyHead, hsplit,
      List.modifyHead_cons, List.takeWhile_cons, bne_iff_ne, beq_iff_eq]
    by_cases hc : c = separator
    · refine ⟨cs.takeWhile (· != separator) :: ws, by simp [hc], fun w => ?_⟩
      rw [List.mem_cons, hws, and_iff_right hc, eq_comm]
    · refine ⟨ws, by simp [hc], fun w => ?_⟩
      rw [hws]
      simp [hc]

end ClassWeave.Style

namespace ClassWeave.Utility

open Style Text

def leadingTag (selector : List Char) : List Char :=
  ((trimStart selector).takeWhile isTagChar).map Char.toLower

theorem not_isBlank_of_isTagChar {c : Char} (h : isTagChar c = true) : isBlank c = false := by
  rw [isTagChar, Bool.or_eq_true, beq_iff_eq] at h
  rcases h with h | rfl
  · rw [Char.isAlphanum, Bool.or_eq_true] at h
    rcases h with h | h
    · have := toNat_of_isAlpha h
      exact not_isBlank_of_ascii (by omega) (by omega)
    · have := toNat_of_isDigit h
      exact not_isBlank_of_ascii (by omega) (by omega)
  · rfl

theorem trimStart_takeWhile {p : Char → Bool} (hp : ∀ c, isBlank c = true → p c = true)
    (cs : List Char) : trimStart (cs.takeWhile p) = (trimStart cs).takeWhile p := by
  induction cs with
  | nil => rfl
  | cons c cs ih =>
    by_cases hc : isBlank c = true
    · have hpc := hp c hc
      simpa [trimStart, hc, hpc] using ih
    · by_cases hpc : p c = true <;> simp [trimStart, hc, hpc]

theorem leadingTag_takeWhile (cs : List Char) :
    leadingTag (cs.takeWhile (· != ',')) = leadingTag cs := by
  have htag (c : Char) : (isTagChar c && c != ',') = isTagChar c := by
    rw [Bool.and_eq_left_iff_imp]
    rintro h
    rw [bne_iff_ne]
    rintro rfl
    exact absurd h (by decide)
  rw [leadingTag, trimStart_takeWhile, List.takeWhile_takeWhile]
  · simp only [Bool.decide_and, Bool.decide_eq_true, htag]
    rfl
  · intro c hc
    rw [bne_iff_ne]
    rintro rfl
    exact absurd hc (by decide)

theorem leadingTag_blanks_append {w : List Char} (hw : ∀ x ∈ w, isBlank x = true)
    (cs : List Char) : leadingTag (w ++ cs) = leadingTag cs := by
  rw [leadingTag, trimStart, List.dropWhile_append_of_pos hw]
  rfl

theorem leadingTag_append_blanks {w : List Char} (hw : ∀ x ∈ w, isBlank x = true)
    (cs : List Char) : leadingTag (cs ++ w) = leadingTag cs := by
  have hstart : trimStart w = [] := List.dropWhile_eq_nil_iff.2 hw
  have htake : w.takeWhile isTagChar = [] := by
    cases w with
    | nil => rfl
    | cons x w =>
      rw [List.takeWhile_cons_of_neg]
      intro hx
      simpa [not_isBlank_of_isTagChar hx] using hw x
  rw [leadingTag, trimStart, List.dropWhile_append, ← trimStart, ← trimStart, hstart]
  split
  · next h => rw [leadingTag, List.isEmpty_iff.1 h]
  · rw [List.takeWhile_append, htake, List.append_nil]
    split
    · next h => rw [leadingTag, (List.takeWhile_prefix isTagChar).eq_of_length h]
    · rfl

theorem exists_behind_trim {separator : Char} (hs : isBlank separator = false) {cs : List Char}
    {P : List Char → Prop} (hP : ∀ v w, (∀ x ∈ w, isBlank x = true) → (P (v ++ w) ↔ P v)) :
    (∃ u v, trim cs = u ++ separator :: v ∧ P v) ↔ ∃ u v, cs = u ++ separator :: v ∧ P v := by
  constructor
  · rintro ⟨u, v, h, hv⟩
    refine ⟨leading cs ++ u, v ++ trailing (trimStart cs), ?_,
      (hP v _ (blanks_trailing _)).2 hv⟩
    have hcs := leading_append_trim_append cs
    rw [h] at hcs
    simpa using hcs.symm
  · rintro ⟨u, v, rfl, hv⟩
    refine ⟨trimStart u, trimEnd v, ?_, ?_⟩
    · rw [trim, trimStart_append_of_not_blank hs, trimEnd_append_of_not_blank hs]
    · rw [← trimEnd_append_trailing v] at hv
      exact (hP _ _ (blanks_trailing v)).1 hv

theorem leadingTag_trim (cs : List Char) : leadingTag (trim cs) = leadingTag cs := by
  conv_rhs =>
    rw [← leading_append_trim_append cs, leadingTag_blanks_append (blanks_leading cs),
      leadingTag_append_blanks (blanks_trailing _)]

namespace PreflightEntry

/-- One of the selectors that a global rule wraps one by one begins with the tag. -/
def Starts (e : PreflightEntry) (tag : String) : Prop :=
  tag ≠ "" ∧ ∃ p ∈ selectorParts e.selector.toList, leadingTag p = tag.toList

/-- The tag stands behind a comma inside one of these selectors. -/
def Mentions (e : PreflightEntry) (tag : String) : Prop :=
  tag ≠ "" ∧ ∃ p ∈ selectorParts e.selector.toList, ∃ u v,
    p = u ++ ',' :: v ∧ leadingTag v = tag.toList

end PreflightEntry

theorem mem_selectorTags {selector tag : String} :
    tag ∈ selectorTags selector ↔
      tag ≠ "" ∧ ∃ w ∈ selector.toList.splitOnP (· == ','), leadingTag w = tag.toList := by
  simp only [selectorTags, List.mem_eraseDups, List.mem_map, List.mem_filter, List.map_map,
    Function.comp_apply, Bool.not_eq_true', List.isEmpty_eq_false_iff]
  constructor
  · rintro ⟨-, ⟨⟨w, hw, rfl⟩, hne⟩, rfl⟩
    refine ⟨?_, w, hw, by simp [leadingTag]⟩
    rwa [Ne, String.ofList_eq_empty_iff]
  · rintro ⟨hne, w, hw, htag⟩
    refine ⟨tag.toList, ⟨⟨w, hw, htag⟩, ?_⟩, String.ofList_toList⟩
    rwa [Ne, String.toList_eq_nil_iff]

theorem exists_mem_splitOnP_leadingTag {cs tag : List Char} :
    (∃ w ∈ cs.splitOnP (· == ','), leadingTag w = tag) ↔
      leadingTag cs = tag ∨ ∃ u v, cs = u ++ ',' :: v ∧ leadingTag v = tag := by
  obtain ⟨ws, hsplit, hws⟩ := splitOnP_eq_cons ',' cs
  rw [hsplit, List.exists_mem_cons_iff, leadingTag_takeWhile]
  apply or_congr Iff.rfl
  constructor
  · rintro ⟨w, hw, htag⟩
    obtain ⟨u, v, hcs, rfl⟩ := (hws w).1 hw
    exact ⟨u, v, hcs, leadingTag_takeWhile v ▸ htag⟩
  · rintro ⟨u, v, hcs, htag⟩
    exact ⟨_, (hws _).2 ⟨u, v, hcs, rfl⟩, (leadingTag_takeWhile v).trans htag⟩

theorem exists_mem_selectorParts {cs tag : List Char} (hne : tag ≠ []) :
    (∃ w ∈ cs.splitOnP (· == ','), leadingTag w = tag) ↔
      ∃ p ∈ selectorParts cs,
        leadingTag p = tag ∨ ∃ u v, p = u ++ ',' :: v ∧ leadingTag v = tag := by
  have htrim (p : List Char) :
      (leadingTag (trim p) = tag ∨ ∃ u v, trim p = u ++ ',' :: v ∧ leadingTag v = tag) ↔
        ∃ w ∈ p.splitOnP (· == ','), leadingTag w = tag := by
    rw [exists_mem_splitOnP_leadingTag, leadingTag_trim, exists_behind_trim rfl]
    intro v w hw
    rw [leadingTag_append_blanks hw]
  rw [splitOnP_eq_flatMap_splitFrom ',' .start, selectorParts, splitTopLevel]
  constructor
  · rintro ⟨w, hw, htag⟩
    obtain ⟨p, hp, hw⟩ := List.mem_flatMap.1 hw
    have hread := (htrim p).2 ⟨w, hw, htag⟩
    refine ⟨trim p, List.mem_filter.2 ⟨List.mem_map_of_mem hp, ?_⟩, hread⟩
    rw [Bool.not_eq_true', List.isEmpty_eq_false_iff]
    intro hnil
    rw [hnil] at hread
    rcases hread with h | ⟨u, v, h, -⟩
    · exact hne h.symm
    · simp at h
  · rintro ⟨p, hp, hread⟩
    obtain ⟨q, hq, rfl⟩ := List.mem_map.1 (List.mem_filter.1 hp).1
    obtain ⟨w, hw, htag⟩ := (htrim q).1 hread
    exact ⟨w, List.mem_flatMap.2 ⟨q, hq, hw⟩, htag⟩

theorem mem_tags_ofEntry {e : PreflightEntry} {tag : String} :
    tag ∈ (PreflightRule.ofEntry e).tags ↔ e.Starts tag ∨ e.Mentions tag := by
  rw [PreflightRule.ofEntry, mem_selectorTags, PreflightEntry.Starts, PreflightEntry.Mentions,
    ← and_or_left, ← exists_or]
  apply and_congr_right
  intro hne
  rw [exists_mem_selectorParts (by rwa [Ne, String.toList_eq_nil_iff])]
  simp only [and_or_left]

namespace PreflightEntry

theorem not_mentions {e : PreflightEntry} (h : ∀ p ∈ selectorParts e.selector.toList, ',' ∉ p)
    (tag : String) : ¬ e.Mentions tag := by
  rintro ⟨-, p, hp, u, v, rfl, -⟩
  exact h _ hp (by simp)

instance (e : PreflightEntry) (tag : String) : Decidable (e.Starts tag) :=
  inferInstanceAs
    (Decidable (tag ≠ "" ∧ ∃ p ∈ selectorParts e.selector.toList, leadingTag p = tag.toList))

def Emitted (e : PreflightEntry) (tags : List String) (includeGlobal : Bool) : Prop :=
  if e.isGlobal then includeGlobal = true else ∃ tag ∈ tags, e.Starts tag ∨ e.Mentions tag

def rule (e : PreflightEntry) (place : Nat) : Rule :=
  Rule.plain e.selector (Declaration.parseList e.declarations) (UInt32.ofNat place)

theorem wantsPreflight_iff {e : PreflightEntry} {tags : List String} {includeGlobal : Bool} :
    Table.wantsPreflight tags includeGlobal (.ofEntry e) = true ↔ e.Emitted tags includeGlobal := by
  have hglobal : (PreflightRule.ofEntry e).isGlobal = e.isGlobal := rfl
  rw [Table.wantsPreflight, hglobal, Emitted]
  split
  · rfl
  · simp only [List.any_eq_true, List.contains_iff_mem, mem_tags_ofEntry]
    exact exists_congr fun tag => and_comm

instance (e : PreflightEntry) (tags : List String) (includeGlobal : Bool) :
    Decidable (e.Emitted tags includeGlobal) :=
  decidable_of_iff _ wantsPreflight_iff

theorem emitted_singleton {e : PreflightEntry} (hlocal : e.isGlobal = false) (tag : String)
    (includeGlobal : Bool) : e.Emitted [tag] includeGlobal ↔ e.Starts tag ∨ e.Mentions tag := by
  simp [Emitted, hlocal]

theorem emitted_iff_starts {e : PreflightEntry} (hlocal : e.isGlobal = false)
    (h : ∀ tag, e.Mentions tag → e.Starts tag) (tags : List String) (includeGlobal : Bool) :
    e.Emitted tags includeGlobal ↔ ∃ tag ∈ tags, e.Starts tag := by
  rw [Emitted, if_neg (by simp [hlocal])]
  apply exists_congr
  intro tag
  exact and_congr_right fun _ => or_iff_left_of_imp (h tag)

end PreflightEntry

theorem Table.preflightSheet_extend (t : Table) (us : Assoc String) (es : List PreflightEntry)
    (tags : List String) (includeGlobal : Bool) :
    (t.extend us es).preflightSheet tags includeGlobal =
      t.preflightSheet tags includeGlobal ++
        ((es.zipIdx t.preflight.length).filter fun e => e.1.Emitted tags includeGlobal).map
          fun e => e.1.rule e.2 := by
  have hwants (e : PreflightEntry) : wantsPreflight tags includeGlobal (.ofEntry e) =
      decide (e.Emitted tags includeGlobal) := by
    rw [Bool.eq_iff_iff, decide_eq_true_iff]
    exact PreflightEntry.wantsPreflight_iff
  rw [preflightSheet, extend, List.zipIdx_append, List.filter_append, List.map_append,
    List.zipIdx_map, List.filter_map, List.map_map, Nat.zero_add]
  simp only [Function.comp_def, Prod.map, hwants]
  rfl

/-- What base styles are emitted for. The elements that an entry is emitted for are those which its
selectors begin with and those behind a comma inside a selector, and they are the former alone just
if each of the latter is one of them. -/
theorem preflight_selection (t : Table) (us : Assoc String) (es : List PreflightEntry) :
    (∀ tags includeGlobal, (t.extend us es).preflightSheet tags includeGlobal =
      t.preflightSheet tags includeGlobal ++
        ((es.zipIdx t.preflight.length).filter fun e => e.1.Emitted tags includeGlobal).map
          fun e => e.1.rule e.2) ∧
    ∀ e ∈ es,
      (∀ tag, tag ∈ (PreflightRule.ofEntry e).tags ↔ e.Starts tag ∨ e.Mentions tag) ∧
      ((∀ tag, tag ∈ (PreflightRule.ofEntry e).tags ↔ e.Starts tag) ↔
        ∀ tag, e.Mentions tag → e.Starts tag) ∧
      (e.isGlobal = false →
        ((∀ tags includeGlobal, e.Emitted tags includeGlobal ↔ ∃ tag ∈ tags, e.Starts tag) ↔
          ∀ tag, e.Mentions tag → e.Starts tag)) ∧
      ((∀ p ∈ selectorParts e.selector.toList, ',' ∉ p) → ∀ tag, ¬ e.Mentions tag) := by
  refine ⟨t.preflightSheet_extend us es, fun e _ => ⟨fun tag => mem_tags_ofEntry, ?_, ?_,
    PreflightEntry.not_mentions⟩⟩
  · simp only [mem_tags_ofEntry, or_iff_left_iff_imp]
  · intro hlocal
    constructor
    · intro h tag htag
      have hemitted := (PreflightEntry.emitted_singleton hlocal tag false).2 (.inr htag)
      simpa using (h [tag] false).1 hemitted
    · exact PreflightEntry.emitted_iff_starts hlocal

theorem preflight_selection_button :
    let e : PreflightEntry := ⟨"a:hover, button::before", "color: red", false⟩
    (∀ tag, ¬ e.Mentions tag) ∧
      ∀ tags includeGlobal, e.Emitted tags includeGlobal ↔ ∃ tag ∈ tags, e.Starts tag := by
  intro e
  obtain ⟨-, -, hemitted, hcomma⟩ := (preflight_selection .empty [] [e]).2 e (by simp)
  have hnone := hcomma (by decide)
  exact ⟨hnone, (hemitted rfl).2 fun tag h => absurd h (hnone tag)⟩

theorem exists_emitted_not_starts :
    let e : PreflightEntry := ⟨"a[title=\x22x,p\x22]", "color: red", false⟩
    "p" ∈ (PreflightRule.ofEntry e).tags ∧
      (Table.empty.extend [] [e]).preflightSheet ["p"] false = [e.rule 0] ∧
      ¬ ∃ tag ∈ ["p"], e.Starts tag := by
  decide

end ClassWeave.Utility

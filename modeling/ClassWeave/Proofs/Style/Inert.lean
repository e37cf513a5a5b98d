import ClassWeave.Proofs.Text.Blank
import ClassWeave.Style.Sheet

namespace ClassWeave.Style

open Text

def Inert (cs : List Char) : Prop := '<' ∉ cs

instance (cs : List Char) : Decidable (Inert cs) := inferInstanceAs (Decidable (¬ _))

theorem inert_append {a b : List Char} : Inert (a ++ b) ↔ Inert a ∧ Inert b := by
  simp [Inert]

theorem Inert.subset {a b : List Char} (h : Inert b) (hs : a ⊆ b) : Inert a := fun ha => h (hs ha)

theorem inert_flatMap {α : Type} {l : List α} {f : α → List Char} :
    Inert (l.flatMap f) ↔ ∀ x ∈ l, Inert (f x) := by
  simp [Inert]

theorem inert_intercalate {sep : List Char} {ls : List (List Char)} (hsep : Inert sep)
    (h : ∀ l ∈ ls, Inert l) : Inert (sep.intercalate ls) := by
  intro hx
  rcases mem_intercalate hx with hx | ⟨l, hl, hx⟩
  · exact hsep hx
  · exact h l hl hx

theorem subset_of_mem_splitFrom {separator : Char} {s : SplitState} {cs p : List Char}
    (h : p ∈ splitFrom separator s cs) : p ⊆ cs := by
  induction cs generalizing s p with
  | nil =>
    have : p = [] := by simpa [splitFrom] using h
    simp [this]
  | cons c cs ih =>
    rw [splitFrom] at h
    split at h
    · rcases List.mem_cons.1 h with rfl | h
      · simp
      · exact List.Subset.trans (ih h) (List.subset_cons_self c cs)
    · cases hq : splitFrom separator (s.next c) cs with
      | nil => simp [hq] at h
      | cons q qs =>
        rw [hq, List.modifyHead_cons] at h
        rcases List.mem_cons.1 h with rfl | h
        · exact List.cons_subset_cons c (ih (hq ▸ List.mem_cons_self))
        · exact List.Subset.trans (ih (hq ▸ List.mem_cons_of_mem _ h)) (List.subset_cons_self c cs)

structure Declaration.Inert (d : Declaration) : Prop where
  property : Style.Inert d.property.toList
  value : Style.Inert d.value.toList

structure Rule.Inert (r : Rule) : Prop where
  selector : Style.Inert r.selector.toList
  atRule : ∀ a ∈ r.atRule, Style.Inert a.toList
  declarations : ∀ d ∈ r.declarations, d.Inert

def Sheet.Inert (s : Sheet) : Prop := ∀ r ∈ s, r.Inert

theorem Declaration.inert_of_mem_parseList {text : String} (h : Style.Inert text.toList)
    {d : Declaration} (hd : d ∈ Declaration.parseList text) : d.Inert := by
  obtain ⟨entry, hentry, hd⟩ := List.mem_filterMap.1 hd
  have hsub : entry ⊆ text.toList := subset_of_mem_splitFrom hentry
  rw [ofEntry] at hd
  split at hd
  · cases hd
  · cases hd
    constructor
    · rw [String.toList_ofList]
      apply h.subset
      apply List.Subset.trans (trim_subset _)
      exact List.Subset.trans (List.takeWhile_subset _) hsub
    · rw [String.toList_ofList]
      apply h.subset
      apply List.Subset.trans (trim_subset _)
      apply List.Subset.trans (List.drop_subset 1 _)
      exact List.Subset.trans (List.dropWhile_suffix _).subset hsub

theorem Declaration.inert_of_mem_overrideAll {ds es : List Declaration} (hds : ∀ d ∈ ds, d.Inert)
    (hes : ∀ d ∈ es, d.Inert) : ∀ d ∈ Declaration.overrideAll ds es, d.Inert := by
  induction es generalizing ds with
  | nil => exact hds
  | cons e es ih =>
    apply ih
    · intro d hd
      rcases List.mem_append.1 hd with hd | hd
      · exact hds d (List.mem_filter.1 hd).1
      · have : d = e := by simpa using hd
        exact this ▸ hes e (by simp)
    · exact fun d hd => hes d (List.mem_cons_of_mem _ hd)

theorem Rule.inert_plain {selector : String} {ds : List Declaration} {order : UInt32}
    (hs : Style.Inert selector.toList) (hds : ∀ d ∈ ds, d.Inert) :
    (Rule.plain selector ds order).Inert :=
  ⟨hs, by rintro a ⟨⟩, hds⟩

theorem Rule.Inert.merge {r s : Rule} (hr : r.Inert) (hs : s.Inert) : (r.merge s).Inert :=
  ⟨hr.selector, hr.atRule, Declaration.inert_of_mem_overrideAll hr.declarations hs.declarations⟩

theorem inert_wrapGlobal {selector : List Char} (h : Inert selector) :
    Inert (wrapGlobal selector) := by
  apply inert_intercalate (by decide)
  intro l hl
  obtain ⟨p, hp, rfl⟩ := List.mem_map.1 hl
  obtain ⟨q, hq, rfl⟩ := List.mem_map.1 (List.mem_filter.1 hp).1
  have hpart : Inert (trim q) := by
    apply h.subset
    exact List.Subset.trans (trim_subset q) (subset_of_mem_splitFrom hq)
  rw [inert_append, inert_append]
  exact ⟨⟨by decide, hpart⟩, by decide⟩

theorem Rule.Inert.selectorText {r : Rule} (h : r.Inert) (wrapDeferred : Bool) :
    Style.Inert (r.selectorText wrapDeferred).toList := by
  rw [Rule.selectorText]
  split
  · rw [String.toList_ofList]
    exact inert_wrapGlobal h.selector
  · exact h.selector

theorem Declaration.Inert.text {d : Declaration} (h : d.Inert) : Style.Inert d.text.toList := by
  simp only [Declaration.text, String.toList_append, inert_append]
  exact ⟨⟨⟨h.property, by decide⟩, h.value⟩, by decide⟩

theorem Rule.Inert.text {r : Rule} (h : r.Inert) (wrapDeferred : Bool) :
    Style.Inert (r.text wrapDeferred).toList := by
  have hindent : Style.Inert (if r.atRule.isSome then "  " else "").toList := by
    split <;> decide
  have hlines : ∀ indent : String, Style.Inert indent.toList →
      Style.Inert
        (String.join (r.declarations.map fun d => indent ++ "  " ++ d.text ++ "\n")).toList := by
    intro indent hi
    rw [String.toList_join, inert_flatMap]
    intro line hline
    obtain ⟨d, hd, rfl⟩ := List.mem_map.1 hline
    simp only [String.toList_append, inert_append]
    exact ⟨⟨⟨hi, by decide⟩, (h.declarations d hd).text⟩, by decide⟩
  have hselector := h.selectorText wrapDeferred
  have hopen : Style.Inert " \x7b\n".toList := by decide
  have hclose : Style.Inert "\x7d".toList := by decide
  have hblock : Style.Inert ((if r.atRule.isSome then "  " else "") ++ r.selectorText wrapDeferred ++
      " \x7b\n" ++ String.join (r.declarations.map fun d =>
        (if r.atRule.isSome then "  " else "") ++ "  " ++ d.text ++ "\n") ++
      (if r.atRule.isSome then "  " else "") ++ "\x7d").toList := by
    simp only [String.toList_append, inert_append]
    exact ⟨⟨⟨⟨⟨hindent, hselector⟩, hopen⟩, hlines _ hindent⟩, hindent⟩, hclose⟩
  rw [Rule.text]
  split
  next head hhead =>
    rw [String.toList_append, String.toList_append, String.toList_append, inert_append,
      inert_append, inert_append]
    exact ⟨⟨⟨h.atRule head hhead, hopen⟩, hblock⟩, by decide⟩
  next => exact hblock

namespace Sheet

theorem Inert.append {s t : Sheet} (hs : s.Inert) (ht : t.Inert) : Sheet.Inert (s ++ t) := by
  intro r hr
  rcases List.mem_append.1 hr with hr | hr
  · exact hs r hr
  · exact ht r hr

theorem inert_flatten {ss : List Sheet} (h : ∀ s ∈ ss, s.Inert) : Sheet.Inert ss.flatten := by
  intro r hr
  obtain ⟨s, hs, hr⟩ := List.mem_flatten.1 hr
  exact h s hs r hr

theorem Inert.withScope {s : Sheet} (h : s.Inert) (scope : Scope) : (s.withScope scope).Inert := by
  intro r hr
  obtain ⟨q, hq, rfl⟩ := List.mem_map.1 hr
  exact ⟨(h q hq).selector, (h q hq).atRule, (h q hq).declarations⟩

theorem Inert.withLayer {s : Sheet} (h : s.Inert) (layer : Layer) : (s.withLayer layer).Inert := by
  intro r hr
  obtain ⟨q, hq, rfl⟩ := List.mem_map.1 hr
  exact ⟨(h q hq).selector, (h q hq).atRule, (h q hq).declarations⟩

theorem Inert.absorb {s : Sheet} {r : Rule} (hs : s.Inert) (hr : r.Inert) : (s.absorb r).Inert := by
  induction s with
  | nil =>
    intro t ht
    have : t = r := by simpa [Sheet.absorb] using ht
    exact this ▸ hr
  | cons q s ih =>
    have hq := hs q (by simp)
    have hs' : Sheet.Inert s := fun t ht => hs t (List.mem_cons_of_mem _ ht)
    rw [Sheet.absorb]
    split
    · intro t ht
      rcases List.mem_cons.1 ht with rfl | ht
      · exact hq.merge hr
      · exact hs' t ht
    · intro t ht
      rcases List.mem_cons.1 ht with rfl | ht
      · exact hq
      · exact ih hs' t ht

theorem Inert.combine {s : Sheet} (h : s.Inert) : (s.combine).Inert := by
  have hfold (acc : Sheet) (hacc : acc.Inert) : Sheet.Inert (s.foldl Sheet.absorb acc) := by
    induction s generalizing acc with
    | nil => exact hacc
    | cons r s ih =>
      apply ih (fun t ht => h t (List.mem_cons_of_mem _ ht))
      exact hacc.absorb (h r (by simp))
  exact hfold [] (by intro r hr; cases hr)

theorem Inert.sort {s : Sheet} (h : s.Inert) : s.sort.Inert :=
  fun r hr => h r (List.mem_mergeSort.1 hr)

theorem Inert.text {s : Sheet} (h : s.Inert) (wrapDeferred : Bool) :
    Style.Inert (s.text wrapDeferred).toList := by
  rw [Sheet.text, String.toList_join, inert_flatMap]
  intro block hblock
  obtain ⟨r, hr, rfl⟩ := List.mem_map.1 hblock
  rw [String.toList_append, inert_append]
  exact ⟨(h r (List.mem_filter.1 hr).1).text wrapDeferred, by decide⟩

end Sheet

end ClassWeave.Style

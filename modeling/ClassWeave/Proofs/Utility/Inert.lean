import ClassWeave.Proofs.Assoc
import ClassWeave.Proofs.Style.Inert
import ClassWeave.Utility.Table

namespace ClassWeave.Utility

open Style Text

theorem inert_escapeChar {c : Char} (h : c ≠ '<') : Style.Inert (escapeChar c) := by
  rw [escapeChar]
  split <;> simp [Style.Inert, Ne.symm h]

theorem inert_escapeClass {name : List Char} (h : Style.Inert name) :
    Style.Inert (escapeClass name) := by
  have hne : ∀ c ∈ name, c ≠ '<' := by
    rintro c hc rfl
    exact h hc
  cases name with
  | nil => exact h
  | cons c cs =>
    rw [escapeClass, inert_append]
    constructor
    · have hc := hne c (by simp)
      split
      · simp [Style.Inert, Ne.symm hc]
      · exact inert_escapeChar hc
    · rw [inert_flatMap]
      intro x hx
      exact inert_escapeChar (hne x (List.mem_cons_of_mem _ hx))

theorem inert_classSelector {name : String} (h : Style.Inert name.toList) :
    Style.Inert (classSelector name).toList := by
  rw [classSelector, String.toList_ofList]
  exact inert_append.2 ⟨(by decide : Style.Inert ['.']), inert_escapeClass h⟩

namespace Table

structure Inert (t : Table) : Prop where
  name : ∀ e ∈ t.utilities, Style.Inert e.1.toList
  utility : ∀ e ∈ t.utilities, ∀ d ∈ e.2, d.Inert
  selector : ∀ r ∈ t.preflight, Style.Inert r.selector.toList
  preflight : ∀ r ∈ t.preflight, ∀ d ∈ r.declarations, d.Inert

theorem inert_empty : empty.Inert := by
  constructor
  all_goals
    intro x hx
    cases hx

theorem Inert.extend {t : Table} (h : t.Inert) {utilities : Assoc String}
    {entries : List PreflightEntry}
    (hu : ∀ e ∈ utilities, Style.Inert e.1.toList ∧ Style.Inert e.2.toList)
    (hp : ∀ e ∈ entries, Style.Inert e.selector.toList ∧ Style.Inert e.declarations.toList) :
    (t.extend utilities entries).Inert := by
  constructor
  · intro e he
    rcases Assoc.mem_putAll he with he | he
    · exact h.name e he
    · obtain ⟨u, hu', rfl⟩ := List.mem_map.1 he
      exact (hu u hu').1
  · intro e he
    rcases Assoc.mem_putAll he with he | he
    · exact h.utility e he
    · obtain ⟨u, hu', rfl⟩ := List.mem_map.1 he
      intro d hd
      exact Declaration.inert_of_mem_parseList (hu u hu').2 hd
  · intro r hr
    rcases List.mem_append.1 hr with hr | hr
    · exact h.selector r hr
    · obtain ⟨e, he, rfl⟩ := List.mem_map.1 hr
      exact (hp e he).1
  · intro r hr
    rcases List.mem_append.1 hr with hr | hr
    · exact h.preflight r hr
    · obtain ⟨e, he, rfl⟩ := List.mem_map.1 hr
      intro d hd
      exact Declaration.inert_of_mem_parseList (hp e he).2 hd

theorem inert_foldl_overrideAll {found : List (UInt32 × List Declaration)} {ds : List Declaration}
    (hds : ∀ d ∈ ds, d.Inert) (hfound : ∀ e ∈ found, ∀ d ∈ e.2, d.Inert) :
    ∀ d ∈ found.foldl (fun ds e => Declaration.overrideAll ds e.2) ds, d.Inert := by
  induction found generalizing ds with
  | nil => exact hds
  | cons e found ih =>
    apply ih
    · exact Declaration.inert_of_mem_overrideAll hds (hfound e (by simp))
    · exact fun e he => hfound e (List.mem_cons_of_mem _ he)

theorem mem_of_lookup {t : Table} {token : String} {e : UInt32 × List Declaration}
    (h : t.lookup token = some e) : (token, e.2) ∈ t.utilities := by
  obtain ⟨r, hr, rfl⟩ := Option.map_eq_some_iff.1 h
  exact Assoc.mem_of_findEntry? hr

section

variable {t : Table} (h : t.Inert)

include h

theorem Inert.lookup {token : String} {e : UInt32 × List Declaration}
    (he : t.lookup token = some e) : ∀ d ∈ e.2, d.Inert :=
  h.utility _ (mem_of_lookup he)

theorem Inert.compile {stem : String}
    (hstem : ∀ text, Style.Inert (stem ++ Digest.shortText text).toList) (classes : String) : Sheet.Inert (t.compile classes stem).sheet := by
  rw [Table.compile]
  dsimp only
  split
  · intro r hr
    cases hr
  · intro r hr
    rw [List.mem_singleton.1 hr]
    apply Rule.inert_plain (inert_classSelector (hstem _))
    have hfound : ∀ e ∈ (t.resolved classes).filterMap t.lookup, ∀ d ∈ e.2, d.Inert := by
      intro e he
      obtain ⟨token, -, htoken⟩ := List.mem_filterMap.1 he
      exact h.lookup htoken
    apply inert_foldl_overrideAll _ hfound
    intro d hd
    cases hd

theorem Inert.interpret (classes : String) : Sheet.Inert (t.interpret classes).sheet := by
  intro r hr
  obtain ⟨token, -, hr⟩ := List.mem_filterMap.1 hr
  obtain ⟨e, he, rfl⟩ := Option.map_eq_some_iff.1 hr
  exact Rule.inert_plain (inert_classSelector (h.name _ (mem_of_lookup he))) (h.lookup he)

theorem Inert.preflightSheet (tags : List String) (includeGlobal : Bool) :
    Sheet.Inert (t.preflightSheet tags includeGlobal) := by
  intro r hr
  obtain ⟨e, he, rfl⟩ := List.mem_map.1 hr
  obtain ⟨hmem, -⟩ := List.mem_filter.1 he
  have hrule : e.1 ∈ t.preflight := List.fst_mem_of_mem_zipIdx hmem
  exact Rule.inert_plain (h.selector _ hrule) (h.preflight _ hrule)

end

end Table

end ClassWeave.Utility

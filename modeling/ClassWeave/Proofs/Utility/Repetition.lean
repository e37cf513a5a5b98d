import ClassWeave.Proofs.Utility.Agreement

namespace ClassWeave.Utility

open Style Text

def Table.rulesOf (t : Table) (scope : Scope) (layer : Layer) (texts : List String) : Sheet :=
  texts.flatMap fun text => ((t.interpret text).sheet.withScope scope).withLayer layer

namespace Table

variable {t : Table} {scope : Scope} {layer : Layer} {text : String} {r q : Rule}

theorem rulesOf_append (texts texts' : List String) :
    t.rulesOf scope layer (texts ++ texts') =
      t.rulesOf scope layer texts ++ t.rulesOf scope layer texts' := List.flatMap_append

theorem mem_rulesOf {texts : List String} : r ∈ t.rulesOf scope layer texts ↔
    ∃ text ∈ texts, ∃ token ∈ wordsOf text, ∃ e, t.lookup token = some e ∧
      r = ⟨classSelector token, scope, none, e.2, layer, e.1⟩ := by
  simp only [rulesOf, Sheet.withLayer, Sheet.withScope, List.map_map, List.mem_flatMap,
    List.mem_map, mem_interpret, Function.comp_apply]
  constructor
  · rintro ⟨text, htext, _, ⟨token, htoken, e, he, rfl⟩, rfl⟩
    exact ⟨text, htext, token, htoken, e, he, rfl⟩
  · rintro ⟨text, htext, token, htoken, e, he, rfl⟩
    exact ⟨text, htext, _, ⟨token, htoken, e, he, rfl⟩, rfl⟩

theorem eq_of_mem_rulesOf {texts : List String} (hr : r ∈ t.rulesOf scope layer texts)
    (hq : q ∈ t.rulesOf scope layer texts) (hkey : q.key = r.key) : q = r := by
  obtain ⟨-, -, token, -, e, he, rfl⟩ := mem_rulesOf.1 hr
  obtain ⟨-, -, other, -, d, hd, rfl⟩ := mem_rulesOf.1 hq
  cases classSelector_inj (congrArg Rule.Key.selector hkey)
  cases he.symm.trans hd
  rfl

def DeclaresOnce (t : Table) (text : String) : Prop :=
  ∀ token ∈ wordsOf text, ∀ e, t.lookup token = some e → (e.2.map Declaration.property).Nodup

theorem combine_rulesOf_again (h : t.DeclaresOnce text) (scope : Scope) (layer : Layer)
    (before between after : List String) :
    (t.rulesOf scope layer (before ++ [text] ++ between ++ [text] ++ after)).combine =
      (t.rulesOf scope layer (before ++ [text] ++ between ++ after)).combine := by
  simp only [rulesOf_append]
  apply Sheet.combine_append_again
  · intro q hq r hr hkey
    simp only [← rulesOf_append] at hq
    have hmem : r ∈ t.rulesOf scope layer (before ++ [text] ++ between ++ after) := by
      rw [rulesOf_append, rulesOf_append, rulesOf_append]
      exact List.mem_append_left _ (List.mem_append_left _ (List.mem_append_right _ hr))
    exact eq_of_mem_rulesOf hmem hq hkey
  · intro r hr
    obtain ⟨text', htext, token, htoken, e, he, rfl⟩ := mem_rulesOf.1 hr
    cases List.mem_singleton.1 htext
    exact h token htoken e he

end Table

/-- A combined sheet declares each property of a rule once, and is not changed by using the sheet again,
exactly if whatever the first rule of a key declares more than once is declared by a later rule of that
key too. From the second use on each rule keeps of every property the last declaration. A class whose
entry in a table declares each property once may be used as often as one likes. -/
theorem combine_again (s : Sheet) (t : Table) (text : String) :
    ((∀ r ∈ s.combine, r.properties.Nodup) ↔ s.Settles) ∧
    (Sheet.combine (s ++ s) = s.combine ↔ s.Settles) ∧
    (∀ n, Sheet.combine (List.replicate (n + 2) s).flatten = s.combine.map Rule.lasting) ∧
    (t.DeclaresOnce text → ∀ scope layer before between after,
      (t.rulesOf scope layer (before ++ [text] ++ between ++ [text] ++ after)).combine =
        (t.rulesOf scope layer (before ++ [text] ++ between ++ after)).combine) :=
  ⟨Sheet.settles_iff.symm, Sheet.combine_append_self_iff, Sheet.combine_copies s,
    Table.combine_rulesOf_again⟩

theorem combine_again_flex :
    let t : Table := ⟨[("flex", [⟨"display", "flex"⟩]), ("p-4", [⟨"padding", "1rem"⟩])], []⟩
    let s := t.rulesOf .deferred .utility ["flex", "p-4"]
    s.Settles ∧ Sheet.combine (s ++ s) = s.combine ∧ t.DeclaresOnce "flex" ∧
      (t.rulesOf .deferred .utility ["flex", "p-4", "flex"]).combine = s.combine := by
  intro t s
  obtain ⟨hnodup, hagain, -, hclass⟩ := combine_again s t "flex"
  have hsettles : s.Settles := by
    apply hnodup.1
    have hs : s.combine = s := by decide
    rw [hs]
    decide
  have honce : t.DeclaresOnce "flex" := by
    intro token htoken e he
    have hflex : wordsOf "flex" = ["flex"] := by decide
    rw [hflex, List.mem_singleton] at htoken
    subst htoken
    cases he
    exact List.nodup_singleton _
  exact ⟨hsettles, hagain.2 hsettles, honce, hclass honce .deferred .utility [] ["p-4"] []⟩

theorem exists_combine_again_ne :
    let s : Sheet := [Rule.plain ".box" [⟨"display", "-webkit-box"⟩, ⟨"display", "flex"⟩] 0]
    (∃ r ∈ s.combine, ¬ r.properties.Nodup) ∧ Sheet.combine (s ++ s) ≠ s.combine := by
  decide

end ClassWeave.Utility

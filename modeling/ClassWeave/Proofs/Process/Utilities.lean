import Mathlib.Data.List.Nodup
import ClassWeave.Proofs.Process.Frame
import ClassWeave.Proofs.Process.Sheet
import ClassWeave.Proofs.Scan.Sheets
import ClassWeave.Proofs.Utility.Agreement

namespace ClassWeave

open Markup Style Text Utility

namespace Resolver

variable {resolver : Resolver} {options : Options} {r : Rule}

theorem layer_of_mem_baseSheet {tags : List String} {includeGlobal : Bool}
    (h : r ∈ resolver.baseSheet tags includeGlobal) : r.layer = .preflight := by
  obtain ⟨q, -, rfl⟩ := List.mem_map.1 h
  rfl

theorem layer_of_mem_ofAttribute {classes : String}
    (h : r ∈ (resolver.ofAttribute options classes).sheet) : r.layer = .utility := by
  rw [ofAttribute] at h
  cases hmode : options.mode with
  | replace =>
    rw [hmode] at h
    obtain ⟨q, -, rfl⟩ := List.mem_map.1 h
    rfl
  | resolveInPlace =>
    rw [hmode] at h
    obtain ⟨q, -, rfl⟩ := List.mem_map.1 h
    rfl

theorem layer_of_mem_ofDirective {classes : String}
    (h : r ∈ (resolver.ofDirective classes).sheet) : r.layer = .directive := by
  obtain ⟨q, -, rfl⟩ := List.mem_map.1 h
  rfl

end Resolver

namespace Processor

variable {p : Processor} {session : Session} {component : Component} {scan : Scan}

theorem mem_rulesOf_directive (hscan : component.scan p.resolver session = .ok scan) (file : String)
    (r : Rule) :
    r ∈ p.rulesOf session file scan ∧ r.layer = .directive ↔
      ∃ text ∈ component.places.flatMap Place.askedTexts,
        r ∈ (p.resolver.ofDirective text).sheet := by
  obtain ⟨hdirectives, hutilities⟩ := Scan.sheets_eq p.resolver hscan
  simp only [rulesOf, hdirectives, hutilities, List.mem_append, List.mem_flatten, List.mem_map,
    exists_exists_and_eq_and]
  constructor
  · rintro ⟨(h | ⟨part, -, h⟩) | h, hlayer⟩
    · cases hlayer.symm.trans (Resolver.layer_of_mem_baseSheet h)
    · cases hlayer.symm.trans (Resolver.layer_of_mem_ofAttribute h)
    · exact h
  · rintro ⟨text, htext, h⟩
    exact ⟨.inr ⟨text, htext, h⟩, Resolver.layer_of_mem_ofDirective h⟩

theorem mem_rulesOf_utility (hscan : component.scan p.resolver session = .ok scan) (file : String)
    (r : Rule) :
    r ∈ p.rulesOf session file scan ∧ r.layer = .utility ↔
      ∃ part ∈ component.classTexts.filter TextPart.hasClasses,
        r ∈ (Scan.resolutionOf p.resolver session.options part).sheet := by
  obtain ⟨hdirectives, hutilities⟩ := Scan.sheets_eq p.resolver hscan
  simp only [rulesOf, hdirectives, hutilities, List.mem_append, List.mem_flatten, List.mem_map,
    exists_exists_and_eq_and]
  constructor
  · rintro ⟨(h | h) | ⟨text, -, h⟩, hlayer⟩
    · cases hlayer.symm.trans (Resolver.layer_of_mem_baseSheet h)
    · exact h
    · cases hlayer.symm.trans (Resolver.layer_of_mem_ofDirective h)
  · rintro ⟨part, hpart, h⟩
    exact ⟨.inl (.inr ⟨part, hpart, h⟩), Resolver.layer_of_mem_ofAttribute h⟩

end Processor

namespace Utility.Table

variable {t : Table} {classes stem : String} {options : Options}

theorem fills_of_texts {texts : List String} {layer : Layer} {scope : Scope} {s : Sheet}
    (h : ∀ r, r ∈ s ∧ r.layer = layer ↔ ∃ text ∈ texts, ∃ q ∈ (t.interpret text).sheet,
      r = { q with scope := scope, layer := layer }) :
    t.Fills layer scope (texts.flatMap wordsOf) s where
  exists_rule token htoken e he := by
    obtain ⟨text, htext, hword⟩ := List.mem_flatMap.1 htoken
    have hr := (h _).2 ⟨text, htext, _, mem_interpret.2 ⟨token, hword, e, he, rfl⟩, rfl⟩
    exact ⟨_, hr.1, rfl, rfl, rfl⟩
  exists_token r hr hlayer := by
    obtain ⟨text, htext, q, hq, rfl⟩ := (h r).1 ⟨hr, hlayer⟩
    obtain ⟨token, hword, e, he, rfl⟩ := mem_interpret.1 hq
    exact ⟨token, List.mem_flatMap.2 ⟨text, htext, hword⟩, e, he, rfl, rfl, rfl⟩

theorem mem_ofDirective {r : Rule} :
    r ∈ (t.resolver.ofDirective classes).sheet ↔ ∃ q ∈ (t.interpret classes).sheet,
      r = { q with scope := .component, layer := .directive } := by
  have hsheet : (t.resolver.ofDirective classes).sheet =
      Sheet.withLayer (t.interpret classes).sheet .directive := rfl
  rw [hsheet, Sheet.withLayer, List.mem_map]
  constructor
  · rintro ⟨q, hq, rfl⟩
    obtain ⟨token, -, e, -, rfl⟩ := mem_interpret.1 hq
    exact ⟨_, hq, rfl⟩
  · rintro ⟨q, hq, rfl⟩
    obtain ⟨token, -, e, -, rfl⟩ := mem_interpret.1 hq
    exact ⟨_, hq, rfl⟩

theorem mem_ofAttribute_resolveInPlace (hmode : options.mode = .resolveInPlace) {r : Rule} :
    r ∈ (t.resolver.ofAttribute options classes).sheet ↔ ∃ q ∈ (t.interpret classes).sheet,
      r = { q with scope := .deferred, layer := .utility } := by
  have hsheet : (t.resolver.ofAttribute options classes).sheet =
      Sheet.withLayer (Sheet.withScope (t.interpret classes).sheet .deferred) .utility := by
    rw [Resolver.ofAttribute, hmode]
    rfl
  simp only [hsheet, Sheet.withLayer, Sheet.withScope, List.map_map, List.mem_map,
    Function.comp_apply, eq_comm]

theorem exists_sheet_compile {name : String} (h : (t.compile classes stem).emitted = some name) :
    ∃ r : Rule, (t.compile classes stem).sheet = [r] ∧
      r.key = classKey .utility .component name ∧
      ∀ token ∈ wordsOf classes, ∀ e, t.lookup token = some e →
        e.2.map Declaration.property ⊆ r.properties := by
  obtain ⟨r, hr, hkey, -, hdeclarations⟩ := (t.agreement classes stem).sheet_of_some name h
  refine ⟨r, hr, hkey, ?_⟩
  intro token htoken e he property hproperty
  have hrule := mem_interpret.2 ⟨token, htoken, e, he, rfl⟩
  rw [Rule.properties, hdeclarations, Declaration.mem_properties_lasting]
  exact List.map_subset _ (Sheet.subset_declarations hrule) hproperty

theorem exists_emitted (stem : String) {token : String} {e : UInt32 × List Declaration}
    (htoken : token ∈ wordsOf classes) (he : t.lookup token = some e) :
    ∃ name, (t.compile classes stem).emitted = some name := by
  have hresolved : token ∈ t.resolved classes := by
    rw [mem_resolved, knows, he]
    exact ⟨htoken, rfl⟩
  rw [emitted_compile, if_neg (List.ne_nil_of_mem hresolved)]
  exact ⟨_, rfl⟩

theorem ofAttribute_replace (hmode : options.mode = .replace) (classes : String) :
    (t.resolver.ofAttribute options classes).emitted =
        (t.compile classes options.classStem).emitted ∧
      (t.resolver.ofAttribute options classes).sheet =
        (t.compile classes options.classStem).sheet := by
  have hsheet : Sheet.withLayer (t.compile classes options.classStem).sheet .utility =
      (t.compile classes options.classStem).sheet := by
    cases hname : (t.compile classes options.classStem).emitted with
    | none => rw [sheet_compile_of_emitted_eq_none hname]; rfl
    | some name =>
      obtain ⟨r, hr, hkey, -⟩ := exists_sheet_compile hname
      have hlayer : r.layer = .utility := congrArg Rule.Key.layer hkey
      rw [hr, Sheet.withLayer, List.map_singleton, ← hlayer]
  rw [Resolver.ofAttribute, hmode]
  exact ⟨rfl, hsheet⟩

end Utility.Table

namespace Scan

def emittedNames (resolver : Resolver) (options : Options) (c : Component) : List String :=
  (c.classTexts.filterMap fun part => (resolutionOf resolver options part).emitted).eraseDups

end Scan

/-- That the utilities of a sheet are those that a component uses. -/
structure Utility.Table.Serves (t : Table) (options : Options) (c : Component) (s : Sheet) :
    Prop where
  directive : t.Lists .directive .component c.directiveWords s
  resolveInPlace : options.mode = .resolveInPlace → t.Lists .utility .deferred c.classWords s
  replace : options.mode = .replace → (Sheet.keysIn s .utility).Perm
    ((Scan.emittedNames t.resolver options c).map (classKey .utility .component))
  declares : options.mode = .replace → ∀ part ∈ c.classTexts, ∀ token ∈ wordsOf part.text,
    ∀ e, t.lookup token = some e →
      ∃ name, (Scan.resolutionOf t.resolver options part).emitted = some name ∧
        ∃ r ∈ s, r.key = classKey .utility .component name ∧
          e.2.map Declaration.property ⊆ r.properties

theorem Markup.TextPart.wordsOf_trim (part : TextPart) :
    wordsOf (.ofList (trim part.text.toList)) = wordsOf part.text := by
  rw [wordsOf, String.toList_ofList, words_trim]
  rfl

theorem Markup.TextPart.hasClasses_of_mem {part : TextPart} {w : String}
    (h : w ∈ wordsOf part.text) : part.hasClasses = true := by
  rw [← part.wordsOf_trim] at h
  apply hasClasses_iff.2
  intro hnil
  rw [hnil] at h
  cases h

theorem Markup.Component.mem_classWords {c : Component} {w : String} :
    w ∈ ((c.classTexts.filter TextPart.hasClasses).map fun part =>
        String.ofList (trim part.text.toList)).flatMap wordsOf ↔ w ∈ c.classWords := by
  simp only [Component.classWords, List.mem_flatMap, List.mem_map, List.mem_filter,
    exists_exists_and_eq_and, TextPart.wordsOf_trim]
  constructor
  · rintro ⟨part, ⟨hpart, -⟩, hw⟩
    exact ⟨part, hpart, hw⟩
  · rintro ⟨part, hpart, hw⟩
    exact ⟨part, ⟨hpart, part.hasClasses_of_mem hw⟩, hw⟩

namespace Processor

variable {t : Table} {read : String → Except Failure Component} {session : Session}
  {component : Component} {scan : Scan}

theorem fills_directive (hscan : component.scan t.resolver session = .ok scan) (file : String) :
    t.Fills .directive .component component.directiveWords
      (rulesOf ⟨t.resolver, read⟩ session file scan) := by
  have hfills : t.Fills .directive .component (askedWords component.places)
      (rulesOf ⟨t.resolver, read⟩ session file scan) := by
    apply Table.fills_of_texts
    intro r
    rw [mem_rulesOf_directive (p := ⟨t.resolver, read⟩) hscan]
    simp only [Table.mem_ofDirective]
  exact hfills.congr (mem_askedWords_of_scan hscan)

theorem fills_utility (hscan : component.scan t.resolver session = .ok scan) (file : String)
    (hmode : session.options.mode = .resolveInPlace) :
    t.Fills .utility .deferred component.classWords
      (rulesOf ⟨t.resolver, read⟩ session file scan) := by
  have hfills : t.Fills .utility .deferred
      (((component.classTexts.filter TextPart.hasClasses).map fun part =>
        String.ofList (trim part.text.toList)).flatMap wordsOf)
      (rulesOf ⟨t.resolver, read⟩ session file scan) := by
    apply Table.fills_of_texts
    intro r
    rw [mem_rulesOf_utility (p := ⟨t.resolver, read⟩) hscan]
    simp only [Scan.resolutionOf, Table.mem_ofAttribute_resolveInPlace hmode, List.mem_map,
      exists_exists_and_eq_and]
  exact hfills.congr fun w => Component.mem_classWords

variable (read) in
theorem exists_rule_of_emitted (hscan : component.scan t.resolver session = .ok scan)
    (file : String) (hmode : session.options.mode = .replace) {part : TextPart}
    (hpart : part ∈ component.classTexts) {name : String}
    (hname : (Scan.resolutionOf t.resolver session.options part).emitted = some name) :
    ∃ r ∈ rulesOf ⟨t.resolver, read⟩ session file scan,
      r.key = classKey .utility .component name ∧
      ∀ token ∈ wordsOf part.text, ∀ e, t.lookup token = some e →
        e.2.map Declaration.property ⊆ r.properties := by
  obtain ⟨hemitted, hsheet⟩ :=
    Table.ofAttribute_replace (t := t) hmode (.ofList (trim part.text.toList))
  obtain ⟨r, hr, hkey, hdeclares⟩ := Table.exists_sheet_compile (hemitted.symm.trans hname)
  rw [part.wordsOf_trim] at hdeclares
  have hclasses : part.hasClasses = true := by
    apply TextPart.hasClasses_iff.2
    intro hnil
    rw [Scan.resolutionOf, hemitted, hnil, Table.emitted_compile, if_pos] at hname
    · cases hname
    · rfl
  have hmem : r ∈ (Scan.resolutionOf t.resolver session.options part).sheet := by
    rw [Scan.resolutionOf, hsheet, hr]
    exact List.mem_cons_self
  have := (mem_rulesOf_utility (p := ⟨t.resolver, read⟩) hscan file r).2
    ⟨part, List.mem_filter.2 ⟨hpart, hclasses⟩, hmem⟩
  exact ⟨r, this.1, hkey, hdeclares⟩

theorem emitted_of_mem_rulesOf (hscan : component.scan t.resolver session = .ok scan)
    (file : String) (hmode : session.options.mode = .replace) {r : Rule}
    (hr : r ∈ rulesOf ⟨t.resolver, read⟩ session file scan) (hlayer : r.layer = .utility) :
    ∃ part ∈ component.classTexts, ∃ name,
      (Scan.resolutionOf t.resolver session.options part).emitted = some name ∧
        r.key = classKey .utility .component name := by
  obtain ⟨part, hpart, hmem⟩ :=
    (mem_rulesOf_utility (p := ⟨t.resolver, read⟩) hscan file r).1 ⟨hr, hlayer⟩
  obtain ⟨hemitted, hsheet⟩ :=
    Table.ofAttribute_replace (t := t) hmode (.ofList (trim part.text.toList))
  rw [Scan.resolutionOf, hsheet] at hmem
  cases hname : (t.compile (.ofList (trim part.text.toList)) session.options.classStem).emitted with
  | none =>
    rw [Table.sheet_compile_of_emitted_eq_none hname] at hmem
    cases hmem
  | some name =>
    obtain ⟨q, hq, hkey, -⟩ := Table.exists_sheet_compile hname
    rw [hq, List.mem_singleton] at hmem
    exact ⟨part, (List.mem_filter.1 hpart).1, name, hemitted.trans hname, hmem ▸ hkey⟩

theorem perm_keysIn_utility (hscan : component.scan t.resolver session = .ok scan)
    (file : String) (hmode : session.options.mode = .replace) :
    (Sheet.keysIn (sheetOf ⟨t.resolver, read⟩ session file scan) .utility).Perm
      ((Scan.emittedNames t.resolver session.options component).map
        (classKey .utility .component)) := by
  have hgathers := gathers_sheetOf ⟨t.resolver, read⟩ session file scan
  have hnodup : ((Scan.emittedNames t.resolver session.options component).map
      (classKey .utility .component)).Nodup := by
    apply List.Nodup.map
    · intro a b hab
      exact classKey_inj hab
    · exact Scan.nodup_eraseDups _
  apply (List.perm_ext_iff_of_nodup (hgathers.nodup_keysIn _) hnodup).2
  intro k
  simp only [hgathers.mem_keysIn, Scan.emittedNames, List.mem_map, List.mem_eraseDups,
    List.mem_filterMap]
  constructor
  · rintro ⟨r, hr, hlayer, rfl⟩
    obtain ⟨part, hpart, name, hname, hkey⟩ := emitted_of_mem_rulesOf hscan file hmode hr hlayer
    exact ⟨name, ⟨part, hpart, hname⟩, hkey.symm⟩
  · rintro ⟨name, ⟨part, hpart, hname⟩, rfl⟩
    obtain ⟨r, hr, hkey, -⟩ := exists_rule_of_emitted read hscan file hmode hpart hname
    exact ⟨r, hr, congrArg Rule.Key.layer hkey, hkey⟩

theorem serves_sheetOf (hsize : t.size < UInt32.size)
    (hscan : component.scan t.resolver session = .ok scan) (file : String) :
    t.Serves session.options component (sheetOf ⟨t.resolver, read⟩ session file scan) := by
  have hgathers := gathers_sheetOf ⟨t.resolver, read⟩ session file scan
  have hsort : (sheetOf ⟨t.resolver, read⟩ session file scan).Pairwise
      fun a b => (a.compare b).isLE = true := Sheet.pairwise_sort _
  constructor
  · exact (fills_directive hscan file).lists hgathers hsize hsort
  · intro hmode
    exact (fills_utility hscan file hmode).lists hgathers hsize hsort
  · exact perm_keysIn_utility hscan file
  · intro hmode part hpart token htoken e he
    rw [← part.wordsOf_trim] at htoken
    obtain ⟨name, hname⟩ := Table.exists_emitted session.options.classStem htoken he
    have hemitted := (Table.ofAttribute_replace (t := t) hmode _).1.trans hname
    obtain ⟨r, hr, hkey, hdeclares⟩ :=
      exists_rule_of_emitted read hscan file hmode hpart hemitted
    obtain ⟨q, hq, hqkey, hsub⟩ := hgathers.exists_mem hr
    rw [part.wordsOf_trim] at htoken
    refine ⟨name, hemitted, q, hq, hqkey.trans hkey, ?_⟩
    intro p hp
    exact hsub (hdeclares token htoken e he hp)

/-- The css of a component is the text of a sheet, which has all utilities that the component uses,
each once, and no others. -/
theorem exists_sheet_serves (hsize : t.utilities.length < UInt32.size) {file source : String}
    {p : Processed} {s : Session}
    (h : process ⟨t.resolver, read⟩ session file source = .ok (p, s)) :
    ∃ c out, read source = .ok c ∧
      sheet ⟨t.resolver, read⟩ session file source = .ok out ∧
      p.css = out.text session.options.mode.wrapsDeferred ∧
      t.Serves session.options c out := by
  obtain ⟨c, scan, code, hread, hscan, -, rfl, -⟩ := process_eq_ok_iff.1 h
  exact ⟨c, _, hread, sheet_eq_ok hread hscan, cssOf_eq_text _ _ _ _,
    serves_sheetOf hsize hscan file⟩

theorem exists_sheet_serves_paragraph :
    ∃ (t : Table) (p : Processed) (s : Session), t.utilities.length < UInt32.size ∧
      t.knows "a" = true ∧
      process ⟨t.resolver, Component.parse⟩ (.start ⟨"w", .replace⟩) "f" "<p class=a>" =
        .ok (p, s) ∧
      ∃ c out, Component.parse "<p class=a>" = .ok c ∧
        sheet ⟨t.resolver, Component.parse⟩ (.start ⟨"w", .replace⟩) "f" "<p class=a>" = .ok out ∧
        p.css = out.text Mode.replace.wrapsDeferred ∧ t.Serves ⟨"w", .replace⟩ c out := by
  let t : Table := ⟨[("a", [⟨"color", "red"⟩])], []⟩
  have hresolves : ∀ p ∈ placesOf paragraph.fragment, p.Resolves := by
    intro p hp
    rcases List.mem_cons.1 hp with rfl | hp
    · trivial
    · cases List.mem_singleton.1 hp
      trivial
  have hexists : ∃ scan, paragraph.scan t.resolver (.start ⟨"w", .replace⟩) = .ok scan :=
    Scan.exists_scan_iff.2 hresolves
  obtain ⟨scan, hscan⟩ := hexists
  obtain ⟨code, hprocess⟩ := exists_process t.resolver parse_paragraph hscan "f"
  exact ⟨t, _, _, by decide, by decide, hprocess, exists_sheet_serves (by decide) hprocess⟩

end Processor

end ClassWeave

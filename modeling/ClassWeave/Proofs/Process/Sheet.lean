import ClassWeave.Proofs.Process.Basic
import ClassWeave.Proofs.Style.Sorting
import ClassWeave.Utility.Table

namespace ClassWeave

open Markup Style

namespace Processor

def rulesOf (p : Processor) (session : Session) (file : String) (scan : Scan) : Sheet :=
  p.resolver.baseSheet (session.preflightTags file scan.newTags) (session.includesBaseline file) ++
    scan.utilities.flatten ++ scan.directives.flatten

def sheetOf (p : Processor) (session : Session) (file : String) (scan : Scan) : Sheet :=
  (p.rulesOf session file scan).combine.sort

def sheet (p : Processor) (session : Session) (file source : String) : Except Failure Sheet := do
  let component ← p.read source
  let scan ← component.scan p.resolver session
  return p.sheetOf session file scan

theorem cssOf_eq_text (p : Processor) (session : Session) (file : String) (scan : Scan) :
    p.cssOf session file scan =
      (p.sheetOf session file scan).text session.options.mode.wrapsDeferred := rfl

theorem sheet_eq_ok {p : Processor} {session : Session} {file source : String}
    {component : Component} {scan : Scan} (hread : p.read source = .ok component)
    (hscan : component.scan p.resolver session = .ok scan) :
    p.sheet session file source = .ok (p.sheetOf session file scan) := by
  rw [sheet, hread]
  change component.scan p.resolver session >>= _ = _
  rw [hscan]
  rfl

theorem gathers_sheetOf (p : Processor) (session : Session) (file : String) (scan : Scan) :
    Sheet.Gathers (p.rulesOf session file scan) (p.sheetOf session file scan) :=
  Sheet.gathers_sort_combine _

end Processor

def Utility.PreflightRule.key (e : PreflightRule) : Rule.Key :=
  ⟨.preflight, none, .everywhere, e.selector⟩

theorem Utility.Table.exists_mem_baseSheet {t : Table} {e : PreflightRule} (he : e ∈ t.preflight)
    {tags : List String} {includeGlobal : Bool} (hw : wantsPreflight tags includeGlobal e = true) :
    ∃ r ∈ t.resolver.baseSheet tags includeGlobal,
      r.key = e.key ∧ r.declarations = e.declarations := by
  obtain ⟨i, hi, rfl⟩ := List.getElem_of_mem he
  have hmem : (t.preflight[i], i) ∈
      t.preflight.zipIdx.filter fun e => wantsPreflight tags includeGlobal e.1 := by
    apply List.mem_filter.2
    refine ⟨?_, hw⟩
    rw [List.mk_mem_zipIdx_iff_getElem?]
    exact List.getElem?_eq_getElem hi
  have hrule := List.mem_map_of_mem (f := fun e : PreflightRule × Nat =>
    Rule.plain e.1.selector e.1.declarations (UInt32.ofNat e.2)) hmem
  exact ⟨_, List.mem_map_of_mem (List.mem_map_of_mem hrule), rfl, rfl⟩

end ClassWeave

import ClassWeave.Process

namespace ClassWeave

open Markup Style

namespace Processor

def cssOf (p : Processor) (session : Session) (file : String) (scan : Scan) : String :=
  assemble session.options.mode
    (p.resolver.baseSheet (session.preflightTags file scan.newTags) (session.includesBaseline file))
    scan.utilities scan.directives

def codeOf (source : String) (component : Component) (scan : Scan) (css : String) :
    Except Failure String :=
  ((scan.edits.foldl Splice.overwrite (.ofText source)).inject component.styles css).finish

theorem process_eq (p : Processor) (session : Session) (file source : String) :
    p.process session file source = (do
      let component ← p.read source
      let scan ← component.scan p.resolver session
      let code ← codeOf source component scan (p.cssOf session file scan)
      return (⟨code, p.cssOf session file scan, scan.ignored, scan.newTags,
        session.preflightTags file scan.newTags⟩, session.commit file scan.newTags)) := rfl

theorem map_fst_process (p : Processor) (session : Session) (file source : String) :
    (p.process session file source).map Prod.fst = (do
      let component ← p.read source
      let scan ← component.scan p.resolver session
      let code ← codeOf source component scan (p.cssOf session file scan)
      return ⟨code, p.cssOf session file scan, scan.ignored, scan.newTags,
        session.preflightTags file scan.newTags⟩) := by
  rw [process_eq]
  cases p.read source with
  | error e => rfl
  | ok component =>
    simp only [bind, Except.bind]
    cases component.scan p.resolver session with
    | error e => rfl
    | ok scan =>
      dsimp only
      cases codeOf source component scan (p.cssOf session file scan) <;> rfl

theorem process_eq_ok_iff {p : Processor} {session t : Session} {file source : String}
    {out : Processed} :
    p.process session file source = .ok (out, t) ↔
      ∃ component scan code, p.read source = .ok component ∧
        component.scan p.resolver session = .ok scan ∧
        codeOf source component scan (p.cssOf session file scan) = .ok code ∧
        out = ⟨code, p.cssOf session file scan, scan.ignored, scan.newTags,
          session.preflightTags file scan.newTags⟩ ∧
        t = session.commit file scan.newTags := by
  constructor
  · intro h
    obtain ⟨component, hread, h⟩ := exists_of_bind_ok h
    obtain ⟨scan, hscan, h⟩ := exists_of_bind_ok h
    obtain ⟨code, hcode, h⟩ := exists_of_bind_ok h
    cases h
    exact ⟨component, scan, code, hread, hscan, hcode, rfl, rfl⟩
  · rintro ⟨component, scan, code, hread, hscan, hcode, rfl, rfl⟩
    rw [process, hread]
    change component.scan p.resolver session >>= _ = _
    rw [hscan]
    change codeOf source component scan (p.cssOf session file scan) >>= _ = _
    rw [hcode]
    rfl

end Processor

end ClassWeave

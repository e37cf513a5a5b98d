import ClassWeave.Markup.Component
import ClassWeave.Scan

namespace ClassWeave

open Markup Style

structure Processor where
  resolver : Resolver
  read : String → Except Failure Component := Component.parse

structure Processed where
  code : String
  css : String
  ignored : List String
  newTags : List String
  preflightTags : List String
deriving DecidableEq, Repr, Inhabited

def Mode.wrapsDeferred : Mode → Bool
  | .replace => false
  | .resolveInPlace => true

def assemble (mode : Mode) (preflight : Sheet) (utilities directives : List Sheet) : String :=
  (Sheet.combine (preflight ++ utilities.flatten ++ directives.flatten)).sort.text
    mode.wrapsDeferred

/-- The elements whose base styles a file carries: those new to the session, and on a later visit
those that the file introduced before. -/
def Session.preflightTags (s : Session) (file : String) (newTags : List String) : List String :=
  if s.hasSeen file then
    newTags ++ (s.tagsIntroducedBy file).filter fun tag => !newTags.contains tag
  else newTags

def Processor.process (p : Processor) (session : Session) (file source : String) :
    Except Failure (Processed × Session) := do
  let component ← p.read source
  let scan ← component.scan p.resolver session
  let tags := session.preflightTags file scan.newTags
  let preflight := p.resolver.baseSheet tags (session.includesBaseline file)
  let css := assemble session.options.mode preflight scan.utilities scan.directives
  let splice := scan.edits.foldl Splice.overwrite (.ofText source)
  let code ← (splice.inject component.styles css).finish
  return (⟨code, css, scan.ignored, scan.newTags, tags⟩, session.commit file scan.newTags)

end ClassWeave

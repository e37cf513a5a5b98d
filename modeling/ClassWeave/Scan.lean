import ClassWeave.Markup.Walk
import ClassWeave.Resolution
import ClassWeave.Session
import ClassWeave.Splice

namespace ClassWeave

open Markup Style

def maxConditionalDepth : Nat := 32

structure Scan where
  utilities : List Sheet
  directives : List Sheet
  ignored : List String
  newTags : List String
  edits : List Edit
deriving DecidableEq, Repr, Inhabited

inductive Branch
  | consequent
  | alternate
deriving DecidableEq, Repr

/-- The literal that is reached from the conditional at byte `offset` by always taking the same
branch, the `depth`-th of which is given. -/
def branchLiteral (offset : Nat) (branch : Branch) (depth : Nat) : Expr → Except Failure String
  | .literal text => .ok text
  | .other _ => .error (.malformedConditional offset depth)
  | .conditional _ _ consequent alternate =>
    if maxConditionalDepth ≤ depth then .error (.malformedConditional offset maxConditionalDepth)
    else
      match branch with
      | .consequent => branchLiteral offset branch (depth + 1) consequent
      | .alternate => branchLiteral offset branch (depth + 1) alternate

namespace Scan

def empty : Scan := ⟨[], [], [], [], []⟩

def addTag (session : Session) (name : String) (s : Scan) : Scan :=
  if session.hasTag name || s.newTags.contains name then s
  else { s with newTags := s.newTags ++ [name] }

def addDirective (r : Resolution) (s : Scan) : Scan :=
  { s with ignored := s.ignored ++ r.ignored, directives := s.directives ++ [r.sheet] }

def replacementOf (part : TextPart) (r : Resolution) : Edit :=
  let cs := part.text.toList
  ⟨part.span, .ofList (Text.leading cs ++ r.replacement.toList ++ Text.trailing cs)⟩

def addPart (resolver : Resolver) (options : Options) (part : TextPart) (s : Scan) : Scan :=
  let classes := Text.trim part.text.toList
  if classes.isEmpty then s
  else
    let r := resolver.ofAttribute options (.ofList classes)
    { s with
      edits := s.edits ++ (if options.mode = .replace then [replacementOf part r] else [])
      ignored := s.ignored ++ r.ignored
      utilities := s.utilities ++ [r.sheet] }

def addParts (resolver : Resolver) (options : Options) (parts : List ValuePart) (s : Scan) : Scan :=
  parts.foldl (fun s part =>
    match part with
    | .text part => addPart resolver options part s
    | .expression _ => s) s

def enter (resolver : Resolver) (session : Session) (s : Scan) : Place → Except Failure Scan
  | .element tag _ => .ok (if tag.kind = .element then addTag session tag.name s else s)
  | .classes a => .ok (addParts resolver session.options a.parts s)
  | .directive a => .ok (addDirective (resolver.ofDirective a.name) s)
  | .conditional start _ consequent alternate => do
    let whenTrue ← branchLiteral start .consequent 1 consequent
    let whenFalse ← branchLiteral start .alternate 1 alternate
    return addDirective (resolver.ofDirective (whenTrue ++ " " ++ whenFalse)) s
  | .style _ => .ok s

def visit (resolver : Resolver) (session : Session) (place : Place) :
    StateT Scan (Except Failure) Unit :=
  fun s => (enter resolver session s place).map fun s => ((), s)

end Scan

def Markup.Component.scan (c : Component) (resolver : Resolver) (session : Session) :
    Except Failure Scan :=
  ((c.walk (Scan.visit resolver session)).run .empty).map Prod.snd

end ClassWeave

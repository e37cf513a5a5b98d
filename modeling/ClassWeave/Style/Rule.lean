import ClassWeave.Style.Declaration

namespace ClassWeave.Style

open Text

inductive Layer
  | preflight
  | utility
  | directive
deriving DecidableEq, Repr, Inhabited

def Layer.rank : Layer → Nat
  | preflight => 0
  | utility => 1
  | directive => 2

/-- Which elements a rule may match: those of its component, those of any component, or one of the
two as the sheet decides when it is written. -/
inductive Scope
  | component
  | everywhere
  | deferred
deriving DecidableEq, Repr, Inhabited

def Scope.isGlobal (wrapDeferred : Bool) : Scope → Bool
  | component => false
  | everywhere => true
  | deferred => wrapDeferred

structure Rule where
  selector : String
  scope : Scope
  atRule : Option String
  declarations : List Declaration
  layer : Layer
  order : UInt32
deriving DecidableEq, Repr, Inhabited

def selectorParts (selector : List Char) : List (List Char) :=
  ((splitTopLevel ',' selector).map trim).filter fun p => !p.isEmpty

def wrapGlobal (selector : List Char) : List Char :=
  ", ".toList.intercalate ((selectorParts selector).map fun p => ":global(".toList ++ p ++ [')'])

namespace Rule

def plain (selector : String) (declarations : List Declaration) (order : UInt32) : Rule :=
  ⟨selector, .component, none, declarations, .utility, order⟩

def selectorText (wrapDeferred : Bool) (r : Rule) : String :=
  if r.scope.isGlobal wrapDeferred then .ofList (wrapGlobal r.selector.toList) else r.selector

def text (wrapDeferred : Bool) (r : Rule) : String :=
  let indent := if r.atRule.isSome then "  " else ""
  let lines := r.declarations.map fun d => indent ++ "  " ++ d.text ++ "\n"
  let block := indent ++ r.selectorText wrapDeferred ++ " \x7b\n" ++ String.join lines ++ indent ++
    "\x7d"
  match r.atRule with
  | some head => head ++ " \x7b\n" ++ block ++ "\n\x7d"
  | none => block

structure Key where
  layer : Layer
  atRule : Option String
  scope : Scope
  selector : String
deriving DecidableEq, Repr

def key (r : Rule) : Key := ⟨r.layer, r.atRule, r.scope, r.selector⟩

def merge (r s : Rule) : Rule :=
  { r with
    order := min r.order s.order
    declarations := Declaration.overrideAll r.declarations s.declarations }

end Rule

def compareAtRule : Option String → Option String → Ordering
  | none, none => .eq
  | none, some _ => .lt
  | some _, none => .gt
  | some a, some b => compare a b

def Rule.compare (r s : Rule) : Ordering :=
  (Ord.compare r.layer.rank s.layer.rank).then
    ((compareAtRule r.atRule s.atRule).then
      ((Ord.compare r.order s.order).then (Ord.compare r.selector s.selector)))

end ClassWeave.Style

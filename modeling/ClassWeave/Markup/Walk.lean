import ClassWeave.Markup.Tree

/-!
A visitor is taken through a component in document order: an element before its attributes, these
before its children, a conditional before those inside of it, and the style blocks last.
-/

namespace ClassWeave.Markup

inductive Place
  | element (tag : Tag) (children : List Node)
  | classes (a : ClassAttribute)
  | directive (a : ClassDirective)
  | conditional (start : Nat) (test consequent alternate : Expr)
  | style (block : StyleBlock)

variable {m : Type → Type} [Monad m] (enter : Place → m Unit)

def Expr.walk : Expr → m Unit
  | conditional start test consequent alternate => do
    enter (.conditional start test consequent alternate)
    test.walk
    consequent.walk
    alternate.walk
  | _ => pure ()

def walkValue : List ValuePart → m Unit
  | [] => pure ()
  | .text _ :: ps => walkValue ps
  | .expression tag :: ps => do
    tag.expr.walk enter
    walkValue ps

def Attribute.walk : Attribute → m Unit
  | classes a => do
    enter (.classes a)
    walkValue enter a.parts
  | directive a => do
    enter (.directive a)
    match a.expression with
    | some tag => tag.expr.walk enter
    | none => pure ()
  | other a => walkValue enter a.value

def walkAttributes : List Attribute → m Unit
  | [] => pure ()
  | a :: as => do
    a.walk enter
    walkAttributes as

mutual

def Node.walk : Node → m Unit
  | .element tag children => do
    enter (.element tag children)
    walkAttributes enter tag.attributes
    walkNodes children
  | .expression tag => tag.expr.walk enter
  | .block tag =>
    match tag.expression with
    | some expr => expr.walk enter
    | none => pure ()

def walkNodes : List Node → m Unit
  | [] => pure ()
  | n :: ns => do
    n.walk
    walkNodes ns

end

def walkStyles : List StyleBlock → m Unit
  | [] => pure ()
  | s :: ss => do
    enter (.style s)
    walkStyles ss

def Component.walk (c : Component) : m Unit := do
  walkNodes enter c.fragment
  walkStyles enter c.styles

end ClassWeave.Markup

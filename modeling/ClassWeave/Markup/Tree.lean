import ClassWeave.Failure
import ClassWeave.Markup.Expr

namespace ClassWeave.Markup

structure ExpressionTag where
  span : Span
  expr : Expr
deriving DecidableEq, Repr, Inhabited

structure BlockTag where
  span : Span
  keyword : String
  expression : Option Expr
deriving DecidableEq, Repr, Inhabited

structure TextPart where
  span : Span
  text : String
deriving DecidableEq, Repr, Inhabited

inductive ValuePart
  | text (part : TextPart)
  | expression (tag : ExpressionTag)
deriving DecidableEq, Repr, Inhabited

structure ClassAttribute where
  span : Span
  parts : List ValuePart
deriving DecidableEq, Repr, Inhabited

structure ClassDirective where
  span : Span
  name : String
  expression : Option ExpressionTag
deriving DecidableEq, Repr, Inhabited

structure OtherAttribute where
  span : Span
  name : String
  value : List ValuePart
deriving DecidableEq, Repr, Inhabited

inductive Attribute
  | classes (a : ClassAttribute)
  | directive (a : ClassDirective)
  | other (a : OtherAttribute)
deriving DecidableEq, Repr

inductive ElementKind
  | element
  | component
  | special
deriving DecidableEq, Repr, Inhabited

def ElementKind.ofName (name : String) : ElementKind :=
  if name.toList.contains ':' then .special
  else if name.toList.head?.any Char.isUpper then .component
  else .element

structure Tag where
  name : String
  kind : ElementKind
  span : Span
  attributes : List Attribute
deriving DecidableEq, Repr, Inhabited

inductive Node
  | element (tag : Tag) (children : List Node)
  | expression (tag : ExpressionTag)
  | block (tag : BlockTag)
deriving Repr, Inhabited

structure StyleBlock where
  span : Span
  content : Span
deriving DecidableEq, Repr

structure Component where
  fragment : List Node
  styles : List StyleBlock
deriving Repr

def ValuePart.span : ValuePart → Span
  | text part => part.span
  | expression tag => tag.span

def ValuePart.expression? : ValuePart → Option ExpressionTag
  | text _ => none
  | expression tag => some tag

def Attribute.span : Attribute → Span
  | classes a => a.span
  | directive a => a.span
  | other a => a.span

end ClassWeave.Markup

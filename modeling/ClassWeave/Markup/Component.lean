import ClassWeave.Markup.Token

/-!
Components from tokens. Elements wait on a stack until they are closed by their own closing tag, by
that of an element around them, or by the end of the source; a closing tag without an element does
nothing.
-/

namespace ClassWeave.Markup

open Text

structure OpenElement where
  tag : Tag
  children : List Node

def OpenElement.close (e : OpenElement) (stop : Nat) : Node :=
  .element { e.tag with span := ⟨e.tag.span.start, stop⟩ } e.children

structure Builder where
  opened : List OpenElement
  fragment : List Node
  styles : List StyleBlock

namespace Builder

def empty : Builder := ⟨[], [], []⟩

def attach (b : Builder) (node : Node) : Builder :=
  match b.opened with
  | [] => { b with fragment := b.fragment ++ [node] }
  | e :: es => { b with opened := { e with children := e.children ++ [node] } :: es }

def closeInnermost (stop : Nat) (b : Builder) : Builder :=
  match b.opened with
  | [] => b
  | e :: es => { b with opened := es }.attach (e.close stop)

def closeNamed (b : Builder) (name : String) (stop : Nat) : Builder :=
  match b.opened.findIdx? (·.tag.name == name) with
  | none => b
  | some depth => Nat.repeat (closeInnermost stop) (depth + 1) b

def add (b : Builder) : Token → Builder
  | .opening tag leaf =>
    if leaf then b.attach (.element tag []) else { b with opened := ⟨tag, []⟩ :: b.opened }
  | .closing name stop => b.closeNamed name stop
  | .expression tag => b.attach (.expression tag)
  | .block tag => b.attach (.block tag)
  | .style block => if b.opened.isEmpty then { b with styles := b.styles ++ [block] } else b

def finish (b : Builder) (length : Nat) : Component :=
  let b := Nat.repeat (closeInnermost length) b.opened.length b
  ⟨b.fragment, b.styles⟩

end Builder

def Component.ofTokens (length : Nat) (ts : List Token) : Component :=
  (ts.foldl Builder.add .empty).finish length

def Component.parse (source : String) : Except Failure Component :=
  (tokens source.toList).map (ofTokens (byteLength source.toList))

end ClassWeave.Markup

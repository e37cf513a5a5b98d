import Mathlib.Data.List.Chain
import ClassWeave.Markup.Component

namespace ClassWeave.Markup.Canonical

open Text

inductive Quoted (quote : Char) : List Char → Prop
  | nil : Quoted quote []
  | escaped (x : Char) {w : List Char} (h : Quoted quote w) : Quoted quote ('\x5c' :: x :: w)
  | cons {x : Char} (hquote : x ≠ quote) (hescape : x ≠ '\x5c') {w : List Char}
      (h : Quoted quote w) : Quoted quote (x :: w)

/-- All quotes are closed, and the curly brackets outside of them are balanced. -/
inductive Closed : List Char → Prop
  | nil : Closed []
  | cons {x : Char} (hquote : isQuote x = false) (hopen : x ≠ '\x7b') (hclose : x ≠ '\x7d')
      {w : List Char} (h : Closed w) : Closed (x :: w)
  | quoted {quote : Char} (hquote : isQuote quote = true) {v w : List Char}
      (hv : Quoted quote v) (hw : Closed w) : Closed (quote :: (v ++ quote :: w))
  | braced {v w : List Char} (hv : Closed v) (hw : Closed w) :
      Closed ('\x7b' :: (v ++ '\x7d' :: w))

structure Inner where
  chars : List Char
  closed : Closed chars
  start : (trimStart chars).head?.any isBlockSigil = false

structure ElementName where
  chars : List Char
  letter : chars.head?.any Char.isAlpha = true
  clean : ∀ x ∈ chars, isBlank x = false ∧ x ≠ '/' ∧ x ≠ '>'
  not_script : chars ≠ "script".toList
  not_style : chars ≠ "style".toList

structure AttributeName where
  chars : List Char
  ne_nil : chars ≠ []
  clean : ∀ x ∈ chars, isBlank x = false ∧ x ≠ '=' ∧ x ≠ '>' ∧ x ≠ '/'
  start : chars.head? ≠ some '\x7b'

inductive Part
  | text (w : List Char) (ne_nil : w ≠ []) (clean : ∀ x ∈ w, x ≠ '\x22' ∧ x ≠ '\x7b')
  | mustache (e : Inner)

def Part.IsText : Part → Prop
  | text .. => True
  | mustache _ => False

/-- A value has no two texts in a row. -/
inductive Entry
  | bare (name : AttributeName)
  | quoted (name : AttributeName) (plain : ¬ "class:".toList <+: name.chars) (parts : List Part)
      (apart : parts.IsChain fun p q => ¬ (p.IsText ∧ q.IsText))
  | directive (name : List Char)
      (clean : ∀ x ∈ name, isBlank x = false ∧ x ≠ '=' ∧ x ≠ '>' ∧ x ≠ '/') (e : Inner)

def ElementName.IsVoid (name : ElementName) : Prop := String.ofList name.chars ∈ voidElements

instance (name : ElementName) : Decidable name.IsVoid := inferInstanceAs (Decidable (_ ∈ _))

inductive Piece
  | element (name : ElementName) (isOpen : ¬ name.IsVoid) (entries : List Entry)
      (children : List Piece)
  | void (name : ElementName) (isVoid : name.IsVoid) (entries : List Entry)
  | mustache (e : Inner)
  | text (w : List Char) (clean : ∀ x ∈ w, x ≠ '<' ∧ x ≠ '\x7b')

def Inner.print (e : Inner) : List Char := '\x7b' :: (e.chars ++ ['\x7d'])

def Part.print : Part → List Char
  | text w _ _ => w
  | mustache e => e.print

def directiveName (name : List Char) : List Char := "class:".toList ++ name

def Entry.print : Entry → List Char
  | bare name => name.chars
  | quoted name _ parts _ => name.chars ++ '=' :: '\x22' :: (parts.flatMap Part.print ++ ['\x22'])
  | directive name _ e => directiveName name ++ '=' :: e.print

def printOpening (name : ElementName) (entries : List Entry) : List Char :=
  '<' :: (name.chars ++ (entries.flatMap (fun a => ' ' :: a.print) ++ ['>']))

def printClosing (name : ElementName) : List Char := '<' :: '/' :: (name.chars ++ ['>'])

mutual

def Piece.print : Piece → List Char
  | .element name _ entries children =>
    printOpening name entries ++ (printAll children ++ printClosing name)
  | .void name _ entries => printOpening name entries
  | .mustache e => e.print
  | .text w _ => w

def printAll : List Piece → List Char
  | [] => []
  | p :: ps => p.print ++ printAll ps

end

def Inner.tag (e : Inner) (o : Nat) : ExpressionTag :=
  ⟨⟨o, o + byteLength e.print⟩, .read (o + 1) e.chars⟩

def Part.part (o : Nat) : Part → ValuePart
  | text w _ _ => .text ⟨⟨o, o + byteLength w⟩, .ofList w⟩
  | mustache e => .expression (e.tag o)

def valueOf (o : Nat) : List Part → List ValuePart
  | [] => []
  | p :: ps => p.part o :: valueOf (o + byteLength p.print) ps

def Entry.attribute (o : Nat) : Entry → Attribute
  | bare name =>
    let span := ⟨o, o + byteLength name.chars⟩
    if name.chars = "class".toList then .classes ⟨span, []⟩
    else if "class:".toList <+: name.chars then .directive ⟨span, .ofList (name.chars.drop 6), none⟩
    else .other ⟨span, .ofList name.chars, []⟩
  | a@(quoted name _ parts _) =>
    let span := ⟨o, o + byteLength a.print⟩
    let value := valueOf (o + byteLength name.chars + 2) parts
    if name.chars = "class".toList then .classes ⟨span, value⟩
    else .other ⟨span, .ofList name.chars, value⟩
  | a@(directive name _ e) =>
    .directive ⟨⟨o, o + byteLength a.print⟩, .ofList name,
      some (e.tag (o + byteLength (directiveName name) + 1))⟩

def attributesOf (o : Nat) : List Entry → List Attribute
  | [] => []
  | a :: as => a.attribute (o + 1) :: attributesOf (o + 1 + byteLength a.print) as

def tagOf (o stop : Nat) (name : ElementName) (entries : List Entry) : Tag where
  name := .ofList name.chars
  kind := .ofName (.ofList name.chars)
  span := ⟨o, stop⟩
  attributes := attributesOf (o + 1 + byteLength name.chars) entries

mutual

def Piece.nodes (o : Nat) : Piece → List Node
  | p@(.element name _ entries children) =>
    [.element (tagOf o (o + byteLength p.print) name entries)
      (nodesOf (o + byteLength (printOpening name entries)) children)]
  | p@(.void name _ entries) => [.element (tagOf o (o + byteLength p.print) name entries) []]
  | .mustache e => [.expression (e.tag o)]
  | .text _ _ => []

def nodesOf (o : Nat) : List Piece → List Node
  | [] => []
  | p :: ps => p.nodes o ++ nodesOf (o + byteLength p.print) ps

end

end ClassWeave.Markup.Canonical

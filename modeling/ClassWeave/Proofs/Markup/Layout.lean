import ClassWeave.Markup.Token
import ClassWeave.Proofs.Text.Cursor

/-!
The written form of a component, of which nothing is left out. A layout has a text, and it is valid
if each of its pieces ends where a reader would end it. What a valid layout is read as depends on
the byte at which it begins.
-/

namespace ClassWeave.Markup

open Text

def Mustache.ofInner (start : Nat) (inner : List Char) : Except Failure Mustache :=
  let span : Span := ⟨start, start + byteLength inner + 2⟩
  let body : Cursor := (Cursor.mk (start + 1) inner).skipBlanks
  if body.rest.head?.any isBlockSigil then
    if body.rest.head? = some '/' then .ok .closing
    else (readBlock body).map fun r => .block ⟨span, r.1, r.2⟩
  else .ok (.expression ⟨span, .read (start + 1) inner⟩)

abbrev Run := List Char × List Char

inductive ValueLayout
  | quoted (quote : Char) (runs : List Run) (last : List Char)
  | braced (inner : List Char)
  | bare (w : List Char)

inductive AttributeLayout
  | braced (inner : List Char)
  | single (name : List Char)
  | valued (name before after : List Char) (value : ValueLayout)

inductive TagLayout
  | stop (gap : List Char) (closed : Bool)
  | slash (gap : List Char) (rest : TagLayout)
  | item (gap : List Char) (a : AttributeLayout) (rest : TagLayout)

/-- A piece that is read in one step. A `content` is a script or a style, with all that belongs to
it. -/
inductive Layout
  | comment (body : List Char)
  | closing (body : List Char)
  | mustache (inner : List Char)
  | plain (w : List Char)
  | opening (name : List Char) (tag : TagLayout)
  | content (name : List Char) (tag : TagLayout) (body tail : List Char)

def quotedText (quote : Char) (last : List Char) : List Run → List Char
  | [] => last ++ [quote]
  | (w, inner) :: runs => w ++ '\x7b' :: (inner ++ '\x7d' :: quotedText quote last runs)

def ValueLayout.text : ValueLayout → List Char
  | quoted quote runs last => quote :: quotedText quote last runs
  | braced inner => '\x7b' :: (inner ++ ['\x7d'])
  | bare w => w

def AttributeLayout.text : AttributeLayout → List Char
  | braced inner => '\x7b' :: (inner ++ ['\x7d'])
  | single name => name
  | valued name before after value => name ++ (before ++ '=' :: (after ++ value.text))

def TagLayout.text : TagLayout → List Char
  | stop gap closed => gap ++ if closed then ['/', '>'] else ['>']
  | slash gap rest => gap ++ '/' :: rest.text
  | item gap a rest => gap ++ (a.text ++ rest.text)

def TagLayout.closed : TagLayout → Bool
  | stop _ closed => closed
  | slash _ rest => rest.closed
  | item _ _ rest => rest.closed

def Layout.text : Layout → List Char
  | comment body => '<' :: '!' :: '-' :: '-' :: (body ++ ['-', '-', '>'])
  | closing body => '<' :: '/' :: (body ++ ['>'])
  | mustache inner => '\x7b' :: (inner ++ ['\x7d'])
  | plain w => w
  | opening name tag => '<' :: (name ++ tag.text)
  | content name tag body tail =>
    '<' :: (name ++ (tag.text ++ (body ++ '<' :: '/' :: (name ++ (tail ++ ['>'])))))

def textOf (ls : List Layout) : List Char := ls.flatMap Layout.text

theorem byteLength_braced (inner : List Char) :
    byteLength ('\x7b' :: (inner ++ ['\x7d'])) = byteLength inner + 2 := by
  simp [Char.utf8Size]
  omega

theorem AttributeLayout.byteLength_valued (name before after : List Char) (v : ValueLayout) :
    byteLength (valued name before after v).text =
      byteLength name + byteLength before + 1 + byteLength after + byteLength v.text := by
  simp [AttributeLayout.text, Char.utf8Size]
  omega

namespace Layout

theorem byteLength_closing (body : List Char) :
    byteLength (closing body).text = byteLength body + 3 := by
  simp [Layout.text, Char.utf8Size]
  omega

theorem byteLength_opening (name : List Char) (tag : TagLayout) :
    byteLength (opening name tag).text = 1 + byteLength name + byteLength tag.text := by
  simp [Layout.text, Char.utf8Size]
  omega

theorem byteLength_content (name : List Char) (tag : TagLayout) (body tail : List Char) :
    byteLength (content name tag body tail).text =
      1 + byteLength name + byteLength tag.text + byteLength body +
        (byteLength name + byteLength tail + 3) := by
  simp [Layout.text, Char.utf8Size]
  omega

end Layout

def textParts (o : Nat) (w : List Char) : List ValuePart :=
  if w.isEmpty then [] else [.text ⟨⟨o, o + byteLength w⟩, .ofList w⟩]

def quotedParts (last : List Char) (o : Nat) : List Run → Except Failure (List ValuePart)
  | [] => .ok (textParts o last)
  | (w, inner) :: runs => do
    let m ← Mustache.ofInner (o + byteLength w) inner
    let more ← quotedParts last (o + byteLength w + (byteLength inner + 2)) runs
    return textParts o w ++ m.part?.toList ++ more

def ValueLayout.parts (o : Nat) : ValueLayout → Except Failure (List ValuePart)
  | quoted quote runs last => quotedParts last (o + quote.utf8Size) runs
  | braced inner => (Mustache.ofInner o inner).map fun m => m.part?.toList
  | bare w => .ok [.text ⟨⟨o, o + byteLength w⟩, .ofList w⟩]

def AttributeLayout.attribute (o : Nat) : AttributeLayout → Except Failure Attribute
  | braced inner => (Mustache.ofInner o inner).map fun m =>
      .other ⟨⟨o, o + (byteLength inner + 2)⟩, "", m.part?.toList⟩
  | single name => .ok (.ofValue ⟨o, o + byteLength name⟩ name [])
  | valued name before after value =>
    let start := o + byteLength name + byteLength before + 1 + byteLength after
    (value.parts start).map fun ps => .ofValue ⟨o, start + byteLength value.text⟩ name ps

def TagLayout.attributes (o : Nat) : TagLayout → Except Failure (List Attribute)
  | stop _ _ => .ok []
  | slash gap rest => rest.attributes (o + byteLength gap + 1)
  | item gap a rest => do
    let b ← a.attribute (o + byteLength gap)
    let bs ← rest.attributes (o + byteLength gap + byteLength a.text)
    return b :: bs

def TagLayout.isLeaf (name : List Char) (tag : TagLayout) : Bool :=
  tag.closed || voidElements.contains (String.ofList name)

def Layout.token (o : Nat) : Layout → Except Failure (Option Token)
  | comment _ => .ok none
  | closing body => .ok (some (.closing (.ofList (trim body)) (o + (byteLength body + 3))))
  | mustache inner => (Mustache.ofInner o inner).map Mustache.token?
  | plain _ => .ok none
  | opening name tag =>
    let start := o + 1 + byteLength name
    (tag.attributes start).map fun as => some (.opening
      ⟨.ofList name, .ofName (.ofList name), ⟨o, start + byteLength tag.text⟩, as⟩
      (tag.isLeaf name))
  | content name tag body tail =>
    let start := o + 1 + byteLength name
    let inside := start + byteLength tag.text
    let outside := inside + byteLength body
    let after := outside + (byteLength name + byteLength tail + 3)
    (tag.attributes start).map fun _ =>
      if String.ofList name = "style" then some (.style ⟨⟨o, after⟩, ⟨inside, outside⟩⟩) else none

def tokensOf (o : Nat) : List Layout → Except Failure (List Token)
  | [] => .ok []
  | l :: ls => do
    let t ← l.token o
    let ts ← tokensOf (o + byteLength l.text) ls
    return t.toList ++ ts

def Quotable (quote : Char) (w : List Char) : Prop := ∀ x ∈ w, x ≠ quote ∧ x ≠ '\x7b'

def endsBare : List Char → Bool
  | x :: xs => isBlank x || x == '>' || x == '/' && xs.head? == some '>'
  | [] => false

def opensValue (c : Char) : Bool := c == '\x22' || c == '\x27' || c == '\x7b' || isBlank c

def Blanks (w : List Char) : Prop := ∀ x ∈ w, isBlank x = true

def ValueLayout.Valid (next : List Char) : ValueLayout → Prop
  | quoted quote runs last => (quote = '\x22' ∨ quote = '\x27') ∧
      (∀ r ∈ runs, Quotable quote r.1 ∧ Balanced r.2) ∧ Quotable quote last
  | braced inner => Balanced inner
  | bare w => endsBare next = true ∧ unquotedText (w ++ next) = w ∧
      (w ++ next).head?.any opensValue = false

def IsName (name : List Char) : Prop :=
  (∀ x ∈ name, endsName x = false) ∧ name.head? ≠ some '\x7b'

def AttributeLayout.Valid (next : List Char) : AttributeLayout → Prop
  | braced inner => Balanced inner
  | single name => IsName name ∧ name ≠ [] ∧ next.head?.any endsName = true ∧
      (trimStart next).head?.any (· != '=') = true
  | valued name before after value => IsName name ∧ Blanks before ∧ (name = [] → before = []) ∧
      Blanks after ∧ value.Valid next

def TagLayout.Valid : TagLayout → Prop
  | stop gap _ => Blanks gap
  | slash gap rest => Blanks gap ∧ rest.text.head? ≠ some '>' ∧ rest.Valid
  | item gap a rest => Blanks gap ∧ a.Valid rest.text ∧ rest.Valid

def StartsPlain (w : List Char) : Prop :=
  w.head? ≠ some '\x7b' ∧ ¬ "<!--".toList <+: w ∧ ¬ "</".toList <+: w ∧ opensTag w = false

def IsTagName (name : List Char) : Prop :=
  name.head?.any Char.isAlpha = true ∧ ∀ x ∈ name, endsTagName x = false

def IsContentName (name : List Char) : Prop :=
  String.ofList name = "script" ∨ String.ofList name = "style"

instance (name : List Char) : Decidable (IsContentName name) :=
  inferInstanceAs (Decidable (_ ∨ _))

def Layout.Valid (next : List Char) : Layout → Prop
  | comment body => Precedes ['-', '-', '>'] body
  | closing body => '>' ∉ body
  | mustache inner => Balanced inner
  | plain w => w ≠ [] ∧ StartsPlain w ∧ (∀ x ∈ w.tail, isPlain x = true) ∧
      next.head?.any isPlain = false
  | opening name tag => IsTagName name ∧ ¬ IsContentName name ∧
      tag.text.head?.any endsTagName = true ∧ tag.Valid
  | content name tag body tail => IsContentName name ∧ tag.text.head?.any endsTagName = true ∧
      tag.Valid ∧ Precedes ('<' :: '/' :: name) body ∧ '>' ∉ tail

def ValidAll : List Layout → Prop
  | [] => True
  | l :: ls => l.Valid (textOf ls) ∧ ValidAll ls

end ClassWeave.Markup

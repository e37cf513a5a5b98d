import ClassWeave.Markup.Tree
import ClassWeave.Proofs.Text.Stands

namespace ClassWeave.Markup

open Text

/-- Each conditional begins at the first character of its own text, which lies between two bytes. It
is not that of the text in which brackets or blanks stand around it. -/
def Expr.Placed (cs : List Char) : Nat → Nat → Expr → Prop
  | lo, hi, conditional start test consequent alternate =>
    ∃ w t, lo ≤ start ∧ start + byteLength w ≤ hi ∧ Stands cs start w ∧
      trim w = w ∧ unwrap? w = none ∧ ternary? w = some t ∧
      test.Placed cs start (start + byteLength t.test) ∧
      consequent.Placed cs (start + byteLength t.test + 1)
        (start + byteLength t.test + 1 + byteLength t.consequent) ∧
      alternate.Placed cs (start + byteLength t.test + 1 + byteLength t.consequent + 1)
        (start + byteLength w)
  | _, _, _ => True

structure ExpressionTag.Sound (cs : List Char) (tag : ExpressionTag) : Prop where
  covers : ∃ inner, tag.span.Covers cs ('\x7b' :: (inner ++ ['\x7d']))
  placed : tag.expr.Placed cs (tag.span.start + 1) (tag.span.stop - 1)

structure BlockTag.Sound (cs : List Char) (tag : BlockTag) : Prop where
  covers : ∃ inner, tag.span.Covers cs ('\x7b' :: (inner ++ ['\x7d']))
  placed : ∀ e ∈ tag.expression, e.Placed cs (tag.span.start + 1) (tag.span.stop - 1)

theorem lt_of_braced {cs : List Char} {span : Span}
    (h : ∃ inner, span.Covers cs ('\x7b' :: (inner ++ ['\x7d']))) : span.start < span.stop := by
  obtain ⟨inner, hcovers⟩ := h
  exact (hcovers.proper (by simp)).lt

def ValuePart.Sound (cs : List Char) : ValuePart → Prop
  | text part => part.span.Covers cs part.text.toList
  | expression tag => tag.Sound cs

structure SoundValue (cs : List Char) (lo hi : Nat) (ps : List ValuePart) : Prop where
  order : Span.InOrder hi lo (ps.map ValuePart.span)
  sound : ∀ p ∈ ps, p.Sound cs

def Attribute.value : Attribute → List ValuePart
  | classes a => a.parts
  | directive a => a.expression.toList.map .expression
  | other a => a.value

structure Attribute.Sound (cs : List Char) (a : Attribute) : Prop where
  span : a.span.Proper cs
  value : SoundValue cs a.span.start a.span.stop a.value

def IsGap (w : List Char) : Prop := ∀ x ∈ w, isBlank x = true ∨ x = '/'

def SoundAttributes (cs : List Char) (stop : Nat) : Nat → List Attribute → Prop
  | o, [] => ∃ gap, IsGap gap ∧ Span.Covers cs ⟨o, stop⟩ (gap ++ ['>'])
  | o, a :: as => (∃ gap, IsGap gap ∧ Span.Covers cs ⟨o, a.span.start⟩ gap) ∧ a.Sound cs ∧
      SoundAttributes cs stop a.span.stop as

structure Tag.OpensTo (cs : List Char) (stop : Nat) (tag : Tag) : Prop where
  name : Stands cs tag.span.start ('<' :: tag.name.toList)
  attributes : SoundAttributes cs stop (tag.span.start + 1 + byteLength tag.name.toList)
    tag.attributes

def Node.span : Node → Span
  | .element tag _ => tag.span
  | .expression tag => tag.span
  | .block tag => tag.span

mutual

def Node.Sound (cs : List Char) : Node → Prop
  | .element tag children => tag.span.Proper cs ∧
      ∃ stop, tag.OpensTo cs stop ∧
        Span.InOrder tag.span.stop stop (children.map Node.span) ∧ SoundNodes cs children
  | .expression tag => tag.Sound cs
  | .block tag => tag.Sound cs

def SoundNodes (cs : List Char) : List Node → Prop
  | [] => True
  | n :: ns => n.Sound cs ∧ SoundNodes cs ns

end

structure StyleBlock.Sound (cs : List Char) (s : StyleBlock) : Prop where
  span : s.span.Proper cs
  content : ∃ w, s.content.Covers cs w
  start_lt : s.span.start < s.content.start
  stop_lt : s.content.stop < s.span.stop

/-- All that was read up to a byte. -/
structure Component.Sound (cs : List Char) (stop : Nat) (c : Component) : Prop where
  fragment : Span.InOrder stop 0 (c.fragment.map Node.span)
  nodes : SoundNodes cs c.fragment
  styles : Span.InOrder stop 0 (c.styles.map StyleBlock.span)
  blocks : ∀ s ∈ c.styles, s.Sound cs
  apart : ∀ n ∈ c.fragment, ∀ s ∈ c.styles,
    n.span.stop ≤ s.span.start ∨ s.span.stop ≤ n.span.start

end ClassWeave.Markup

import ClassWeave.Proofs.Markup.Building

namespace ClassWeave.Markup

def nowhere : Span := ⟨0, 0⟩

def Expr.unplaced : Expr → Expr
  | conditional _ test consequent alternate =>
    conditional 0 test.unplaced consequent.unplaced alternate.unplaced
  | e => e

def ExpressionTag.unplaced (tag : ExpressionTag) : ExpressionTag := ⟨nowhere, tag.expr.unplaced⟩

def BlockTag.unplaced (tag : BlockTag) : BlockTag :=
  ⟨nowhere, tag.keyword, tag.expression.map Expr.unplaced⟩

section

variable (f : String → String)

def TextPart.unplaced (part : TextPart) : TextPart := ⟨nowhere, f part.text⟩

def ValuePart.unplaced : ValuePart → ValuePart
  | text part => text (part.unplaced f)
  | expression tag => expression tag.unplaced

def Attribute.unplaced : Attribute → Attribute
  | classes a => classes ⟨nowhere, a.parts.map (ValuePart.unplaced f)⟩
  | directive a => directive ⟨nowhere, a.name, a.expression.map ExpressionTag.unplaced⟩
  | other a => other ⟨nowhere, a.name, a.value.map (ValuePart.unplaced id)⟩

def Tag.unplaced (tag : Tag) : Tag :=
  ⟨tag.name, tag.kind, nowhere, tag.attributes.map (Attribute.unplaced f)⟩

mutual

def Node.unplaced : Node → Node
  | .element tag children => .element (tag.unplaced f) (unplacedAll children)
  | .expression tag => .expression tag.unplaced
  | .block tag => .block tag.unplaced

def unplacedAll : List Node → List Node
  | [] => []
  | n :: ns => n.unplaced :: unplacedAll ns

end

def StyleBlock.unplaced (_ : StyleBlock) : StyleBlock := ⟨nowhere, nowhere⟩

def Token.unplaced : Token → Token
  | opening tag leaf => opening (tag.unplaced f) leaf
  | closing name _ => closing name 0
  | expression tag => expression tag.unplaced
  | block tag => block tag.unplaced
  | style s => style s.unplaced

def Place.unplaced : Place → Place
  | element tag children => element (tag.unplaced f) (unplacedAll f children)
  | classes a => classes ⟨nowhere, a.parts.map (ValuePart.unplaced f)⟩
  | directive a => directive ⟨nowhere, a.name, a.expression.map ExpressionTag.unplaced⟩
  | conditional _ test consequent alternate =>
    conditional 0 test.unplaced consequent.unplaced alternate.unplaced
  | style block => style block.unplaced

theorem unplacedAll_eq_map (ns : List Node) : unplacedAll f ns = ns.map (Node.unplaced f) := by
  induction ns with
  | nil => rfl
  | cons n ns ih => rw [unplacedAll, ih, List.map_cons]

def OpenElement.unplaced (e : OpenElement) : OpenElement :=
  ⟨e.tag.unplaced f, unplacedAll f e.children⟩

def Builder.unplaced (b : Builder) : Builder :=
  ⟨b.opened.map (OpenElement.unplaced f), unplacedAll f b.fragment,
    b.styles.map StyleBlock.unplaced⟩

theorem OpenElement.unplaced_close (e : OpenElement) (stop : Nat) :
    (e.close stop).unplaced f = (e.unplaced f).close 0 := rfl

namespace Builder

theorem unplaced_attach (b : Builder) (n : Node) :
    (b.attach n).unplaced f = (b.unplaced f).attach (n.unplaced f) := by
  obtain ⟨opened, fragment, styles⟩ := b
  cases opened with
  | nil => simp [attach, unplaced, unplacedAll_eq_map]
  | cons e es => simp [attach, unplaced, OpenElement.unplaced, unplacedAll_eq_map]

theorem unplaced_closeInnermost (stop : Nat) (b : Builder) :
    (b.closeInnermost stop).unplaced f = (b.unplaced f).closeInnermost 0 := by
  obtain ⟨opened, fragment, styles⟩ := b
  cases opened with
  | nil => rfl
  | cons e es =>
    rw [closeInnermost]
    dsimp only
    rw [unplaced_attach, OpenElement.unplaced_close]
    rfl

theorem unplaced_repeat (stop : Nat) (b : Builder) (k : Nat) :
    (Nat.repeat (closeInnermost stop) k b).unplaced f =
      Nat.repeat (closeInnermost 0) k (b.unplaced f) := by
  induction k with
  | zero => rfl
  | succ k ih => rw [Nat.repeat, unplaced_closeInnermost, ih, Nat.repeat]

theorem findIdx?_unplaced (b : Builder) (name : String) :
    (b.unplaced f).opened.findIdx? (·.tag.name == name) =
      b.opened.findIdx? (·.tag.name == name) := by
  rw [unplaced, List.findIdx?_map]
  rfl

theorem unplaced_add (b : Builder) (t : Token) :
    (b.add t).unplaced f = (b.unplaced f).add (t.unplaced f) := by
  cases t with
  | opening tag leaf =>
    cases leaf with
    | true => exact unplaced_attach f b _
    | false => rfl
  | closing name stop =>
    rw [Token.unplaced, add, add, closeNamed, closeNamed, findIdx?_unplaced]
    cases b.opened.findIdx? (·.tag.name == name) with
    | none => rfl
    | some depth => exact unplaced_repeat f stop b (depth + 1)
  | expression tag => exact unplaced_attach f b _
  | block tag => exact unplaced_attach f b _
  | style block =>
    obtain ⟨opened, fragment, styles⟩ := b
    cases opened <;> simp [add, Token.unplaced, unplaced]

theorem unplaced_foldl (ts : List Token) (b : Builder) :
    (ts.foldl add b).unplaced f = (ts.map (Token.unplaced f)).foldl add (b.unplaced f) := by
  induction ts generalizing b with
  | nil => rfl
  | cons t ts ih => rw [List.foldl_cons, ih, unplaced_add, List.map_cons, List.foldl_cons]

end Builder

theorem Component.unplaced_ofTokens (length : Nat) (ts : List Token) :
    unplacedAll f (Component.ofTokens length ts).fragment =
      (Component.ofTokens 0 (ts.map (Token.unplaced f))).fragment := by
  have hfold := Builder.unplaced_foldl f ts .empty
  have hempty : Builder.empty.unplaced f = .empty := rfl
  rw [hempty] at hfold
  rw [ofTokens, ofTokens, ← hfold]
  generalize ts.foldl Builder.add .empty = b
  have hlen : (b.unplaced f).opened.length = b.opened.length := List.length_map _
  rw [Builder.finish, Builder.finish, hlen, ← Builder.unplaced_repeat f length]
  rfl

theorem Expr.places_unplaced (e : Expr) :
    e.unplaced.places = e.places.map (Place.unplaced f) := by
  induction e with
  | literal text => rfl
  | other text => rfl
  | conditional start test consequent alternate iht ihc iha =>
    simp [Expr.unplaced, Expr.places, Place.unplaced, iht, ihc, iha]

theorem places_unplaced_parts (g : String → String) (ps : List ValuePart) :
    (ps.map (ValuePart.unplaced g)).flatMap ValuePart.places =
      (ps.flatMap ValuePart.places).map (Place.unplaced f) := by
  induction ps with
  | nil => rfl
  | cons p ps ih =>
    cases p with
    | text part => exact ih
    | expression tag =>
      rw [List.map_cons, List.flatMap_cons, List.flatMap_cons, List.map_append, ih]
      exact congrArg (· ++ _) (Expr.places_unplaced f tag.expr)

theorem Attribute.places_unplaced (a : Attribute) :
    (a.unplaced f).places = a.places.map (Place.unplaced f) := by
  cases a with
  | classes a =>
    rw [Attribute.unplaced, Attribute.places, Attribute.places, places_unplaced_parts f f]
    rfl
  | other a => exact places_unplaced_parts f id a.value
  | directive a =>
    cases h : a.expression with
    | none => simp [Attribute.unplaced, Attribute.places, Place.unplaced, h]
    | some tag =>
      simp [Attribute.unplaced, Attribute.places, Place.unplaced, h, ExpressionTag.unplaced,
        Expr.places_unplaced f]

theorem places_unplaced_attributes (as : List Attribute) :
    (as.map (Attribute.unplaced f)).flatMap Attribute.places =
      (as.flatMap Attribute.places).map (Place.unplaced f) := by
  induction as with
  | nil => rfl
  | cons a as ih => simp [Attribute.places_unplaced, ih]

mutual

theorem Node.places_unplaced : (n : Node) →
    (n.unplaced f).places = n.places.map (Place.unplaced f)
  | .element tag children => by
    simp only [Node.unplaced, Node.places, Tag.unplaced, List.map_cons, List.map_append,
      places_unplaced_attributes, places_unplacedAll children, Place.unplaced]
  | .expression tag => Expr.places_unplaced f tag.expr
  | .block tag => by
    cases h : tag.expression <;>
      simp [Node.unplaced, BlockTag.unplaced, Node.places, h, Expr.places_unplaced f]

theorem places_unplacedAll : (ns : List Node) →
    placesOf (unplacedAll f ns) = (placesOf ns).map (Place.unplaced f)
  | [] => rfl
  | n :: ns => by
    simp only [unplacedAll, placesOf, List.map_append, Node.places_unplaced n,
      places_unplacedAll ns]

end

theorem Place.classTexts_unplaced (p : Place) :
    (p.unplaced f).classTexts = p.classTexts.map (TextPart.unplaced f) := by
  cases p with
  | classes a =>
    simp only [Place.unplaced, Place.classTexts, List.filterMap_map, List.map_filterMap]
    congr 1
    funext part
    cases part <;> rfl
  | element | directive | conditional | style => rfl

theorem classTextsOf_unplaced (ns : List Node) :
    classTextsOf (unplacedAll f ns) = (classTextsOf ns).map (TextPart.unplaced f) := by
  rw [classTextsOf, classTextsOf, places_unplacedAll, List.flatMap_map, List.map_flatMap]
  congr 1
  funext p
  exact p.classTexts_unplaced f

end

end ClassWeave.Markup

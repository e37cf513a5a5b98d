import ClassWeave.Markup.Component
import ClassWeave.Proofs.Markup.Places

namespace ClassWeave.Markup

def ValuePart.text? : ValuePart → Option TextPart
  | text part => some part
  | expression _ => none

def Place.classTexts : Place → List TextPart
  | classes a => a.parts.filterMap ValuePart.text?
  | _ => []

def classTextsOf (ns : List Node) : List TextPart := (placesOf ns).flatMap Place.classTexts

def Component.classTexts (c : Component) : List TextPart := c.places.flatMap Place.classTexts

def Attribute.classTexts : Attribute → List TextPart
  | classes a => a.parts.filterMap ValuePart.text?
  | _ => []

def Tag.classTexts (tag : Tag) : List TextPart := tag.attributes.flatMap Attribute.classTexts

def Token.classTexts : Token → List TextPart
  | opening tag _ => tag.classTexts
  | _ => []

theorem Expr.classTexts_places (e : Expr) : e.places.flatMap Place.classTexts = [] := by
  induction e with
  | literal text => rfl
  | other text => rfl
  | conditional start test consequent alternate iht ihc iha =>
    simp [Expr.places, Place.classTexts, iht, ihc, iha]

theorem classTexts_parts (ps : List ValuePart) :
    (ps.flatMap ValuePart.places).flatMap Place.classTexts = [] := by
  induction ps with
  | nil => rfl
  | cons p ps ih =>
    rw [List.flatMap_cons, List.flatMap_append, ih]
    cases p with
    | text part => rfl
    | expression tag => simp [ValuePart.places, Expr.classTexts_places]

theorem Attribute.classTexts_places (a : Attribute) :
    a.places.flatMap Place.classTexts = a.classTexts := by
  cases a with
  | classes a => simp [Attribute.places, Place.classTexts, Attribute.classTexts, classTexts_parts]
  | other a => exact classTexts_parts a.value
  | directive a =>
    cases h : a.expression with
    | none => simp [Attribute.places, Place.classTexts, Attribute.classTexts, h]
    | some tag =>
      simp [Attribute.places, Place.classTexts, Attribute.classTexts, h, Expr.classTexts_places]

theorem classTexts_attributes (as : List Attribute) :
    (as.flatMap Attribute.places).flatMap Place.classTexts = as.flatMap Attribute.classTexts := by
  induction as with
  | nil => rfl
  | cons a as ih => simp [Attribute.classTexts_places, ih]

theorem placesOf_append (ns ms : List Node) : placesOf (ns ++ ms) = placesOf ns ++ placesOf ms := by
  induction ns with
  | nil => rfl
  | cons n ns ih => simp [placesOf, ih]

theorem classTextsOf_append (ns ms : List Node) :
    classTextsOf (ns ++ ms) = classTextsOf ns ++ classTextsOf ms := by
  simp [classTextsOf, placesOf_append]

theorem classTextsOf_element (tag : Tag) (children : List Node) :
    classTextsOf [.element tag children] = tag.classTexts ++ classTextsOf children := by
  simp [classTextsOf, placesOf, Node.places, Place.classTexts, classTexts_attributes, Tag.classTexts]

theorem classTextsOf_expression (tag : ExpressionTag) : classTextsOf [.expression tag] = [] := by
  simp [classTextsOf, placesOf, Node.places, Expr.classTexts_places]

theorem classTextsOf_block (tag : BlockTag) : classTextsOf [.block tag] = [] := by
  cases h : tag.expression <;> simp [classTextsOf, placesOf, Node.places, Expr.classTexts_places, h]

theorem Component.classTexts_eq (c : Component) : c.classTexts = classTextsOf c.fragment := by
  have hstyles : (c.styles.map Place.style).flatMap Place.classTexts = [] := by
    simp [Place.classTexts]
  rw [classTexts, places, List.flatMap_append, hstyles, List.append_nil, classTextsOf]

def Token.nest (names : List String) : Token → List String
  | opening tag leaf => if leaf then names else tag.name :: names
  | closing name _ =>
    match names.findIdx? (· == name) with
    | none => names
    | some depth => names.drop (depth + 1)
  | _ => names

def Token.topStyles (names : List String) : Token → List StyleBlock
  | style s => if names.isEmpty then [s] else []
  | _ => []

def topStyles (names : List String) : List Token → List StyleBlock
  | [] => []
  | t :: ts => t.topStyles names ++ topStyles (t.nest names) ts

namespace Builder

def names (b : Builder) : List String := b.opened.map (·.tag.name)

def classTexts (b : Builder) : List TextPart :=
  classTextsOf b.fragment ++
    b.opened.reverse.flatMap fun e => e.tag.classTexts ++ classTextsOf e.children

theorem names_attach (b : Builder) (n : Node) : (b.attach n).names = b.names := by
  rw [attach]
  split <;> next h => simp [names, h]

theorem styles_attach (b : Builder) (n : Node) : (b.attach n).styles = b.styles := by
  rw [attach]
  split <;> rfl

theorem classTexts_attach (b : Builder) (n : Node) :
    (b.attach n).classTexts = b.classTexts ++ classTextsOf [n] := by
  rw [attach]
  split <;> next h => simp [classTexts, h, classTextsOf_append]

theorem names_closeInnermost (stop : Nat) (b : Builder) :
    (b.closeInnermost stop).names = b.names.tail := by
  rw [closeInnermost]
  split
  · next h => simp [names, h]
  · next h =>
    rw [names_attach]
    simp [names, h]

theorem styles_closeInnermost (stop : Nat) (b : Builder) :
    (b.closeInnermost stop).styles = b.styles := by
  rw [closeInnermost]
  split
  · rfl
  · rw [styles_attach]

theorem classTexts_closeInnermost (stop : Nat) (b : Builder) :
    (b.closeInnermost stop).classTexts = b.classTexts := by
  rw [closeInnermost]
  split
  · rfl
  · next e es h =>
    rw [classTexts_attach, OpenElement.close, classTextsOf_element]
    simp [classTexts, h, Tag.classTexts]

theorem repeat_closeInnermost (stop : Nat) (b : Builder) (k : Nat) :
    (Nat.repeat (closeInnermost stop) k b).names = b.names.drop k ∧
      (Nat.repeat (closeInnermost stop) k b).styles = b.styles ∧
      (Nat.repeat (closeInnermost stop) k b).classTexts = b.classTexts := by
  induction k with
  | zero => exact ⟨rfl, rfl, rfl⟩
  | succ k ih =>
    obtain ⟨hn, hs, ht⟩ := ih
    rw [Nat.repeat, names_closeInnermost, styles_closeInnermost, classTexts_closeInnermost, hn, hs,
      ht, List.tail_drop]
    exact ⟨rfl, rfl, rfl⟩

theorem findIdx?_names (b : Builder) (name : String) :
    b.names.findIdx? (· == name) = b.opened.findIdx? (·.tag.name == name) := by
  rw [names, List.findIdx?_map]
  rfl

theorem names_add (b : Builder) (t : Token) : (b.add t).names = t.nest b.names := by
  cases t with
  | opening tag leaf =>
    cases leaf with
    | true => exact names_attach b _
    | false => rfl
  | closing name stop =>
    rw [add, closeNamed, Token.nest, findIdx?_names]
    cases b.opened.findIdx? (·.tag.name == name) with
    | none => rfl
    | some depth => exact (repeat_closeInnermost stop b (depth + 1)).1
  | expression tag => exact names_attach b _
  | block tag => exact names_attach b _
  | style block =>
    rw [add]
    split <;> rfl

theorem styles_add (b : Builder) (t : Token) :
    (b.add t).styles = b.styles ++ t.topStyles b.names := by
  cases t with
  | opening tag leaf =>
    cases leaf with
    | true => simp [add, styles_attach, Token.topStyles]
    | false => simp [add, Token.topStyles]
  | closing name stop =>
    rw [add, closeNamed]
    cases b.opened.findIdx? (·.tag.name == name) with
    | none => simp [Token.topStyles]
    | some depth => simp [Token.topStyles, (repeat_closeInnermost stop b (depth + 1)).2.1]
  | expression tag => simp [add, styles_attach, Token.topStyles]
  | block tag => simp [add, styles_attach, Token.topStyles]
  | style block =>
    rw [add, Token.topStyles, names, List.isEmpty_map]
    split <;> simp

theorem classTexts_add (b : Builder) (t : Token) :
    (b.add t).classTexts = b.classTexts ++ t.classTexts := by
  cases t with
  | opening tag leaf =>
    cases leaf with
    | true =>
      rw [add, if_pos rfl, classTexts_attach, classTextsOf_element]
      simp [Token.classTexts, classTextsOf, placesOf]
    | false => simp [add, classTexts, Token.classTexts, classTextsOf, placesOf]
  | closing name stop =>
    rw [add, closeNamed]
    cases b.opened.findIdx? (·.tag.name == name) with
    | none => simp [Token.classTexts]
    | some depth => simp [Token.classTexts, (repeat_closeInnermost stop b (depth + 1)).2.2]
  | expression tag => simp [add, classTexts_attach, classTextsOf_expression, Token.classTexts]
  | block tag => simp [add, classTexts_attach, classTextsOf_block, Token.classTexts]
  | style block =>
    rw [add]
    split <;> simp [classTexts, Token.classTexts]

theorem classTexts_foldl (ts : List Token) (b : Builder) :
    (ts.foldl add b).classTexts = b.classTexts ++ ts.flatMap Token.classTexts := by
  induction ts generalizing b with
  | nil => simp
  | cons t ts ih => simp [ih, classTexts_add]

theorem styles_foldl (ts : List Token) (b : Builder) :
    (ts.foldl add b).styles = b.styles ++ topStyles b.names ts := by
  induction ts generalizing b with
  | nil => simp [topStyles]
  | cons t ts ih => rw [List.foldl_cons, ih, styles_add, names_add, topStyles, List.append_assoc]

end Builder

namespace Builder

def setStyles (b : Builder) (styles : List StyleBlock) : Builder := { b with styles := styles }

theorem setStyles_closeInnermost (stop : Nat) (b : Builder) (styles : List StyleBlock) :
    (b.setStyles styles).closeInnermost stop = (b.closeInnermost stop).setStyles styles := by
  obtain ⟨opened, fragment, old⟩ := b
  cases opened with
  | nil => rfl
  | cons e es => cases es <;> rfl

theorem setStyles_repeat (stop : Nat) (b : Builder) (styles : List StyleBlock) (k : Nat) :
    Nat.repeat (closeInnermost stop) k (b.setStyles styles) =
      (Nat.repeat (closeInnermost stop) k b).setStyles styles := by
  induction k with
  | zero => rfl
  | succ k ih => rw [Nat.repeat, ih, setStyles_closeInnermost, Nat.repeat]

end Builder

theorem Component.fragment_ofTokens_style (length : Nat) (ts : List Token) (s : StyleBlock) :
    (Component.ofTokens length (ts ++ [.style s])).fragment =
      (Component.ofTokens length ts).fragment := by
  rw [ofTokens, ofTokens, List.foldl_append]
  generalize ts.foldl Builder.add .empty = b
  have hadd : ∃ styles, b.add (.style s) = b.setStyles styles := by
    rw [Builder.add]
    split
    · exact ⟨_, rfl⟩
    · exact ⟨b.styles, rfl⟩
  obtain ⟨styles, hstyles⟩ := hadd
  have hlen : (b.setStyles styles).opened.length = b.opened.length := rfl
  rw [List.foldl_cons, List.foldl_nil, hstyles, Builder.finish, Builder.finish, hlen,
    Builder.setStyles_repeat]
  rfl

theorem Component.classTexts_ofTokens (length : Nat) (ts : List Token) :
    (Component.ofTokens length ts).classTexts = ts.flatMap Token.classTexts := by
  have hfold := Builder.classTexts_foldl ts .empty
  rw [ofTokens, Builder.finish]
  generalize ts.foldl Builder.add .empty = b at *
  obtain ⟨hn, -, ht⟩ := Builder.repeat_closeInnermost length b b.opened.length
  generalize Nat.repeat (Builder.closeInnermost length) b.opened.length b = d at *
  have hopened : d.opened = [] := by
    have hlen : b.names.length = b.opened.length := List.length_map _
    rw [← hlen, List.drop_length, Builder.names, List.map_eq_nil_iff] at hn
    exact hn
  rw [Component.classTexts_eq]
  simpa [Builder.classTexts, hopened, Builder.empty, classTextsOf, placesOf] using ht.trans hfold

theorem Component.styles_ofTokens (length : Nat) (ts : List Token) :
    (Component.ofTokens length ts).styles = topStyles [] ts := by
  have hfold := Builder.styles_foldl ts .empty
  rw [ofTokens, Builder.finish]
  dsimp only
  rw [(Builder.repeat_closeInnermost length _ _).2.1, hfold]
  rfl

end ClassWeave.Markup

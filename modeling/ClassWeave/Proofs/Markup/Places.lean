import ClassWeave.Markup.Walk

/-!
The places of a component, listed by recursion on its tree alone. A walk enters exactly these, in
this order, whatever its visitor does.
-/

namespace ClassWeave.Markup

def Expr.places : Expr → List Place
  | conditional start test consequent alternate =>
    .conditional start test consequent alternate ::
      (test.places ++ consequent.places ++ alternate.places)
  | _ => []

def ValuePart.places : ValuePart → List Place
  | text _ => []
  | expression tag => tag.expr.places

def Attribute.places : Attribute → List Place
  | classes a => .classes a :: a.parts.flatMap ValuePart.places
  | directive a => .directive a :: a.expression.toList.flatMap fun tag => tag.expr.places
  | other a => a.value.flatMap ValuePart.places

mutual

def Node.places : Node → List Place
  | .element tag children =>
    .element tag children :: (tag.attributes.flatMap Attribute.places ++ placesOf children)
  | .expression tag => tag.expr.places
  | .block tag => tag.expression.toList.flatMap Expr.places

def placesOf : List Node → List Place
  | [] => []
  | n :: ns => n.places ++ placesOf ns

end

def Component.places (c : Component) : List Place := placesOf c.fragment ++ c.styles.map .style

section Walk

variable {m : Type → Type} [Monad m] [LawfulMonad m] (enter : Place → m Unit)

theorem Expr.walk_eq (e : Expr) : e.walk enter = forM e.places enter := by
  induction e with
  | literal text => rfl
  | other text => rfl
  | conditional start test consequent alternate iht ihc iha =>
    simp only [Expr.walk, Expr.places, List.forM_cons, List.forM_append, iht, ihc, iha, bind_assoc]

theorem walkValue_eq (ps : List ValuePart) :
    walkValue enter ps = forM (ps.flatMap ValuePart.places) enter := by
  induction ps with
  | nil => rfl
  | cons p ps ih =>
    cases p with
    | text part => exact ih
    | expression tag =>
      simp only [walkValue, ValuePart.places, List.flatMap_cons, List.forM_append, Expr.walk_eq, ih]

theorem Attribute.walk_eq (a : Attribute) : a.walk enter = forM a.places enter := by
  cases a with
  | classes a => simp only [Attribute.walk, Attribute.places, List.forM_cons, walkValue_eq]
  | other a => exact walkValue_eq enter a.value
  | directive a =>
    cases h : a.expression with
    | none => simp [Attribute.walk, Attribute.places, h]
    | some tag => simp [Attribute.walk, Attribute.places, h, Expr.walk_eq]

theorem walkAttributes_eq (as : List Attribute) :
    walkAttributes enter as = forM (as.flatMap Attribute.places) enter := by
  induction as with
  | nil => rfl
  | cons a as ih =>
    simp only [walkAttributes, List.flatMap_cons, List.forM_append, Attribute.walk_eq, ih]

mutual

theorem Node.walk_eq : (n : Node) → n.walk enter = forM n.places enter
  | .element tag children => by
    simp only [Node.walk, Node.places, List.forM_cons, List.forM_append, walkAttributes_eq,
      walkNodes_eq children]
  | .expression tag => Expr.walk_eq enter tag.expr
  | .block tag => by
    cases h : tag.expression with
    | none => simp [Node.walk, Node.places, h]
    | some expr => simp [Node.walk, Node.places, h, Expr.walk_eq]

theorem walkNodes_eq : (ns : List Node) → walkNodes enter ns = forM (placesOf ns) enter
  | [] => rfl
  | n :: ns => by
    simp only [walkNodes, placesOf, List.forM_append, Node.walk_eq n, walkNodes_eq ns]

end

omit [LawfulMonad m] in
theorem walkStyles_eq (ss : List StyleBlock) :
    walkStyles enter ss = forM (ss.map Place.style) enter := by
  induction ss with
  | nil => rfl
  | cons s ss ih => simp only [walkStyles, List.map_cons, List.forM_cons, ih]

theorem Component.walk_eq (c : Component) : c.walk enter = forM c.places enter := by
  simp only [Component.walk, Component.places, List.forM_append, walkNodes_eq, walkStyles_eq]

end Walk

def Place.IsConditional : Place → Prop
  | conditional .. => True
  | _ => False

structure Hereditary (P : List Place → Prop) : Prop where
  nil : P []
  append : ∀ ps qs, P ps → P qs → P (ps ++ qs)
  expr : ∀ e : Expr, P e.places
  single : ∀ p : Place, ¬ p.IsConditional → P [p]

namespace Hereditary

variable {P : List Place → Prop} (h : Hereditary P)

include h

theorem flatMap {α : Type} {f : α → List Place} (hf : ∀ x, P (f x)) (xs : List α) :
    P (xs.flatMap f) := by
  induction xs with
  | nil => exact h.nil
  | cons x xs ih => exact h.append _ _ (hf x) ih

theorem ofValue (ps : List ValuePart) : P (ps.flatMap ValuePart.places) := by
  apply h.flatMap
  intro p
  cases p with
  | text part => exact h.nil
  | expression tag => exact h.expr tag.expr

theorem ofAttribute (a : Attribute) : P a.places := by
  cases a with
  | classes a => exact h.append [_] _ (h.single _ id) (h.ofValue a.parts)
  | directive a =>
    apply h.append [_] _ (h.single _ id)
    exact h.flatMap (fun tag : ExpressionTag => h.expr tag.expr) _
  | other a => exact h.ofValue a.value

mutual

theorem ofNode : (n : Node) → P n.places
  | .element tag children =>
    h.append [_] _ (h.single _ id)
      (h.append _ _ (h.flatMap h.ofAttribute tag.attributes) (ofNodes children))
  | .expression tag => h.expr tag.expr
  | .block tag => h.flatMap h.expr tag.expression.toList

theorem ofNodes : (ns : List Node) → P (placesOf ns)
  | [] => h.nil
  | n :: ns => h.append _ _ (ofNode n) (ofNodes ns)

end

theorem ofStyles (ss : List StyleBlock) : P (ss.map .style) := by
  induction ss with
  | nil => exact h.nil
  | cons s ss ih => exact h.append [_] _ (h.single _ id) ih

theorem ofComponent (c : Component) : P c.places :=
  h.append _ _ (h.ofNodes c.fragment) (h.ofStyles c.styles)

end Hereditary

end ClassWeave.Markup

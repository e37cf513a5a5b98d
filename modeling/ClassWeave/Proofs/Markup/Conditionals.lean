import ClassWeave.Proofs.Markup.Places
import ClassWeave.Proofs.Markup.Preorder
import ClassWeave.Proofs.Markup.SoundTokens

namespace ClassWeave.Markup

open Text

def BeginIn (lo hi : Nat) (ps : List Place) : Prop :=
  ∀ start test consequent alternate,
    .conditional start test consequent alternate ∈ ps → lo ≤ start ∧ start < hi

namespace BeginIn

variable {lo lo' hi hi' : Nat} {ps qs : List Place}

theorem nil : BeginIn lo hi [] := by
  intro start test consequent alternate h
  cases h

theorem mono (h : BeginIn lo hi ps) (hlo : lo' ≤ lo) (hhi : hi ≤ hi') : BeginIn lo' hi' ps := by
  intro start test consequent alternate hmem
  have := h _ _ _ _ hmem
  omega

theorem append (hp : BeginIn lo hi ps) (hq : BeginIn lo hi qs) : BeginIn lo hi (ps ++ qs) := by
  intro start test consequent alternate hmem
  rcases List.mem_append.1 hmem with hmem | hmem
  · exact hp _ _ _ _ hmem
  · exact hq _ _ _ _ hmem

theorem flatMap {α : Type} {f : α → List Place} {xs : List α}
    (h : ∀ x ∈ xs, BeginIn lo hi (f x)) : BeginIn lo hi (xs.flatMap f) := by
  intro start test consequent alternate hmem
  obtain ⟨x, hx, hmem⟩ := List.mem_flatMap.1 hmem
  exact h x hx _ _ _ _ hmem

end BeginIn

section Sound

variable {cs : List Char} {lo hi : Nat}

theorem Expr.Placed.beginIn {e : Expr} (h : e.Placed cs lo hi) : BeginIn lo hi e.places := by
  induction e generalizing lo hi with
  | literal text => exact .nil
  | other text => exact .nil
  | conditional start test consequent alternate iht ihc iha =>
    obtain ⟨w, t, hlo, hhi, -, -, -, ht, htest, hconsequent, halternate⟩ := h
    have hlen : byteLength w =
        byteLength t.test + 1 + byteLength t.consequent + 1 + byteLength t.alternate := by
      rw [ternary?_append ht]
      simp [Char.utf8Size]
      omega
    have hrest : BeginIn lo hi (test.places ++ consequent.places ++ alternate.places) := by
      apply BeginIn.append
      · apply BeginIn.append
        · exact (iht htest).mono hlo (by omega)
        · exact (ihc hconsequent).mono (by omega) (by omega)
      · exact (iha halternate).mono (by omega) hhi
    intro s t' c a hmem
    rcases List.mem_cons.1 hmem with heq | hmem
    · cases heq
      omega
    · exact hrest _ _ _ _ hmem

theorem ExpressionTag.Sound.beginIn {tag : ExpressionTag} (h : tag.Sound cs) :
    BeginIn tag.span.start tag.span.stop tag.expr.places :=
  h.placed.beginIn.mono (Nat.le_succ _) (Nat.sub_le _ _)

theorem SoundValue.beginIn {ps : List ValuePart} (h : SoundValue cs lo hi ps) :
    BeginIn lo hi (ps.flatMap ValuePart.places) := by
  apply BeginIn.flatMap
  intro p hp
  obtain ⟨hlo, -, hhi⟩ := h.order.bounds (List.mem_map_of_mem hp)
  cases p with
  | text part => exact .nil
  | expression tag => exact (h.sound _ hp).beginIn.mono hlo hhi

theorem Attribute.Sound.beginIn {a : Attribute} (h : a.Sound cs) :
    BeginIn a.span.start a.span.stop a.places := by
  have hvalue := h.value.beginIn
  intro start test consequent alternate hmem
  apply hvalue start test consequent alternate
  cases a with
  | classes a => simpa [Attribute.places, Attribute.value] using hmem
  | directive a => simpa [Attribute.places, Attribute.value, ValuePart.places] using hmem
  | other a => exact hmem

theorem SoundAttributes.beginIn {stop o : Nat} {as : List Attribute}
    (h : SoundAttributes cs stop o as) :
    o ≤ stop ∧ BeginIn o stop (as.flatMap Attribute.places) := by
  induction as generalizing o with
  | nil =>
    obtain ⟨gap, -, -, hstop⟩ := h
    exact ⟨Nat.le.intro hstop.symm, .nil⟩
  | cons a as ih =>
    obtain ⟨⟨gap, -, -, hstart⟩, ha, has⟩ := h
    obtain ⟨hle, hrest⟩ := ih has
    have hlt := ha.span.lt
    have ho : o ≤ a.span.start := Nat.le.intro hstart.symm
    refine ⟨by omega, ?_⟩
    rw [List.flatMap_cons]
    exact (ha.beginIn.mono ho hle).append (hrest.mono (by omega) (Nat.le_refl _))

end Sound

def Head.places : Head → List Place
  | element tag => tag.attributes.flatMap Attribute.places
  | expression tag => tag.expr.places
  | block tag => tag.expression.toList.flatMap Expr.places

def Token.places : Token → List Place
  | opening tag _ => tag.attributes.flatMap Attribute.places
  | closing _ _ => []
  | expression tag => tag.expr.places
  | block tag => tag.expression.toList.flatMap Expr.places
  | style _ => []

theorem Token.Sound.beginIn {cs : List Char} {start stop : Nat} {t : Token}
    (h : t.Sound cs start stop) : BeginIn start stop t.places := by
  cases t with
  | opening tag leaf =>
    obtain ⟨hspan, -, hopens⟩ := h
    apply hopens.attributes.beginIn.2.mono ?_ (Nat.le_refl _)
    rw [hspan]
    change start ≤ start + 1 + byteLength tag.name.toList
    omega
  | closing name n => exact .nil
  | expression tag =>
    obtain ⟨hspan, htag⟩ := h
    have := htag.beginIn
    rwa [hspan] at this
  | block tag =>
    obtain ⟨hspan, htag⟩ := h
    apply BeginIn.flatMap
    intro e he
    have := (htag.placed e (by simpa using he)).beginIn
    rw [hspan] at this
    exact this.mono (Nat.le_succ _) (Nat.sub_le _ _)
  | style s => exact .nil

theorem Token.places_head? {length : Nat} {names : List String} {later : List Token} {t : Token}
    {head : Head} (h : t.head? length names later = some head) : head.places = t.places := by
  cases t with
  | opening tag leaf =>
    cases h
    rfl
  | expression tag =>
    cases h
    rfl
  | block tag =>
    cases h
    rfl
  | closing | style => cases h

section Tree

variable {start : Nat} {test consequent alternate : Expr}

mutual

theorem Node.exists_of_conditional (around : List String) : (n : Node) →
    Place.conditional start test consequent alternate ∈ n.places →
      ∃ e ∈ n.preorder around, .conditional start test consequent alternate ∈ e.head.places
  | .element tag children, h => by
    rw [Node.places, List.mem_cons, List.mem_append] at h
    rw [Node.preorder]
    rcases h with h | h | h
    · cases h
    · exact ⟨_, List.mem_cons_self, h⟩
    · obtain ⟨e, he, hplace⟩ := exists_of_conditional_placesOf (tag.name :: around) children h
      exact ⟨e, List.mem_cons_of_mem _ he, hplace⟩
  | .expression tag, h => ⟨⟨around, .expression tag⟩, by simp [Node.preorder], h⟩
  | .block tag, h => ⟨⟨around, .block tag⟩, by simp [Node.preorder], h⟩

theorem exists_of_conditional_placesOf (around : List String) : (ns : List Node) →
    Place.conditional start test consequent alternate ∈ placesOf ns →
      ∃ e ∈ preorderOf around ns, .conditional start test consequent alternate ∈ e.head.places
  | [], h => by cases h
  | n :: ns, h => by
    rw [placesOf, List.mem_append] at h
    rw [preorderOf]
    rcases h with h | h
    · obtain ⟨e, he, hplace⟩ := Node.exists_of_conditional around n h
      exact ⟨e, List.mem_append_left _ he, hplace⟩
    · obtain ⟨e, he, hplace⟩ := exists_of_conditional_placesOf around ns h
      exact ⟨e, List.mem_append_right _ he, hplace⟩

end

theorem Component.exists_of_conditional {length : Nat} {ts : List Token}
    (h : .conditional start test consequent alternate ∈ (ofTokens length ts).places) :
    ∃ t ∈ ts, .conditional start test consequent alternate ∈ t.places := by
  rw [places, List.mem_append] at h
  rcases h with h | h
  · obtain ⟨e, he, hplace⟩ := exists_of_conditional_placesOf [] _ h
    rw [preorder_ofTokens] at he
    obtain ⟨us, t, vs, rfl, -, hhead⟩ := exists_of_mem_listing he
    rw [Token.places_head? hhead] at hplace
    exact ⟨t, by simp, hplace⟩
  · obtain ⟨s, -, hs⟩ := List.mem_map.1 h
    cases hs

end Tree

theorem sound_of_mem_tokensOf {cs : List Char} {o : Nat} {ls ks : List Layout} {ts : List Token}
    (hvalid : ValidAll (ls ++ ks)) (h : Stands cs o (textOf ls)) (hts : tokensOf o ls = .ok ts) :
    ∀ t ∈ ts, ∃ start stop, o ≤ start ∧ start ≤ stop ∧ stop ≤ o + byteLength (textOf ls) ∧
      t.Sound cs start stop := by
  induction ls generalizing o ts with
  | nil =>
    cases hts
    intro t ht
    cases ht
  | cons l ls ih =>
    obtain ⟨hl, hls⟩ := hvalid
    obtain ⟨t, ht, hts⟩ := exists_of_bind_ok hts
    obtain ⟨us, hus, hts⟩ := exists_of_bind_ok hts
    cases hts
    rw [textOf, List.flatMap_cons] at h
    have hsound := Layout.sound_token hl h.left ht
    have hrest := ih hls h.right hus
    have hlen : o + byteLength (textOf (l :: ls)) =
        o + byteLength l.text + byteLength (textOf ls) := by
      rw [textOf, List.flatMap_cons, byteLength_append, Nat.add_assoc]
      rfl
    rw [hlen]
    intro x hx
    rcases List.mem_append.1 hx with hx | hx
    · exact ⟨o, o + byteLength l.text, Nat.le_refl _, Nat.le_add_right _ _,
        Nat.le_add_right _ _, hsound x (by simpa using hx)⟩
    · obtain ⟨start, stop, hlo, hle, hhi, hx⟩ := hrest x hx
      exact ⟨start, stop, by omega, hle, hhi, hx⟩

end ClassWeave.Markup

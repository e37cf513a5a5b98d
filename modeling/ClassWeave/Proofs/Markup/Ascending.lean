import ClassWeave.Proofs.Markup.Conditionals
import ClassWeave.Proofs.Markup.Matched
import ClassWeave.Proofs.Markup.SoundTree

/-!
The places of a component, style blocks apart, begin one behind the other. An element may end late,
but it begins before all that is inside of it, and so does a conditional: there is no question mark of
its own in its test.
-/

namespace ClassWeave

namespace Text

theorem Stands.isPrefix {cs v w : List Char} {o : Nat} (hv : Stands cs o v)
    (hw : Stands cs o w) (hle : byteLength v ≤ byteLength w) : v <+: w := by
  obtain ⟨a, b, rfl, rfl⟩ := hv
  obtain ⟨c, d, heq, hlen⟩ := hw
  obtain rfl := eq_of_byteLength_eq heq hlen.symm
  rcases List.append_eq_append_iff.1 (List.append_cancel_left heq) with ⟨r, rfl, -⟩ | ⟨r, rfl, -⟩
  · exact List.prefix_append _ _
  · have hr : r = [] := by
      by_contra hne
      have := byteLength_pos hne
      rw [byteLength_append] at hle
      omega
    exact ⟨[], by rw [hr]; simp⟩

end Text

namespace Markup

open Text

theorem isTernaryMark_followedBy {s : Spot} (hs : s.after ≠ []) (r : List Char) :
    Expr.isTernaryMark (s.followedBy r) = Expr.isTernaryMark s := by
  obtain ⟨c, cs, hcs⟩ := List.exists_cons_of_ne_nil hs
  simp [Expr.isTernaryMark, Spot.followedBy, hcs]

theorem length_test_lt {v r : List Char} {t u : Expr.Ternary} (hv : Expr.ternary? v = some t)
    (hr : Expr.ternary? (v ++ r) = some u) : u.test.length < v.length := by
  simp only [Expr.ternary?, Option.bind_eq_bind, Option.bind_eq_some_iff, Option.pure_def,
    Option.some.injEq] at hv hr
  obtain ⟨mark, hmark, colon, hcolon, rfl⟩ := hv
  obtain ⟨first, hfirst, -, -, rfl⟩ := hr
  have hafter : mark.after ≠ [] := by
    intro hnil
    rw [hnil] at hcolon
    cases hcolon
  have hsome : (((topLevel v).map (Spot.followedBy r)).find? Expr.isTernaryMark).isSome := by
    rw [List.find?_isSome]
    refine ⟨_, List.mem_map_of_mem (List.mem_of_find?_eq_some hmark), ?_⟩
    rw [isTernaryMark_followedBy hafter]
    exact List.find?_some hmark
  have hfound : ((topLevel v).map (Spot.followedBy r)).find? Expr.isTernaryMark = some first := by
    rw [topLevel, spotsFrom_append_right, List.find?_append] at hfirst
    exact (Option.or_of_isSome hsome).symm.trans hfirst
  obtain ⟨s, hs, rfl⟩ := List.mem_map.1 (List.mem_of_find?_eq_some hfound)
  have htext := congrArg List.length (text_of_mem_topLevel hs)
  simp only [Spot.text, Spot.left, List.length_append, List.length_cons] at htext
  change s.left.length < v.length
  rw [Spot.left]
  omega

def Place.start? : Place → Option Nat
  | element tag _ => some tag.span.start
  | classes a => some a.span.start
  | directive a => some a.span.start
  | conditional start _ _ _ => some start
  | style _ => none

def startsOf (ps : List Place) : List Nat := ps.filterMap Place.start?

structure Ascend (lo hi : Nat) (ps : List Place) : Prop where
  order : (startsOf ps).Pairwise (· < ·)
  bounds : ∀ n ∈ startsOf ps, lo ≤ n ∧ n < hi

namespace Ascend

variable {lo lo' mid hi hi' : Nat} {ps qs : List Place}

theorem nil : Ascend lo hi [] := ⟨.nil, by simp [startsOf]⟩

theorem mono (h : Ascend lo hi ps) (hlo : lo' ≤ lo) (hhi : hi ≤ hi') : Ascend lo' hi' ps := by
  refine ⟨h.order, ?_⟩
  intro n hn
  have := h.bounds n hn
  omega

theorem append (hp : Ascend lo mid ps) (hq : Ascend mid hi qs) (hlo : lo ≤ mid) (hhi : mid ≤ hi) :
    Ascend lo hi (ps ++ qs) := by
  have hstarts : startsOf (ps ++ qs) = startsOf ps ++ startsOf qs := List.filterMap_append
  constructor
  · rw [hstarts, List.pairwise_append]
    refine ⟨hp.order, hq.order, ?_⟩
    intro m hm n hn
    have := (hp.bounds m hm).2
    have := (hq.bounds n hn).1
    omega
  · intro n hn
    rw [hstarts, List.mem_append] at hn
    rcases hn with hn | hn
    · have := hp.bounds n hn
      omega
    · have := hq.bounds n hn
      omega

theorem cons {p : Place} {start : Nat} (hp : p.start? = some start) (hlo : lo ≤ start)
    (hhi : start < hi) (h : Ascend (start + 1) hi ps) : Ascend lo hi (p :: ps) := by
  have hsingle : Ascend lo (start + 1) [p] := by
    have hstarts : startsOf [p] = [start] := List.filterMap_cons_some hp
    constructor
    · rw [hstarts]
      exact List.pairwise_singleton _ _
    · intro n hn
      rw [hstarts, List.mem_singleton] at hn
      omega
  exact hsingle.append h (by omega) hhi

end Ascend

section Sound

variable {cs : List Char} {lo hi : Nat}

/-- A conditional in the test of another one stands in brackets, so it does not begin with it. -/
theorem Expr.Placed.behind {w : List Char} {t : Expr.Ternary} {start : Nat} {e : Expr}
    (hw : Stands cs start w) (ht : ternary? w = some t)
    (h : e.Placed cs start (start + byteLength t.test)) :
    e.Placed cs (start + 1) (start + byteLength t.test) := by
  cases e with
  | literal text => trivial
  | other text => trivial
  | conditional inner test consequent alternate =>
    obtain ⟨v, u, hlo, hhi, hv, htrim, hunwrap, hu, hinside⟩ := h
    refine ⟨v, u, ?_, hhi, hv, htrim, hunwrap, hu, hinside⟩
    apply Nat.lt_of_le_of_ne hlo
    rintro rfl
    -- Both texts begin at one place, so the inner one begins the outer one, and the question mark
    -- that splits the inner one would split the outer one before its own test ends.
    have hsplit := ternary?_append ht
    rw [hsplit] at hw
    obtain ⟨r, hr⟩ := hv.isPrefix hw.left (by omega)
    rw [← hr, List.append_assoc] at hsplit
    have hlt := length_test_lt hu (hsplit ▸ ht)
    rw [← hr, List.length_append] at hlt
    omega

theorem Expr.Placed.ascend {e : Expr} (h : e.Placed cs lo hi) : Ascend lo hi e.places := by
  induction e generalizing lo hi with
  | literal text => exact .nil
  | other text => exact .nil
  | conditional start test consequent alternate iht ihc iha =>
    obtain ⟨w, t, hlo, hhi, hw, -, -, ht, htest, hconsequent, halternate⟩ := h
    have hlen : byteLength w =
        byteLength t.test + 1 + byteLength t.consequent + 1 + byteLength t.alternate := by
      rw [ternary?_append ht]
      simp [Char.utf8Size]
      omega
    have hinside : Ascend (start + 1) (start + byteLength t.test + 1) test.places :=
      (iht (htest.behind hw ht)).mono (Nat.le_refl _) (Nat.le_succ _)
    have hconsequent := (ihc hconsequent).mono (Nat.le_refl _) (Nat.le_succ _)
    have hbranches := hconsequent.append (iha halternate) (by omega) (by omega)
    rw [places, List.append_assoc]
    apply Ascend.cons rfl hlo (by omega)
    exact (hinside.append hbranches (by omega) (by omega)).mono (Nat.le_refl _) hhi

theorem ExpressionTag.Sound.ascend {tag : ExpressionTag} (h : tag.Sound cs) :
    Ascend (tag.span.start + 1) tag.span.stop tag.expr.places :=
  h.placed.ascend.mono (Nat.le_refl _) (Nat.sub_le _ _)

theorem SoundValue.ascend {ps : List ValuePart} (h : SoundValue cs lo hi ps) :
    Ascend (lo + 1) hi (ps.flatMap ValuePart.places) := by
  induction ps generalizing lo with
  | nil => exact .nil
  | cons p ps ih =>
    obtain ⟨⟨hlo, hle, horder⟩, hsound⟩ := h
    rw [List.forall_mem_cons] at hsound
    have hrest := ih ⟨horder, hsound.2⟩
    have hhi := horder.le
    rw [List.flatMap_cons]
    cases p with
    | text part => exact hrest.mono (by omega) (Nat.le_refl _)
    | expression tag =>
      change lo ≤ tag.span.start at hlo
      change tag.span.stop ≤ hi at hhi
      have hlt := lt_of_braced hsound.1.covers
      exact (hsound.1.ascend.mono (by omega) (Nat.le_refl _)).append
        (hrest.mono (Nat.le_succ _) (Nat.le_refl _)) (by omega) hhi

theorem Attribute.Sound.ascend {a : Attribute} (h : a.Sound cs) :
    Ascend a.span.start a.span.stop a.places := by
  have hlt := h.span.lt
  have hvalue := h.value.ascend
  cases a with
  | classes a => exact .cons rfl (Nat.le_refl _) hlt hvalue
  | directive a =>
    apply Ascend.cons rfl (Nat.le_refl _) hlt
    simpa [Attribute.value, ValuePart.places, List.flatMap_map] using hvalue
  | other a => exact hvalue.mono (Nat.le_succ _) (Nat.le_refl _)

theorem SoundAttributes.ascend {stop o : Nat} {as : List Attribute}
    (h : SoundAttributes cs stop o as) :
    o ≤ stop ∧ Ascend o stop (as.flatMap Attribute.places) := by
  induction as generalizing o with
  | nil =>
    obtain ⟨gap, -, -, hstop⟩ := h
    exact ⟨Nat.le.intro hstop.symm, .nil⟩
  | cons a as ih =>
    obtain ⟨⟨gap, -, -, hstart⟩, ha, has⟩ := h
    obtain ⟨hle, hrest⟩ := ih has
    have hlt := ha.span.lt
    have ho : o ≤ a.span.start := Nat.le.intro hstart.symm
    refine ⟨by omega, ?_⟩
    rw [List.flatMap_cons]
    exact (ha.ascend.mono ho (Nat.le_refl _)).append hrest (by omega) hle

mutual

theorem Node.Sound.ascend : (n : Node) → n.Sound cs → Ascend n.span.start n.span.stop n.places
  | .element tag children, h => by
    rw [Node.Sound] at h
    obtain ⟨hspan, stop, hopens, horder, hchildren⟩ := h
    have hlt := hspan.lt
    obtain ⟨hle, hattributes⟩ := hopens.attributes.ascend
    have hattributes : Ascend (tag.span.start + 1) stop
        (tag.attributes.flatMap Attribute.places) := hattributes.mono (by omega) (Nat.le_refl _)
    have hinside := hattributes.append (ascend_placesOf children horder hchildren) (by omega)
      horder.le
    exact .cons rfl (Nat.le_refl _) hlt hinside
  | .expression tag, h => by
    rw [Node.Sound] at h
    exact h.ascend.mono (Nat.le_succ _) (Nat.le_refl _)
  | .block tag, h => by
    rw [Node.Sound] at h
    cases he : tag.expression with
    | none =>
      rw [Node.places, he]
      exact .nil
    | some e =>
      rw [Node.places, he, Option.toList_some, List.flatMap_singleton]
      exact (h.placed e he).ascend.mono (Nat.le_succ _) (Nat.sub_le _ _)

theorem ascend_placesOf : (ns : List Node) → {lo hi : Nat} → Span.InOrder hi lo (ns.map Node.span) →
    SoundNodes cs ns → Ascend lo hi (placesOf ns)
  | [], _, _, _, _ => .nil
  | n :: ns, _, _, ⟨hlo, hle, horder⟩, ⟨hn, hns⟩ =>
    ((Node.Sound.ascend n hn).mono hlo (Nat.le_refl _)).append (ascend_placesOf ns horder hns)
      (Nat.le_trans hlo hle) horder.le

end

end Sound

theorem startsOf_styles (ss : List StyleBlock) : startsOf (ss.map .style) = [] := by
  simp [startsOf, Place.start?]

theorem Component.pairwise_startsOf {source : String} {c : Component}
    (h : parse source = .ok c) : (startsOf c.places).Pairwise (· < ·) := by
  have hsound := sound_of_parse h
  have hnodes := ascend_placesOf c.fragment hsound.fragment hsound.nodes
  have hstarts : startsOf c.places = startsOf (placesOf c.fragment) := by
    rw [places, startsOf, List.filterMap_append]
    exact (congrArg _ (startsOf_styles c.styles)).trans (List.append_nil _)
  rw [hstarts]
  exact hnodes.order

end Markup

end ClassWeave

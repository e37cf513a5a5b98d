import ClassWeave.Proofs.Markup.Offsets
import ClassWeave.Proofs.Markup.Reading
import ClassWeave.Proofs.Markup.Sound
import ClassWeave.Proofs.Text.Words

namespace ClassWeave.Markup

open Text

namespace Expr

theorem Placed.mono {cs : List Char} {lo lo' hi hi' : Nat} {e : Expr} (h : e.Placed cs lo hi)
    (hlo : lo' ≤ lo) (hhi : hi ≤ hi') : e.Placed cs lo' hi' := by
  cases e with
  | literal text => trivial
  | other text => trivial
  | conditional start test consequent alternate =>
    obtain ⟨w, t, hl, hr, hrest⟩ := h
    exact ⟨w, t, Nat.le_trans hlo hl, Nat.le_trans hr hhi, hrest⟩

theorem placed_read {cs w : List Char} {o : Nat} (h : Stands cs o w) :
    (read o w).Placed cs o (o + byteLength w) := by
  fun_induction read o w with
  | case1 o w start inner hunwrap ih =>
    obtain ⟨hown, hlen⟩ := h.trim
    rw [unwrap?_append hunwrap] at hown hlen
    -- Inside of the brackets the bounds are closer, and nothing else is asked of the text.
    have hinner : Stands cs (start + 1) inner := hown.tail.left
    apply (ih hinner).mono
    · omega
    · simp [Char.utf8Size] at hlen
      omega
  | case2 o w start hunwrap t ht consequentStart iht ihc iha =>
    obtain ⟨hown, hlen⟩ := h.trim
    have htext := ternary?_append ht
    have hparts := hown
    rw [htext] at hparts
    have htest := hparts.left
    have hconsequent := hparts.right.tail.left
    have halternate := hparts.right.tail.right.tail
    have hstop : consequentStart + byteLength t.consequent + 1 + byteLength t.alternate =
        start + byteLength (trim w) := by
      rw [htext]
      simp [Char.utf8Size]
      omega
    refine ⟨trim w, t, by omega, hlen, hown, trim_trim w, hunwrap, ht, iht htest, ?_, ?_⟩
    · exact ihc hconsequent
    · have := iha halternate
      rwa [hstop] at this
  | case3 => trivial
  | case4 => trivial

end Expr

def Within (cs : List Char) (lo hi : Nat) (c : Cursor) : Prop :=
  Stands cs c.offset c.rest ∧ lo ≤ c.offset ∧ c.offset + byteLength c.rest ≤ hi

namespace Within

variable {cs : List Char} {lo hi : Nat} {c d : Cursor}

theorem of_le (h : Within cs lo hi c) (hle : c ≤ d) : Within cs lo hi d := by
  obtain ⟨hstands, hlo, hhi⟩ := h
  obtain ⟨w, hr⟩ := hle
  have hlen := congrArg byteLength hr.rest_eq
  have hoffset := hr.offset_eq
  rw [byteLength_append] at hlen
  refine ⟨Cursor.stands_of_reads hstands hr, ?_, ?_⟩
  · omega
  · omega

theorem placed (h : Within cs lo hi c) : (Expr.read c.offset c.rest).Placed cs lo hi :=
  (Expr.placed_read h.1).mono h.2.1 h.2.2

theorem of_spot (h : Within cs lo hi c) {s : Spot} (hs : s.text = c.rest) :
    Within cs lo hi ⟨c.offset, s.left⟩ ∧
      Within cs lo hi ⟨c.offset + s.offset + s.char.utf8Size, s.after⟩ := by
  obtain ⟨hstands, hlo, hhi⟩ := h
  rw [← hs, Spot.text] at hstands hhi
  have hleft : byteLength s.left = s.offset := byteLength_reverse s.before
  have hafter := hstands.right.tail
  rw [byteLength_append, byteLength_cons, hleft] at hhi
  rw [hleft] at hafter
  refine ⟨⟨hstands.left, hlo, ?_⟩, hafter, ?_, ?_⟩
  · change c.offset + byteLength s.left ≤ hi
    omega
  · change lo ≤ c.offset + s.offset + s.char.utf8Size
    omega
  · change c.offset + s.offset + s.char.utf8Size + byteLength s.after ≤ hi
    omega

end Within

theorem mem_of_findAssignment {o : Nat} {ss : List Spot} {s : Spot}
    (h : findAssignment o ss = .ok (some s)) : s ∈ ss ∧ s.char = '=' := by
  induction ss with
  | nil => cases h
  | cons t ss ih =>
    rw [findAssignment] at h
    split at h
    · cases h
    · split at h
      · next ha =>
        cases h
        simp only [isAssignment, Bool.and_eq_true, beq_iff_eq] at ha
        exact ⟨List.mem_cons_self, ha.1.1⟩
      · obtain ⟨hmem, heq⟩ := ih h
        exact ⟨List.mem_cons_of_mem _ hmem, heq⟩

section Operand

variable {cs : List Char} {lo hi : Nat}

theorem within_operand {operand : Operand} {body d : Cursor} (h : Within cs lo hi body)
    (hd : operand.text body = .ok (some d)) : Within cs lo hi d := by
  cases operand with
  | whole =>
    cases hd
    exact h
  | absent => cases hd
  | beforeWord word =>
    rw [Operand.text] at hd
    split at hd
    · next s hs =>
      cases hd
      exact (h.of_spot (text_of_mem_topLevel (List.mem_of_find?_eq_some hs))).1
    · cases hd
      exact h
  | afterAssignment =>
    obtain ⟨found, hfound, hd⟩ := exists_of_bind_ok hd
    cases found with
    | none => cases hd
    | some s =>
      cases hd
      obtain ⟨hs, hchar⟩ := mem_of_findAssignment hfound
      have := (h.of_spot (text_of_mem_topLevel hs)).2
      rwa [hchar] at this

theorem placed_readOperand {sigil : Char} {keyword : String} {body : Cursor} {e : Option Expr}
    (h : Within cs lo hi body) (he : readOperand sigil keyword body = .ok e) :
    ∀ x ∈ e, x.Placed cs lo hi := by
  obtain ⟨found, hfound, he⟩ := exists_of_bind_ok he
  cases found with
  | none =>
    cases he
    simp
  | some d =>
    have hd := within_operand h hfound
    cases he
    intro x hx
    split at hx
    · cases hx
    · cases hx
      exact hd.placed

theorem le_of_chainedIf? {c d : Cursor} (h : chainedIf? c = some d) : c ≤ d := by
  rw [chainedIf?] at h
  split at h
  · cases h
    exact Cursor.le_trans (c.le_skip _) (Cursor.le_advance _ _)
  · cases h

theorem placed_readBlock {c : Cursor} {r : String × Option Expr} (h : Within cs lo hi c)
    (hr : readBlock c = .ok r) : ∀ x ∈ r.2, x.Placed cs lo hi := by
  have hbody : Within cs lo hi ((c.advance 1).skip Char.isAlpha) :=
    h.of_le (Cursor.le_trans (c.le_advance 1) (Cursor.le_skip _ _))
  rw [readBlock] at hr
  split at hr
  · next chained hchained =>
    obtain ⟨e, he, hr⟩ := exists_of_bind_ok hr
    cases hr
    split at hchained
    · exact placed_readOperand (hbody.of_le (le_of_chainedIf? hchained)) he
    · cases hchained
  · obtain ⟨e, he, hr⟩ := exists_of_bind_ok hr
    cases hr
    exact placed_readOperand hbody he

end Operand

def Mustache.Sound (cs : List Char) (span : Span) : Mustache → Prop
  | expression tag => tag.span = span ∧ tag.Sound cs
  | block tag => tag.span = span ∧ tag.Sound cs
  | closing => True

theorem Mustache.sound_ofInner {cs inner : List Char} {o : Nat} {m : Mustache}
    (h : Stands cs o ('\x7b' :: (inner ++ ['\x7d']))) (hm : Mustache.ofInner o inner = .ok m) :
    m.Sound cs ⟨o, o + byteLength inner + 2⟩ := by
  have hcovers : Span.Covers cs ⟨o, o + byteLength inner + 2⟩ ('\x7b' :: (inner ++ ['\x7d'])) := by
    refine ⟨h, ?_⟩
    rw [byteLength_braced, ← Nat.add_assoc]
  have hinner : Within cs (o + 1) (o + byteLength inner + 2 - 1) ⟨o + 1, inner⟩ := by
    refine ⟨h.tail.left, Nat.le_refl _, ?_⟩
    change o + 1 + byteLength inner ≤ o + byteLength inner + 2 - 1
    omega
  rw [ofInner] at hm
  split at hm
  · split at hm
    · cases hm
      trivial
    · obtain ⟨r, hr, hm⟩ := exists_of_map_ok hm
      cases hm
      have hplaced := placed_readBlock (hinner.of_le (Cursor.le_skip _ isBlank)) hr
      exact ⟨rfl, ⟨inner, hcovers⟩, hplaced⟩
  · cases hm
    exact ⟨rfl, ⟨inner, hcovers⟩, hinner.placed⟩

namespace SoundValue

variable {cs : List Char} {lo hi : Nat} {ps qs : List ValuePart}

theorem nil (h : lo ≤ hi) : SoundValue cs lo hi [] := ⟨h, by simp⟩

theorem mono {lo' hi' : Nat} (h : SoundValue cs lo hi ps) (hlo : lo' ≤ lo) (hhi : hi ≤ hi') :
    SoundValue cs lo' hi' ps := ⟨h.order.mono hlo hhi, h.sound⟩

theorem append {mid : Nat} (hp : SoundValue cs lo mid ps) (hq : SoundValue cs mid hi qs) :
    SoundValue cs lo hi (ps ++ qs) := by
  constructor
  · rw [List.map_append]
    exact hp.order.append hq.order
  · intro p h
    rcases List.mem_append.1 h with h | h
    · exact hp.sound p h
    · exact hq.sound p h

theorem single {p : ValuePart} (hp : p.Sound cs) (hlo : lo ≤ p.span.start)
    (hle : p.span.start ≤ p.span.stop) (hhi : p.span.stop ≤ hi) : SoundValue cs lo hi [p] := by
  constructor
  · exact ⟨hlo, hle, hhi⟩
  · intro q hq
    cases List.mem_singleton.1 hq
    exact hp

end SoundValue

section Layouts

variable {cs : List Char} {o : Nat}

theorem soundValue_text {w : List Char} (h : Stands cs o w) :
    SoundValue cs o (o + byteLength w) [.text ⟨⟨o, o + byteLength w⟩, .ofList w⟩] := by
  have hsound : (ValuePart.text ⟨⟨o, o + byteLength w⟩, .ofList w⟩).Sound cs := by
    rw [ValuePart.Sound, String.toList_ofList]
    exact ⟨h, rfl⟩
  exact .single hsound (Nat.le_refl _) (Nat.le_add_right _ _) (Nat.le_refl _)

theorem soundValue_textParts {w : List Char} (h : Stands cs o w) :
    SoundValue cs o (o + byteLength w) (textParts o w) := by
  rw [textParts]
  split
  · exact .nil (Nat.le_add_right _ _)
  · exact soundValue_text h

theorem Mustache.Sound.value {m : Mustache} {stop : Nat} (h : m.Sound cs ⟨o, stop⟩)
    (hle : o ≤ stop) : SoundValue cs o stop m.part?.toList := by
  cases m with
  | expression tag =>
    obtain ⟨hspan, htag⟩ := h
    apply SoundValue.single
    · exact htag
    all_goals
      simp only [ValuePart.span, hspan]
      omega
  | block tag => exact .nil hle
  | closing => exact .nil hle

theorem soundValue_quoted {quote : Char} {last : List Char} {runs : List Run} {ps : List ValuePart}
    (h : Stands cs o (quotedText quote last runs)) (hps : quotedParts last o runs = .ok ps) :
    SoundValue cs o (o + byteLength (quotedText quote last runs)) ps := by
  induction runs generalizing o ps with
  | nil =>
    cases hps
    apply (soundValue_textParts h.left).mono (Nat.le_refl _)
    simp only [quotedText, byteLength_append]
    omega
  | cons run runs ih =>
    obtain ⟨w, inner⟩ := run
    obtain ⟨m, hm, hps⟩ := exists_of_bind_ok hps
    obtain ⟨more, hmore, hps⟩ := exists_of_bind_ok hps
    cases hps
    have htext : quotedText quote last ((w, inner) :: runs) =
        w ++ (('\x7b' :: (inner ++ ['\x7d'])) ++ quotedText quote last runs) := by
      simp [quotedText]
    rw [htext] at h ⊢
    have hrest := h.right.right
    rw [byteLength_braced] at hrest
    have htag := (Mustache.sound_ofInner h.right.left hm).value (by omega)
    have hlen : o + byteLength
          (w ++ (('\x7b' :: (inner ++ ['\x7d'])) ++ quotedText quote last runs)) =
        o + byteLength w + (byteLength inner + 2) + byteLength (quotedText quote last runs) := by
      rw [byteLength_append, byteLength_append, byteLength_braced]
      omega
    rw [hlen]
    exact ((soundValue_textParts h.left).append htag).append (ih hrest hmore)

theorem soundValue_parts {v : ValueLayout} {ps : List ValuePart} (h : Stands cs o v.text)
    (hps : v.parts o = .ok ps) : SoundValue cs o (o + byteLength v.text) ps := by
  cases v with
  | quoted quote runs last =>
    have := soundValue_quoted h.tail hps
    apply this.mono
    · omega
    · simp only [ValueLayout.text, byteLength_cons]
      omega
  | braced inner =>
    obtain ⟨m, hm, hps⟩ := exists_of_map_ok hps
    cases hps
    have hlen : o + byteLength (ValueLayout.text (.braced inner)) = o + byteLength inner + 2 := by
      rw [ValueLayout.text, byteLength_braced]
      omega
    rw [hlen]
    exact (Mustache.sound_ofInner h hm).value (by omega)
  | bare w =>
    cases hps
    exact soundValue_text h

theorem Attribute.sound_ofValue {span : Span} {ps : List ValuePart} (hspan : span.Proper cs)
    (hps : SoundValue cs span.start span.stop ps) (name : List Char) :
    (Attribute.ofValue span name ps).Sound cs ∧ (Attribute.ofValue span name ps).span = span := by
  rw [ofValue]
  split
  · exact ⟨⟨hspan, hps⟩, rfl⟩
  split
  · refine ⟨⟨hspan, ?_⟩, rfl⟩
    cases htag : ps.findSome? ValuePart.expression? with
    | none => exact .nil hps.order.le
    | some tag =>
      obtain ⟨p, hp, htag⟩ := List.exists_of_findSome?_eq_some htag
      cases p with
      | text part => cases htag
      | expression other =>
        cases htag
        obtain ⟨hlo, hle, hhi⟩ := hps.order.bounds (List.mem_map_of_mem hp)
        exact .single (hps.sound _ hp) hlo hle hhi
  · exact ⟨⟨hspan, hps⟩, rfl⟩

theorem AttributeLayout.Valid.text_ne_nil {a : AttributeLayout} {next : List Char}
    (h : a.Valid next) : a.text ≠ [] := by
  cases a with
  | braced inner => simp [AttributeLayout.text]
  | single name => exact h.2.1
  | valued name before after v => simp [AttributeLayout.text]

theorem AttributeLayout.sound_attribute {a : AttributeLayout} {next : List Char} {b : Attribute}
    (hvalid : a.Valid next) (h : Stands cs o a.text) (hb : a.attribute o = .ok b) :
    b.Sound cs ∧ b.span = ⟨o, o + byteLength a.text⟩ := by
  have hcovers : Span.Covers cs ⟨o, o + byteLength a.text⟩ a.text := ⟨h, rfl⟩
  have hspan := hcovers.proper hvalid.text_ne_nil
  cases a with
  | braced inner =>
    obtain ⟨m, hm, rfl⟩ := exists_of_map_ok hb
    have hlen : byteLength (AttributeLayout.text (.braced inner)) = byteLength inner + 2 :=
      byteLength_braced inner
    have hvalue := (Mustache.sound_ofInner h hm).value (by omega)
    rw [hlen] at hspan ⊢
    exact ⟨⟨hspan, hvalue⟩, rfl⟩
  | single name =>
    cases hb
    exact Attribute.sound_ofValue hspan (.nil (Nat.le_add_right _ _)) name
  | valued name before after v =>
    obtain ⟨ps, hps, rfl⟩ := exists_of_map_ok hb
    have hv := h.right.right.tail.right
    have hstop : o + byteLength (AttributeLayout.text (.valued name before after v)) =
        o + byteLength name + byteLength before + 1 + byteLength after + byteLength v.text := by
      rw [AttributeLayout.byteLength_valued]
      omega
    rw [hstop] at hspan ⊢
    apply Attribute.sound_ofValue hspan
    apply (soundValue_parts hv hps).mono
    · change o ≤ o + byteLength name + byteLength before + 1 + byteLength after
      omega
    · exact Nat.le_refl _

theorem SoundAttributes.prepend {stop : Nat} {gap : List Char} {as : List Attribute}
    (hgap : IsGap gap) (h : Stands cs o gap)
    (has : SoundAttributes cs stop (o + byteLength gap) as) : SoundAttributes cs stop o as := by
  have happend {other : List Char} (hother : IsGap other) : IsGap (gap ++ other) := by
    intro x hx
    rcases List.mem_append.1 hx with hx | hx
    · exact hgap x hx
    · exact hother x hx
  cases as with
  | nil =>
    obtain ⟨other, hother, hstands, hstop⟩ := has
    refine ⟨gap ++ other, happend hother, ?_, ?_⟩
    · rw [List.append_assoc]
      exact h.append hstands
    · rw [List.append_assoc, byteLength_append, ← Nat.add_assoc]
      exact hstop
  | cons a as =>
    obtain ⟨⟨other, hother, hstands, hstart⟩, ha, has⟩ := has
    refine ⟨⟨gap ++ other, happend hother, h.append hstands, ?_⟩, ha, has⟩
    rw [byteLength_append, ← Nat.add_assoc]
    exact hstart

theorem Blanks.isGap {gap : List Char} (h : Blanks gap) : IsGap gap := fun x hx => .inl (h x hx)

theorem Blanks.isGap_slash {gap : List Char} (h : Blanks gap) : IsGap (gap ++ ['/']) := by
  intro x hx
  rcases List.mem_append.1 hx with hx | hx
  · exact .inl (h x hx)
  · exact .inr (List.mem_singleton.1 hx)

theorem soundAttributes_tag {tag : TagLayout} {as : List Attribute} (hvalid : tag.Valid)
    (h : Stands cs o tag.text) (has : tag.attributes o = .ok as) :
    SoundAttributes cs (o + byteLength tag.text) o as := by
  induction tag generalizing o as with
  | stop gap closed =>
    cases has
    have hgap : Blanks gap := hvalid
    cases closed with
    | false => exact ⟨gap, hgap.isGap, h, rfl⟩
    | true =>
      refine ⟨gap ++ ['/'], hgap.isGap_slash, ?_⟩
      rw [List.append_assoc]
      exact ⟨h, rfl⟩
  | slash gap rest ih =>
    obtain ⟨hgap, -, hrest⟩ := hvalid
    have htext : TagLayout.text (.slash gap rest) = (gap ++ ['/']) ++ rest.text := by
      simp [TagLayout.text]
    have hlen : byteLength (gap ++ ['/']) = byteLength gap + 1 := by
      simp [Char.utf8Size]
    rw [htext] at h ⊢
    have hstands := h.right
    rw [hlen] at hstands
    have := ih hrest hstands has
    apply SoundAttributes.prepend hgap.isGap_slash h.left
    rwa [byteLength_append, hlen, ← Nat.add_assoc]
  | item gap a rest ih =>
    obtain ⟨hgap, ha, hrest⟩ := hvalid
    obtain ⟨b, hb, has⟩ := exists_of_bind_ok has
    obtain ⟨bs, hbs, has⟩ := exists_of_bind_ok has
    cases has
    obtain ⟨hsound, hspan⟩ := AttributeLayout.sound_attribute ha h.right.left hb
    have hrest := ih hrest h.right.right hbs
    have hlen : o + byteLength (TagLayout.text (.item gap a rest)) =
        o + byteLength gap + byteLength a.text + byteLength rest.text := by
      simp [TagLayout.text]
      omega
    rw [hlen]
    refine ⟨⟨gap, hgap.isGap, h.left, ?_⟩, hsound, ?_⟩
    · rw [hspan]
    · rw [hspan]
      exact hrest

end Layouts

def Token.Sound (cs : List Char) (start stop : Nat) : Token → Prop
  | opening tag _ => tag.span = ⟨start, stop⟩ ∧ tag.span.Proper cs ∧ tag.OpensTo cs stop
  | closing _ n => n = stop ∧ Stands cs stop []
  | expression tag => tag.span = ⟨start, stop⟩ ∧ tag.Sound cs
  | block tag => tag.span = ⟨start, stop⟩ ∧ tag.Sound cs
  | style s => s.span = ⟨start, stop⟩ ∧ s.Sound cs

def SoundTokens (cs : List Char) : Nat → List Token → Prop
  | o, [] => o ≤ byteLength cs
  | o, t :: ts => ∃ start stop, o ≤ start ∧ start ≤ stop ∧ t.Sound cs start stop ∧
      SoundTokens cs stop ts

theorem SoundTokens.mono {cs : List Char} {o o' : Nat} {ts : List Token} (h : SoundTokens cs o ts)
    (hle : o' ≤ o) : SoundTokens cs o' ts := by
  cases ts with
  | nil => exact Nat.le_trans hle h
  | cons t ts =>
    obtain ⟨start, stop, hstart, hrest⟩ := h
    exact ⟨start, stop, Nat.le_trans hle hstart, hrest⟩

theorem Layout.sound_token {cs next : List Char} {o : Nat} {l : Layout} {t : Option Token}
    (hvalid : l.Valid next) (h : Stands cs o l.text) (ht : l.token o = .ok t) :
    ∀ x ∈ t, x.Sound cs o (o + byteLength l.text) := by
  have hcovers : Span.Covers cs ⟨o, o + byteLength l.text⟩ l.text := ⟨h, rfl⟩
  have hspan := hcovers.proper hvalid.text_ne_nil
  cases l with
  | comment body =>
    cases ht
    simp
  | plain w =>
    cases ht
    simp
  | closing body =>
    cases ht
    rintro x ⟨⟩
    have hstop := h.stop
    rw [Layout.byteLength_closing] at hstop ⊢
    exact ⟨rfl, hstop⟩
  | mustache inner =>
    obtain ⟨m, hm, rfl⟩ := exists_of_map_ok ht
    have hlen : o + byteLength (Layout.text (.mustache inner)) = o + byteLength inner + 2 := by
      rw [Layout.text, byteLength_braced]
      omega
    have hsound := Mustache.sound_ofInner h hm
    rw [hlen]
    cases m with
    | expression tag =>
      rintro x ⟨⟩
      exact hsound
    | block tag =>
      rintro x ⟨⟩
      exact hsound
    | closing => simp [Mustache.token?]
  | opening name tag =>
    obtain ⟨-, -, -, htag⟩ := hvalid
    obtain ⟨as, has, rfl⟩ := exists_of_map_ok ht
    rintro x ⟨⟩
    have hlen : o + byteLength (Layout.text (.opening name tag)) =
        o + 1 + byteLength name + byteLength tag.text := by
      rw [Layout.byteLength_opening]
      omega
    rw [hlen] at hspan ⊢
    refine ⟨rfl, hspan, ?_, ?_⟩
    · rw [String.toList_ofList]
      exact Stands.left (v := '<' :: name) h
    · rw [String.toList_ofList]
      exact soundAttributes_tag htag h.tail.right has
  | content name tag body tail =>
    obtain ⟨as, -, rfl⟩ := exists_of_map_ok ht
    intro x hx
    split at hx
    · cases hx
      have hlen : o + byteLength (Layout.text (.content name tag body tail)) =
          o + 1 + byteLength name + byteLength tag.text + byteLength body +
            (byteLength name + byteLength tail + 3) := by
        rw [Layout.byteLength_content]
        omega
      rw [hlen] at hspan ⊢
      refine ⟨rfl, hspan, ⟨body, h.tail.right.right.left, rfl⟩, ?_, ?_⟩
      · change o < o + 1 + byteLength name + byteLength tag.text
        omega
      · change o + 1 + byteLength name + byteLength tag.text + byteLength body <
          o + 1 + byteLength name + byteLength tag.text + byteLength body +
            (byteLength name + byteLength tail + 3)
        omega
    · cases hx

theorem soundTokens_of_layouts {cs : List Char} {o : Nat} {ls : List Layout} {ts : List Token}
    (hvalid : ValidAll ls) (h : Stands cs o (textOf ls)) (hts : tokensOf o ls = .ok ts) :
    SoundTokens cs o ts := by
  induction ls generalizing o ts with
  | nil =>
    cases hts
    have := h.le_byteLength
    change o ≤ byteLength cs
    omega
  | cons l ls ih =>
    obtain ⟨hl, hls⟩ := hvalid
    obtain ⟨t, ht, hts⟩ := exists_of_bind_ok hts
    obtain ⟨us, hus, hts⟩ := exists_of_bind_ok hts
    cases hts
    rw [textOf, List.flatMap_cons] at h
    have hrest := ih hls h.right hus
    have hsound := Layout.sound_token hl h.left ht
    cases t with
    | none => exact hrest.mono (Nat.le_add_right _ _)
    | some t => exact ⟨o, _, Nat.le_refl _, Nat.le_add_right _ _, hsound t rfl, hrest⟩

end ClassWeave.Markup

import ClassWeave.Markup.Component
import ClassWeave.Proofs.Markup.Layout

namespace ClassWeave.Markup

open Text

theorem readMustache_ofInner {inner : List Char} (h : Balanced inner) (o : Nat) (r : List Char) :
    readMustache ⟨o, '\x7b' :: (inner ++ '\x7d' :: r)⟩ =
      (Mustache.ofInner o inner).map fun m => (m, ⟨o + (byteLength inner + 2), r⟩) := by
  have hd : (Cursor.mk o ('\x7b' :: (inner ++ '\x7d' :: r))).advance (inner.length + 2) =
      ⟨o + (byteLength inner + 2), r⟩ := by
    have := Cursor.advance_append o ('\x7b' :: (inner ++ ['\x7d'])) r
    simp [Char.utf8Size] at this
    rw [this]
    congr 1
    omega
  rw [readMustache, List.tail_cons, h.splitBraces_eq]
  simp only [hd, Mustache.ofInner]
  split
  · split
    · rfl
    · cases readBlock (Cursor.mk (o + 1) inner).skipBlanks <;> rfl
  · rfl

abbrev stays (quote : Char) : Char → Bool := fun x => x != quote && x != '\x7b'

theorem readQuoted_of_quote {quote : Char} {opening : Nat} {c d : Cursor} {w r : List Char}
    (hw : c.word (stays quote) = w) (hd : c.skip (stays quote) = d) (hr : d.rest = quote :: r) :
    readQuoted quote opening c =
      .ok (if w.isEmpty then [] else [.text (textPart c d w)], d.advance 1) := by
  subst hw hd
  rw [readQuoted]
  split
  · next h =>
    rw [hr] at h
    cases h
  · next h =>
    rw [hr] at h
    cases h
    rw [if_pos rfl]

theorem readQuoted_of_brace {quote : Char} {opening : Nat} {c d : Cursor} {w r : List Char}
    (hq : quote ≠ '\x7b') (hw : c.word (stays quote) = w) (hd : c.skip (stays quote) = d)
    (hr : d.rest = '\x7b' :: r) :
    readQuoted quote opening c = (do
      let (m, e) ← readMustache d
      let (more, f) ← readQuoted quote opening e
      return ((if w.isEmpty then [] else [.text (textPart c d w)]) ++ m.part?.toList ++ more,
        f)) := by
  subst hw hd
  rw [readQuoted]
  dsimp only
  split
  · next h =>
    rw [hr] at h
    cases h
  · next h =>
    rw [hr] at h
    cases h
    rw [if_neg (Ne.symm hq)]
    split
    · next hm => rw [hm]; rfl
    · next hm =>
      rw [hm]
      change _ = readQuoted quote opening _ >>= _
      split <;> next he => rw [he]; rfl

theorem readQuoted_text {quote : Char} (hq : quote = '\x22' ∨ quote = '\x27') (opening : Nat)
    {last : List Char} (hlast : Quotable quote last) {runs : List Run}
    (h : ∀ r ∈ runs, Quotable quote r.1 ∧ Balanced r.2) (o : Nat) (r : List Char) :
    readQuoted quote opening ⟨o, quotedText quote last runs ++ r⟩ =
      (quotedParts last o runs).map fun ps =>
        (ps, ⟨o + byteLength (quotedText quote last runs), r⟩) := by
  have hsize : quote.utf8Size = 1 := by rcases hq with rfl | rfl <;> rfl
  have hne : quote ≠ '\x7b' := by rcases hq with rfl | rfl <;> decide
  have hstays : ∀ {w}, Quotable quote w → ∀ x ∈ w, stays quote x = true := by
    intro w hw x hx
    simpa using hw x hx
  induction runs generalizing o with
  | nil =>
    have hend : ∀ x, (quote :: r).head? = some x → stays quote x = false := by
      rintro x ⟨⟩
      simp
    rw [quotedText, List.append_assoc, List.singleton_append,
      readQuoted_of_quote (Cursor.word_append o (hstays hlast) hend)
        (Cursor.skip_append o (hstays hlast) hend) rfl]
    simp [quotedParts, Except.map, textParts, textPart, Cursor.advance, hsize, Nat.add_assoc]
  | cons run runs ih =>
    obtain ⟨w, inner⟩ := run
    obtain ⟨hw, hinner⟩ := h (w, inner) (by simp)
    have hend : ∀ x, ('\x7b' :: (inner ++ '\x7d' :: (quotedText quote last runs ++ r))).head? =
        some x → stays quote x = false := by
      rintro x ⟨⟩
      simp
    have htext : quotedText quote last ((w, inner) :: runs) ++ r =
        w ++ '\x7b' :: (inner ++ '\x7d' :: (quotedText quote last runs ++ r)) := by
      simp [quotedText]
    rw [htext, readQuoted_of_brace hne (Cursor.word_append o (hstays hw) hend)
      (Cursor.skip_append o (hstays hw) hend) rfl, readMustache_ofInner hinner, quotedParts]
    cases hm : Mustache.ofInner (o + byteLength w) inner with
    | error e => rfl
    | ok m =>
      have hi := ih (fun r hr => h r (List.mem_cons_of_mem _ hr))
        (o + byteLength w + (byteLength inner + 2))
      have hlen : o + byteLength (quotedText quote last ((w, inner) :: runs)) =
          o + byteLength w + (byteLength inner + 2) + byteLength (quotedText quote last runs) := by
        simp [quotedText, Char.utf8Size]
        omega
      dsimp only [Except.map, bind, Except.bind]
      rw [hi, hlen]
      cases quotedParts last (o + byteLength w + (byteLength inner + 2)) runs <;> rfl

theorem unquotedText_eq_nil {next : List Char} (h : endsBare next = true) :
    unquotedText next = [] := by
  cases next with
  | nil => rfl
  | cons x xs =>
    rw [endsBare] at h
    rw [unquotedText, if_pos h]

theorem readValue_text {v : ValueLayout} {next : List Char} (h : v.Valid next) (o : Nat) :
    readValue ⟨o, v.text ++ next⟩ =
      (v.parts o).map fun ps => (ps, ⟨o + byteLength v.text, next⟩) := by
  cases v with
  | quoted quote runs last =>
    obtain ⟨hq, hruns, hlast⟩ := h
    have hsize : quote.utf8Size = 1 := by rcases hq with rfl | rfl <;> rfl
    have hadvance : (Cursor.mk o (quote :: (quotedText quote last runs ++ next))).advance 1 =
        ⟨o + 1, quotedText quote last runs ++ next⟩ := by
      simp [Cursor.advance, hsize]
    rw [readValue, ValueLayout.text, List.cons_append]
    dsimp only
    rw [if_pos hq, hadvance, readQuoted_text hq o hlast hruns]
    simp [ValueLayout.parts, hsize, Nat.add_assoc]
  | braced inner =>
    have htext : ValueLayout.text (.braced inner) ++ next =
        '\x7b' :: (inner ++ '\x7d' :: next) := by
      simp [ValueLayout.text]
    have hlen : byteLength (ValueLayout.text (.braced inner)) = byteLength inner + 2 :=
      byteLength_braced inner
    rw [htext, hlen, readValue, readMustache_ofInner h]
    dsimp only
    rw [if_neg (by decide), if_pos rfl, ValueLayout.parts]
    cases Mustache.ofInner o inner <;> rfl
  | bare w =>
    obtain ⟨hnext, hw, hhead⟩ := h
    rw [readValue, ValueLayout.text]
    dsimp only
    split
    · next heq =>
      have : next = [] := (List.append_eq_nil_iff.1 heq).2
      simp [this, endsBare] at hnext
    · next x xs heq =>
      rw [heq] at hhead
      have hx : opensValue x = false := by simpa using hhead
      simp only [opensValue, Bool.or_eq_false_iff, beq_eq_false_iff_ne] at hx
      obtain ⟨⟨⟨h₁, h₂⟩, h₃⟩, h₄⟩ := hx
      rw [if_neg (by simp [h₁, h₂]), if_neg h₃, hw, Cursor.advance_append]
      rfl

structure SameStart (a b : List Char) : Prop where
  head : a.head? = b.head?
  bare : endsBare a = endsBare b
  mark : (trimStart a).head? = (trimStart b).head?

theorem sameStart (w : List Char) {x : Char} (hx : isBlank x = false) {u v : List Char}
    (h : x = '/' → u.head? = v.head?) : SameStart (w ++ x :: u) (w ++ x :: v) := by
  constructor
  · cases w <;> rfl
  · rcases w with _ | ⟨y, w⟩
    · by_cases hs : x = '/'
      · simp [endsBare, h hs]
      · simp [endsBare, beq_false_of_ne hs]
    · cases w <;> rfl
  · induction w with
    | nil => simp [trimStart, hx]
    | cons y w ih =>
      by_cases hy : isBlank y = true
      · simpa [trimStart, hy] using ih
      · simp [trimStart, hy]

theorem unquotedText_congr {w next next' : List Char} (hs : SameStart next next')
    (hb : endsBare next = true) (h : unquotedText (w ++ next) = w) :
    unquotedText (w ++ next') = w := by
  induction w with
  | nil => exact unquotedText_eq_nil (hs.bare ▸ hb)
  | cons x w ih =>
    have hhead : (w ++ next').head? = (w ++ next).head? := by
      cases w with
      | nil => exact hs.head.symm
      | cons y w => rfl
    rw [List.cons_append, unquotedText] at h ⊢
    rw [hhead]
    split at h
    · cases h
    · next hx => rw [if_neg hx, ih (List.cons.inj h).2]

theorem ValueLayout.Valid.congr {v : ValueLayout} {next next' : List Char} (h : v.Valid next)
    (hs : SameStart next next') : v.Valid next' := by
  cases v with
  | quoted quote runs last => exact h
  | braced inner => exact h
  | bare w =>
    obtain ⟨hb, hw, hhead⟩ := h
    refine ⟨hs.bare ▸ hb, unquotedText_congr hs hb hw, ?_⟩
    cases w with
    | nil => rwa [List.nil_append, ← hs.head]
    | cons x w => exact hhead

theorem AttributeLayout.Valid.congr {a : AttributeLayout} {next next' : List Char}
    (h : a.Valid next) (hs : SameStart next next') : a.Valid next' := by
  cases a with
  | braced inner => exact h
  | single name =>
    obtain ⟨hname, hne, hhead, hmark⟩ := h
    exact ⟨hname, hne, hs.head ▸ hhead, hs.mark ▸ hmark⟩
  | valued name before after v =>
    obtain ⟨hname, hbefore, hne, hafter, hv⟩ := h
    exact ⟨hname, hbefore, hne, hafter, hv.congr hs⟩

theorem Blanks.skipBlanks_eq {gap r : List Char} (hg : Blanks gap)
    (hr : ∀ x, r.head? = some x → isBlank x = false) (o : Nat) :
    (Cursor.mk o (gap ++ r)).skipBlanks = ⟨o + byteLength gap, r⟩ :=
  Cursor.skip_append o hg hr

theorem ValueLayout.Valid.head?_not_blank {v : ValueLayout} {next : List Char} (h : v.Valid next)
    {x : Char} (hx : (v.text ++ next).head? = some x) : isBlank x = false := by
  cases v with
  | quoted quote runs last =>
    cases hx
    rcases h.1 with rfl | rfl <;> rfl
  | braced inner =>
    cases hx
    rfl
  | bare w =>
    have hhead := h.2.2
    rw [ValueLayout.text] at hx
    rw [hx] at hhead
    simp only [Option.any_some, opensValue, Bool.or_eq_false_iff] at hhead
    exact hhead.2

theorem readAttribute_valued {name before after next : List Char} {v : ValueLayout}
    (h : (AttributeLayout.valued name before after v).Valid next) (o : Nat) :
    readAttribute ⟨o, (AttributeLayout.valued name before after v).text ++ next⟩ =
      ((AttributeLayout.valued name before after v).attribute o).map fun b =>
        (b, ⟨o + byteLength (AttributeLayout.valued name before after v).text, next⟩) := by
  obtain ⟨⟨hname, hbrace⟩, hbefore, hne, hafter, hv⟩ := h
  have hw : ∀ x ∈ name, (!endsName x) = true := by simpa using hname
  have hend : ∀ x, (before ++ '=' :: (after ++ (v.text ++ next))).head? = some x →
      (!endsName x) = false := by
    intro x hx
    cases before with
    | nil => cases hx; rfl
    | cons y before =>
      cases hx
      simp [endsName, hbefore x (by simp)]
  have hhead : (name ++ (before ++ '=' :: (after ++ (v.text ++ next)))).head? ≠ some '\x7b' := by
    cases name with
    | nil => simp [hne rfl]
    | cons x name => exact hbrace
  have htext : AttributeLayout.text (.valued name before after v) ++ next =
      name ++ (before ++ '=' :: (after ++ (v.text ++ next))) := by
    simp [AttributeLayout.text]
  have hadvance : ∀ o, (Cursor.mk o ('=' :: (after ++ (v.text ++ next)))).advance 1 =
      ⟨o + 1, after ++ (v.text ++ next)⟩ := by
    intro o
    simp [Cursor.advance, Char.utf8Size]
  have hlen : o + byteLength (AttributeLayout.text (.valued name before after v)) =
      o + byteLength name + byteLength before + 1 + byteLength after + byteLength v.text := by
    rw [AttributeLayout.byteLength_valued]
    omega
  rw [htext, hlen, readAttribute, if_neg hhead]
  dsimp only
  rw [Cursor.word_append o hw hend, Cursor.skip_append o hw hend,
    hbefore.skipBlanks_eq (by rintro x ⟨⟩; rfl), if_pos (by rfl), hadvance,
    hafter.skipBlanks_eq (fun x hx => hv.head?_not_blank hx), readValue_text hv,
    AttributeLayout.attribute]
  cases v.parts (o + byteLength name + byteLength before + 1 + byteLength after) <;> rfl

theorem readAttribute_text {a : AttributeLayout} {next : List Char} (h : a.Valid next) (o : Nat) :
    readAttribute ⟨o, a.text ++ next⟩ =
      (a.attribute o).map fun b => (b, ⟨o + byteLength a.text, next⟩) := by
  cases a with
  | braced inner =>
    have htext : AttributeLayout.text (.braced inner) ++ next =
        '\x7b' :: (inner ++ '\x7d' :: next) := by
      simp [AttributeLayout.text]
    have hlen : byteLength (AttributeLayout.text (.braced inner)) = byteLength inner + 2 :=
      byteLength_braced inner
    have hhead : (Cursor.mk o ('\x7b' :: (inner ++ '\x7d' :: next))).rest.head? =
        some '\x7b' := rfl
    rw [htext, hlen, readAttribute, if_pos hhead, readMustache_ofInner h,
      AttributeLayout.attribute]
    cases Mustache.ofInner o inner <;> rfl
  | single name =>
    obtain ⟨⟨hname, hbrace⟩, hne, hnext, hmark⟩ := h
    have hw : ∀ x ∈ name, (!endsName x) = true := by simpa using hname
    have hend : ∀ x, next.head? = some x → (!endsName x) = false := by
      intro x hx
      simpa [hx] using hnext
    have hhead : (name ++ next).head? ≠ some '\x7b' := by
      cases name with
      | nil => exact absurd rfl hne
      | cons x name => exact hbrace
    have hequals : (Cursor.mk (o + byteLength name) next).skipBlanks.rest.head? ≠ some '=' := by
      intro he
      change (trimStart next).head? = some '=' at he
      simp [he] at hmark
    rw [AttributeLayout.text, readAttribute, if_neg hhead]
    dsimp only
    rw [Cursor.word_append o hw hend, Cursor.skip_append o hw hend, if_neg hequals]
    rfl
  | valued name before after v => exact readAttribute_valued h o

section Tag

variable {start : Nat} {name : String} {c d : Cursor}

theorem readAttributes_of_stop {r : List Char} (hd : c.skipBlanks = d) (hr : d.rest = '>' :: r) :
    readAttributes start name c = .ok ([], false, d.advance 1) := by
  subst hd
  rw [readAttributes]
  split
  · next h => rw [hr] at h; cases h
  · next h =>
    rw [hr] at h
    cases h
    rw [if_neg (by simp), if_pos rfl]

theorem readAttributes_of_closedStop {r : List Char} (hd : c.skipBlanks = d)
    (hr : d.rest = '/' :: '>' :: r) :
    readAttributes start name c = .ok ([], true, d.advance 2) := by
  subst hd
  rw [readAttributes]
  split
  · next h => rw [hr] at h; cases h
  · next h =>
    rw [hr] at h
    cases h
    rw [if_pos ⟨rfl, rfl⟩]

theorem readAttributes_of_slash {r : List Char} (hd : c.skipBlanks = d) (hr : d.rest = '/' :: r)
    (hne : r.head? ≠ some '>') :
    readAttributes start name c = readAttributes start name (d.advance 1) := by
  subst hd
  rw [readAttributes]
  split
  · next h => rw [hr] at h; cases h
  · next h =>
    rw [hr] at h
    cases h
    rw [if_neg (by simp [hne]), if_neg (by decide), if_pos rfl]

theorem readAttributes_of_attribute {x : Char} {r : List Char} (hd : c.skipBlanks = d)
    (hr : d.rest = x :: r) (hslash : x ≠ '/') (hstop : x ≠ '>') :
    readAttributes start name c = (do
      let (a, e) ← readAttribute d
      (readAttributes start name e).map fun s => (a :: s.1, s.2)) := by
  subst hd
  rw [readAttributes]
  split
  · next h => rw [hr] at h; cases h
  · next h =>
    rw [hr] at h
    cases h
    rw [if_neg (by simp [hslash]), if_neg hstop, if_neg hslash]
    split <;> next ha => rw [ha]; rfl

end Tag

theorem TagLayout.text_eq_append (tag : TagLayout) : ∃ u, tag.text = u ++ ['>'] := by
  induction tag with
  | stop gap closed =>
    cases closed with
    | false => exact ⟨gap, rfl⟩
    | true => exact ⟨gap ++ ['/'], by simp [TagLayout.text]⟩
  | slash gap rest ih =>
    obtain ⟨u, hu⟩ := ih
    exact ⟨gap ++ '/' :: u, by simp [TagLayout.text, hu]⟩
  | item gap a rest ih =>
    obtain ⟨u, hu⟩ := ih
    exact ⟨gap ++ (a.text ++ u), by simp [TagLayout.text, hu]⟩

theorem TagLayout.sameStart_append (tag : TagLayout) (r : List Char) :
    SameStart tag.text (tag.text ++ r) := by
  obtain ⟨u, hu⟩ := tag.text_eq_append
  rw [hu, List.append_assoc]
  exact sameStart u (by rfl) (by simp)

theorem AttributeLayout.Valid.exists_head {a : AttributeLayout} {next : List Char}
    (h : a.Valid next) : ∃ x u, a.text = x :: u ∧ (x = '=' ∨ endsName x = false) := by
  cases a with
  | braced inner => exact ⟨_, _, rfl, .inr (by decide)⟩
  | single name =>
    obtain ⟨⟨hname, -⟩, hne, -⟩ := h
    obtain ⟨x, u, rfl⟩ := List.exists_cons_of_ne_nil hne
    exact ⟨x, u, rfl, .inr (hname x (by simp))⟩
  | valued name before after v =>
    obtain ⟨⟨hname, -⟩, -, hne, -⟩ := h
    cases name with
    | nil => exact ⟨_, _, by rw [AttributeLayout.text, hne rfl]; rfl, .inl rfl⟩
    | cons x name => exact ⟨_, _, rfl, .inr (hname x (by simp))⟩

theorem readAttributes_stop {gap : List Char} (h : Blanks gap) (closed : Bool) (start : Nat)
    (name : String) (o : Nat) (r : List Char) :
    readAttributes start name ⟨o, (TagLayout.stop gap closed).text ++ r⟩ =
      .ok ([], closed, ⟨o + byteLength (TagLayout.stop gap closed).text, r⟩) := by
  cases closed with
  | false =>
    have hd : (Cursor.mk o (gap ++ '>' :: r)).skipBlanks = ⟨o + byteLength gap, '>' :: r⟩ :=
      Blanks.skipBlanks_eq h (by rintro x ⟨⟩; rfl) o
    have htext : TagLayout.text (.stop gap false) ++ r = gap ++ '>' :: r := by
      simp [TagLayout.text]
    rw [htext, readAttributes_of_stop hd rfl]
    simp [TagLayout.text, Cursor.advance, Nat.add_assoc]
  | true =>
    have hd : (Cursor.mk o (gap ++ '/' :: '>' :: r)).skipBlanks =
        ⟨o + byteLength gap, '/' :: '>' :: r⟩ :=
      Blanks.skipBlanks_eq h (by rintro x ⟨⟩; rfl) o
    have htext : TagLayout.text (.stop gap true) ++ r = gap ++ '/' :: '>' :: r := by
      simp [TagLayout.text]
    rw [htext, readAttributes_of_closedStop hd rfl]
    simp [TagLayout.text, Cursor.advance, Nat.add_assoc]

theorem readAttributes_text {tag : TagLayout} (h : tag.Valid) (start : Nat) (name : String)
    (o : Nat) (r : List Char) :
    readAttributes start name ⟨o, tag.text ++ r⟩ = (tag.attributes o).map fun as =>
      (as, tag.closed, ⟨o + byteLength tag.text, r⟩) := by
  induction tag generalizing o with
  | stop gap closed => exact readAttributes_stop h closed start name o r
  | slash gap rest ih =>
    obtain ⟨hgap, hhead, hrest⟩ := h
    have hd : (Cursor.mk o (gap ++ '/' :: (rest.text ++ r))).skipBlanks =
        ⟨o + byteLength gap, '/' :: (rest.text ++ r)⟩ :=
      Blanks.skipBlanks_eq hgap (by rintro x ⟨⟩; rfl) o
    have htext : TagLayout.text (.slash gap rest) ++ r = gap ++ '/' :: (rest.text ++ r) := by
      simp [TagLayout.text]
    have hlen : o + byteLength (TagLayout.text (.slash gap rest)) =
        o + byteLength gap + 1 + byteLength rest.text := by
      simp [TagLayout.text, Char.utf8Size]
      omega
    have hadvance : (Cursor.mk (o + byteLength gap) ('/' :: (rest.text ++ r))).advance 1 =
        ⟨o + byteLength gap + 1, rest.text ++ r⟩ := by
      simp [Cursor.advance, Char.utf8Size]
    have hne : (rest.text ++ r).head? ≠ some '>' := by
      rwa [← (rest.sameStart_append r).head]
    rw [htext, hlen, readAttributes_of_slash hd rfl hne, hadvance, ih hrest]
    rfl
  | item gap a rest ih =>
    obtain ⟨hgap, ha, hrest⟩ := h
    obtain ⟨x, u, hx, hends⟩ := ha.exists_head
    have hmark : isBlank x = false ∧ x ≠ '/' ∧ x ≠ '>' := by
      rcases hends with rfl | hends
      · decide
      · simp only [endsName, Bool.or_eq_false_iff, beq_eq_false_iff_ne] at hends
        exact ⟨hends.1.1.1, hends.2, hends.1.2⟩
    have hd : (Cursor.mk o (gap ++ (a.text ++ (rest.text ++ r)))).skipBlanks =
        ⟨o + byteLength gap, a.text ++ (rest.text ++ r)⟩ := by
      apply Blanks.skipBlanks_eq hgap
      intro y hy
      rw [hx] at hy
      cases hy
      exact hmark.1
    have htext : TagLayout.text (.item gap a rest) ++ r =
        gap ++ (a.text ++ (rest.text ++ r)) := by
      simp [TagLayout.text]
    have hlen : o + byteLength (TagLayout.text (.item gap a rest)) =
        o + byteLength gap + byteLength a.text + byteLength rest.text := by
      simp [TagLayout.text]
      omega
    have hcons : a.text ++ (rest.text ++ r) = x :: (u ++ (rest.text ++ r)) := by
      rw [hx, List.cons_append]
    rw [htext, hlen, readAttributes_of_attribute hd hcons hmark.2.1 hmark.2.2,
      readAttribute_text (ha.congr (rest.sameStart_append r)), TagLayout.attributes]
    cases a.attribute (o + byteLength gap) with
    | error e => rfl
    | ok b =>
      have hi := ih hrest (o + byteLength gap + byteLength a.text)
      dsimp only [Except.map, bind, Except.bind]
      rw [hi]
      cases rest.attributes (o + byteLength gap + byteLength a.text) <;> rfl

theorem seekPast_append {needle : String} {w : List Char} (h : Precedes needle.toList w)
    (cause : ParseCause) (o : Nat) (r : List Char) :
    seekPast needle cause ⟨o, w ++ (needle.toList ++ r)⟩ =
      .ok (w, ⟨o + byteLength w, needle.toList ++ r⟩,
        ⟨o + byteLength w + byteLength needle.toList, r⟩) := by
  have hadvance := Cursor.advance_append (o + byteLength w) needle.toList r
  rw [String.length_toList] at hadvance
  rw [seekPast, Cursor.seek_append h]
  simp only [hadvance]

theorem readComment_text {body : List Char} (h : Precedes ['-', '-', '>'] body) (o : Nat)
    (r : List Char) :
    readComment ⟨o, (Layout.comment body).text ++ r⟩ =
      .ok (none, ⟨o + byteLength (Layout.comment body).text, r⟩) := by
  have hseek : Precedes "-->".toList body := h
  have htext : (Layout.comment body).text ++ r =
      ['<', '!', '-', '-'] ++ (body ++ ("-->".toList ++ r)) := by
    simp [Layout.text]
  have hadvance : (Cursor.mk o ((Layout.comment body).text ++ r)).advance 4 =
      ⟨o + 4, body ++ ("-->".toList ++ r)⟩ := by
    rw [htext]
    exact Cursor.advance_append o ['<', '!', '-', '-'] _
  have hlen : o + byteLength (Layout.comment body).text =
      o + 4 + byteLength body + byteLength "-->".toList := by
    simp [Layout.text, Char.utf8Size]
    omega
  rw [readComment, hadvance, seekPast_append hseek, hlen]
  rfl

theorem readClosing_text {body : List Char} (h : '>' ∉ body) (o : Nat) (r : List Char) :
    readClosing ⟨o, (Layout.closing body).text ++ r⟩ =
      ((Layout.closing body).token o).map fun t =>
        (t, ⟨o + byteLength (Layout.closing body).text, r⟩) := by
  have htext : (Layout.closing body).text ++ r = ('<' :: '/' :: body) ++ (">".toList ++ r) := by
    simp [Layout.text]
  have hseek : Precedes ">".toList ('<' :: '/' :: body) := by
    have := (precedes_nil '>' []).append_left (v := '<' :: '/' :: body) (by simp [h])
    rwa [List.append_nil] at this
  have hstop : o + byteLength ('<' :: '/' :: body) + byteLength ">".toList =
      o + (byteLength body + 3) := by
    simp [Char.utf8Size]
    omega
  rw [readClosing, htext, seekPast_append hseek, Layout.byteLength_closing, hstop]
  rfl

theorem IsContentName.eq_or_eq {name : List Char} (h : IsContentName name) :
    name = "script".toList ∨ name = "style".toList := by
  rcases h with h | h
  · exact .inl (by simpa using congrArg String.toList h)
  · exact .inr (by simpa using congrArg String.toList h)

theorem readContent_text {name body tail : List Char} (hname : IsContentName name)
    (hbody : Precedes ('<' :: '/' :: name) body) (htail : '>' ∉ tail) (start o : Nat)
    (r : List Char) :
    readContent start (.ofList name)
        ⟨o, body ++ '<' :: '/' :: (name ++ (tail ++ '>' :: r))⟩ =
      let stop := o + byteLength body + (byteLength name + byteLength tail + 3)
      .ok (if String.ofList name = "style"
        then some (.style ⟨⟨start, stop⟩, ⟨o, o + byteLength body⟩⟩) else none, ⟨stop, r⟩) := by
  have hneedle : ("</" ++ String.ofList name).toList = '<' :: '/' :: name := by simp
  have hfirst : Precedes ("</" ++ String.ofList name).toList body := hneedle ▸ hbody
  have hmark : '>' ∉ '<' :: '/' :: (name ++ tail) := by
    rcases hname.eq_or_eq with rfl | rfl <;> simp [htail]
  have hsecond : Precedes ">".toList ('<' :: '/' :: (name ++ tail)) := by
    have := (precedes_nil '>' []).append_left hmark
    rwa [List.append_nil] at this
  have htext : body ++ '<' :: '/' :: (name ++ (tail ++ '>' :: r)) =
      body ++ (("</" ++ String.ofList name).toList ++ (tail ++ '>' :: r)) := by
    simp [hneedle]
  have hrest : ("</" ++ String.ofList name).toList ++ (tail ++ '>' :: r) =
      ('<' :: '/' :: (name ++ tail)) ++ (">".toList ++ r) := by
    simp [hneedle]
  have hlen : o + byteLength body + byteLength ('<' :: '/' :: (name ++ tail)) +
      byteLength ">".toList = o + byteLength body + (byteLength name + byteLength tail + 3) := by
    simp [Char.utf8Size]
    omega
  rw [readContent, htext, seekPast_append hfirst, hrest]
  change seekPast _ _ _ >>= _ = _
  rw [seekPast_append hsecond, hlen]
  rfl

theorem readOpening_text {name : List Char} {tag : TagLayout}
    (hname : ∀ x ∈ name, endsTagName x = false) (hend : tag.text.head?.any endsTagName = true)
    (htag : tag.Valid) (o : Nat) (r : List Char) :
    readOpening ⟨o, '<' :: (name ++ (tag.text ++ r))⟩ = (do
      let start := o + 1 + byteLength name
      let attributes ← tag.attributes start
      let stop : Cursor := ⟨start + byteLength tag.text, r⟩
      if IsContentName name then readContent o (.ofList name) stop
      else return (some (.opening
        ⟨.ofList name, .ofName (.ofList name), ⟨o, stop.offset⟩, attributes⟩ (tag.isLeaf name)),
        stop)) := by
  have hw : ∀ x ∈ name, (!endsTagName x) = true := by simpa using hname
  have hstop : ∀ x, (tag.text ++ r).head? = some x → (!endsTagName x) = false := by
    intro x hx
    rw [← (tag.sameStart_append r).head] at hx
    simpa [hx] using hend
  have hadvance : (Cursor.mk o ('<' :: (name ++ (tag.text ++ r)))).advance 1 =
      ⟨o + 1, name ++ (tag.text ++ r)⟩ := by
    simp [Cursor.advance, Char.utf8Size]
  rw [readOpening, hadvance]
  dsimp only
  rw [Cursor.word_append _ hw hstop, Cursor.skip_append _ hw hstop, readAttributes_text htag]
  cases tag.attributes (o + 1 + byteLength name) <;> rfl

theorem startsWith_eq_false {w : String} {cs : List Char} (h : ¬ w.toList <+: cs) (o : Nat) :
    (Cursor.mk o cs).startsWith w = false := by
  rw [Cursor.startsWith, ← Bool.not_eq_true, List.isPrefixOf_iff_prefix]
  exact h

theorem not_prefix_append {needle w r : List Char} (hw : w ≠ []) (h : ¬ needle <+: w)
    (hr : ∀ x, r.head? = some x → x ∉ needle.tail) : ¬ needle <+: w ++ r := by
  intro hp
  rcases Nat.le_total needle.length w.length with hl | hl
  · exact h (List.prefix_of_prefix_length_le hp (List.prefix_append w r) hl)
  · obtain ⟨t, rfl⟩ := List.prefix_of_prefix_length_le (List.prefix_append w r) hp hl
    obtain ⟨y, w, rfl⟩ := List.exists_cons_of_ne_nil hw
    cases t with
    | nil => exact h (by simp)
    | cons x t =>
      obtain ⟨s, rfl⟩ := (List.prefix_append_right_inj _).1 hp
      exact hr x rfl (by simp)

theorem StartsPlain.append {w r : List Char} (hw : w ≠ []) (h : StartsPlain w)
    (hr : ∀ x, r.head? = some x → x ∉ ['!', '-', '/'] ∧ x.isAlpha = false) :
    StartsPlain (w ++ r) := by
  obtain ⟨hbrace, hcomment, hclosing, htag⟩ := h
  refine ⟨?_, not_prefix_append hw hcomment ?_, not_prefix_append hw hclosing ?_, ?_⟩
  · cases w with
    | nil => exact absurd rfl hw
    | cons x w => exact hbrace
  · intro x hx hmem
    have hsub : "<!--".toList.tail ⊆ ['!', '-', '/'] := by decide
    exact (hr x hx).1 (hsub hmem)
  · intro x hx hmem
    have hsub : "</".toList.tail ⊆ ['!', '-', '/'] := by decide
    exact (hr x hx).1 (hsub hmem)
  · match w, hw with
    | [x], _ =>
      cases r with
      | nil => simpa using htag
      | cons y r =>
        by_cases hx : x = '<'
        · subst hx
          exact (hr y rfl).2
        · simp [opensTag, hx]
    | x :: y :: w, _ =>
      by_cases hx : x = '<'
      · subst hx; exact htag
      · simp [opensTag, hx]

theorem not_begins_of_not_isPlain {r : List Char} (hr : r.head?.any isPlain = false) :
    ∀ x, r.head? = some x → x ∉ ['!', '-', '/'] ∧ x.isAlpha = false := by
  intro x hx
  rw [hx, Option.any_some, isPlain] at hr
  by_cases h : x = '<'
  · subst h; decide
  · have : x = '\x7b' := by simpa [h] using hr
    subst this; decide

theorem readToken_of_name {name r : List Char} (h : name.head?.any Char.isAlpha = true) (o : Nat) :
    readToken ⟨o, '<' :: (name ++ r)⟩ = readOpening ⟨o, '<' :: (name ++ r)⟩ := by
  cases name with
  | nil => simp at h
  | cons x name =>
    have hx : x.isAlpha = true := by simpa using h
    have hcomment : ¬ "<!--".toList <+: '<' :: (x :: name ++ r) := by
      intro hp
      change ['<', '!', '-', '-'] <+: _ at hp
      have : '!' = x := by simpa using (List.cons_prefix_cons.1 (List.cons_prefix_cons.1 hp).2).1
      subst this
      exact absurd hx (by decide)
    have hclosing : ¬ "</".toList <+: '<' :: (x :: name ++ r) := by
      intro hp
      change ['<', '/'] <+: _ at hp
      have : '/' = x := (List.cons_prefix_cons.1 (List.cons_prefix_cons.1 hp).2).1
      subst this
      exact absurd hx (by decide)
    rw [readToken, startsWith_eq_false hcomment, startsWith_eq_false hclosing, if_neg (by simp),
      if_neg (by simp), if_pos (by simpa [opensTag] using hx)]

theorem readToken_plain {w r : List Char} (h : (Layout.plain w).Valid r) (o : Nat) :
    readToken ⟨o, w ++ r⟩ = .ok (none, ⟨o + byteLength w, r⟩) := by
  obtain ⟨hne, hstart, hplain, hnext⟩ := h
  obtain ⟨hbrace, hcomment, hclosing, htag⟩ := hstart.append hne (not_begins_of_not_isPlain hnext)
  have hmustache : ¬ "\x7b".toList <+: w ++ r := by
    rintro ⟨s, hs⟩
    exact hbrace (by rw [← hs]; rfl)
  obtain ⟨x, w, rfl⟩ := List.exists_cons_of_ne_nil hne
  have hadvance : (Cursor.mk o (x :: w ++ r)).advance 1 = ⟨o + x.utf8Size, w ++ r⟩ := by
    simp [Cursor.advance]
  have htail : ∀ y ∈ w, isPlain y = true := hplain
  have hend : ∀ y, r.head? = some y → isPlain y = false := by
    intro y hy
    simpa [hy] using hnext
  rw [readToken, startsWith_eq_false hcomment, startsWith_eq_false hclosing,
    startsWith_eq_false hmustache, if_neg (by simp), if_neg (by simp), htag, if_neg (by simp),
    if_neg (by simp), hadvance, Cursor.skip_append _ htail hend]
  simp [Nat.add_assoc]

theorem readToken_text {l : Layout} {r : List Char} (h : l.Valid r) (o : Nat) :
    readToken ⟨o, l.text ++ r⟩ =
      (l.token o).map fun t => (t, ⟨o + byteLength l.text, r⟩) := by
  cases l with
  | comment body =>
    rw [readToken, if_pos (by simp [Cursor.startsWith, Layout.text]), readComment_text h]
    rfl
  | closing body =>
    rw [readToken, if_neg (by simp [Cursor.startsWith, Layout.text]),
      if_pos (by simp [Cursor.startsWith, Layout.text]), readClosing_text h]
  | mustache inner =>
    have htext : (Layout.mustache inner).text ++ r = '\x7b' :: (inner ++ '\x7d' :: r) := by
      simp [Layout.text]
    have hlen : byteLength (Layout.mustache inner).text = byteLength inner + 2 :=
      byteLength_braced inner
    rw [htext, hlen, readToken, if_neg (by simp [Cursor.startsWith]),
      if_neg (by simp [Cursor.startsWith]), if_neg (by simp [opensTag]),
      if_pos (by simp [Cursor.startsWith]), readMustache_ofInner h, Layout.token]
    cases Mustache.ofInner o inner <;> rfl
  | plain w => exact readToken_plain h o
  | opening name tag =>
    obtain ⟨⟨halpha, hname⟩, hcontent, hend, htag⟩ := h
    have htext : (Layout.opening name tag).text ++ r = '<' :: (name ++ (tag.text ++ r)) := by
      simp [Layout.text]
    have hlen : o + byteLength (Layout.opening name tag).text =
        o + 1 + byteLength name + byteLength tag.text := by
      rw [Layout.byteLength_opening]
      omega
    rw [htext, hlen, readToken_of_name halpha, readOpening_text hname hend htag, Layout.token]
    dsimp only
    cases tag.attributes (o + 1 + byteLength name) with
    | error e => rfl
    | ok as =>
      simp only [bind, Except.bind, if_neg hcontent]
      rfl
  | content name tag body tail =>
    obtain ⟨hcontent, hend, htag, hbody, htail⟩ := h
    have htext : (Layout.content name tag body tail).text ++ r =
        '<' :: (name ++ (tag.text ++ (body ++ '<' :: '/' :: (name ++ (tail ++ '>' :: r))))) := by
      simp [Layout.text]
    have hlen : o + byteLength (Layout.content name tag body tail).text =
        o + 1 + byteLength name + byteLength tag.text + byteLength body +
          (byteLength name + byteLength tail + 3) := by
      rw [Layout.byteLength_content]
      omega
    have halpha : name.head?.any Char.isAlpha = true := by
      rcases hcontent.eq_or_eq with rfl | rfl <;> decide
    have hname : ∀ x ∈ name, endsTagName x = false := by
      rcases hcontent.eq_or_eq with rfl | rfl <;> simp [endsTagName, isBlank, blankRanges]
    rw [htext, hlen, readToken_of_name halpha, readOpening_text hname hend htag, Layout.token]
    dsimp only
    cases tag.attributes (o + 1 + byteLength name) with
    | error e => rfl
    | ok as =>
      simp only [bind, Except.bind, if_pos hcontent]
      rw [readContent_text hcontent hbody htail]
      rfl

theorem readTokens_of_nil {c : Cursor} (h : c.rest = []) : readTokens c = .ok [] := by
  rw [readTokens]
  split
  · rfl
  · next hc => rw [h] at hc; cases hc

theorem readTokens_of_cons {c : Cursor} {x : Char} {xs : List Char} (h : c.rest = x :: xs) :
    readTokens c = (do
      let (t, d) ← readToken c
      (readTokens d).map (t.toList ++ ·)) := by
  rw [readTokens]
  split
  · next hc => rw [h] at hc; cases hc
  · split <;> next ht => rw [ht]; rfl

theorem Layout.Valid.text_ne_nil {l : Layout} {next : List Char} (h : l.Valid next) :
    l.text ≠ [] := by
  cases l with
  | plain w => exact h.1
  | comment | closing | mustache | opening | content => simp [Layout.text]

theorem readTokens_textOf {ls : List Layout} (h : ValidAll ls) (o : Nat) :
    readTokens ⟨o, textOf ls⟩ = tokensOf o ls := by
  induction ls generalizing o with
  | nil => exact readTokens_of_nil rfl
  | cons l ls ih =>
    obtain ⟨hl, hls⟩ := h
    obtain ⟨x, xs, hx⟩ := List.exists_cons_of_ne_nil hl.text_ne_nil
    have hcons : (Cursor.mk o (textOf (l :: ls))).rest = x :: (xs ++ textOf ls) := by
      change textOf (l :: ls) = _
      rw [textOf, List.flatMap_cons, hx]
      rfl
    rw [readTokens_of_cons hcons, textOf, List.flatMap_cons]
    change readToken ⟨o, l.text ++ textOf ls⟩ >>= _ = _
    rw [readToken_text hl, tokensOf]
    cases l.token o with
    | error e => rfl
    | ok t =>
      change (readTokens ⟨o + byteLength l.text, textOf ls⟩).map _ = _
      rw [ih hls]
      cases tokensOf (o + byteLength l.text) ls <;> rfl

theorem parse_textOf {ls : List Layout} (h : ValidAll ls) :
    Component.parse (.ofList (textOf ls)) =
      (tokensOf 0 ls).map (Component.ofTokens (byteLength (textOf ls))) := by
  rw [Component.parse, tokens, String.toList_ofList, Cursor.ofText, readTokens_textOf h]

end ClassWeave.Markup

import ClassWeave.Proofs.Markup.Canonical
import ClassWeave.Proofs.Markup.Recovery
import ClassWeave.Proofs.Text.Words

namespace ClassWeave.Markup.Canonical

open Text

theorem splitBraces_cons {n : Nesting} {x : Char} (h : ¬ (n = .top ∧ x = '\x7d')) (cs : List Char) :
    splitBraces n (x :: cs) = (splitBraces (n.next .curly x) cs).map fun p => (x :: p.1, p.2) := by
  rw [splitBraces, if_neg h]

theorem splitBraces_quoted {quote : Char} (hquote : isQuote quote = true) {v : List Char}
    (hv : Quoted quote v) (depth : Nat) (r : List Char) :
    splitBraces ⟨.inside quote, depth⟩ (v ++ quote :: r) =
      (splitBraces ⟨.plain, depth⟩ r).map fun p => (v ++ quote :: p.1, p.2) := by
  have hescape : quote ≠ '\x5c' := by
    rintro rfl
    cases hquote
  induction hv with
  | nil =>
    rw [List.nil_append, splitBraces_cons (by simp [Nesting.top])]
    simp [Nesting.next, Quoting.next, hescape]
  | escaped x h ih =>
    rw [List.cons_append, List.cons_append, splitBraces_cons (by simp [Nesting.top]),
      splitBraces_cons (by simp [Nesting.top, Nesting.next, Quoting.next])]
    simp only [Nesting.next, Quoting.next, reduceCtorEq, if_false, if_true, ih, Option.map_map]
    rfl
  | @cons x hx hxe w h ih =>
    rw [List.cons_append, splitBraces_cons (by simp [Nesting.top])]
    simp only [Nesting.next, Quoting.next, reduceCtorEq, if_false, hxe, hx, ih, Option.map_map]
    rfl

theorem ne_of_isQuote {x y : Char} (h : isQuote x = true) (hy : isQuote y = false) : x ≠ y := by
  rintro rfl
  rw [h] at hy
  cases hy

theorem splitBraces_closed {w : List Char} (h : Closed w) (depth : Nat) (r : List Char) :
    splitBraces ⟨.plain, depth⟩ (w ++ r) =
      (splitBraces ⟨.plain, depth⟩ r).map fun p => (w ++ p.1, p.2) := by
  induction h generalizing depth r with
  | nil => simp
  | @cons x hquote hopen hclose w h ih =>
    rw [List.cons_append, splitBraces_cons (by simp [hclose])]
    simp only [Nesting.next, Brackets.curly, Quoting.next, beq_iff_eq, hopen, hclose, hquote, ih,
      Option.map_map, if_true, if_false, Bool.false_eq_true]
    rfl
  | @quoted quote hquote v w hv hw ih =>
    have hopen : quote ≠ '\x7b' := ne_of_isQuote hquote rfl
    have hclose : quote ≠ '\x7d' := ne_of_isQuote hquote rfl
    rw [List.cons_append, splitBraces_cons (by simp [hclose]), List.append_assoc, List.cons_append]
    simp only [Nesting.next, Brackets.curly, Quoting.next, beq_iff_eq, hopen, hclose, hquote,
      if_true, if_false]
    rw [splitBraces_quoted hquote hv, ih]
    simp only [Option.map_map]
    congr 1
    funext p
    simp
  | @braced v w hv hw ihv ihw =>
    have htop : ¬ ((⟨.plain, depth + 1⟩ : Nesting) = .top ∧ '\x7d' = '\x7d') := by
      simp [Nesting.top]
    rw [List.cons_append, splitBraces_cons (by simp), List.append_assoc, List.cons_append]
    have hopen : (⟨.plain, depth⟩ : Nesting).next .curly '\x7b' = ⟨.plain, depth + 1⟩ := rfl
    have hclose : (⟨.plain, depth + 1⟩ : Nesting).next .curly '\x7d' = ⟨.plain, depth⟩ := rfl
    rw [hopen, ihv, splitBraces_cons htop, hclose, ihw]
    simp only [Option.map_map]
    congr 1
    funext p
    simp

theorem Closed.balanced {w : List Char} (h : Closed w) : Balanced w := by
  have := splitBraces_closed h 0 ['\x7d']
  simpa [Text.Balanced, Nesting.top, splitBraces] using this

theorem Inner.byteLength_print (e : Inner) : byteLength e.print = byteLength e.chars + 2 :=
  byteLength_braced e.chars

theorem Inner.ofInner (e : Inner) (o : Nat) :
    Mustache.ofInner o e.chars = .ok (.expression (e.tag o)) := by
  have hskip : (Cursor.mk (o + 1) e.chars).skipBlanks.rest = trimStart e.chars := rfl
  rw [Mustache.ofInner]
  simp only [hskip, e.start, Inner.tag, e.byteLength_print]
  rfl

def prependText (w : List Char) : List Run × List Char → List Run × List Char
  | ([], last) => ([], w ++ last)
  | ((v, inner) :: runs, last) => ((w ++ v, inner) :: runs, last)

def runsOf : List Part → List Run × List Char
  | [] => ([], [])
  | .text w _ _ :: ps => prependText w (runsOf ps)
  | .mustache e :: ps => (([], e.chars) :: (runsOf ps).1, (runsOf ps).2)

theorem quotedText_prependText (quote : Char) (w : List Char) (rs : List Run × List Char) :
    quotedText quote (prependText w rs).2 (prependText w rs).1 =
      w ++ quotedText quote rs.2 rs.1 := by
  obtain ⟨runs, last⟩ := rs
  cases runs with
  | nil => simp [prependText, quotedText]
  | cons run runs => simp [prependText, quotedText]

theorem quotedText_runsOf (quote : Char) (ps : List Part) :
    quotedText quote (runsOf ps).2 (runsOf ps).1 = ps.flatMap Part.print ++ [quote] := by
  induction ps with
  | nil => rfl
  | cons p ps ih =>
    cases p with
    | text w hne hclean =>
      rw [runsOf, quotedText_prependText, ih]
      simp [Part.print]
    | mustache e =>
      simp [runsOf, quotedText, ih, Part.print, Inner.print]

def Quotes (quote : Char) (rs : List Run × List Char) : Prop :=
  (∀ r ∈ rs.1, Quotable quote r.1 ∧ Balanced r.2) ∧ Quotable quote rs.2

theorem quotes_prependText {quote : Char} {w : List Char} {rs : List Run × List Char}
    (hw : Quotable quote w) (h : Quotes quote rs) : Quotes quote (prependText w rs) := by
  have happend {v : List Char} (hv : Quotable quote v) : Quotable quote (w ++ v) := by
    intro x hx
    rcases List.mem_append.1 hx with hx | hx
    · exact hw x hx
    · exact hv x hx
  obtain ⟨runs, last⟩ := rs
  obtain ⟨hruns, hlast⟩ := h
  cases runs with
  | nil => exact ⟨by simp [prependText], happend hlast⟩
  | cons run runs =>
    refine ⟨?_, hlast⟩
    obtain ⟨hrun, hruns⟩ := List.forall_mem_cons.1 hruns
    exact List.forall_mem_cons.2 ⟨⟨happend hrun.1, hrun.2⟩, hruns⟩

theorem quotes_runsOf (ps : List Part) : Quotes '\x22' (runsOf ps) := by
  induction ps with
  | nil => exact ⟨by simp [runsOf], by simp [runsOf, Quotable]⟩
  | cons p ps ih =>
    cases p with
    | text w hne hclean => exact quotes_prependText hclean ih
    | mustache e =>
      refine ⟨List.forall_mem_cons.2 ⟨⟨by simp [Quotable], e.closed.balanced⟩, ih.1⟩, ih.2⟩

theorem quotedParts_cons (last : List Char) (o : Nat) (w inner : List Char) (runs : List Run) :
    quotedParts last o ((w, inner) :: runs) =
      (quotedParts last (o + byteLength w) (([], inner) :: runs)).map (textParts o w ++ ·) := by
  rw [quotedParts, quotedParts]
  simp only [byteLength_nil, Nat.add_zero]
  cases Mustache.ofInner (o + byteLength w) inner with
  | error e => rfl
  | ok m =>
    simp only [bind, Except.bind]
    cases quotedParts last (o + byteLength w + (byteLength inner + 2)) runs with
    | error e => rfl
    | ok more => simp [Except.map, pure, Except.pure, textParts]

theorem quotedParts_runsOf {ps : List Part} (h : ps.IsChain fun p q => ¬ (p.IsText ∧ q.IsText))
    (o : Nat) : quotedParts (runsOf ps).2 o (runsOf ps).1 = .ok (valueOf o ps) := by
  induction ps generalizing o with
  | nil => rfl
  | cons p ps ih =>
    have htail := ih h.tail
    cases p with
    | mustache e =>
      have hnext := htail (o + byteLength e.print)
      rw [e.byteLength_print] at hnext
      simp only [runsOf, quotedParts, byteLength_nil, Nat.add_zero, e.ofInner, bind, Except.bind,
        hnext, valueOf, Part.part, Part.print, e.byteLength_print]
      rfl
    | text w hne hclean =>
      have hw : w.isEmpty = false := by simpa using hne
      have hnext := htail (o + byteLength w)
      cases ps with
      | nil => simp [runsOf, prependText, quotedParts, textParts, hw, valueOf, Part.part]
      | cons q ps =>
        cases q with
        | text v hv hclean' =>
          exact absurd ⟨trivial, trivial⟩ (List.isChain_cons_cons.1 h).1
        | mustache e =>
          -- The text joins the run of the mustache behind it, which has none of its own.
          rw [runsOf] at hnext
          rw [runsOf, runsOf, prependText, List.append_nil, quotedParts_cons, hnext]
          simp [Except.map, textParts, hw, valueOf, Part.part, Part.print]

def Entry.layout : Entry → AttributeLayout
  | bare name => .single name.chars
  | quoted name _ parts _ =>
    .valued name.chars [] [] (.quoted '\x22' (runsOf parts).1 (runsOf parts).2)
  | directive name _ e => .valued (directiveName name) [] [] (.braced e.chars)

theorem Entry.text_layout (a : Entry) : a.layout.text = a.print := by
  cases a with
  | bare name => rfl
  | quoted name plain parts apart =>
    simp [layout, print, AttributeLayout.text, ValueLayout.text, quotedText_runsOf]
  | directive name clean e =>
    simp [layout, print, AttributeLayout.text, ValueLayout.text, Inner.print]

theorem not_endsName {x : Char} (h : isBlank x = false ∧ x ≠ '=' ∧ x ≠ '>' ∧ x ≠ '/') :
    endsName x = false := by
  simp [endsName, h]

theorem AttributeName.isName (name : AttributeName) : IsName name.chars :=
  ⟨fun x hx => not_endsName (name.clean x hx), name.start⟩

theorem isName_directiveName {name : List Char}
    (h : ∀ x ∈ name, isBlank x = false ∧ x ≠ '=' ∧ x ≠ '>' ∧ x ≠ '/') :
    IsName (directiveName name) := by
  constructor
  · intro x hx
    rcases List.mem_append.1 hx with hx | hx
    · have hplain : ("class:".toList.all fun y => !endsName y) = true := rfl
      simpa using List.all_eq_true.1 hplain x hx
    · exact not_endsName (h x hx)
  · intro hhead
    cases hhead

def EndsEntry (next : List Char) : Prop :=
  next.head?.any endsName = true ∧ (trimStart next).head?.any (· != '=') = true

theorem Entry.valid_layout (a : Entry) {next : List Char} (h : EndsEntry next) :
    a.layout.Valid next := by
  cases a with
  | bare name => exact ⟨name.isName, name.ne_nil, h.1, h.2⟩
  | quoted name plain parts apart =>
    obtain ⟨hruns, hlast⟩ := quotes_runsOf parts
    exact ⟨name.isName, by simp [Blanks], fun _ => rfl, by simp [Blanks], .inl rfl, hruns, hlast⟩
  | directive name clean e =>
    exact ⟨isName_directiveName clean, by simp [Blanks], fun _ => rfl, by simp [Blanks],
      e.closed.balanced⟩

theorem directiveName?_eq_none {name : List Char} (h : ¬ "class:".toList <+: name) :
    directiveName? name = none := by
  rw [directiveName?, if_neg]
  rwa [List.isPrefixOf_iff_prefix]

theorem Entry.attribute_layout (a : Entry) (o : Nat) :
    a.layout.attribute o = .ok (a.attribute o) := by
  cases a with
  | bare name =>
    rw [layout, AttributeLayout.attribute, Entry.attribute, Attribute.ofValue]
    split
    · rfl
    · by_cases h : "class:".toList <+: name.chars
      · have hname : directiveName? name.chars = some (name.chars.drop 6) := by
          rw [directiveName?, if_pos (List.isPrefixOf_iff_prefix.2 h)]
        rw [hname, if_pos h]
        rfl
      · rw [directiveName?_eq_none h, if_neg h]
  | quoted name plain parts apart =>
    have htext : byteLength (Entry.print (.quoted name plain parts apart)) =
        byteLength name.chars + 1 +
          byteLength (ValueLayout.text (.quoted '\x22' (runsOf parts).1 (runsOf parts).2)) := by
      rw [← Entry.text_layout, layout, AttributeLayout.byteLength_valued]
      rfl
    have hparts : ValueLayout.parts (o + byteLength name.chars + 1)
        (.quoted '\x22' (runsOf parts).1 (runsOf parts).2) =
        .ok (valueOf (o + byteLength name.chars + 2) parts) := quotedParts_runsOf apart _
    rw [layout, AttributeLayout.attribute]
    simp only [byteLength_nil, Nat.add_zero, hparts, Except.map, Entry.attribute, htext,
      ← Nat.add_assoc, Attribute.ofValue, directiveName?_eq_none plain]
  | directive name clean e =>
    have hclass : directiveName name ≠ "class".toList := by
      intro h
      cases h
    have hname : directiveName? (directiveName name) = some name := rfl
    have htext : byteLength (Entry.print (.directive name clean e)) =
        byteLength (directiveName name) + 1 + byteLength (ValueLayout.text (.braced e.chars)) := by
      rw [← Entry.text_layout, layout, AttributeLayout.byteLength_valued]
      rfl
    rw [layout, AttributeLayout.attribute]
    simp only [byteLength_nil, Nat.add_zero, ValueLayout.parts, e.ofInner, Except.map,
      Entry.attribute, htext, ← Nat.add_assoc, Attribute.ofValue, if_neg hclass, hname]
    rfl

def tagLayout (entries : List Entry) : TagLayout :=
  entries.foldr (fun a rest => .item [' '] a.layout rest) (.stop [] false)

theorem text_tagLayout (entries : List Entry) :
    (tagLayout entries).text = entries.flatMap (fun a => ' ' :: a.print) ++ ['>'] := by
  induction entries with
  | nil => rfl
  | cons a entries ih =>
    have hcons : (tagLayout (a :: entries)).text =
        [' '] ++ (a.layout.text ++ (tagLayout entries).text) := rfl
    rw [hcons, ih, a.text_layout]
    simp

theorem closed_tagLayout (entries : List Entry) : (tagLayout entries).closed = false := by
  induction entries with
  | nil => rfl
  | cons a entries ih => exact ih

theorem Entry.head?_print (a : Entry) {x : Char} (h : a.print.head? = some x) :
    endsName x = false := by
  cases a with
  | bare name => exact name.isName.1 x (List.mem_of_mem_head? h)
  | quoted name plain parts apart =>
    obtain ⟨y, u, hy⟩ := List.exists_cons_of_ne_nil name.ne_nil
    have hx : x = y := by simpa [print, hy, eq_comm] using h
    apply name.isName.1
    simp [hy, hx]
  | directive name clean e =>
    have hhead : (Entry.print (.directive name clean e)).head? = some 'c' := rfl
    rw [hhead] at h
    cases h
    decide

theorem Entry.print_ne_nil (a : Entry) : a.print ≠ [] := by
  cases a with
  | bare name => exact name.ne_nil
  | quoted name plain parts apart => simp [print]
  | directive name clean e => simp [print]

theorem endsEntry_tagLayout (entries : List Entry) : EndsEntry (tagLayout entries).text := by
  rw [text_tagLayout]
  cases entries with
  | nil => exact ⟨rfl, rfl⟩
  | cons a entries =>
    obtain ⟨x, u, hx⟩ := List.exists_cons_of_ne_nil a.print_ne_nil
    have hends := a.head?_print (x := x) (by rw [hx]; rfl)
    simp only [endsName, Bool.or_eq_false_iff, beq_eq_false_iff_ne] at hends
    obtain ⟨⟨⟨hblank, hequals⟩, -⟩, -⟩ := hends
    constructor
    · rfl
    · have hspace : isBlank ' ' = true := rfl
      simp [hx, trimStart, hspace, hblank, hequals]

theorem valid_tagLayout (entries : List Entry) : (tagLayout entries).Valid := by
  induction entries with
  | nil => simp [tagLayout, TagLayout.Valid, Blanks]
  | cons a entries ih =>
    refine ⟨?_, a.valid_layout (endsEntry_tagLayout entries), ih⟩
    intro x hx
    cases List.mem_singleton.1 hx
    rfl

theorem attributes_tagLayout (entries : List Entry) (o : Nat) :
    (tagLayout entries).attributes o = .ok (attributesOf o entries) := by
  induction entries generalizing o with
  | nil => rfl
  | cons a entries ih =>
    have hspace : byteLength [' '] = 1 := rfl
    have hnext := ih (o + 1 + byteLength a.print)
    have hcons : (tagLayout (a :: entries)).attributes o = (do
        let b ← a.layout.attribute (o + byteLength [' '])
        let bs ← (tagLayout entries).attributes (o + byteLength [' '] + byteLength a.layout.text)
        return b :: bs) := rfl
    rw [hcons, hspace, a.attribute_layout, a.text_layout, hnext]
    rfl

theorem ElementName.isTagName (name : ElementName) : IsTagName name.chars := by
  refine ⟨name.letter, ?_⟩
  intro x hx
  obtain ⟨hblank, hslash, hstop⟩ := name.clean x hx
  simp [endsTagName, hblank, hslash, hstop]

theorem ElementName.not_isContentName (name : ElementName) : ¬ IsContentName name.chars := by
  intro h
  rcases h.eq_or_eq with h | h
  · exact name.not_script h
  · exact name.not_style h

theorem text_opening (name : ElementName) (entries : List Entry) :
    (Layout.opening name.chars (tagLayout entries)).text = printOpening name entries := by
  rw [Layout.text, text_tagLayout, printOpening]

theorem valid_opening (name : ElementName) (entries : List Entry) (next : List Char) :
    (Layout.opening name.chars (tagLayout entries)).Valid next := by
  refine ⟨name.isTagName, name.not_isContentName, ?_, valid_tagLayout entries⟩
  rw [text_tagLayout]
  cases entries with
  | nil => rfl
  | cons a entries => rfl

theorem token_opening (name : ElementName) (entries : List Entry) (o : Nat) :
    (Layout.opening name.chars (tagLayout entries)).token o =
      .ok (some (.opening (tagOf o (o + byteLength (printOpening name entries)) name entries)
        (voidElements.contains (.ofList name.chars)))) := by
  have hleaf : (tagLayout entries).isLeaf name.chars =
      voidElements.contains (.ofList name.chars) := by
    rw [TagLayout.isLeaf, closed_tagLayout, Bool.false_or]
  have hlen : o + byteLength (printOpening name entries) =
      o + 1 + byteLength name.chars + byteLength (tagLayout entries).text := by
    rw [← text_opening, Layout.byteLength_opening]
    omega
  rw [Layout.token]
  simp only [attributes_tagLayout, Except.map, hleaf, hlen]
  rfl

mutual

def Piece.tokens (o : Nat) : Piece → List Token
  | p@(.element name _ entries children) =>
    let inside := o + byteLength (printOpening name entries)
    .opening (tagOf o inside name entries) false ::
      (tokensAll inside children ++ [.closing (.ofList name.chars) (o + byteLength p.print)])
  | p@(.void name _ entries) => [.opening (tagOf o (o + byteLength p.print) name entries) true]
  | .mustache e => [.expression (e.tag o)]
  | .text _ _ => []

def tokensAll (o : Nat) : List Piece → List Token
  | [] => []
  | p :: ps => p.tokens o ++ tokensAll (o + byteLength p.print) ps

end

theorem readTokens_layout {l : Layout} {r : List Char} (h : l.Valid r) {o : Nat} {t : Option Token}
    (ht : l.token o = .ok t) :
    readTokens ⟨o, l.text ++ r⟩ =
      (readTokens ⟨o + byteLength l.text, r⟩).map (t.toList ++ ·) := by
  obtain ⟨x, xs, hx⟩ := List.exists_cons_of_ne_nil h.text_ne_nil
  have hcons : (Cursor.mk o (l.text ++ r)).rest = x :: (xs ++ r) := by
    change l.text ++ r = _
    rw [hx]
    rfl
  rw [readTokens_of_cons hcons, readToken_text h, ht]
  rfl

theorem readTokens_plain_cons {x : Char} (hx : isPlain x = true) (o : Nat) (cs : List Char) :
    readTokens ⟨o, x :: cs⟩ = readTokens ((Cursor.mk (o + x.utf8Size) cs).skip isPlain) := by
  have hne : x ≠ '<' ∧ x ≠ '\x7b' := by simpa [isPlain] using hx
  have hstart : ∀ w : String, w.toList.head? = some '<' ∨ w.toList.head? = some '\x7b' →
      (Cursor.mk o (x :: cs)).startsWith w = false := by
    intro w hw
    apply startsWith_eq_false
    rintro ⟨v, hv⟩
    cases hlist : w.toList with
    | nil => simp [hlist] at hw
    | cons y u =>
      rw [hlist] at hw hv
      have hyx : y = x := (List.cons.inj hv).1
      rcases hw with hw | hw
      · exact hne.1 (hyx ▸ Option.some.inj hw)
      · exact hne.2 (hyx ▸ Option.some.inj hw)
  have htag : opensTag (x :: cs) = false := by
    rw [opensTag.eq_def]
    split
    · next heq => exact absurd (List.cons.inj heq).1 hne.1
    · rfl
  -- One step takes all plain text there is, not only what a piece holds: texts may follow each
  -- other in a forest, so that no piece is known to end where the step does.
  have hread : readToken ⟨o, x :: cs⟩ =
      .ok (none, (Cursor.mk (o + x.utf8Size) cs).skip isPlain) := by
    have hadvance : (Cursor.mk o (x :: cs)).advance 1 = ⟨o + x.utf8Size, cs⟩ := by
      simp [Cursor.advance]
    rw [readToken, hstart _ (.inl rfl), hstart _ (.inl rfl), hstart _ (.inr rfl), htag, hadvance]
    rfl
  rw [readTokens_of_cons rfl, hread]
  change (readTokens _).map _ = _
  cases readTokens ((Cursor.mk (o + x.utf8Size) cs).skip isPlain) <;> rfl

theorem readTokens_skip (c : Cursor) : readTokens (c.skip isPlain) = readTokens c := by
  obtain ⟨o, cs⟩ := c
  cases cs with
  | nil => rfl
  | cons x cs =>
    by_cases hx : isPlain x = true
    · rw [readTokens_plain_cons hx]
      simp [Cursor.skip, hx, Nat.add_assoc]
    · rw [Cursor.skip_eq_self rfl (by simpa using hx)]

theorem readTokens_plain {w : List Char} (hw : ∀ x ∈ w, isPlain x = true) (o : Nat)
    (r : List Char) : readTokens ⟨o, w ++ r⟩ = readTokens ⟨o + byteLength w, r⟩ := by
  induction w generalizing o with
  | nil => rfl
  | cons x w ih =>
    have htail := ih (fun y hy => hw y (List.mem_cons_of_mem _ hy)) (o + x.utf8Size)
    rw [List.cons_append, readTokens_plain_cons (hw x (by simp)), readTokens_skip, htail]
    rw [byteLength_cons, Nat.add_assoc]

theorem ElementName.trim_eq (name : ElementName) : trim name.chars = name.chars := by
  apply IsWord.trim_eq
  constructor
  · intro hnil
    have hletter := name.letter
    rw [hnil] at hletter
    cases hletter
  · exact fun x hx => (name.clean x hx).1

theorem readTokens_closing (name : ElementName) (o : Nat) (r : List Char) :
    readTokens ⟨o, printClosing name ++ r⟩ =
      (readTokens ⟨o + byteLength (printClosing name), r⟩).map
        ([.closing (.ofList name.chars) (o + byteLength (printClosing name))] ++ ·) := by
  have hvalid : (Layout.closing name.chars).Valid r := by
    intro h
    exact (name.clean _ h).2.2 rfl
  have htoken : (Layout.closing name.chars).token o = .ok (some (.closing (.ofList name.chars)
      (o + byteLength (printClosing name)))) := by
    have hlen : byteLength (printClosing name) = byteLength name.chars + 3 :=
      Layout.byteLength_closing name.chars
    rw [Layout.token, name.trim_eq, hlen]
  exact readTokens_layout hvalid htoken

theorem readTokens_opening (name : ElementName) (entries : List Entry) (o : Nat) (r : List Char) :
    readTokens ⟨o, printOpening name entries ++ r⟩ =
      (readTokens ⟨o + byteLength (printOpening name entries), r⟩).map
        ([.opening (tagOf o (o + byteLength (printOpening name entries)) name entries)
          (voidElements.contains (.ofList name.chars))] ++ ·) := by
  have h := readTokens_layout (valid_opening name entries r) (token_opening name entries o)
  rwa [text_opening] at h

theorem map_append_map (ts us : List Token) (x : Except Failure (List Token)) :
    (x.map (us ++ ·)).map (ts ++ ·) = x.map ((ts ++ us) ++ ·) := by
  cases x with
  | error e => rfl
  | ok vs => simp [Except.map]

mutual

theorem readTokens_print : (p : Piece) → (o : Nat) → (r : List Char) →
    readTokens ⟨o, p.print ++ r⟩ =
      (readTokens ⟨o + byteLength p.print, r⟩).map (p.tokens o ++ ·)
  | .element name isOpen entries children, o, r => by
    have hleaf : voidElements.contains (String.ofList name.chars) = false := by
      rw [List.contains_eq_mem]
      exact decide_eq_false isOpen
    have hprint : Piece.print (.element name isOpen entries children) =
        printOpening name entries ++ (printAll children ++ printClosing name) := by
      rw [Piece.print]
    have hstop : o + byteLength (printOpening name entries) + byteLength (printAll children) +
        byteLength (printClosing name) =
        o + byteLength (Piece.print (.element name isOpen entries children)) := by
      rw [hprint, byteLength_append, byteLength_append]
      omega
    rw [Piece.tokens, ← hstop, hprint, List.append_assoc, List.append_assoc, readTokens_opening,
      hleaf, readTokens_printAll children, readTokens_closing, map_append_map, map_append_map]
    rfl
  | .void name isVoid entries, o, r => by
    have hleaf : voidElements.contains (String.ofList name.chars) = true := by
      rw [List.contains_eq_mem]
      exact decide_eq_true isVoid
    have hprint : Piece.print (.void name isVoid entries) = printOpening name entries := by
      rw [Piece.print]
    rw [Piece.tokens, hprint, readTokens_opening, hleaf]
  | .mustache e, o, r => by
    have htoken : (Layout.mustache e.chars).token o = .ok (some (.expression (e.tag o))) := by
      rw [Layout.token, e.ofInner]
      rfl
    have hvalid : (Layout.mustache e.chars).Valid r := e.closed.balanced
    rw [Piece.tokens, Piece.print]
    exact readTokens_layout hvalid htoken
  | .text w clean, o, r => by
    have hplain : ∀ x ∈ w, isPlain x = true := by
      intro x hx
      simp [isPlain, clean x hx]
    rw [Piece.tokens, Piece.print, readTokens_plain hplain]
    cases readTokens ⟨o + byteLength w, r⟩ <;> rfl

theorem readTokens_printAll : (ps : List Piece) → (o : Nat) → (r : List Char) →
    readTokens ⟨o, printAll ps ++ r⟩ =
      (readTokens ⟨o + byteLength (printAll ps), r⟩).map (tokensAll o ps ++ ·)
  | [], o, r => by
    rw [tokensAll, printAll]
    change readTokens ⟨o, r⟩ = (readTokens ⟨o, r⟩).map _
    cases readTokens ⟨o, r⟩ <;> rfl
  | p :: ps, o, r => by
    rw [tokensAll, printAll, List.append_assoc, readTokens_print p, readTokens_printAll ps,
      map_append_map, byteLength_append, Nat.add_assoc]

end

def attachAll (b : Builder) (ns : List Node) : Builder := ns.foldl Builder.attach b

theorem attachAll_append (b : Builder) (ns ms : List Node) :
    attachAll b (ns ++ ms) = attachAll (attachAll b ns) ms := List.foldl_append

theorem attachAll_open (b : Builder) (e : OpenElement) (ns : List Node) :
    attachAll { b with opened := e :: b.opened } ns =
      { b with opened := ⟨e.tag, e.children ++ ns⟩ :: b.opened } := by
  induction ns generalizing e with
  | nil => simp [attachAll]
  | cons n ns ih =>
    have hstep : attachAll { b with opened := e :: b.opened } (n :: ns) =
        attachAll { b with opened := ⟨e.tag, e.children ++ [n]⟩ :: b.opened } ns := rfl
    rw [hstep, ih, List.append_assoc]
    rfl

theorem attachAll_empty (ns : List Node) : attachAll .empty ns = ⟨[], ns, []⟩ := by
  have h (ms : List Node) : attachAll ⟨[], ms, []⟩ ns = ⟨[], ms ++ ns, []⟩ := by
    induction ns generalizing ms with
    | nil => simp [attachAll]
    | cons n ns ih =>
      have hstep : attachAll ⟨[], ms, []⟩ (n :: ns) = attachAll ⟨[], ms ++ [n], []⟩ ns := rfl
      rw [hstep, ih, List.append_assoc]
      rfl
  exact h []

/-- Closing the innermost element by its own name closes nothing else. -/
theorem closeNamed_open (b : Builder) (e : OpenElement) (stop : Nat) :
    Builder.closeNamed { b with opened := e :: b.opened } e.tag.name stop =
      b.attach (e.close stop) := by
  have hfind : (e :: b.opened).findIdx? (fun f => f.tag.name == e.tag.name) = some 0 := by
    simp [List.findIdx?_cons]
  rw [Builder.closeNamed]
  simp only [hfind]
  rfl

mutual

theorem foldl_tokens : (p : Piece) → (o : Nat) → (b : Builder) →
    (p.tokens o).foldl Builder.add b = attachAll b (p.nodes o)
  | .element name isOpen entries children, o, b => by
    let tag := tagOf o (o + byteLength (printOpening name entries)) name entries
    have hopened : b.add (.opening tag false) = { b with opened := ⟨tag, []⟩ :: b.opened } := rfl
    rw [Piece.tokens, Piece.nodes, List.foldl_cons, List.foldl_append, hopened,
      foldl_tokensAll children, attachAll_open]
    exact closeNamed_open b _ _
  | .void name isVoid entries, o, b => by
    rw [Piece.tokens, Piece.nodes]
    rfl
  | .mustache e, o, b => by
    rw [Piece.tokens, Piece.nodes]
    rfl
  | .text w clean, o, b => by
    rw [Piece.tokens, Piece.nodes]
    rfl

theorem foldl_tokensAll : (ps : List Piece) → (o : Nat) → (b : Builder) →
    (tokensAll o ps).foldl Builder.add b = attachAll b (nodesOf o ps)
  | [], o, b => by
    rw [tokensAll, nodesOf]
    rfl
  | p :: ps, o, b => by
    rw [tokensAll, nodesOf, List.foldl_append, attachAll_append, foldl_tokens p,
      foldl_tokensAll ps]

end

/-- Whatever forest is printed, parsing gives it back. -/
theorem parse_print (forest : List Piece) :
    Component.parse (.ofList (printAll forest)) = .ok ⟨nodesOf 0 forest, []⟩ := by
  have hend : readTokens ⟨0 + byteLength (printAll forest), []⟩ = .ok [] := readTokens_of_nil rfl
  have htokens := readTokens_printAll forest 0 []
  rw [List.append_nil, hend] at htokens
  rw [Component.parse, tokens, String.toList_ofList, Cursor.ofText, htokens]
  simp only [Except.map, List.append_nil, Component.ofTokens]
  rw [foldl_tokensAll, attachAll_empty]
  rfl

def letter (x : Char) (hquote : isQuote x = false) (hopen : x ≠ '\x7b') (hclose : x ≠ '\x7d')
    (start : (trimStart [x]).head?.any isBlockSigil = false) : Inner :=
  ⟨[x], .cons hquote hopen hclose .nil, start⟩

def sample : List Piece :=
  [.element ⟨['p'], rfl, by simp [isBlank, blankRanges], by simp, by simp⟩ (by decide)
    [.quoted ⟨"class".toList, by simp, by simp [isBlank, blankRanges], by simp⟩ (by decide)
      [.text ['a'] (by simp) (by simp), .mustache (letter 'b' rfl (by decide) (by decide) rfl)]
      (by simp [Part.IsText])]
    [.text ['x'] (by simp),
      .void ⟨['b', 'r'], rfl, by simp [isBlank, blankRanges], by simp, by simp⟩ (by decide) []]]

example : printAll sample = "<p class=\"a{b}\">x<br></p>".toList := rfl

example : nodesOf 0 sample = [.element ⟨"p", .element, ⟨0, 25⟩, [.classes ⟨⟨3, 15⟩,
    [.text ⟨⟨10, 11⟩, "a"⟩, .expression ⟨⟨11, 14⟩, .read 12 ['b']⟩]⟩]⟩
      [.element ⟨"br", .element, ⟨17, 21⟩, []⟩ []]] := rfl

end ClassWeave.Markup.Canonical

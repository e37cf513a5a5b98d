import ClassWeave.Proofs.Markup.Fitting
import ClassWeave.Proofs.Markup.Offsets
import ClassWeave.Proofs.Markup.Printing

namespace ClassWeave

def Span.shift (n : Nat) (s : Span) : Span := ⟨s.start + n, s.stop + n⟩

end ClassWeave

namespace ClassWeave.Markup

open Text Canonical

def Expr.shift (n : Nat) : Expr → Expr
  | conditional start test consequent alternate =>
    conditional (start + n) (test.shift n) (consequent.shift n) (alternate.shift n)
  | e => e

def ValuePart.shift (n : Nat) : ValuePart → ValuePart
  | text part => text ⟨part.span.shift n, part.text⟩
  | expression tag => expression ⟨tag.span.shift n, tag.expr.shift n⟩

theorem Expr.read_add (o n : Nat) (cs : List Char) : read (o + n) cs = (read o cs).shift n := by
  fun_induction read o cs with
  | case1 o cs start inner h ih =>
    have hstart : o + n + byteLength (leading cs) = start + n := by omega
    rw [read_of_unwrap h, hstart, ← ih, Nat.add_right_comm]
  | case2 o cs start h t ht consequentStart iht ihc iha =>
    have hstart : o + n + byteLength (leading cs) = start + n := by omega
    have hconsequent : start + n + byteLength t.test + 1 = consequentStart + n := by omega
    have halternate : consequentStart + n + byteLength t.consequent + 1 =
        consequentStart + byteLength t.consequent + 1 + n := by omega
    rw [read_of_ternary h ht]
    simp only [hstart, hconsequent, halternate, shift, iht, ihc, iha]
  | case3 o cs h ht value hl | case4 o cs h ht hl =>
    rw [read_of_none h ht, hl]
    rfl

theorem Mustache.exists_ofInner_add {o n : Nat} {inner : List Char} {m : Mustache}
    (h : Mustache.ofInner (o + n) inner = .ok m) :
    ∃ m', Mustache.ofInner o inner = .ok m' ∧ m.part? = m'.part?.map (ValuePart.shift n) := by
  obtain ⟨m', hm', -⟩ := Mustache.exists_ofInner h o
  refine ⟨m', hm', ?_⟩
  have hskip (k : Nat) : (Cursor.mk (k + 1) inner).skipBlanks.rest = trimStart inner := rfl
  rw [Mustache.ofInner] at h hm'
  rw [hskip] at h hm'
  by_cases hsigil : (trimStart inner).head?.any isBlockSigil = true
  · rw [if_pos hsigil] at h hm'
    have hnone {k : Nat} {span : Span} {m : Mustache}
        (h : (if (trimStart inner).head? = some '/' then Except.ok Mustache.closing
          else (readBlock (Cursor.mk k inner).skipBlanks).map fun r => .block ⟨span, r.1, r.2⟩) =
            .ok m) : m.part? = none := by
      split at h
      · cases h
        rfl
      · obtain ⟨r, -, rfl⟩ := exists_of_map_ok h
        rfl
    rw [hnone h, hnone hm']
    rfl
  · rw [if_neg hsigil] at h hm'
    cases h
    cases hm'
    have hstart : o + n + 1 = o + 1 + n := Nat.add_right_comm _ _ _
    have hstop : o + n + byteLength inner + 2 = o + byteLength inner + 2 + n := by omega
    simp only [part?, Option.map_some, ValuePart.shift, Span.shift, hstart, hstop, Expr.read_add]

structure BareValue where
  chars : List Char
  ne_nil : chars ≠ []
  clean : ∀ x ∈ chars, isBlank x = false ∧ isQuote x = false ∧ x ≠ '>' ∧ x ≠ '/' ∧ x ≠ '='
  closed : Closed chars

def quoted (quote : Char) (w : List Char) : List Char := quote :: (w ++ [quote])

def OnePiece (w : List Char) : Prop :=
  '\x7b' ∉ w ∨ ∃ inner, Closed inner ∧ w = '\x7b' :: (inner ++ ['\x7d'])

/-- Without quotes a value has the parts that it has with either quote, one byte earlier. -/
def SameParts (o : Nat) (w r : List Char) : Prop :=
  ∃ ps, readValue ⟨o, w ++ r⟩ = .ok (ps, ⟨o + byteLength w, r⟩) ∧
    ∀ quote, quote = '\x22' ∨ quote = '\x27' →
      readValue ⟨o, quoted quote w ++ r⟩ =
        .ok (ps.map (ValuePart.shift 1), ⟨o + byteLength w + 2, r⟩)

theorem Canonical.Closed.exists_runs {w : List Char} (h : Closed w)
    (hquote : ∀ x ∈ w, isQuote x = false) :
    ∃ rs : List Run × List Char, ∀ quote, isQuote quote = true →
      quotedText quote rs.2 rs.1 = w ++ [quote] ∧ Quotes quote rs := by
  induction h with
  | nil => exact ⟨([], []), fun quote _ => ⟨rfl, by simp [Quotes, Quotable]⟩⟩
  | @cons x hx hopen hclose w h ih =>
    obtain ⟨rs, hrs⟩ := ih fun y hy => hquote y (List.mem_cons_of_mem _ hy)
    refine ⟨prependText [x] rs, fun quote hq => ?_⟩
    obtain ⟨htext, hquotes⟩ := hrs quote hq
    refine ⟨by rw [quotedText_prependText, htext]; rfl, quotes_prependText ?_ hquotes⟩
    intro y hy
    rw [List.mem_singleton.1 hy]
    exact ⟨(ne_of_isQuote hq hx).symm, hopen⟩
  | @quoted q hq v w hv hw ih =>
    rw [hquote q (by simp)] at hq
    cases hq
  | @braced v w hv hw ihv ihw =>
    obtain ⟨rs, hrs⟩ := ihw fun y hy => hquote y (by simp [hy])
    refine ⟨(([], v) :: rs.1, rs.2), fun quote hq => ?_⟩
    obtain ⟨htext, hruns, hlast⟩ := hrs quote hq
    refine ⟨by simp [quotedText, htext], ?_, hlast⟩
    exact List.forall_mem_cons.2 ⟨⟨by simp [Quotable], hv.balanced⟩, hruns⟩

theorem Canonical.Closed.exists_mustache {w : List Char} (h : Closed ('\x7b' :: w)) :
    ∃ inner rest, Closed inner ∧ w = inner ++ '\x7d' :: rest := by
  cases h with
  | cons _ hopen _ _ => exact absurd rfl hopen
  | quoted hquote _ _ => cases hquote
  | braced hv hw => exact ⟨_, _, hv, rfl⟩

theorem readValue_quoted {quote : Char} (hq : quote = '\x22' ∨ quote = '\x27')
    {rs : List Run × List Char} {w : List Char} (htext : quotedText quote rs.2 rs.1 = w ++ [quote])
    (hquotes : Quotes quote rs) (o : Nat) (r : List Char) :
    readValue ⟨o, quoted quote w ++ r⟩ =
      (quotedParts rs.2 (o + 1) rs.1).map fun ps => (ps, ⟨o + byteLength w + 2, r⟩) := by
  have hsize : quote.utf8Size = 1 := by rcases hq with rfl | rfl <;> rfl
  have hvalid : (ValueLayout.quoted quote rs.1 rs.2).Valid r := ⟨hq, hquotes.1, hquotes.2⟩
  have hwritten : (ValueLayout.quoted quote rs.1 rs.2).text = quoted quote w := by
    rw [ValueLayout.text, htext, quoted]
  have hstop : o + byteLength (quoted quote w) = o + byteLength w + 2 := by
    simp [quoted, hsize]
    omega
  rw [← hwritten, readValue_text hvalid, hwritten, hstop, ValueLayout.parts, hsize]

theorem head?_quotedParts {w inner last : List Char} (hw : w ≠ []) {runs : List Run} {o : Nat}
    {ps : List ValuePart} (h : quotedParts last o ((w, inner) :: runs) = .ok ps) :
    ps.head? = some (.text ⟨⟨o, o + byteLength w⟩, .ofList w⟩) := by
  rw [quotedParts_cons] at h
  obtain ⟨more, -, rfl⟩ := exists_of_map_ok h
  rw [textParts, if_neg (by simpa using hw)]
  rfl

theorem isQuote_of_eq {quote : Char} (hq : quote = '\x22' ∨ quote = '\x27') :
    isQuote quote = true := by
  rcases hq with rfl | rfl <;> rfl

namespace BareValue

variable (v : BareValue)

theorem readValue_text {r : List Char} (hr : endsBare r = true)
    (hstart : v.chars.head? ≠ some '\x7b') (o : Nat) :
    readValue ⟨o, v.chars ++ r⟩ =
      .ok ([.text ⟨⟨o, o + byteLength v.chars⟩, .ofList v.chars⟩],
        ⟨o + byteLength v.chars, r⟩) := by
  have hvalid : (ValueLayout.bare v.chars).Valid r := by
    refine ⟨hr, unquotedText_append (fun x hx => ?_) hr, ?_⟩
    · obtain ⟨hblank, -, hstop, hslash, -⟩ := v.clean x hx
      exact ⟨hblank, hstop, hslash⟩
    · obtain ⟨x, w, hw⟩ := List.exists_cons_of_ne_nil v.ne_nil
      obtain ⟨hblank, hquote, -⟩ := v.clean x (by simp [hw])
      have hbrace : x ≠ '\x7b' := by simpa [hw] using hstart
      have hdouble : x ≠ '\x22' := (ne_of_isQuote rfl hquote).symm
      have hsingle : x ≠ '\x27' := (ne_of_isQuote rfl hquote).symm
      simp [hw, opensValue, hblank, hbrace, hdouble, hsingle]
  exact Markup.readValue_text hvalid o

theorem readValue_mustache {inner rest : List Char} (h : Closed inner)
    (hv : v.chars = '\x7b' :: (inner ++ '\x7d' :: rest)) (o : Nat) (r : List Char) :
    readValue ⟨o, v.chars ++ r⟩ =
      (Mustache.ofInner o inner).map fun m =>
        (m.part?.toList, ⟨o + (byteLength inner + 2), rest ++ r⟩) := by
  have hvalid : (ValueLayout.braced inner).Valid (rest ++ r) := h.balanced
  have htext : v.chars ++ r = (ValueLayout.braced inner).text ++ (rest ++ r) := by
    simp [hv, ValueLayout.text]
  rw [htext, Markup.readValue_text hvalid, ValueLayout.parts, ValueLayout.text, byteLength_braced]
  cases Mustache.ofInner o inner <;> rfl

theorem exists_runs : ∃ rs : List Run × List Char, ∀ quote, isQuote quote = true →
    quotedText quote rs.2 rs.1 = v.chars ++ [quote] ∧ Quotes quote rs :=
  v.closed.exists_runs fun x hx => (v.clean x hx).2.1

theorem quotable {quote : Char} (hq : isQuote quote = true) (hbrace : '\x7b' ∉ v.chars) :
    Quotable quote v.chars := by
  intro x hx
  refine ⟨(ne_of_isQuote hq (v.clean x hx).2.1).symm, ?_⟩
  rintro rfl
  exact hbrace hx

theorem sameParts_of_text {r : List Char} (hr : endsBare r = true) (hbrace : '\x7b' ∉ v.chars)
    (o : Nat) : SameParts o v.chars r := by
  have hstart : v.chars.head? ≠ some '\x7b' := fun h => hbrace (List.mem_of_mem_head? h)
  refine ⟨_, v.readValue_text hr hstart o, fun quote hq => ?_⟩
  have hquotes : Quotes quote ([], v.chars) :=
    ⟨by simp, v.quotable (isQuote_of_eq hq) hbrace⟩
  have hstop : o + 1 + byteLength v.chars = o + byteLength v.chars + 1 := by omega
  rw [readValue_quoted hq rfl hquotes, quotedParts, textParts, if_neg (by simpa using v.ne_nil),
    hstop]
  rfl

theorem sameParts_of_mustache {inner r : List Char} (hinner : Closed inner)
    (hv : v.chars = '\x7b' :: (inner ++ ['\x7d'])) {o : Nat} {x : List ValuePart × Cursor}
    (h : readValue ⟨o, quoted '\x22' v.chars ++ r⟩ = .ok x) : SameParts o v.chars r := by
  have hquotes (quote : Char) : Quotes quote ([([], inner)], []) :=
    ⟨by simp [Quotable, hinner.balanced], by simp [Quotable]⟩
  have htext (quote : Char) : quotedText quote [] [([], inner)] = v.chars ++ [quote] := by
    simp [quotedText, hv]
  have hparts : quotedParts [] (o + 1) [([], inner)] =
      (Mustache.ofInner (o + 1) inner).map fun m => m.part?.toList := by
    rw [quotedParts, byteLength_nil, Nat.add_zero]
    cases Mustache.ofInner (o + 1) inner with
    | error e => rfl
    | ok m => exact congrArg Except.ok (List.append_nil _)
  rw [readValue_quoted (.inl rfl) (htext _) (hquotes _), hparts] at h
  obtain ⟨ps, hps, -⟩ := exists_of_map_ok h
  obtain ⟨m, hm, rfl⟩ := exists_of_map_ok hps
  obtain ⟨m', hm', hpart⟩ := Mustache.exists_ofInner_add hm
  have hlen : byteLength v.chars = byteLength inner + 2 := by rw [hv, byteLength_braced]
  refine ⟨m'.part?.toList, ?_, fun quote hq => ?_⟩
  · rw [v.readValue_mustache hinner hv, hm', hlen]
    rfl
  · rw [readValue_quoted hq (htext quote) (hquotes quote), hparts, hps, hpart]
    cases m'.part? <;> rfl

theorem sameParts_iff {r : List Char} (hr : endsBare r = true) {o : Nat}
    {x : List ValuePart × Cursor} (h : readValue ⟨o, quoted '\x22' v.chars ++ r⟩ = .ok x) :
    SameParts o v.chars r ↔ OnePiece v.chars := by
  constructor
  · rintro ⟨ps, hbare, hquoted⟩
    by_cases hstart : v.chars.head? = some '\x7b'
    · obtain ⟨w, hw⟩ := List.head?_eq_some_iff.1 hstart
      obtain ⟨inner, rest, hinner, rfl⟩ := Closed.exists_mustache (hw ▸ v.closed)
      rw [v.readValue_mustache hinner hw] at hbare
      obtain ⟨m, -, hm⟩ := exists_of_map_ok hbare
      have hrest : rest ++ r = r := congrArg (fun x => x.2.rest) hm
      rw [List.append_left_eq_self] at hrest
      subst hrest
      exact .inr ⟨inner, hinner, hw⟩
    · obtain ⟨⟨runs, last⟩, hrs⟩ := v.exists_runs
      obtain ⟨htext, hquotes⟩ := hrs '\x22' rfl
      rw [v.readValue_text hr hstart] at hbare
      cases hbare
      have hparts := hquoted '\x22' (.inl rfl)
      rw [readValue_quoted (.inl rfl) htext hquotes] at hparts
      cases runs with
      | nil =>
        have hlast : last = v.chars := List.append_cancel_right htext
        subst hlast
        exact .inl fun h => (hquotes.2 _ h).2 rfl
      | cons run runs =>
        -- The first run is a text that ends before the value does.
        obtain ⟨w, inner⟩ := run
        rw [quotedText] at htext
        have hw : w ≠ [] := by
          rintro rfl
          obtain ⟨y, u, hu⟩ := List.exists_cons_of_ne_nil v.ne_nil
          rw [hu] at htext hstart
          exact hstart (congrArg List.head? htext).symm
        obtain ⟨ps, hps, hp⟩ := exists_of_map_ok hparts
        cases hp
        have hhead := head?_quotedParts hw hps
        obtain ⟨-, heq⟩ : _ ∧ String.ofList v.chars = String.ofList w := by
          simpa [ValuePart.shift] using hhead
        rw [← String.ofList_inj.1 heq] at htext
        have := List.append_cancel_left htext
        simp at this
  · rintro (hbrace | ⟨inner, hinner, hv⟩)
    · exact v.sameParts_of_text hr hbrace o
    · exact v.sameParts_of_mustache hinner hv h

end BareValue

theorem readAttribute_named (name : AttributeName) (o : Nat) {cs : List Char}
    (hcs : ∀ x, cs.head? = some x → isBlank x = false) :
    readAttribute ⟨o, name.chars ++ '=' :: cs⟩ =
      (readValue ⟨o + byteLength name.chars + 1, cs⟩).map fun x =>
        (.ofValue ⟨o, x.2.offset⟩ name.chars x.1, x.2) := by
  have hname : ∀ x ∈ name.chars, (!endsName x) = true := by
    intro x hx
    rw [not_endsName (name.clean x hx)]
    rfl
  have hend : ∀ x, ('=' :: cs).head? = some x → (!endsName x) = false := by
    rintro x ⟨⟩
    rfl
  have hhead : (name.chars ++ '=' :: cs).head? ≠ some '\x7b' := by
    obtain ⟨x, w, hw⟩ := List.exists_cons_of_ne_nil name.ne_nil
    simpa [hw] using name.start
  have hequals (k : Nat) : (Cursor.mk k ('=' :: cs)).skipBlanks = ⟨k, '=' :: cs⟩ :=
    Cursor.skip_eq_self rfl rfl
  have hadvance (k : Nat) : (Cursor.mk k ('=' :: cs)).advance 1 = ⟨k + 1, cs⟩ := by
    simp [Cursor.advance, Char.utf8Size]
  have hvalue (k : Nat) : (Cursor.mk k cs).skipBlanks = ⟨k, cs⟩ :=
    Cursor.skip_append k (p := isBlank) (w := []) (by simp) hcs
  rw [readAttribute, if_neg hhead]
  dsimp only
  rw [Cursor.word_append o hname hend, Cursor.skip_append o hname hend, hequals, if_pos (by rfl),
    hadvance, hvalue]

/-- Leaving out the quotes of a value. The value is read alike with either quote, and so it is
without quotes just if it is one piece; else it is a single text, or ends after its first
mustache. -/
theorem quotation_keeps_parts (name : AttributeName) (v : BareValue) (o : Nat) {r : List Char}
    (hr : endsBare r = true) :
    let start := o + byteLength name.chars + 1
    (∀ w ∈ [v.chars, quoted '\x22' v.chars, quoted '\x27' v.chars],
      readAttribute ⟨o, name.chars ++ '=' :: (w ++ r)⟩ =
        (readValue ⟨start, w ++ r⟩).map fun x =>
          (.ofValue ⟨o, x.2.offset⟩ name.chars x.1, x.2)) ∧
    readValue ⟨start, quoted '\x27' v.chars ++ r⟩ =
      readValue ⟨start, quoted '\x22' v.chars ++ r⟩ ∧
    (∀ x, readValue ⟨start, quoted '\x22' v.chars ++ r⟩ = .ok x →
      (SameParts start v.chars r ↔ OnePiece v.chars)) ∧
    (v.chars.head? ≠ some '\x7b' → readValue ⟨start, v.chars ++ r⟩ =
      .ok ([.text ⟨⟨start, start + byteLength v.chars⟩, .ofList v.chars⟩],
        ⟨start + byteLength v.chars, r⟩)) ∧
    ∀ inner rest, Closed inner → v.chars = '\x7b' :: (inner ++ '\x7d' :: rest) →
      readValue ⟨start, v.chars ++ r⟩ = (Mustache.ofInner start inner).map fun m =>
        (m.part?.toList, ⟨start + (byteLength inner + 2), rest ++ r⟩) := by
  intro start
  refine ⟨fun w hw => readAttribute_named name o ?_, ?_, fun x hx => v.sameParts_iff hr hx,
    fun hstart => v.readValue_text hr hstart start,
    fun inner rest hinner hv => v.readValue_mustache hinner hv start r⟩
  · intro x hx
    simp only [List.mem_cons, List.not_mem_nil, or_false] at hw
    rcases hw with rfl | rfl | rfl
    · obtain ⟨y, u, hu⟩ := List.exists_cons_of_ne_nil v.ne_nil
      rw [hu] at hx
      cases hx
      exact (v.clean x (by simp [hu])).1
    · cases hx
      rfl
    · cases hx
      rfl
  · obtain ⟨rs, hrs⟩ := v.exists_runs
    obtain ⟨hdouble, hdoubles⟩ := hrs '\x22' rfl
    obtain ⟨hsingle, hsingles⟩ := hrs '\x27' rfl
    rw [readValue_quoted (.inr rfl) hsingle hsingles, readValue_quoted (.inl rfl) hdouble hdoubles]

theorem Canonical.Closed.of_forall {w : List Char}
    (h : ∀ x ∈ w, isQuote x = false ∧ x ≠ '\x7b' ∧ x ≠ '\x7d') : Closed w := by
  induction w with
  | nil => exact .nil
  | cons x w ih =>
    obtain ⟨hquote, hopen, hclose⟩ := h x (by simp)
    exact .cons hquote hopen hclose (ih fun y hy => h y (List.mem_cons_of_mem _ hy))

def className : AttributeName where
  chars := "class".toList
  ne_nil := by decide
  clean := by
    intro x hx
    have hx : x = 'c' ∨ x = 'l' ∨ x = 'a' ∨ x = 's' := by simpa using hx
    rcases hx with rfl | rfl | rfl | rfl <;> decide
  start := by decide

def chosen : List Char := "b?c:d".toList

theorem closed_chosen : Closed chosen := .of_forall (by simp [chosen, isQuote])

def choice : BareValue :=
  ⟨'\x7b' :: (chosen ++ ['\x7d']), by simp, by simp [chosen, isBlank, blankRanges, isQuote],
    .braced closed_chosen .nil⟩

def textAndChoice : BareValue :=
  ⟨'a' :: choice.chars, by simp, by simp [choice, chosen, isBlank, blankRanges, isQuote],
    .cons rfl (by decide) (by decide) choice.closed⟩

theorem read_chosen (o : Nat) : Expr.read o chosen =
    .conditional o (.other "b") (.other "c") (.other "d") := by
  have hother (k : Nat) (c : Char) (hc : c ∈ ['b', 'c', 'd']) :
      Expr.read k [c] = .other (.ofList [c]) := by
    simp only [List.mem_cons, List.not_mem_nil, or_false] at hc
    rcases hc with rfl | rfl | rfl <;> exact Expr.read_of_none (by decide) (by decide) k
  have hternary : Expr.ternary? (trim chosen) = some ⟨['b'], ['c'], ['d']⟩ := rfl
  rw [Expr.read_of_ternary (by decide) hternary]
  simp only [hother _ 'b' (by simp), hother _ 'c' (by simp), hother _ 'd' (by simp)]
  rfl

theorem readValue_quoted_chosen {w : List Char} (hw : Quotable '\x22' w) (o : Nat) (r : List Char) :
    readValue ⟨o, quoted '\x22' (w ++ choice.chars) ++ r⟩ =
      let start := o + 1 + byteLength w
      .ok (textParts (o + 1) w ++ [.expression ⟨⟨start, start + 7⟩,
        .conditional (start + 1) (.other "b") (.other "c") (.other "d")⟩],
        ⟨o + (byteLength w + 7) + 2, r⟩) := by
  have hquotes : Quotes '\x22' ([(w, chosen)], []) :=
    ⟨by simp [hw, closed_chosen.balanced], by simp [Quotable]⟩
  have htext : quotedText '\x22' [] [(w, chosen)] = w ++ choice.chars ++ ['\x22'] := by
    simp [quotedText, choice]
  have hinner (k : Nat) : Mustache.ofInner k chosen =
      .ok (.expression ⟨⟨k, k + 7⟩, .read (k + 1) chosen⟩) := rfl
  have hlen : byteLength (w ++ choice.chars) = byteLength w + 7 := by
    rw [byteLength_append]
    rfl
  rw [readValue_quoted (.inl rfl) htext hquotes, quotedParts, hinner, read_chosen, hlen]
  simp [bind, Except.bind, pure, Except.pure, Except.map, quotedParts, textParts, Mustache.part?]

theorem quotation_keeps_parts_choice :
    endsBare ['>'] = true ∧ SameParts 9 choice.chars ['>'] := by
  obtain ⟨-, -, hparts, -, -⟩ := quotation_keeps_parts className choice 3 (r := ['>']) rfl
  have hread := readValue_quoted_chosen (w := []) (by simp [Quotable]) 9 ['>']
  exact ⟨rfl, (hparts _ hread).2 (.inr ⟨chosen, closed_chosen, rfl⟩)⟩

theorem exists_not_sameParts :
    readAttribute ⟨3, className.chars ++ '=' :: (textAndChoice.chars ++ ['>'])⟩ =
        .ok (.classes ⟨⟨3, 17⟩, [.text ⟨⟨9, 17⟩, "a\x7bb?c:d\x7d"⟩]⟩, ⟨17, ['>']⟩) ∧
      readAttribute ⟨3, className.chars ++ '=' :: (quoted '\x22' textAndChoice.chars ++ ['>'])⟩ =
        .ok (.classes ⟨⟨3, 19⟩, [.text ⟨⟨10, 11⟩, "a"⟩,
          .expression ⟨⟨11, 18⟩, .conditional 12 (.other "b") (.other "c") (.other "d")⟩]⟩,
          ⟨19, ['>']⟩) ∧
      ¬ SameParts 9 textAndChoice.chars ['>'] := by
  have hbare := textAndChoice.readValue_text (r := ['>']) rfl (by decide) 9
  have hquoted := readValue_quoted_chosen (w := ['a']) (by simp [Quotable]) 9 ['>']
  refine ⟨?_, ?_, ?_⟩
  · rw [readAttribute_named className 3 (by rintro x ⟨⟩; rfl)]
    exact congrArg (Except.map _) hbare
  · rw [readAttribute_named className 3 (by rintro x ⟨⟩; rfl)]
    exact congrArg (Except.map _) hquoted
  · rintro ⟨ps, hps, hquote⟩
    rw [hbare] at hps
    cases hps
    have := hquoted.symm.trans (hquote '\x22' (.inl rfl))
    simp [textParts] at this

end ClassWeave.Markup

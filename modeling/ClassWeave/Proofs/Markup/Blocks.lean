import ClassWeave.Proofs.Markup.Appending
import ClassWeave.Proofs.Markup.Conditionals
import ClassWeave.Proofs.Markup.Operands

namespace ClassWeave.Markup

open Text

structure Clause where
  chars : List Char
  matched : Matched (fun _ => True) chars
  not_blank : isBlankText chars = false

def wholeHeads : List (Char × String) :=
  [('#', "if"), ('#', "key"), (':', "else if"), ('@', "html"), ('@', "render")]

def boundHeads : List (String × String) := [("each", "as"), ("await", "then")]

section Heads

variable {sigil : Char} {word link : String}

theorem of_mem_wholeHeads (h : (sigil, word) ∈ wholeHeads) :
    (∀ x ∈ sigil :: (word.toList ++ [' ']), isOrdinary x = true) ∧ sigil.utf8Size = 1 ∧
      isBlockSigil sigil = true ∧ sigil ≠ '/' := by
  simp only [wholeHeads, List.mem_cons, Prod.mk.injEq, List.not_mem_nil, or_false] at h
  rcases h with ⟨rfl, rfl⟩ | ⟨rfl, rfl⟩ | ⟨rfl, rfl⟩ | ⟨rfl, rfl⟩ | ⟨rfl, rfl⟩ <;>
    exact ⟨by simp [isOrdinary, isQuote, Brackets.all], rfl, rfl, by decide⟩

theorem of_mem_boundHeads (h : (word, link) ∈ boundHeads) :
    (∀ x ∈ word.toList, x.isAlpha = true) ∧
      (∀ x ∈ '#' :: (word.toList ++ [' ']), isOrdinary x = true) ∧
      (∀ x ∈ ' ' :: (link.toList ++ [' ']), isOrdinary x = true) ∧ ' ' ∉ link.toList ∧
      operand '#' word = .beforeWord link := by
  simp only [boundHeads, List.mem_cons, Prod.mk.injEq, List.not_mem_nil, or_false] at h
  rcases h with ⟨rfl, rfl⟩ | ⟨rfl, rfl⟩ <;>
    exact ⟨by simp, by simp [isOrdinary, isQuote, Brackets.all],
      by simp [isOrdinary, isQuote, Brackets.all], by simp, rfl⟩

end Heads

inductive BlockForm
  | whole (sigil : Char) (word : String) (head : (sigil, word) ∈ wholeHeads)
  | bound (word link : String) (head : (word, link) ∈ boundHeads) (binding : Clause)
  | assigned (binding : Clause) (small : ∀ x ∈ binding.chars, x.utf8Size = 1)
      (free : Unassigned binding.chars)

namespace BlockForm

def keyword : BlockForm → String
  | whole _ word _ => word
  | bound word _ _ _ => word
  | assigned _ _ _ => "const"

def before : BlockForm → List Char
  | whole sigil word _ => sigil :: (word.toList ++ [' '])
  | bound word _ _ _ => '#' :: (word.toList ++ [' '])
  | assigned binding _ _ => '@' :: ("const".toList ++ ' ' :: (binding.chars ++ [' ', '=', ' ']))

def after : BlockForm → List Char
  | bound _ link _ binding => ' ' :: (link.toList ++ ' ' :: binding.chars)
  | _ => []

def inner (f : BlockForm) (expression : List Char) : List Char :=
  f.before ++ (expression ++ f.after)

/-- The expression cannot be taken to end at an earlier word. -/
def Admits (expression : List Char) : BlockForm → Prop
  | bound _ link _ _ => Lacks link.toList expression
  | _ => True

def binding : BlockForm → List Char
  | whole _ _ _ => []
  | bound _ _ _ binding => binding.chars
  | assigned binding _ _ => binding.chars

def beforeBinding (expression : List Char) : BlockForm → List Char
  | whole _ _ _ => []
  | bound word link _ _ =>
    '#' :: (word.toList ++ ' ' :: (expression ++ ' ' :: (link.toList ++ [' '])))
  | assigned _ _ _ => '@' :: ("const".toList ++ [' '])

theorem exists_inner_eq (f : BlockForm) (expression : List Char) :
    ∃ tail, f.inner expression = f.beforeBinding expression ++ (f.binding ++ tail) := by
  cases f with
  | whole sigil word head => exact ⟨inner (.whole sigil word head) expression, rfl⟩
  | bound word link head binding =>
    refine ⟨[], ?_⟩
    simp [inner, before, after, beforeBinding, BlockForm.binding]
  | assigned binding small free =>
    refine ⟨[' ', '=', ' '] ++ expression, ?_⟩
    simp [inner, before, after, beforeBinding, BlockForm.binding]

theorem matched_inner (f : BlockForm) (e : Clause) : Matched (fun _ => True) (f.inner e.chars) := by
  cases f with
  | whole sigil word head =>
    obtain ⟨hbefore, -⟩ := of_mem_wholeHeads head
    exact (Matched.of_ordinary hbefore).append (e.matched.append .nil)
  | bound word link head binding =>
    obtain ⟨-, hbefore, hlink, -⟩ := of_mem_boundHeads head
    have hafter : Matched (fun _ => True) (' ' :: (link.toList ++ ' ' :: binding.chars)) := by
      have := (Matched.of_ordinary hlink).append binding.matched
      simpa using this
    exact (Matched.of_ordinary hbefore).append (e.matched.append hafter)
  | assigned binding small free =>
    have hword : Matched (fun _ => True) ('@' :: ("const".toList ++ [' '])) :=
      .of_ordinary (by simp [isOrdinary, isQuote, Brackets.all])
    have hequals : Matched (fun _ => True) [' ', '=', ' '] :=
      .of_ordinary (by simp [isOrdinary, isQuote, Brackets.all])
    have hbefore := hword.append (binding.matched.append hequals)
    have := hbefore.append e.matched
    simpa [inner, before, after] using this

end BlockForm

section ReadBlock

variable {sigil : Char} {word : String}

theorem readBlock_of_word (hsigil : sigil.utf8Size = 1)
    (hword : ∀ x ∈ word.toList, x.isAlpha = true) (helse : ¬ (sigil = ':' ∧ word = "else"))
    (o : Nat) (cs : List Char) :
    readBlock ⟨o, sigil :: (word.toList ++ ' ' :: cs)⟩ =
      (readOperand sigil word ⟨o + 1 + byteLength word.toList, ' ' :: cs⟩).map
        fun e => (word, e) := by
  have hadvance : (Cursor.mk o (sigil :: (word.toList ++ ' ' :: cs))).advance 1 =
      ⟨o + 1, word.toList ++ ' ' :: cs⟩ := by
    simp [Cursor.advance, hsigil]
  have hend : ∀ x, (' ' :: cs).head? = some x → x.isAlpha = false := by
    rintro x ⟨⟩
    rfl
  rw [readBlock]
  simp only [hadvance, Cursor.word_append (o + 1) hword hend, Cursor.skip_append (o + 1) hword hend,
    String.ofList_toList, List.headD_cons, if_neg helse]
  cases readOperand sigil word ⟨o + 1 + byteLength word.toList, ' ' :: cs⟩ <;> rfl

theorem readBlock_elseIf (o : Nat) (cs : List Char) :
    readBlock ⟨o, ':' :: ("else if".toList ++ ' ' :: cs)⟩ =
      (readOperand ':' "else if" ⟨o + 8, ' ' :: cs⟩).map fun e => ("else if", e) := by
  have hadvance : (Cursor.mk o (':' :: ("else if".toList ++ ' ' :: cs))).advance 1 =
      ⟨o + 1, "else".toList ++ ' ' :: 'i' :: 'f' :: ' ' :: cs⟩ := by
    simp [Cursor.advance, Char.utf8Size]
  have hword : ∀ x ∈ "else".toList, x.isAlpha = true := by simp
  have hend : ∀ x, (' ' :: 'i' :: 'f' :: ' ' :: cs).head? = some x → x.isAlpha = false := by
    rintro x ⟨⟩
    rfl
  have hchained : chainedIf? ⟨o + 5, ' ' :: 'i' :: 'f' :: ' ' :: cs⟩ =
      some ⟨o + 8, ' ' :: cs⟩ := rfl
  have hlen : o + 1 + byteLength "else".toList = o + 5 := rfl
  rw [readBlock]
  simp only [hadvance, Cursor.word_append (o + 1) hword hend, Cursor.skip_append (o + 1) hword hend,
    String.ofList_toList, List.headD_cons, hlen, hchained, and_self, if_true]
  cases readOperand ':' "else if" ⟨o + 8, ' ' :: cs⟩ <;> rfl

theorem readBlock_whole (hhead : (sigil, word) ∈ wholeHeads) {cs : List Char}
    (hcs : isBlankText cs = false) (o : Nat) :
    readBlock ⟨o, sigil :: (word.toList ++ ' ' :: cs)⟩ =
      .ok (word, some (.read (o + 1 + byteLength word.toList + 1) cs)) := by
  have hread {sigil : Char} {word : String} (hsigil : sigil.utf8Size = 1)
      (hword : ∀ x ∈ word.toList, x.isAlpha = true) (helse : ¬ (sigil = ':' ∧ word = "else"))
      (hoperand : operand sigil word = .whole) :
      readBlock ⟨o, sigil :: (word.toList ++ ' ' :: cs)⟩ =
        .ok (word, some (.read (o + 1 + byteLength word.toList + 1) cs)) := by
    rw [readBlock_of_word hsigil hword helse, readOperand_whole hoperand hcs]
    rfl
  simp only [wholeHeads, List.mem_cons, Prod.mk.injEq, List.not_mem_nil, or_false] at hhead
  rcases hhead with ⟨rfl, rfl⟩ | ⟨rfl, rfl⟩ | ⟨rfl, rfl⟩ | ⟨rfl, rfl⟩ | ⟨rfl, rfl⟩
  · exact hread rfl (by simp) (by decide) rfl
  · exact hread rfl (by simp) (by decide) rfl
  · rw [readBlock_elseIf, readOperand_whole rfl hcs]
    rfl
  · exact hread rfl (by simp) (by decide) rfl
  · exact hread rfl (by simp) (by decide) rfl

end ReadBlock

theorem BlockForm.readBlock_inner (f : BlockForm) (e : Clause) (h : f.Admits e.chars) (o : Nat) :
    readBlock ⟨o, f.inner e.chars⟩ =
      .ok (f.keyword, some (.read (o + byteLength f.before) e.chars)) := by
  cases f with
  | whole sigil word head =>
    obtain ⟨-, hsigil, -⟩ := of_mem_wholeHeads head
    have hlen : o + byteLength (before (.whole sigil word head)) =
        o + 1 + byteLength word.toList + 1 := by
      have hspace : ' '.utf8Size = 1 := rfl
      simp only [before, byteLength_cons, byteLength_append, byteLength_nil, hsigil, hspace]
      omega
    have htext : inner (.whole sigil word head) e.chars =
        sigil :: (word.toList ++ ' ' :: e.chars) := by
      simp [inner, before, after]
    rw [hlen, htext, readBlock_whole head e.not_blank]
    rfl
  | bound word link head binding =>
    obtain ⟨hword, -, -, hlink, hoperand⟩ := of_mem_boundHeads head
    have hlacks : Lacks link.toList e.chars := h
    have hlen : o + byteLength (before (.bound word link head binding)) =
        o + 1 + byteLength word.toList + 1 := by
      simp [before, Char.utf8Size]
      omega
    have htext : inner (.bound word link head binding) e.chars =
        '#' :: (word.toList ++ ' ' ::
          (e.chars ++ ' ' :: (link.toList ++ ' ' :: binding.chars))) := by
      simp [inner, before, after]
    rw [hlen, htext, readBlock_of_word rfl hword (by simp),
      readOperand_beforeWord hoperand hlink e.matched hlacks e.not_blank]
    rfl
  | assigned binding small free =>
    have hlen : o + byteLength (before (.assigned binding small free)) =
        o + 1 + byteLength "const".toList + byteLength binding.chars + 4 := by
      simp [before, Char.utf8Size]
      omega
    have htext : inner (.assigned binding small free) e.chars =
        '@' :: ("const".toList ++ ' ' :: (binding.chars ++ ' ' :: '=' :: ' ' :: e.chars)) := by
      simp [inner, before, after]
    rw [hlen, htext, readBlock_of_word rfl (by simp) (by simp),
      readOperand_afterAssignment rfl binding.matched small free e.not_blank]
    rfl

theorem ofInner_of_readBlock {sigil : Char} (hsigil : isBlockSigil sigil = true)
    (hslash : sigil ≠ '/') {cs : List Char} {o : Nat} {r : String × Option Expr}
    (h : readBlock ⟨o + 1, sigil :: cs⟩ = .ok r) :
    Mustache.ofInner o (sigil :: cs) =
      .ok (.block ⟨⟨o, o + byteLength (sigil :: cs) + 2⟩, r.1, r.2⟩) := by
  have hblank : isBlank sigil = false := by
    simp only [isBlockSigil, Bool.or_eq_true, beq_iff_eq] at hsigil
    rcases hsigil with ((rfl | rfl) | rfl) | rfl <;> rfl
  have hskip : (Cursor.mk (o + 1) (sigil :: cs)).skipBlanks = ⟨o + 1, sigil :: cs⟩ :=
    Cursor.skip_eq_self rfl hblank
  rw [Mustache.ofInner]
  simp only [hskip, List.head?_cons, Option.any_some, hsigil, if_true, Option.some.injEq, hslash,
    if_false, h]
  rfl

theorem BlockForm.ofInner_inner (f : BlockForm) (e : Clause) (h : f.Admits e.chars) (o : Nat) :
    Mustache.ofInner o (f.inner e.chars) =
      .ok (.block ⟨⟨o, o + byteLength (f.inner e.chars) + 2⟩, f.keyword,
        some (.read (o + 1 + byteLength f.before) e.chars)⟩) := by
  have hread := f.readBlock_inner e h (o + 1)
  obtain ⟨sigil, cs, htext, hsigil, hslash⟩ : ∃ sigil cs, f.inner e.chars = sigil :: cs ∧
      isBlockSigil sigil = true ∧ sigil ≠ '/' := by
    cases f with
    | whole sigil word head =>
      obtain ⟨-, -, hsigil⟩ := of_mem_wholeHeads head
      exact ⟨sigil, _, rfl, hsigil⟩
    | bound word link head binding => exact ⟨'#', _, rfl, rfl, by decide⟩
    | assigned binding small free => exact ⟨'@', _, rfl, rfl, by decide⟩
  rw [htext] at hread ⊢
  exact ofInner_of_readBlock hsigil hslash hread

theorem head?_textOf_mustache (ls rest : List Layout) (inner inner' : List Char) :
    (textOf (ls ++ .mustache inner :: rest)).head? =
      (textOf (ls ++ .mustache inner' :: rest)).head? := by
  induction ls with
  | nil => rfl
  | cons l ls ih =>
    rw [List.cons_append, List.cons_append, textOf_cons, textOf_cons, List.head?_append,
      List.head?_append, ih]

theorem ValidAll.replace_mustache {ls rest : List Layout} {inner inner' : List Char}
    (h : ValidAll (ls ++ .mustache inner :: rest)) (hinner : Balanced inner') :
    ValidAll (ls ++ .mustache inner' :: rest) := by
  induction ls with
  | nil => exact ⟨hinner, h.2⟩
  | cons l ls ih =>
    refine ⟨?_, ih h.2⟩
    cases l with
    | plain w =>
      obtain ⟨hne, hstart, hplain, hnext⟩ := h.1
      have hhead := head?_textOf_mustache ls rest inner' inner
      exact ⟨hne, hstart, hplain, (congrArg (Option.any isPlain) hhead).trans hnext⟩
    | comment | closing | mustache | opening | content => exact h.1

theorem ValidAll.of_append {ls ks : List Layout} (h : ValidAll (ls ++ ks)) : ValidAll ks := by
  induction ls with
  | nil => exact h
  | cons l ls ih => exact ih h.2

theorem tokensOf_mustache (ls rest : List Layout) {inner : List Char} {m : Mustache}
    (hm : Mustache.ofInner (byteLength (textOf ls)) inner = .ok m) :
    tokensOf 0 (ls ++ .mustache inner :: rest) = (do
      let ts ← tokensOf 0 ls
      let us ← tokensOf (byteLength (textOf ls) + byteLength inner + 2) rest
      return ts ++ (m.token?.toList ++ us)) := by
  have hstop : byteLength (textOf ls) + byteLength (Layout.mustache inner).text =
      byteLength (textOf ls) + byteLength inner + 2 := by
    rw [Layout.text, byteLength_braced, Nat.add_assoc]
  have htoken : (Layout.mustache inner).token (byteLength (textOf ls)) = .ok m.token? := by
    rw [Layout.token, hm]
    rfl
  rw [tokensOf_append, Nat.zero_add, tokensOf, htoken, hstop]
  cases tokensOf 0 ls with
  | error e => rfl
  | ok ts =>
    simp only [bind, Except.bind]
    cases tokensOf (byteLength (textOf ls) + byteLength inner + 2) rest <;> rfl

def Head.span : Head → Span
  | element tag => tag.span
  | expression tag => tag.span
  | block tag => tag.span

def Entry.startsIn (lo hi : Nat) (e : Entry) : Bool :=
  lo ≤ e.head.span.start && e.head.span.start < hi

theorem Token.Sound.head? {cs : List Char} {start stop length : Nat} {names : List String}
    {later : List Token} {t : Token} {head : Head} (h : t.Sound cs start stop)
    (hhead : t.head? length names later = some head) :
    head.span.start = start ∧ start < stop := by
  cases t with
  | opening tag leaf =>
    obtain ⟨hspan, hproper, -⟩ := h
    cases hhead
    have hlt := hproper.lt
    rw [hspan] at hlt
    exact ⟨congrArg Span.start hspan, hlt⟩
  | expression tag =>
    obtain ⟨hspan, htag⟩ := h
    cases hhead
    have hlt := lt_of_braced htag.covers
    rw [hspan] at hlt
    exact ⟨congrArg Span.start hspan, hlt⟩
  | block tag =>
    obtain ⟨hspan, htag⟩ := h
    cases hhead
    have hlt := lt_of_braced htag.covers
    rw [hspan] at hlt
    exact ⟨congrArg Span.start hspan, hlt⟩
  | closing | style => cases hhead

section Listing

variable {cs : List Char} {lo hi : Nat}

def Apart (cs : List Char) (lo hi : Nat) (ts : List Token) : Prop :=
  ∀ t ∈ ts, ∃ start stop, t.Sound cs start stop ∧ (stop ≤ lo ∨ hi ≤ start)

theorem Apart.startsIn_head {ts : List Token} (h : Apart cs lo hi ts) {t : Token} (ht : t ∈ ts)
    {length : Nat} {names : List String} {later : List Token} {head : Head}
    (hhead : t.head? length names later = some head) (around : List String) :
    Entry.startsIn lo hi ⟨around, head⟩ = false := by
  obtain ⟨start, stop, hsound, hapart⟩ := h t ht
  obtain ⟨hstart, hlt⟩ := hsound.head? hhead
  rw [Entry.startsIn, hstart, Bool.and_eq_false_iff, decide_eq_false_iff_not,
    decide_eq_false_iff_not]
  omega

theorem Apart.filter_listing_append {ts : List Token} (h : Apart cs lo hi ts) (length : Nat)
    (us : List Token) (names : List String) :
    (listing length names (ts ++ us)).filter (Entry.startsIn lo hi) =
      (listing length (ts.foldl Token.nest names) us).filter (Entry.startsIn lo hi) := by
  induction ts generalizing names with
  | nil => rfl
  | cons t ts ih =>
    have hnone : ((t.head? length names (ts ++ us)).toList.map (Entry.mk names)).filter
        (Entry.startsIn lo hi) = [] := by
      cases hhead : t.head? length names (ts ++ us) with
      | none => rfl
      | some head => simp [h.startsIn_head List.mem_cons_self hhead]
    rw [List.cons_append, listing, List.filter_append, hnone, List.nil_append,
      ih (fun u hu => h u (List.mem_cons_of_mem _ hu)), List.foldl_cons]

theorem Apart.filter_listing {ts : List Token} (h : Apart cs lo hi ts) (length : Nat)
    (names : List String) : (listing length names ts).filter (Entry.startsIn lo hi) = [] := by
  have := h.filter_listing_append length [] names
  rwa [List.append_nil] at this

end Listing

def Place.BeginsIn (lo hi : Nat) : Place → Prop
  | conditional start _ _ _ => lo ≤ start ∧ start < hi
  | _ => False

theorem Component.walk_congr {m : Type → Type} [Monad m] [LawfulMonad m] {c : Component}
    {enter enter' : Place → m Unit} (h : ∀ p ∈ c.places, enter p = enter' p) :
    c.walk enter = c.walk enter' := by
  have hforM (ps : List Place) (h : ∀ p ∈ ps, enter p = enter' p) :
      forM ps enter = forM ps enter' := by
    induction ps with
    | nil => rfl
    | cons p ps ih =>
      rw [List.forM_cons, List.forM_cons, h p (by simp),
        ih fun q hq => h q (List.mem_cons_of_mem _ hq)]
  rw [walk_eq, walk_eq, hforM _ h]

theorem stands_mustache (ls rest : List Layout) (inner : List Char) :
    let cs := textOf (ls ++ .mustache inner :: rest)
    let start := byteLength (textOf ls)
    Stands cs 0 (textOf ls) ∧ Stands cs start ('\x7b' :: (inner ++ ['\x7d'])) ∧
      Stands cs (start + byteLength inner + 2) (textOf rest) := by
  intro cs start
  have htext : cs = textOf ls ++ (('\x7b' :: (inner ++ ['\x7d'])) ++ textOf rest) := by
    simp only [cs, textOf_append, textOf_cons, Layout.text]
  have hwhole := Stands.whole cs
  rw [htext] at hwhole
  have hright := hwhole.right
  have hrest := hright.right
  rw [Nat.zero_add] at hright hrest
  rw [byteLength_braced, ← Nat.add_assoc] at hrest
  rw [htext]
  exact ⟨hwhole.left, hright.left, hrest⟩

section Parse

variable {ls rest : List Layout} {inner : List Char} {m : Mustache}
  (hvalid : ValidAll (ls ++ .mustache inner :: rest))
  (hm : Mustache.ofInner (byteLength (textOf ls)) inner = .ok m)

include hvalid hm

theorem parse_mustache :
    let cs := textOf (ls ++ .mustache inner :: rest)
    Component.parse (.ofList cs) = (do
      let ts ← tokensOf 0 ls
      let us ← tokensOf (byteLength (textOf ls) + byteLength inner + 2) rest
      return .ofTokens (byteLength cs) (ts ++ (m.token?.toList ++ us))) := by
  intro cs
  rw [parse_textOf hvalid, tokensOf_mustache ls rest hm]
  cases tokensOf 0 ls with
  | error e => rfl
  | ok ts =>
    simp only [bind, Except.bind]
    cases tokensOf (byteLength (textOf ls) + byteLength inner + 2) rest <;> rfl

theorem exists_of_parse_mustache {c : Component}
    (hc : Component.parse (.ofList (textOf (ls ++ .mustache inner :: rest))) = .ok c) :
    let cs := textOf (ls ++ .mustache inner :: rest)
    let start := byteLength (textOf ls)
    let stop := start + byteLength inner + 2
    ∃ ts us, c = .ofTokens (byteLength cs) (ts ++ (m.token?.toList ++ us)) ∧
      Apart cs start stop ts ∧ Apart cs start stop us := by
  intro cs start stop
  rw [parse_mustache hvalid hm] at hc
  obtain ⟨ts, hts, hc⟩ := exists_of_bind_ok hc
  obtain ⟨us, hus, hc⟩ := exists_of_bind_ok hc
  cases hc
  obtain ⟨hbefore, -, hbehind⟩ := stands_mustache ls rest inner
  refine ⟨ts, us, rfl, fun t ht => ?_, fun t ht => ?_⟩
  · obtain ⟨first, last, -, -, hlast, hsound⟩ := sound_of_mem_tokensOf hvalid hbefore hts t ht
    exact ⟨first, last, hsound, .inl (by omega)⟩
  · have hrest : ValidAll (rest ++ []) := by
      rw [List.append_nil]
      exact hvalid.of_append.2
    obtain ⟨first, last, hfirst, -, -, hsound⟩ := sound_of_mem_tokensOf hrest hbehind hus t ht
    exact ⟨first, last, hsound, .inr hfirst⟩

end Parse

theorem filter_preorder_block {cs : List Char} {lo hi : Nat} {ts us : List Token}
    (hts : Apart cs lo hi ts) (hus : Apart cs lo hi us) {tag : BlockTag} (hlo : lo ≤ tag.span.start)
    (hhi : tag.span.start < hi) (length : Nat) :
    (preorderOf [] (Component.ofTokens length (ts ++ .block tag :: us)).fragment).filter
        (Entry.startsIn lo hi) = [⟨ts.foldl Token.nest [], .block tag⟩] := by
  have hblock (around : List String) : Entry.startsIn lo hi ⟨around, .block tag⟩ = true := by
    simp [Entry.startsIn, Head.span, hlo, hhi]
  rw [Component.preorder_ofTokens, hts.filter_listing_append, listing, List.filter_append,
    hus.filter_listing]
  simp [Token.head?, hblock]

namespace BlockForm

theorem binding_beside (f : BlockForm) (expression : List Char) :
    let lo := byteLength (f.beforeBinding expression)
    let hi := lo + byteLength f.binding
    hi ≤ lo ∨ hi ≤ byteLength f.before ∨ byteLength f.before + byteLength expression ≤ lo := by
  cases f with
  | whole sigil word head => exact .inl (Nat.le_refl _)
  | bound word link head binding =>
    refine .inr (.inr ?_)
    simp [before, beforeBinding]
    omega
  | assigned binding small free =>
    refine .inr (.inl ?_)
    simp [before, beforeBinding, BlockForm.binding]
    omega

theorem not_beginsIn_binding (f : BlockForm) (e : Clause) {cs : List Char} {start : Nat}
    (hstands : Stands cs start ('\x7b' :: (f.inner e.chars ++ ['\x7d']))) {ts us : List Token}
    (hts : Apart cs start (start + byteLength (f.inner e.chars) + 2) ts)
    (hus : Apart cs start (start + byteLength (f.inner e.chars) + 2) us) {span : Span}
    {length : Nat} {p : Place}
    (hp : p ∈ (Component.ofTokens length (ts ++ .block ⟨span, f.keyword,
      some (.read (start + 1 + byteLength f.before) e.chars)⟩ :: us)).places) :
    let lo := start + 1 + byteLength (f.beforeBinding e.chars)
    ¬ p.BeginsIn lo (lo + byteLength f.binding) := by
  intro lo
  obtain ⟨tail, htail⟩ := f.exists_inner_eq e.chars
  have hlen := congrArg byteLength htail
  simp only [byteLength_append] at hlen
  have hbeside := f.binding_beside e.chars
  cases p with
  | conditional s test consequent alternate =>
    rintro ⟨hlo, hhi⟩
    have hapart {t : Token} (ht : ∃ first last, t.Sound cs first last ∧
        (last ≤ start ∨ start + byteLength (f.inner e.chars) + 2 ≤ first)) :
        .conditional s test consequent alternate ∉ t.places := by
      intro hmem
      obtain ⟨first, last, hsound, hside⟩ := ht
      have := hsound.beginIn _ _ _ _ hmem
      omega
    obtain ⟨t, ht, hmem⟩ := Component.exists_of_conditional hp
    simp only [List.mem_append, List.mem_cons] at ht
    rcases ht with ht | rfl | ht
    · exact hapart (hts t ht) hmem
    · have hexpression : Stands cs (start + 1 + byteLength f.before) e.chars :=
        hstands.tail.left.right.left
      have hplaced := (Expr.placed_read hexpression).beginIn
      have := hplaced s test consequent alternate (by simpa [Token.places] using hmem)
      omega
    · exact hapart (hus t ht) hmem
  | element | classes | directive | style => exact id

end BlockForm

/-- Wherever a mustache can stand, a block tag is one block with the expression that is written in
it, and no walk enters a conditional where its binding stands. A closing tag leaves nothing. -/
theorem parse_blocks (ls rest : List Layout) (hplace : ValidAll (ls ++ .mustache [] :: rest)) :
    let start := byteLength (textOf ls)
    (∀ (f : BlockForm) (e : Clause), f.Admits e.chars →
      let inner := f.inner e.chars
      let stop := start + byteLength inner + 2
      let cs := textOf (ls ++ .mustache inner :: rest)
      let tag : BlockTag := ⟨⟨start, stop⟩, f.keyword,
        some (.read (start + 1 + byteLength f.before) e.chars)⟩
      let lo := start + 1 + byteLength (f.beforeBinding e.chars)
      let hi := lo + byteLength f.binding
      Component.parse (.ofList cs) = (do
        let ts ← tokensOf 0 ls
        let us ← tokensOf stop rest
        return .ofTokens (byteLength cs) (ts ++ .block tag :: us)) ∧
      ∀ c, Component.parse (.ofList cs) = .ok c →
        (∃ around, (preorderOf [] c.fragment).filter (Entry.startsIn start stop) =
          [⟨around, .block tag⟩]) ∧
        ∀ (m : Type → Type) [Monad m] [LawfulMonad m] (enter enter' : Place → m Unit),
          (∀ p, ¬ p.BeginsIn lo hi → enter p = enter' p) → c.walk enter = c.walk enter') ∧
    ∀ w, Balanced ('/' :: w) →
      let stop := start + byteLength ('/' :: w) + 2
      let cs := textOf (ls ++ .mustache ('/' :: w) :: rest)
      Component.parse (.ofList cs) = (do
        let ts ← tokensOf 0 ls
        let us ← tokensOf stop rest
        return .ofTokens (byteLength cs) (ts ++ us)) ∧
      ∀ c, Component.parse (.ofList cs) = .ok c →
        (preorderOf [] c.fragment).filter (Entry.startsIn start stop) = [] := by
  intro start
  constructor
  · intro f e hadmits inner stop cs tag lo hi
    have hvalid : ValidAll (ls ++ .mustache inner :: rest) :=
      hplace.replace_mustache (f.matched_inner e).closed.balanced
    have hm : Mustache.ofInner start inner = .ok (.block tag) := f.ofInner_inner e hadmits start
    constructor
    · have hparse := parse_mustache hvalid hm
      simp only [Mustache.token?, Option.toList_some, List.singleton_append] at hparse
      exact hparse
    · intro c hc
      obtain ⟨ts, us, rfl, hts, hus⟩ := exists_of_parse_mustache hvalid hm hc
      obtain ⟨-, hstands, -⟩ := stands_mustache ls rest inner
      have hlt : start < start + byteLength inner + 2 := by omega
      constructor
      · exact ⟨_, filter_preorder_block hts hus (Nat.le_refl _) hlt _⟩
      · intro m _ _ enter enter' hagree
        exact Component.walk_congr fun p hp =>
          hagree p (f.not_beginsIn_binding e hstands hts hus hp)
  · intro w hw stop cs
    have hvalid : ValidAll (ls ++ .mustache ('/' :: w) :: rest) := hplace.replace_mustache hw
    have hm : Mustache.ofInner start ('/' :: w) = .ok .closing := rfl
    constructor
    · have hparse := parse_mustache hvalid hm
      simp only [Mustache.token?, Option.toList_none, List.nil_append] at hparse
      exact hparse
    · intro c hc
      obtain ⟨ts, us, rfl, hts, hus⟩ := exists_of_parse_mustache hvalid hm hc
      rw [Component.preorder_ofTokens, hts.filter_listing_append]
      exact hus.filter_listing _ _

def listed : Clause := ⟨['a'], .cons rfl .nil, by simp [isBlankText, isBlank, blankRanges]⟩

def boundChoice : Clause :=
  ⟨"b?c:d".toList, .of_ordinary (by simp [isOrdinary, isQuote, Brackets.all]),
    by simp [isBlankText, isBlank, blankRanges]⟩

def eachChoice : BlockForm := .bound "each" "as" (by simp [boundHeads]) boundChoice

theorem admits_eachChoice : eachChoice.Admits listed.chars := by
  intro u x y v htext
  have hlen := congrArg List.length htext
  simp [listed] at hlen
  omega

theorem parse_blocks_each :
    ValidAll [.mustache []] ∧ eachChoice.Admits listed.chars ∧ Balanced "/each".toList ∧
      Component.parse "\x7b#each a as b?c:d\x7d" =
        .ok ⟨[.block ⟨⟨0, 18⟩, "each", some (.other "a")⟩], []⟩ ∧
      Component.parse "\x7b/each\x7d" = .ok ⟨[], []⟩ := by
  have hplace : ValidAll [.mustache []] := ⟨rfl, trivial⟩
  have hclosing : Balanced "/each".toList := rfl
  obtain ⟨hblock, hnone⟩ := parse_blocks [] [] hplace
  have hread : Expr.read 7 listed.chars = .other "a" :=
    Expr.read_of_none (by decide) (by decide) 7
  refine ⟨hplace, admits_eachChoice, hclosing, ?_, ?_⟩
  · obtain ⟨hparse, -⟩ := hblock eachChoice listed admits_eachChoice
    have hbefore : byteLength (textOf []) + 1 + byteLength eachChoice.before = 7 := by decide
    rw [hbefore, hread] at hparse
    exact hparse
  · exact (hnone "each".toList hclosing).1

end ClassWeave.Markup

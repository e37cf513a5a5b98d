import ClassWeave.Proofs.Markup.Parentheses
import ClassWeave.Proofs.Text.Words

namespace ClassWeave.Markup

open Text Canonical

namespace Expr

theorem read_congr {cs ds : List Char} {o p : Nat} (h : trim cs = trim ds)
    (hstart : trim cs ≠ [] → o + byteLength (leading cs) = p + byteLength (leading ds)) :
    read o cs = read p ds := by
  cases hu : unwrap? (trim cs) with
  | some inner =>
    have hu' : unwrap? (trim ds) = some inner := h ▸ hu
    have hne : trim cs ≠ [] := fun hnil => by
      rw [hnil] at hu
      cases hu
    rw [read_of_unwrap hu o, read_of_unwrap hu' p, hstart hne]
  | none =>
    have hu' : unwrap? (trim ds) = none := h ▸ hu
    cases ht : ternary? (trim cs) with
    | some t =>
      have ht' : ternary? (trim ds) = some t := h ▸ ht
      have hne : trim cs ≠ [] := fun hnil => by
        rw [hnil] at ht
        cases ht
      rw [read_of_ternary hu ht o, read_of_ternary hu' ht' p, hstart hne]
    | none =>
      have ht' : ternary? (trim ds) = none := h ▸ ht
      rw [read_of_none hu ht o, read_of_none hu' ht' p, h]

theorem read_trimStart (o : Nat) (cs : List Char) :
    read (o + byteLength (leading cs)) (trimStart cs) = read o cs := by
  have hleading : leading (trimStart cs) = [] := by
    rw [leading, trimStart]
    cases h : cs.dropWhile isBlank with
    | nil => rfl
    | cons x u => exact List.takeWhile_cons_of_neg (by simpa using head?_dropWhile (by rw [h]; rfl))
  apply read_congr
  · have := trim_blanks_append (blanks_leading cs) (trimStart cs)
    rw [← this, leading_append_trimStart]
  · intro
    rw [hleading]
    rfl

theorem read_trimEnd (o : Nat) (cs : List Char) : read o (trimEnd cs) = read o cs := by
  have htrim := trim_append_blanks (blanks_trailing cs) (trimEnd cs)
  rw [trimEnd_append_trailing] at htrim
  apply read_congr htrim.symm
  intro hne
  obtain ⟨w, x, hw, hx⟩ : ∃ w x, trimEnd cs = w ++ [x] ∧ isBlank x = false := by
    cases h : cs.reverse.dropWhile isBlank with
    | nil =>
      have hnil : trimEnd cs = [] := by rw [trimEnd, h]; rfl
      exact absurd (by rw [hnil]; rfl) hne
    | cons x u =>
      exact ⟨u.reverse, x, by rw [trimEnd, h, List.reverse_cons], head?_dropWhile (by rw [h]; rfl)⟩
  have hcs : w ++ x :: trailing cs = cs := by
    have := trimEnd_append_trailing cs
    rwa [hw, List.append_assoc, List.singleton_append] at this
  rw [hw, ← hcs, leading_append_of_not_blank hx, leading_append_of_not_blank hx]

theorem read_around {l m r : List Char} (hl : ∀ x ∈ l, isBlank x = true) (hm : Tight m)
    (hr : ∀ x ∈ r, isBlank x = true) (o : Nat) :
    read o (l ++ (m ++ r)) = read (o + byteLength l) m := by
  have hleading : leading m = [] := by
    simpa using leading_around (a := []) (b := []) (by simp) hm
  have htrim : trim m = m := by
    simpa using trim_around (a := []) (b := []) (by simp) hm (by simp)
  apply read_congr
  · rw [trim_around hl hm hr, htrim]
  · intro
    rw [leading_around hl hm, hleading]
    rfl

theorem tight_parenthesized (cs : List Char) : Tight (parenthesized cs) := by
  refine ⟨List.cons_ne_nil _ _, ?_, ?_⟩
  · intro x hx
    cases hx
    decide
  · exact trimEnd_concat ('(' :: cs) (by decide)

/-- Has neither a colon nor the question mark of a conditional at its top level. -/
structure Plain (w : List Char) : Prop where
  matched : Matched NotRound w
  spots : ∀ s ∈ topLevel w, s.char ≠ ':' ∧ isTernaryMark s = false

theorem Plain.nil : Plain [] := ⟨.nil, by simp [topLevel, spotsFrom]⟩

theorem plain_singleton {x : Char} (hx : isOrdinary x = true) (hcolon : x ≠ ':')
    (hquestion : x ≠ '?') : Plain [x] := by
  refine ⟨.cons hx .nil, fun s hs => ?_⟩
  rw [topLevel, spotsFrom, if_pos ⟨rfl, hx⟩, spotsFrom, List.mem_singleton] at hs
  subst hs
  exact ⟨hcolon, by simp [isTernaryMark, hquestion]⟩

theorem Plain.space : Plain [' '] := plain_singleton rfl (by decide) (by decide)

theorem plain_parenthesized {w : List Char} (h : Matched NotRound w) : Plain (parenthesized w) :=
  ⟨h.enclosed, by simp [parenthesized, h.topLevel_enclosed]⟩

theorem isTernaryMark_around {before after : List Char} {s : Spot}
    (h : isTernaryMark ((s.within before).followedBy after) = true) : isTernaryMark s = true := by
  obtain ⟨b, c, a⟩ := s
  cases b <;> cases a <;> simp_all [isTernaryMark, Spot.within, Spot.followedBy]

theorem Plain.spotsFrom {w : List Char} (h : Plain w) (before after : List Char) :
    ∃ ss, Text.spotsFrom before .top (w ++ after) =
        ss ++ Text.spotsFrom (w.reverse ++ before) .top after ∧
      ∀ s ∈ ss, s.char ≠ ':' ∧ isTernaryMark s = false := by
  have hrun : Nesting.top.run .all w = .top := h.matched.run_eq 0
  have hwithin := spotsFrom_append [] before .top w
  rw [List.nil_append] at hwithin
  refine ⟨((Text.spotsFrom [] .top w).map (Spot.within before)).map (Spot.followedBy after),
    ?_, ?_⟩
  · rw [spotsFrom_append_right, hrun, hwithin]
  · intro s hs
    rw [List.map_map] at hs
    obtain ⟨t, ht, rfl⟩ := List.mem_map.1 hs
    obtain ⟨hcolon, hmark⟩ := h.spots t ht
    refine ⟨hcolon, Bool.eq_false_iff.2 fun h' => ?_⟩
    rw [isTernaryMark_around h'] at hmark
    cases hmark

theorem Plain.find?_eq {w : List Char} (h : Plain w) (before after : List Char) :
    (Text.spotsFrom before .top (w ++ after)).find? isTernaryMark =
      (Text.spotsFrom (w.reverse ++ before) .top after).find? isTernaryMark := by
  obtain ⟨ss, hss, hplain⟩ := h.spotsFrom before after
  have hnone : ss.find? isTernaryMark = none := by
    rw [List.find?_eq_none]
    intro s hs
    rw [(hplain s hs).2]
    decide
  rw [hss, List.find?_append, hnone]
  rfl

theorem Plain.append {v w : List Char} (hv : Plain v) (hw : Plain w) : Plain (v ++ w) := by
  refine ⟨hv.matched.append hw.matched, ?_⟩
  obtain ⟨ss, hss, hplain⟩ := hv.spotsFrom [] w
  obtain ⟨ts, hts, hplain'⟩ := hw.spotsFrom v.reverse []
  rw [List.append_nil] at hss hts
  intro s hs
  rw [topLevel, hss, hts] at hs
  simp only [Text.spotsFrom, List.append_nil, List.mem_append] at hs
  rcases hs with hs | hs
  · exact hplain s hs
  · exact hplain' s hs

/-- A colon that is looked for in front of the text is looked for behind it. -/
def Passed (w : List Char) : Prop := ∀ before after pending,
  answeringColon pending (Text.spotsFrom before .top (w ++ after)) =
    answeringColon pending (Text.spotsFrom (w.reverse ++ before) .top after)

theorem answeringColon_append {ss : List Spot}
    (h : ∀ s ∈ ss, s.char ≠ ':' ∧ isTernaryMark s = false) (pending : Nat) (ts : List Spot) :
    answeringColon pending (ss ++ ts) = answeringColon pending ts := by
  induction ss with
  | nil => rfl
  | cons s ss ih =>
    obtain ⟨hcolon, hmark⟩ := h s List.mem_cons_self
    rw [List.cons_append, answeringColon, if_neg (by simp [hmark]), if_neg hcolon]
    exact ih fun t ht => h t (List.mem_cons_of_mem _ ht)

theorem Plain.passed {w : List Char} (h : Plain w) : Passed w := by
  intro before after pending
  obtain ⟨ss, hss, hplain⟩ := h.spotsFrom before after
  rw [hss, answeringColon_append hplain]

theorem Passed.append {v w : List Char} (hv : Passed v) (hw : Passed w) : Passed (v ++ w) := by
  intro before after pending
  rw [List.append_assoc, hv, hw, List.reverse_append, List.append_assoc]

theorem spotsFrom_ordinary {c : Char} (hc : isOrdinary c = true) (before cs : List Char) :
    Text.spotsFrom before .top (c :: cs) =
      ⟨before, c, cs⟩ :: Text.spotsFrom (c :: before) .top cs := by
  rw [Text.spotsFrom, if_pos ⟨rfl, hc⟩, Nesting.next_of_isOrdinary hc _ rfl]

theorem passed_conditional {t c a : List Char} (ht : Passed t) (hc : Passed c) (ha : Passed a) :
    Passed (t ++ ' ' :: '?' :: ' ' :: (c ++ ' ' :: ':' :: ' ' :: a)) := by
  have hspace := Plain.space.passed
  intro before after pending
  have hmark (x y : List Char) : isTernaryMark ⟨' ' :: x, '?', ' ' :: y⟩ = true := rfl
  have hcolon (x y : List Char) : isTernaryMark ⟨x, ':', y⟩ = false := rfl
  have hskip (x y : List Char) (n : Nat) : answeringColon n (Text.spotsFrom x .top (' ' :: y)) =
      answeringColon n (Text.spotsFrom (' ' :: x) .top y) := hspace x y n
  have hquestion (x y : List Char) (n : Nat) :
      answeringColon n (Text.spotsFrom (' ' :: x) .top ('?' :: ' ' :: y)) =
        answeringColon (n + 1) (Text.spotsFrom ('?' :: ' ' :: x) .top (' ' :: y)) := by
    rw [spotsFrom_ordinary rfl, answeringColon, if_pos (hmark _ _)]
  have hanswer (x y : List Char) (n : Nat) :
      answeringColon (n + 1) (Text.spotsFrom x .top (':' :: y)) =
        answeringColon n (Text.spotsFrom (':' :: x) .top y) := by
    rw [spotsFrom_ordinary rfl, answeringColon, if_neg (by simp [hcolon]), if_pos rfl,
      if_neg (by omega)]
    rfl
  have hshape : t ++ ' ' :: '?' :: ' ' :: (c ++ ' ' :: ':' :: ' ' :: a) ++ after =
      t ++ ' ' :: '?' :: ' ' :: (c ++ ' ' :: ':' :: ' ' :: (a ++ after)) := by simp
  rw [hshape, ht, hskip, hquestion, hskip, hc, hskip, hanswer, hskip, ha]
  congr 2
  simp

theorem ternary?_split {l m r : List Char} (hl : Plain l) (hm : Passed m)
    (hmark : isTernaryMark ⟨l.reverse, '?', m ++ ':' :: r⟩ = true) :
    ternary? (l ++ '?' :: (m ++ ':' :: r)) = some ⟨l, m, r⟩ := by
  have hfind : (topLevel (l ++ '?' :: (m ++ ':' :: r))).find? isTernaryMark =
      some ⟨l.reverse, '?', m ++ ':' :: r⟩ := by
    rw [topLevel, hl.find?_eq, List.append_nil, spotsFrom_ordinary rfl,
      List.find?_cons_of_pos hmark]
  have hcolon : answeringColon 0 (topLevel (m ++ ':' :: r)) = some ⟨m.reverse, ':', r⟩ := by
    rw [topLevel, hm, List.append_nil, spotsFrom_ordinary rfl, answeringColon,
      if_neg (by simp [isTernaryMark]), if_pos rfl, if_pos rfl]
  simp [ternary?, hfind, hcolon, Spot.left]

theorem unwrap?_append_eq_none {w r : List Char} (h : Matched NotRound w)
    (hopen : w = [] → unwrap? r = none)
    (hwrap : r = [] → ∀ v, Matched NotRound v → w ≠ parenthesized v) :
    unwrap? (w ++ r) = none := by
  cases h with
  | nil => exact hopen rfl
  | @cons x hx w _ =>
    have hx' : x ≠ '(' := (notRound_of_isOrdinary hx).1
    simp [unwrap?, hx']
  | @quoted quote hquote v w _ _ _ =>
    have hquote' : quote ≠ '(' := (notRound_of_isQuote hquote).1
    simp [unwrap?, hquote']
  | @bracketed x y hpair v w hv _ =>
    rcases closerOf?_cases hpair with ⟨rfl, rfl⟩ | ⟨rfl, -⟩ | ⟨rfl, -⟩
    · have hshape : '(' :: (v ++ ')' :: w) ++ r = '(' :: (v ++ ')' :: (w ++ r)) := by simp
      have hne : w ++ r ≠ [] := by
        intro hnil
        obtain ⟨rfl, rfl⟩ := List.append_eq_nil_iff.1 hnil
        exact hwrap rfl v hv rfl
      rw [hshape, unwrap?, insideParens_matched hv, insideParens_last, if_neg hne]
      rfl
    · rfl
    · rfl

theorem read_split {t c a : List Char} (ht : Plain (trimStart t)) (hc : Passed c)
    (hmark : isTernaryMark ⟨(trimStart t).reverse, '?', c ++ ':' :: trimEnd a⟩ = true) (o : Nat) :
    read o (t ++ '?' :: (c ++ ':' :: a)) =
      .conditional (o + byteLength (leading t)) (read o t) (read (o + byteLength t + 1) c)
        (read (o + byteLength t + 1 + byteLength c + 1) a) := by
  have htrim : trim (t ++ '?' :: (c ++ ':' :: a)) =
      trimStart t ++ '?' :: (c ++ ':' :: trimEnd a) := by
    rw [trim, trimStart_append_of_not_blank rfl, List.append_cons, ← List.append_assoc,
      trimEnd_append_of_not_blank rfl]
    simp
  have hu : unwrap? (trim (t ++ '?' :: (c ++ ':' :: a))) = none := by
    rw [htrim]
    exact unwrap?_append_eq_none ht.matched (fun _ => rfl) (by simp)
  have hsplit : ternary? (trim (t ++ '?' :: (c ++ ':' :: a))) =
      some ⟨trimStart t, c, trimEnd a⟩ := by
    rw [htrim]
    exact ternary?_split ht hc hmark
  have hlength : o + byteLength (leading t) + byteLength (trimStart t) = o + byteLength t := by
    rw [Nat.add_assoc, ← byteLength_append, leading_append_trimStart]
  rw [read_of_ternary hu hsplit o, leading_append_of_not_blank rfl]
  simp only [hlength, read_trimStart, read_trimEnd]

theorem read_conditional {l t c a r : List Char} (hl : ∀ x ∈ l, isBlank x = true) (ht : Plain t)
    (htrim : trim t = t) (hc : Passed c) (o : Nat) :
    read o (l ++ (t ++ ' ' :: '?' :: ' ' :: (c ++ ' ' :: ':' :: ' ' :: a) ++ r)) =
      .conditional (o + byteLength l + byteLength (leading (t ++ [' '])))
        (read o (l ++ (t ++ [' '])))
        (read (o + byteLength l + byteLength t + 2) ([' '] ++ (c ++ [' '])))
        (read (o + byteLength l + byteLength t + byteLength c + 5) ([' '] ++ (a ++ r))) := by
  have hshape : l ++ (t ++ ' ' :: '?' :: ' ' :: (c ++ ' ' :: ':' :: ' ' :: a) ++ r) =
      l ++ (t ++ [' ']) ++ '?' :: ([' '] ++ (c ++ [' ']) ++ ':' :: ([' '] ++ (a ++ r))) := by simp
  have htest : Plain (trimStart (l ++ (t ++ [' ']))) ∧ ∀ w : List Char,
      isTernaryMark ⟨(trimStart (l ++ (t ++ [' ']))).reverse, '?', ' ' :: w⟩ = true := by
    by_cases hnil : t = []
    · have hblank : trimStart (l ++ (t ++ [' '])) = [] := by
        rw [hnil, trimStart, List.dropWhile_append_of_pos hl]
        rfl
      rw [hblank]
      exact ⟨.nil, fun _ => rfl⟩
    · rw [trimStart_around hl (tight_of_trim_eq hnil htrim)]
      exact ⟨ht.append .space, fun _ => by simp [isTernaryMark]⟩
  have hconsequent : Passed ([' '] ++ (c ++ [' '])) :=
    Plain.space.passed.append (hc.append Plain.space.passed)
  have hone : byteLength [' '] = 1 := rfl
  have hmiddle : o + byteLength (l ++ (t ++ [' '])) + 1 =
      o + byteLength l + byteLength t + 2 := by
    simp only [byteLength_append, hone]
    omega
  have hlast : o + byteLength l + byteLength t + 2 + byteLength ([' '] ++ (c ++ [' '])) + 1 =
      o + byteLength l + byteLength t + byteLength c + 5 := by
    simp only [byteLength_append, hone]
    omega
  rw [hshape, read_split htest.1 hconsequent (htest.2 _), hmiddle, hlast,
    leading_blanks_append hl, byteLength_append, ← Nat.add_assoc o]

/-- A trimmed text in which nothing is a conditional, and that round brackets do not wrap. -/
structure Leaf where
  text : List Char
  trimmed : trim text = text
  plain : Plain text
  bare : ∀ cs, Matched NotRound cs → text ≠ parenthesized cs

instance : Inhabited Leaf :=
  ⟨⟨['a'], rfl, plain_singleton rfl (by decide) (by decide), by simp [parenthesized]⟩⟩

inductive Tree
  | leaf (l : Leaf)
  | conditional (wrapped : Bool) (test consequent alternate : Tree)
deriving Inhabited

namespace Tree

def isConditional : Tree → Bool
  | leaf _ => false
  | conditional .. => true

def isWrapped : Tree → Bool
  | leaf _ => false
  | conditional wrapped .. => wrapped

end Tree

def enclose (wrapped : Bool) (cs : List Char) : List Char :=
  if wrapped then parenthesized cs else cs

namespace Tree

def print : Tree → List Char
  | leaf l => l.text
  | conditional _ t c a =>
    enclose t.isConditional t.print ++ ' ' :: '?' :: ' ' ::
      (enclose c.isWrapped c.print ++ ' ' :: ':' :: ' ' :: enclose a.isWrapped a.print)

example :
    let branch := conditional true default default default
    (conditional false branch default branch).print = "(a ? a : a) ? a : (a ? a : a)".toList :=
  rfl

/-- The expression of a tree that is printed at byte `offset`. A conditional begins with the first
character of its text that is no blank: at its question mark if there is no test. -/
def expr (offset : Nat) : Tree → Expr
  | leaf l => read 0 l.text
  | conditional wrapped t c a =>
    let consequent := offset + byteLength (enclose t.isConditional t.print) + 3
    let alternate := consequent + byteLength (enclose c.isWrapped c.print) + 3
    .conditional (offset + byteLength (leading (conditional wrapped t c a).print))
      (t.expr (offset + t.isConditional.toNat)) (c.expr (consequent + c.isWrapped.toNat))
      (a.expr (alternate + a.isWrapped.toNat))

end Tree

theorem Leaf.read_around (l : Leaf) {a b : List Char} (ha : ∀ x ∈ a, isBlank x = true)
    (hb : ∀ x ∈ b, isBlank x = true) (o : Nat) :
    read o (a ++ (l.text ++ b)) =
      match literal? l.text with
      | some value => .literal (.ofList value)
      | none => .other (.ofList l.text) := by
  have htrim : trim (a ++ (l.text ++ b)) = l.text := by
    rw [trim_blanks_append ha, trim_append_blanks hb, l.trimmed]
  have hu : unwrap? l.text = none := by
    have := unwrap?_append_eq_none l.plain.matched (r := []) (fun _ => rfl) fun _ => l.bare
    rwa [List.append_nil] at this
  have ht : ternary? l.text = none := by
    have := l.plain.find?_eq [] []
    rw [List.append_nil] at this
    simp [ternary?, topLevel, this, Text.spotsFrom]
  have hread := read_of_none (htrim.symm ▸ hu) (htrim.symm ▸ ht) o
  rw [htrim] at hread
  exact hread

theorem Leaf.read_eq (l : Leaf) {a b : List Char} (ha : ∀ x ∈ a, isBlank x = true)
    (hb : ∀ x ∈ b, isBlank x = true) (o : Nat) :
    read o (a ++ (l.text ++ b)) = read 0 l.text := by
  have hself := l.read_around (a := []) (b := []) (by simp) (by simp) 0
  rw [List.nil_append, List.append_nil] at hself
  rw [l.read_around ha hb, hself]

theorem matched_enclose {cs : List Char} (h : Matched NotRound cs) (wrapped : Bool) :
    Matched NotRound (enclose wrapped cs) := by
  cases wrapped with
  | false => exact h
  | true => exact h.enclosed

theorem Tree.matched_print (t : Tree) : Matched NotRound t.print := by
  induction t with
  | leaf l => exact l.plain.matched
  | conditional wrapped t c a iht ihc iha =>
    have hblank : isOrdinary ' ' = true := rfl
    exact (matched_enclose iht _).append <| .cons hblank <| .cons rfl <| .cons hblank <|
      (matched_enclose ihc _).append <| .cons hblank <| .cons rfl <| .cons hblank <|
        matched_enclose iha _

theorem Tree.plain_test (t : Tree) :
    Plain (enclose t.isConditional t.print) ∧
      trim (enclose t.isConditional t.print) = enclose t.isConditional t.print := by
  cases t with
  | leaf l => exact ⟨l.plain, l.trimmed⟩
  | conditional => exact ⟨plain_parenthesized (matched_print _), trim_parenthesized _⟩

theorem Tree.passed_branch {t : Tree} (h : Passed t.print) (wrapped : Bool) :
    Passed (enclose wrapped t.print) := by
  cases wrapped with
  | false => exact h
  | true => exact (plain_parenthesized t.matched_print).passed

theorem Tree.passed_print (t : Tree) : Passed t.print := by
  induction t with
  | leaf l => exact l.plain.passed
  | conditional wrapped t c a _ ihc iha =>
    exact passed_conditional t.plain_test.1.passed (passed_branch ihc _) (passed_branch iha _)

theorem Tree.read_enclose {t : Tree} {l r : List Char}
    (h : ∀ {l r : List Char}, (∀ x ∈ l, isBlank x = true) → (∀ x ∈ r, isBlank x = true) →
      ∀ o, read o (l ++ (t.print ++ r)) = t.expr (o + byteLength l))
    (hl : ∀ x ∈ l, isBlank x = true) (hr : ∀ x ∈ r, isBlank x = true) (wrapped : Bool) (o : Nat) :
    read o (l ++ (enclose wrapped t.print ++ r)) =
      t.expr (o + byteLength l + wrapped.toNat) := by
  cases wrapped with
  | false => exact h hl hr o
  | true =>
    have hinner := h (l := []) (r := []) (by simp) (by simp) (o + byteLength l + 1)
    rw [List.nil_append, List.append_nil] at hinner
    rw [enclose, if_pos rfl, read_around hl (tight_parenthesized _) hr,
      read_parenthesized_of_balanced (roundBalanced_of_matched t.matched_print), hinner]
    rfl

theorem Tree.read_around_print (t : Tree) {l r : List Char} (hl : ∀ x ∈ l, isBlank x = true)
    (hr : ∀ x ∈ r, isBlank x = true) (o : Nat) :
    read o (l ++ (t.print ++ r)) = t.expr (o + byteLength l) := by
  induction t generalizing l r o with
  | leaf leaf => exact leaf.read_eq hl hr o
  | conditional wrapped t c a iht ihc iha =>
    have hspace : ∀ x ∈ [' '], isBlank x = true := by
      intro x hx
      rw [List.mem_singleton.1 hx]
      rfl
    have hleading (w : List Char) : leading (enclose t.isConditional t.print ++ ' ' :: '?' :: w) =
        leading (enclose t.isConditional t.print ++ [' ']) := by
      rw [List.append_cons, leading_append_of_not_blank rfl]
    have hlength : byteLength [' '] = 1 := rfl
    obtain ⟨hplain, htrim⟩ := t.plain_test
    rw [print, read_conditional hl hplain htrim (passed_branch c.passed_print _),
      read_enclose iht hl hspace, read_enclose ihc hspace hspace, read_enclose iha hspace hr,
      expr, print, hleading, hlength]
    congr 2
    omega

/-- A tree of conditionals is read back from its text, branches in round brackets or without, and
each conditional is read at the offset of its own text inside of the brackets around it. -/
theorem read_print (t : Tree) (o : Nat) : read o t.print = t.expr o := by
  have := t.read_around_print (l := []) (r := []) (by simp) (by simp) o
  rwa [List.nil_append, List.append_nil] at this

end Expr

end ClassWeave.Markup

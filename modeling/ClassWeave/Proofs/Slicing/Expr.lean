import ClassWeave.Proofs.Markup.Offsets
import ClassWeave.Proofs.Slicing.Basic
import ClassWeave.Proofs.Text.Spots

namespace ClassWeave.Slicing

open Text Markup

def topCharacters (text : List Char) : List (Nat × Char) :=
  (topLevel text).map fun s => (s.offset, s.char)

def closesLast (length depth idx : Nat) : List Char → Except Halt Bool
  | [] => .ok false
  | c :: cs =>
    if c = '(' then closesLast length (depth + 1) (idx + c.utf8Size) cs
    else if c = ')' then
      if depth - 1 = 0 then (minus length 1).map (idx == ·)
      else closesLast length (depth - 1) (idx + c.utf8Size) cs
    else closesLast length depth (idx + c.utf8Size) cs

def isWrapped (text : List Char) : Except Halt Bool :=
  if text.head? = some '(' then closesLast (byteLength text) 0 0 text else .ok false

def isTernaryMark (text : List Char) (p : Nat × Char) : Except Halt Bool := do
  if p.2 = '?' then
    let next ← cutFrom text (p.1 + 1)
    let before ← cutTo text p.1
    return next.head? != some '?' && next.head? != some '.' && before.getLast? != some '?'
  else return false

def findMark (text : List Char) : List (Nat × Char) → Except Halt (Option Nat)
  | [] => .ok none
  | p :: ps => do
    if ← isTernaryMark text p then return some 0
    else return (← findMark text ps).map (· + 1)

def findColon (text : List Char) (nested : Nat) : List (Nat × Char) → Except Halt (Option Nat)
  | [] => .ok none
  | p :: ps => do
    if ← isTernaryMark text p then findColon text (nested + 1) ps
    else if p.2 = ':' then
      if nested = 0 then return some p.1 else findColon text (← minus nested 1) ps
    else findColon text nested ps

def entry {α : Type} (xs : List α) (n : Nat) : Except Halt α :=
  match xs[n]? with
  | some x => .ok x
  | none => .error (.fault .index)

def entriesFrom {α : Type} (xs : List α) (n : Nat) : Except Halt (List α) :=
  if n ≤ xs.length then .ok (xs.drop n) else .error (.fault .index)

def ternaryMarks (text : List Char) : Except Halt (Option (Nat × Nat)) := do
  let top := topCharacters text
  match ← findMark text top with
  | none => return none
  | some q =>
    match ← findColon text 0 (← entriesFrom top (q + 1)) with
    | none => return none
    | some colon => return some ((← entry top q).1, colon)

def ternary (text : List Char) : Except Halt (Option Expr.Ternary) := do
  match ← ternaryMarks text with
  | none => return none
  | some (mark, colon) =>
    return some ⟨← cutTo text mark, ← cutOut text (mark + 1) colon, ← cutFrom text (colon + 1)⟩

def stringLiteral (text : List Char) : Except Halt (Option (List Char)) := do
  match text with
  | [] => return none
  | quote :: _ =>
    if isQuote quote = false ∨ byteLength text < 2 ∨ text.getLast? ≠ some quote then return none
    else
      let inner ← cutOut text 1 (← minus (byteLength text) 1)
      if Expr.hasBareQuote quote false inner ∨
          quote = '\x60' ∧ (splitBefore ['$', '\x7b'] inner).isSome then return none
      else return some inner

def readExpr (text : List Char) (base : Nat) : Except Halt Expr := do
  let lead ← minus (byteLength text) (byteLength (trimStart text))
  let trimmed := trim text
  let start := base + lead
  if ← isWrapped trimmed then
    let ⟨inner, _⟩ ← inward text (← cutOut trimmed 1 (← minus (byteLength trimmed) 1))
    readExpr inner (start + 1)
  else
    match ← ternary trimmed with
    | some t =>
      let ⟨test, _⟩ ← inward text t.test
      let ⟨consequent, _⟩ ← inward text t.consequent
      let ⟨alternate, _⟩ ← inward text t.alternate
      let consequentStart := start + byteLength test + 1
      return .conditional start (← readExpr test start) (← readExpr consequent consequentStart)
        (← readExpr alternate (consequentStart + byteLength consequent + 1))
    | none =>
      let string ← stringLiteral trimmed
      match string.or (if Expr.isPlainLiteral trimmed then some trimmed else none) with
      | some value => return .literal (.ofList value)
      | none => return .other (.ofList trimmed)
termination_by text.length

theorem closesLast_eq (length depth idx : Nat) (cs : List Char)
    (h : idx + byteLength cs = length) :
    closesLast length depth idx cs = .ok (Expr.insideParens depth cs).isSome := by
  induction cs generalizing depth idx with
  | nil => rfl
  | cons c cs ih =>
    rw [byteLength_cons] at h
    have hnext := fun depth => ih depth (idx + c.utf8Size) (by omega)
    rw [closesLast, Expr.insideParens]
    split
    · next hc =>
      subst hc
      rw [hnext, if_neg (by simp), Option.isSome_map]
    split
    · next hopen hc =>
      subst hc
      by_cases hdepth : depth ≤ 1
      · have hpos := (')').utf8Size_pos
        rw [if_pos (by omega), if_pos ⟨rfl, hdepth⟩, minus_of_le (by omega)]
        cases cs with
        | nil =>
          have hlast : idx = length - 1 := by
            rw [byteLength_nil] at h
            have : (')').utf8Size = 1 := rfl
            omega
          simp [Except.map, hlast]
        | cons x cs =>
          have hlast : idx ≠ length - 1 := by
            have := byteLength_pos (List.cons_ne_nil x cs)
            omega
          simp [Except.map, hlast]
      · rw [if_neg (by omega), if_neg (by simp [hdepth]), hnext, Option.isSome_map]
    · next hopen hclose => rw [hnext, if_neg (by simp [hclose]), Option.isSome_map]

theorem isWrapped_eq (text : List Char) : isWrapped text = .ok (Expr.unwrap? text).isSome := by
  cases text with
  | nil => rfl
  | cons c cs =>
    rw [isWrapped]
    split
    · next hc =>
      obtain rfl := Option.some.inj hc
      rw [closesLast_eq _ _ _ _ (Nat.zero_add _), Expr.insideParens, if_neg (by simp),
        Option.isSome_map]
      rfl
    · next hc =>
      rw [Expr.unwrap?.eq_def]
      split
      · exact absurd (congrArg List.head? ‹_›) hc
      · rfl

theorem cutFrom_spot {text : List Char} {s : Spot} (h : s.text = text) :
    cutFrom text s.offset = .ok (s.char :: s.after) := by
  rw [← h, Spot.text, ← s.byteLength_left, cutFrom_append]

theorem cutTo_spot {text : List Char} {s : Spot} (h : s.text = text) :
    cutTo text s.offset = .ok s.left := by
  rw [← h, Spot.text, ← s.byteLength_left, cutTo_append]

theorem cutFrom_succ_spot {text : List Char} {s : Spot} (h : s.text = text)
    (hs : s.char.utf8Size = 1) : cutFrom text (s.offset + 1) = .ok s.after := by
  have hcut := cutFrom_append (s.left ++ [s.char]) s.after
  rw [List.append_assoc, List.singleton_append, byteLength_append, byteLength_cons, hs,
    s.byteLength_left] at hcut
  rw [← h]
  exact hcut

theorem isTernaryMark_spot {text : List Char} {s : Spot} (h : s.text = text) :
    isTernaryMark text (s.offset, s.char) = .ok (Expr.isTernaryMark s) := by
  rw [isTernaryMark]
  by_cases hc : s.char = '?'
  · have hsize : s.char.utf8Size = 1 := hc ▸ rfl
    rw [if_pos hc, cutFrom_succ_spot h hsize, ok_bind, cutTo_spot h, ok_bind]
    simp [Expr.isTernaryMark, hc, Spot.left, pure, Except.pure]
  · simp [Expr.isTernaryMark, hc, pure, Except.pure]

theorem findMark_spots {text : List Char} {ss : List Spot} (h : ∀ s ∈ ss, s.text = text) :
    findMark text (ss.map fun s => (s.offset, s.char)) = .ok (ss.findIdx? Expr.isTernaryMark) := by
  induction ss with
  | nil => rfl
  | cons s ss ih =>
    rw [List.map_cons, findMark, isTernaryMark_spot (h s List.mem_cons_self), ok_bind,
      ih fun t ht => h t (List.mem_cons_of_mem _ ht), List.findIdx?_cons]
    split <;> rfl

theorem findColon_spots {text : List Char} {ss : List Spot} (h : ∀ s ∈ ss, s.text = text)
    (nested : Nat) :
    findColon text nested (ss.map fun s => (s.offset, s.char)) =
      .ok ((Expr.answeringColon nested ss).map Spot.offset) := by
  induction ss generalizing nested with
  | nil => rfl
  | cons s ss ih =>
    have hrest := ih fun t ht => h t (List.mem_cons_of_mem _ ht)
    rw [List.map_cons, findColon, isTernaryMark_spot (h s List.mem_cons_self), ok_bind,
      Expr.answeringColon]
    split
    · exact hrest (nested + 1)
    split
    · split
      · rfl
      · next hn => rw [minus_of_le (by omega), ok_bind, hrest]
    · exact hrest nested

theorem answeringColon_map (f : Spot → Spot) {ss : List Spot}
    (h : ∀ s ∈ ss, Expr.isTernaryMark (f s) = Expr.isTernaryMark s ∧ (f s).char = s.char)
    (pending : Nat) :
    Expr.answeringColon pending (ss.map f) = (Expr.answeringColon pending ss).map f := by
  induction ss generalizing pending with
  | nil => rfl
  | cons s ss ih =>
    obtain ⟨hmark, hchar⟩ := h s List.mem_cons_self
    have hrest := ih fun t ht => h t (List.mem_cons_of_mem _ ht)
    rw [List.map_cons, Expr.answeringColon, Expr.answeringColon, hmark, hchar]
    split
    · exact hrest _
    split
    · split
      · rfl
      · exact hrest _
    · exact hrest _

/-- A question mark cannot follow the one of a conditional, so it does not matter whether the text
before it is looked at. -/
theorem isTernaryMark_within {mark s : Spot} (hmark : Expr.isTernaryMark mark = true)
    (hs : s ∈ topLevel mark.after) :
    Expr.isTernaryMark (s.within (mark.char :: mark.before)) = Expr.isTernaryMark s := by
  have htext := text_of_mem_topLevel hs
  cases hbefore : s.before with
  | nil =>
    have hchar : (s.char == '?') = false := by
      rw [beq_eq_false_iff_ne]
      intro hc
      rw [Spot.text, Spot.left, hbefore, hc] at htext
      simp [Expr.isTernaryMark, ← htext] at hmark
    simp [Expr.isTernaryMark, Spot.within, hchar]
  | cons x before => simp [Expr.isTernaryMark, Spot.within, hbefore]

theorem entriesFrom_append {α : Type} (xs ys : List α) :
    entriesFrom (xs ++ ys) xs.length = .ok ys := by
  rw [entriesFrom, if_pos (by simp), List.drop_left]

theorem entry_append {α : Type} (xs ys : List α) (y : α) :
    entry (xs ++ y :: ys) xs.length = .ok y := by
  simp [entry]

theorem findIdx?_append_cons {α : Type} {p : α → Bool} {xs ys : List α} {y : α}
    (hxs : ∀ x ∈ xs, p x = false) (hy : p y = true) :
    (xs ++ y :: ys).findIdx? p = some xs.length := by
  have hnone : xs.findIdx? p = none := List.findIdx?_eq_none_iff.2 hxs
  simp [List.findIdx?_append, hnone, List.findIdx?_cons, hy]

/-- The colon is looked for among the later spots of the text. Those are the spots of the text after
the mark, where `Expr.ternary?` looks for it. -/
theorem ternaryMarks_of_mark {text : List Char} {ss ts : List Spot} {mark : Spot}
    (htop : topLevel text = ss ++ mark :: ts) (hss : ∀ s ∈ ss, Expr.isTernaryMark s = false)
    (hmark : Expr.isTernaryMark mark = true) :
    ternaryMarks text =
      .ok ((Expr.answeringColon 0 (topLevel mark.after)).map fun colon =>
        (mark.offset, (colon.within (mark.char :: mark.before)).offset)) := by
  have htext : ∀ s ∈ topLevel text, s.text = text := fun s hs => text_of_mem_topLevel hs
  have hmem : ∀ t ∈ ts, t.text = text := fun t ht =>
    htext t (htop ▸ List.mem_append_right _ (List.mem_cons_of_mem _ ht))
  have hcolon : Expr.answeringColon 0 ts =
      (Expr.answeringColon 0 (topLevel mark.after)).map
        (Spot.within (mark.char :: mark.before)) := by
    rw [topLevel_of_split htop]
    exact answeringColon_map _ (fun s hs => ⟨isTernaryMark_within hmark hs, rfl⟩) 0
  have hrest : entriesFrom (topCharacters text) (ss.length + 1) =
      .ok (ts.map fun s => (s.offset, s.char)) := by
    have := entriesFrom_append ((ss ++ [mark]).map fun s => (s.offset, s.char))
      (ts.map fun s => (s.offset, s.char))
    simpa [topCharacters, htop] using this
  have hentry : entry (topCharacters text) ss.length = .ok (mark.offset, mark.char) := by
    have := entry_append (ss.map fun s => (s.offset, s.char))
      (ts.map fun s => (s.offset, s.char)) (mark.offset, mark.char)
    simpa [topCharacters, htop] using this
  have hfind : findMark text (topCharacters text) = .ok (some ss.length) := by
    rw [topCharacters, findMark_spots htext, htop, findIdx?_append_cons hss hmark]
  rw [ternaryMarks, hfind, ok_bind]
  dsimp only
  rw [hrest, ok_bind, findColon_spots hmem, ok_bind, hcolon]
  cases Expr.answeringColon 0 (topLevel mark.after) with
  | none => rfl
  | some colon =>
    dsimp only [Option.map_some]
    rw [hentry]
    rfl

theorem ternaryMarks_eq (text : List Char) :
    ternaryMarks text = .ok ((Expr.ternary? text).map fun t =>
      (byteLength t.test, byteLength t.test + 1 + byteLength t.consequent)) := by
  cases hm : (topLevel text).find? Expr.isTernaryMark with
  | none =>
    have hidx : (topLevel text).findIdx? Expr.isTernaryMark = none := by
      rw [List.findIdx?_eq_none_iff]
      simpa using hm
    rw [ternaryMarks, topCharacters, findMark_spots fun s hs => text_of_mem_topLevel hs, ok_bind,
      hidx]
    simp [Expr.ternary?, hm, pure, Except.pure]
  | some mark =>
    obtain ⟨hmark, ss, ts, htop, hss⟩ := List.find?_eq_some_iff_append.1 hm
    have hsize : mark.char.utf8Size = 1 := by
      have hchar : mark.char = '?' := by
        simp only [Expr.isTernaryMark, Bool.and_eq_true, beq_iff_eq] at hmark
        exact hmark.1.1.1
      rw [hchar]
      rfl
    rw [ternaryMarks_of_mark htop (by simpa using hss) hmark, Expr.ternary?]
    simp only [hm, Option.bind_eq_bind, Option.bind_some]
    cases hc : Expr.answeringColon 0 (topLevel mark.after) with
    | none => rfl
    | some colon =>
      have hoffset : (colon.within (mark.char :: mark.before)).offset =
          byteLength mark.left + 1 + byteLength colon.left := by
        rw [Spot.offset_within, byteLength_cons, hsize, Spot.byteLength_left, Spot.byteLength_left,
          Spot.offset, Spot.offset]
        omega
      dsimp only [Option.map_some, Option.bind_some]
      rw [hoffset, ← Spot.byteLength_left]
      rfl

theorem ternary_eq (text : List Char) : ternary text = .ok (Expr.ternary? text) := by
  rw [ternary, ternaryMarks_eq, ok_bind]
  cases h : Expr.ternary? text with
  | none => rfl
  | some t =>
    have htext := Expr.ternary?_append h
    have hmark : ('?').utf8Size = 1 := rfl
    have hcolon : (':').utf8Size = 1 := rfl
    have htest : cutTo text (byteLength t.test) = .ok t.test := by rw [htext, cutTo_append]
    have hconsequent : cutOut text (byteLength t.test + 1)
        (byteLength t.test + 1 + byteLength t.consequent) = .ok t.consequent := by
      have hcut := cutOut_append (t.test ++ ['?']) t.consequent (':' :: t.alternate)
      rw [byteLength_append, byteLength_cons, byteLength_nil, hmark, List.append_assoc] at hcut
      rw [htext]
      exact hcut
    have halternate : cutFrom text (byteLength t.test + 1 + byteLength t.consequent + 1) =
        .ok t.alternate := by
      have hcut := cutFrom_append (t.test ++ '?' :: (t.consequent ++ [':'])) t.alternate
      have hlen : byteLength (t.test ++ '?' :: (t.consequent ++ [':'])) =
          byteLength t.test + 1 + byteLength t.consequent + 1 := by
        simp only [byteLength_append, byteLength_cons, byteLength_nil, hmark, hcolon]
        omega
      rw [hlen, List.append_assoc, List.cons_append, List.append_assoc] at hcut
      rw [htext]
      exact hcut
    dsimp only [Option.map_some]
    rw [htest, ok_bind, hconsequent, ok_bind, halternate, ok_bind]
    rfl

theorem byteLength_between {x y : Char} (hx : x.utf8Size = 1) (hy : y.utf8Size = 1)
    (w : List Char) : byteLength (x :: (w ++ [y])) = 1 + byteLength w + 1 := by
  simp only [byteLength_cons, byteLength_append, byteLength_nil, hx, hy]
  omega

theorem minus_between {x y : Char} (hx : x.utf8Size = 1) (hy : y.utf8Size = 1) (w : List Char) :
    minus (byteLength (x :: (w ++ [y]))) 1 = .ok (1 + byteLength w) := by
  rw [byteLength_between hx hy, minus_add]

theorem cutOut_between {x : Char} (hx : x.utf8Size = 1) (y : Char) (w : List Char) :
    cutOut (x :: (w ++ [y])) 1 (1 + byteLength w) = .ok w := by
  have hcut := cutOut_append [x] w [y]
  rwa [byteLength_cons, byteLength_nil, hx] at hcut

theorem utf8Size_of_isQuote {c : Char} (h : isQuote c = true) : c.utf8Size = 1 := by
  simp only [isQuote, Bool.or_eq_true, beq_iff_eq] at h
  rcases h with (rfl | rfl) | rfl
  · rfl
  · rfl
  · rfl

theorem stringLiteral_eq (text : List Char) :
    stringLiteral text = .ok (Expr.stringLiteral? text) := by
  cases text with
  | nil => rfl
  | cons q cs =>
    rw [stringLiteral, Expr.stringLiteral?]
    by_cases hq : isQuote q = true ∧ cs.getLast? = some q
    · obtain ⟨hquote, hlast⟩ := hq
      obtain ⟨w, rfl⟩ := List.getLast?_eq_some_iff.1 hlast
      have hsize := utf8Size_of_isQuote hquote
      have hlong : ¬ byteLength (q :: (w ++ [q])) < 2 := by
        rw [byteLength_between hsize hsize]
        omega
      have hends : ¬ (isQuote q = false ∨ byteLength (q :: (w ++ [q])) < 2 ∨
          (q :: (w ++ [q])).getLast? ≠ some q) := by
        rintro (h | h | h)
        · rw [hquote] at h
          cases h
        · exact hlong h
        · exact h (List.getLast?_concat (l := q :: w))
      rw [if_neg hends, minus_between hsize hsize, ok_bind, cutOut_between hsize, ok_bind]
      simp only [hquote, hlast, List.dropLast_concat, true_and]
      cases hbare : Expr.hasBareQuote q false w with
      | true => simp [pure, Except.pure]
      | false =>
        by_cases htemplate : q = '\x60' ∧ (splitBefore ['$', '\x7b'] w).isSome = true
        · rw [if_pos (.inr htemplate), if_neg (by simp [htemplate])]
          rfl
        · rw [if_neg (by simp [htemplate]), if_pos ⟨rfl, htemplate⟩]
          rfl
    · rw [if_pos, if_neg fun h => hq ⟨h.1, h.2.1⟩]
      · rfl
      · cases cs with
        | nil =>
          cases hquote : isQuote q with
          | true =>
            have hsize := utf8Size_of_isQuote hquote
            simp [hsize]
          | false => exact .inl rfl
        | cons x cs =>
          rw [List.getLast?_cons_cons]
          cases hquote : isQuote q with
          | true => exact .inr (.inr fun h => hq ⟨hquote, h⟩)
          | false => exact .inl rfl

theorem length_lt_of_unwrap {text inner : List Char}
    (h : Expr.unwrap? (trim text) = some inner) : inner.length < text.length := by
  have hlen := congrArg List.length (Expr.unwrap?_append h)
  have hle := length_trim_le text
  simp only [List.length_cons, List.length_append, List.length_nil] at hlen
  omega

theorem length_lt_of_ternary {text : List Char} {t : Expr.Ternary}
    (h : Expr.ternary? (trim text) = some t) : t.test.length < text.length ∧
      t.consequent.length < text.length ∧ t.alternate.length < text.length := by
  have hlen := congrArg List.length (Expr.ternary?_append h)
  have hle := length_trim_le text
  simp only [List.length_cons, List.length_append] at hlen
  omega

theorem readExpr_eq (text : List Char) (base : Nat) :
    readExpr text base = .ok (Expr.read base text) := by
  fun_induction Expr.read base text with
  | case1 base text start inner h ih =>
    have htrim := Expr.unwrap?_append h
    have hopen : ('(').utf8Size = 1 := rfl
    have hclose : (')').utf8Size = 1 := rfl
    rw [readExpr, minus_trimStart, ok_bind]
    dsimp only
    rw [isWrapped_eq, ok_bind, h, if_pos Option.isSome_some, htrim, minus_between hopen hclose,
      ok_bind, cutOut_between hopen, ok_bind, inward_of_lt (length_lt_of_unwrap h), ok_bind]
    exact ih
  | case2 base text start h t ht consequentStart iht ihc iha =>
    obtain ⟨htest, hconsequent, halternate⟩ := length_lt_of_ternary ht
    rw [readExpr, minus_trimStart, ok_bind]
    dsimp only
    rw [isWrapped_eq, ok_bind, h, if_neg (by simp), ternary_eq, ok_bind, ht]
    dsimp only
    rw [inward_of_lt htest, ok_bind, inward_of_lt hconsequent, ok_bind,
      inward_of_lt halternate, ok_bind]
    dsimp only
    rw [iht, ok_bind, ihc, ok_bind, iha, ok_bind]
    rfl
  | case3 base text h ht value hl | case4 base text h ht hl =>
    rw [readExpr, minus_trimStart, ok_bind]
    dsimp only
    rw [isWrapped_eq, ok_bind, h, if_neg (by simp), ternary_eq, ok_bind, ht]
    dsimp only
    rw [stringLiteral_eq, ok_bind]
    rw [Expr.literal?] at hl
    rw [hl]
    rfl

end ClassWeave.Slicing

import ClassWeave.Proofs.Markup.SoundTokens
import ClassWeave.Proofs.Slicing.Expr

namespace ClassWeave.Slicing

open Text Markup

def closingBrace (quoting : Quoting) (depth idx : Nat) : List Char → Except Halt (Option Nat)
  | [] => .ok none
  | c :: cs => do
    if quoting = .plain then
      if c = '\x7b' then closingBrace .plain (depth + 1) (idx + c.utf8Size) cs
      else if c = '\x7d' then
        let depth ← minus depth 1
        if depth = 0 then return some idx else closingBrace .plain depth (idx + c.utf8Size) cs
      else closingBrace (quoting.next c) depth (idx + c.utf8Size) cs
    else closingBrace (quoting.next c) depth (idx + c.utf8Size) cs

def findWord (text word : List Char) : List (Nat × Char) → Except Halt (Option Nat)
  | [] => .ok none
  | p :: ps => do
    let rest ← cutFrom text p.1
    if rest.head? = some p.2 ∧ isBlank p.2 ∧ beginsWord word rest.tail then return some p.1
    else findWord text word ps

/-- The offset of the first assignment. The text behind every character before it is looked at as if
all of these were one byte long. -/
def findAssignment (text : List Char) : List (Nat × Char) → Except Halt (Option Nat)
  | [] => .ok none
  | p :: ps => do
    let (_, next) ← cutFor .lookahead text (p.1 + 1)
    let before ← cutTo text p.1
    if p.2 == '=' && !next.head?.any (fun c => c == '=' || c == '>') &&
        !before.getLast?.any (fun c => c == '=' || c == '!' || c == '<' || c == '>') then
      return some p.1
    else findAssignment text ps

def operandRange (body : List Char) : Operand → Except Halt (Nat × Nat)
  | .whole => .ok (0, byteLength body)
  | .beforeWord word => do
    let stop ← findWord body word.toList (topCharacters body)
    return (0, stop.getD (byteLength body))
  | .afterAssignment => do
    match ← findAssignment body (topCharacters body) with
    | some mark => return (mark + 1, byteLength body)
    | none => return (byteLength body, byteLength body)
  | .absent => .ok (byteLength body, byteLength body)

def readOperand (inner : List Char) (base pos : Nat) (operand : Operand) :
    Except Halt (Option Expr) := do
  let body ← cutFrom inner pos
  let (start, stop) ← operandRange body operand
  let text ← cutOut body start stop
  if isBlankText text then return none
  else return some (← readExpr text (base + pos + start))

def findChained (inner : List Char) (pos : Nat) : Except Halt (Option Nat) := do
  let after ← cutFrom inner pos
  let gap ← minus (byteLength after) (byteLength (trimStart after))
  let chained ← cutFrom after gap
  if 0 < gap ∧ "if".toList.isPrefixOf chained then
    let rest ← cutFrom chained 2
    if rest.head?.any isBlank then return some (pos + gap + 2) else return none
  else return none

def readKeyword (inner : List Char) (pos : Nat) : Except Halt (String × Nat) := do
  let rest ← cutFrom inner pos
  let length ← minus (byteLength inner) pos
  let length :=
    if rest.all Char.isAlpha then length else byteLength (rest.takeWhile Char.isAlpha)
  return (.ofList (← cutOut inner pos (pos + length)), pos + length)

def readBlock (inner : List Char) (base : Nat) : Except Halt (Option (String × Option Expr)) := do
  let gap ← minus (byteLength inner) (byteLength (trimStart inner))
  match ← cutFrom inner gap with
  | [] => return none
  | sigil :: _ =>
    if sigil = '/' then return none
    else
      let (keyword, stop) ← readKeyword inner (gap + 1)
      let chained ← if sigil = ':' ∧ keyword = "else" then findChained inner stop else .ok none
      match chained with
      | some pos => return some ("else if", ← readOperand inner base pos (operand sigil "else if"))
      | none => return some (keyword, ← readOperand inner base stop (operand sigil keyword))

def readInner (inner : List Char) (span : Span) : Except Halt Mustache := do
  if (trimStart inner).head?.any isBlockSigil then
    match ← readBlock inner (span.start + 1) with
    | none => return .closing
    | some (keyword, expression) => return .block ⟨span, keyword, expression⟩
  else return .expression ⟨span, ← readExpr inner (span.start + 1)⟩

def readMustache (src : List Char) (pos : Nat) : Except Halt (Mustache × Nat) := do
  match ← closingBrace .plain 0 pos (← cutFrom src pos) with
  | none => throw (.failure (.parse pos .unterminatedExpression))
  | some close =>
    let inner ← cutOut src (pos + 1) close
    return (← readInner inner ⟨pos, close + 1⟩, close + 1)

theorem closingBrace_eq (n : Nesting) (idx : Nat) (cs : List Char) :
    closingBrace n.quoting (n.depth + 1) idx cs =
      .ok ((splitBraces n cs).map fun p => idx + byteLength p.1) := by
  induction cs generalizing n idx with
  | nil => rfl
  | cons c cs ih =>
    have hnext (m : Nesting) :
        closingBrace m.quoting (m.depth + 1) (idx + c.utf8Size) cs =
          .ok (((splitBraces m cs).map fun p => (c :: p.1, p.2)).map fun p =>
            idx + byteLength p.1) := by
      rw [ih m, Option.map_map]
      simp only [Function.comp_def, byteLength_cons, Nat.add_assoc]
    obtain ⟨quoting, depth⟩ := n
    rw [closingBrace, splitBraces]
    dsimp only
    by_cases hplain : quoting = .plain
    · subst hplain
      rw [if_pos rfl]
      by_cases hopen : c = '\x7b'
      · subst hopen
        rw [if_pos rfl, if_neg (by simp)]
        exact hnext ⟨.plain, depth + 1⟩
      rw [if_neg hopen]
      by_cases hclose : c = '\x7d'
      · subst hclose
        rw [if_pos rfl, minus_add, ok_bind]
        cases depth with
        | zero => rfl
        | succ depth =>
          rw [if_neg (by simp), if_neg (by simp [Nesting.top])]
          exact hnext ⟨.plain, depth⟩
      · rw [if_neg hclose, if_neg fun h => hclose h.2]
        have hkeep : (Nesting.mk .plain depth).next .curly c = ⟨Quoting.plain.next c, depth⟩ := by
          simp [Nesting.next, Brackets.curly, hopen, hclose]
        rw [hkeep]
        exact hnext ⟨Quoting.plain.next c, depth⟩
    · rw [if_neg hplain, if_neg fun h => hplain (congrArg Nesting.quoting h.1)]
      have hkeep : (Nesting.mk quoting depth).next .curly c = ⟨quoting.next c, depth⟩ := by
        simp [Nesting.next, hplain]
      rw [hkeep]
      exact hnext ⟨quoting.next c, depth⟩

theorem findWord_spots {text : List Char} (word : List Char) {ss : List Spot}
    (h : ∀ s ∈ ss, s.text = text) :
    findWord text word (ss.map fun s => (s.offset, s.char)) =
      .ok ((ss.find? fun s => isBlank s.char && beginsWord word s.after).map Spot.offset) := by
  induction ss with
  | nil => rfl
  | cons s ss ih =>
    rw [List.map_cons, findWord, cutFrom_spot (h s List.mem_cons_self), ok_bind, List.find?_cons,
      ih fun t ht => h t (List.mem_cons_of_mem _ ht)]
    cases hs : isBlank s.char && beginsWord word s.after with
    | true =>
      rw [if_pos (by simpa using hs)]
      rfl
    | false => rw [if_neg (by simpa using hs)]

/-- Before the first assignment among the spots, or anywhere if there is none, one of them is more
than one byte long. -/
def BindsWide (ss : List Spot) : Prop :=
  ∃ before s after, ss = before ++ s :: after ∧ (∀ t ∈ before, isAssignment t = false) ∧
    1 < s.char.utf8Size

theorem BindsWide.cons {s : Spot} {ss : List Spot} (h : BindsWide ss)
    (hs : isAssignment s = false) : BindsWide (s :: ss) := by
  obtain ⟨before, t, after, rfl, hbefore, ht⟩ := h
  refine ⟨s :: before, t, after, rfl, ?_, ht⟩
  intro u hu
  rcases List.mem_cons.1 hu with rfl | hu
  · exact hs
  · exact hbefore u hu

theorem cutAt_inside (a b : List Char) {c : Char} (hc : 1 < c.utf8Size) :
    cutAt (byteLength a + 1) (a ++ c :: b) = none := by
  cases hcut : cutAt (byteLength a + 1) (a ++ c :: b) with
  | none => rfl
  | some p =>
    obtain ⟨heq, hlen⟩ := cutAt_append hcut
    rcases List.append_eq_append_iff.1 heq with ⟨w, hw, htail⟩ | ⟨w, hw, -⟩
    · rw [hw, byteLength_append] at hlen
      cases w with
      | nil =>
        rw [byteLength_nil] at hlen
        omega
      | cons x w =>
        obtain ⟨rfl, -⟩ := List.cons.inj htail
        rw [byteLength_cons] at hlen
        omega
    · have := congrArg byteLength hw
      rw [byteLength_append] at this
      omega

theorem cutFor_spot {text : List Char} {s : Spot} (h : s.text = text) :
    cutFor .lookahead text (s.offset + 1) =
      if s.char.utf8Size = 1 then .ok (s.left ++ [s.char], s.after)
      else .error (.fault .lookahead) := by
  rw [← h, Spot.text, ← s.byteLength_left]
  split
  · next hs =>
    have hcut := cutFor_append .lookahead (s.left ++ [s.char]) s.after
    rw [byteLength_append, byteLength_cons, hs, List.append_assoc] at hcut
    exact hcut
  · next hs =>
    have hpos := s.char.utf8Size_pos
    rw [cutFor, cutAt_inside _ _ (by omega)]

theorem findAssignment_spots {text : List Char} {ss : List Spot} (h : ∀ s ∈ ss, s.text = text)
    (o : Nat) :
    Follows (fun f => (∃ p, f = .wideBinding p) ∧ BindsWide ss)
      (fun mark s => mark = s.map Spot.offset)
      (findAssignment text (ss.map fun s => (s.offset, s.char))) (Markup.findAssignment o ss) := by
  induction ss with
  | nil => exact .read rfl
  | cons s ss ih =>
    have hs := h s List.mem_cons_self
    rw [List.map_cons, findAssignment, Markup.findAssignment, cutFor_spot hs]
    by_cases hsize : s.char.utf8Size = 1
    · rw [if_pos hsize, if_neg (not_not_intro hsize), ok_bind]
      dsimp only
      rw [cutTo_spot hs, ok_bind]
      rw [Spot.left, List.getLast?_reverse]
      change Follows _ _ (if isAssignment s then _ else _) _
      cases hmark : isAssignment s with
      | true => exact .read rfl
      | false =>
        have hrest := ih fun t ht => h t (List.mem_cons_of_mem _ ht)
        exact hrest.mono fun f hf => ⟨hf.1, hf.2.cons hmark⟩
    · have hpos := s.char.utf8Size_pos
      rw [if_neg hsize, if_pos hsize]
      have hwide : BindsWide (s :: ss) := ⟨[], s, ss, rfl, by simp, by omega⟩
      exact .failed (f := .wideBinding (o + s.offset)) ⟨⟨_, rfl⟩, hwide⟩

def RangeOf (o : Nat) (body : List Char) (range : Nat × Nat) : Option Cursor → Prop
  | none => range = (byteLength body, byteLength body)
  | some c => ∃ before after, body = before ++ (c.rest ++ after) ∧
      range = (byteLength before, byteLength before + byteLength c.rest) ∧
      c.offset = o + byteLength before

theorem operandRange_follows (o : Nat) (body : List Char) (operand : Operand) :
    Follows
      (fun f => (∃ p, f = .wideBinding p) ∧ operand = .afterAssignment ∧ BindsWide (topLevel body))
      (RangeOf o body) (operandRange body operand) (operand.text ⟨o, body⟩) := by
  have hspots : ∀ s ∈ topLevel body, s.text = body := fun s hs => text_of_mem_topLevel hs
  have hwhole : RangeOf o body (0, byteLength body) (some ⟨o, body⟩) :=
    ⟨[], [], by simp, by simp, rfl⟩
  cases operand with
  | whole => exact .read hwhole
  | absent => exact .read rfl
  | beforeWord word =>
    rw [operandRange, topCharacters, findWord_spots _ hspots, ok_bind, Operand.text]
    split
    · next s hs =>
      rw [hs]
      refine .read ⟨[], s.char :: s.after, ?_, ?_, rfl⟩
      · exact (hspots s (List.mem_of_find?_eq_some hs)).symm
      · simp [Spot.offset, Spot.left]
    · next hs =>
      rw [hs]
      exact .read hwhole
  | afterAssignment =>
    rw [operandRange, topCharacters, Operand.text]
    refine ((findAssignment_spots hspots o).mono ?_).bind ?_
    · exact fun f hf => ⟨hf.1, rfl, hf.2⟩
    · intro mark s hmark hs
      cases s with
      | none =>
        subst hmark
        exact .read rfl
      | some s =>
        obtain ⟨hmem, hchar⟩ := mem_of_findAssignment hs
        have hsize : s.char.utf8Size = 1 := hchar ▸ rfl
        have hbody := hspots s hmem
        subst hmark
        refine .read ⟨s.left ++ [s.char], [], ?_, ?_, ?_⟩
        · rw [← hbody, Spot.text]
          simp
        · rw [← hbody, Spot.text]
          simp [Spot.offset, Spot.left, hsize, Nat.add_assoc]
        · simp [Spot.offset, Spot.left, hsize, Nat.add_assoc]

theorem readOperand_follows (before body : List Char) (base : Nat) (sigil : Char)
    (keyword : String) :
    Follows
      (fun f => (∃ p, f = .wideBinding p) ∧ operand sigil keyword = .afterAssignment ∧
        BindsWide (topLevel body))
      Eq (readOperand (before ++ body) base (byteLength before) (operand sigil keyword))
      (Markup.readOperand sigil keyword ⟨base + byteLength before, body⟩) := by
  rw [readOperand, cutFrom_append, ok_bind]
  apply (operandRange_follows (base + byteLength before) body (operand sigil keyword)).bind
  rintro ⟨start, stop⟩ text hrange -
  cases text with
  | none =>
    cases hrange
    have hcut := cutOut_append body [] []
    rw [List.append_nil, List.append_nil, byteLength_nil, Nat.add_zero] at hcut
    dsimp only
    rw [hcut, ok_bind]
    exact .read rfl
  | some c =>
    obtain ⟨left, right, hbody, hrange, hoffset⟩ := hrange
    cases hrange
    dsimp only
    rw [hbody, cutOut_append, ok_bind, hoffset]
    split
    · exact .read rfl
    · rw [readExpr_eq, ok_bind]
      exact .read rfl

theorem byteLength_leading_pos (cs : List Char) :
    0 < byteLength (leading cs) ↔ cs.head?.any isBlank = true := by
  cases cs with
  | nil => simp [leading]
  | cons c cs =>
    cases hc : isBlank c with
    | true =>
      have hpos := c.utf8Size_pos
      simp only [leading, List.takeWhile_cons, hc, if_true, byteLength_cons, List.head?_cons,
        Option.any_some, iff_true]
      omega
    | false => simp [leading, hc]

theorem findChained_eq (before after : List Char) (o : Nat) :
    findChained (before ++ after) (byteLength before) =
      .ok ((chainedIf? ⟨o, after⟩).map fun d => byteLength before + (d.offset - o)) := by
  have hskip : (Cursor.mk o after).skipBlanks =
      ⟨o + byteLength (leading after), trimStart after⟩ := rfl
  rw [findChained, cutFrom_append, ok_bind, minus_trimStart, ok_bind, cutFrom_leading, ok_bind,
    chainedIf?, hskip]
  by_cases hblank : after.head?.any isBlank = true
  · by_cases hif : "if".toList <+: trimStart after
    · obtain ⟨rest, hrest⟩ := hif
      have hcut : cutFrom (trimStart after) 2 = .ok rest := hrest ▸ cutFrom_append "if".toList rest
      have hbegins : beginsWord "if".toList (trimStart after) = rest.head?.any isBlank := by
        rw [← hrest]
        rfl
      have hword : "if".toList.isPrefixOf (trimStart after) = true :=
        List.isPrefixOf_iff_prefix.2 ⟨rest, hrest⟩
      rw [if_pos ⟨(byteLength_leading_pos after).2 hblank, hword⟩, hcut, ok_bind, hbegins]
      cases rest.head?.any isBlank with
      | true =>
        have htake : byteLength ((trimStart after).take 2) = 2 := by
          rw [← hrest]
          rfl
        rw [if_pos rfl, if_pos ⟨hblank, rfl⟩]
        simp only [Option.map_some, Cursor.advance, htake, pure, Except.pure]
        congr 2
        omega
      | false =>
        rw [if_neg (by simp), if_neg (by simp)]
        rfl
    · have hbegins : beginsWord "if".toList (trimStart after) = false := by
        rw [beginsWord, Bool.and_eq_false_iff]
        exact .inl (Bool.not_eq_true _ ▸ mt List.isPrefixOf_iff_prefix.1 hif)
      rw [if_neg fun h => hif (List.isPrefixOf_iff_prefix.1 h.2), hbegins, if_neg (by simp)]
      rfl
  · rw [if_neg fun h => hblank ((byteLength_leading_pos after).1 h.1), if_neg fun h => hblank h.1]
    rfl

def IsConst (inner body : List Char) : Prop :=
  trimStart inner = "@const".toList ++ body ∧ body.head?.any Char.isAlpha = false

def FailsWide (inner : List Char) (f : Failure) : Prop :=
  (∃ p, f = .wideBinding p) ∧ ∃ body, IsConst inner body ∧ BindsWide (topLevel body)

theorem operand_eq_afterAssignment {sigil : Char} {keyword : String}
    (h : operand sigil keyword = .afterAssignment) : sigil = '@' ∧ keyword = "const" := by
  grind [operand]

theorem readKeyword_append (before rest : List Char) :
    readKeyword (before ++ rest) (byteLength before) =
      .ok (.ofList (rest.takeWhile Char.isAlpha),
        byteLength (before ++ rest.takeWhile Char.isAlpha)) := by
  have hlength :
      (if rest.all Char.isAlpha then byteLength rest
        else byteLength (rest.takeWhile Char.isAlpha)) =
      byteLength (rest.takeWhile Char.isAlpha) := by
    split
    · next h => rw [List.takeWhile_eq_self_iff.2 (List.all_eq_true.1 h)]
    · rfl
  have hcut := cutOut_append before (rest.takeWhile Char.isAlpha) (rest.dropWhile Char.isAlpha)
  rw [List.takeWhile_append_dropWhile] at hcut
  rw [readKeyword, cutFrom_append, ok_bind, byteLength_append, Nat.add_comm, minus_add, ok_bind]
  dsimp only
  rw [hlength, hcut, ok_bind, byteLength_append]
  rfl

theorem readBlock_of_slash (inner : List Char) (base : Nat) {rest : List Char}
    (h : trimStart inner = '/' :: rest) : readBlock inner base = .ok none := by
  rw [readBlock, minus_trimStart, ok_bind, cutFrom_leading, h, ok_bind]
  rfl

theorem utf8Size_of_isBlockSigil {c : Char} (h : isBlockSigil c = true) : c.utf8Size = 1 := by
  simp only [isBlockSigil, Bool.or_eq_true, beq_iff_eq] at h
  rcases h with ((rfl | rfl) | rfl) | rfl
  · rfl
  · rfl
  · rfl
  · rfl

theorem isConst_of_operand {inner rest : List Char} {sigil : Char}
    (hinner : trimStart inner = sigil :: rest)
    (h : operand sigil (.ofList (rest.takeWhile Char.isAlpha)) = .afterAssignment) :
    IsConst inner (rest.dropWhile Char.isAlpha) := by
  obtain ⟨rfl, hkeyword⟩ := operand_eq_afterAssignment h
  have hword : rest.takeWhile Char.isAlpha = "const".toList := by
    rw [← hkeyword, String.toList_ofList]
  have hrest : rest = "const".toList ++ rest.dropWhile Char.isAlpha := by
    rw [← hword, List.takeWhile_append_dropWhile]
  refine ⟨?_, ?_⟩
  · rw [hinner]
    exact congrArg (List.cons '@') hrest
  · cases hhead : (rest.dropWhile Char.isAlpha).head? with
    | none => rfl
    | some x => exact head?_dropWhile hhead

theorem readTagged_follows {P : Failure → Prop} (before body : List Char) (base : Nat)
    (sigil : Char) (keyword : String)
    (hP : ∀ f, (∃ p, f = .wideBinding p) ∧ operand sigil keyword = .afterAssignment ∧
      BindsWide (topLevel body) → P f) :
    Follows P (fun block r => block = some r)
      (do return some (keyword,
        ← readOperand (before ++ body) base (byteLength before) (operand sigil keyword)))
      (do return (keyword,
        ← Markup.readOperand sigil keyword ⟨base + byteLength before, body⟩)) := by
  refine ((readOperand_follows before body base sigil keyword).mono hP).bind ?_
  rintro e _ rfl -
  exact .read rfl

theorem readBlock_follows (inner : List Char) (base : Nat) {sigil : Char} {rest : List Char}
    (hinner : trimStart inner = sigil :: rest) (hsize : sigil.utf8Size = 1) (hsigil : sigil ≠ '/') :
    Follows (FailsWide inner) (fun block r => block = some r) (readBlock inner base)
      (Markup.readBlock (Cursor.mk base inner).skipBlanks) := by
  obtain ⟨before, hbefore⟩ : ∃ before, before = leading inner ++ [sigil] := ⟨_, rfl⟩
  obtain ⟨word, hword⟩ : ∃ word, word = rest.takeWhile Char.isAlpha := ⟨_, rfl⟩
  obtain ⟨body, hbody⟩ : ∃ body, body = rest.dropWhile Char.isAlpha := ⟨_, rfl⟩
  have hpos : byteLength before = byteLength (leading inner) + 1 := by
    rw [hbefore, byteLength_append, byteLength_cons, hsize, byteLength_nil]
  have hbegin : inner = before ++ rest := by
    rw [hbefore, List.append_assoc, List.singleton_append, ← hinner, leading_append_trimStart]
  have hsplit : inner = before ++ word ++ body := by
    rw [List.append_assoc, hword, hbody, List.takeWhile_append_dropWhile, ← hbegin]
  have hkeyword := readKeyword_append before rest
  rw [← hbegin, ← hword] at hkeyword
  have hskip : (Cursor.mk base inner).skipBlanks =
      ⟨base + byteLength (leading inner), sigil :: rest⟩ := by
    rw [← hinner]
    rfl
  have hafter : (Cursor.mk base inner).skipBlanks.advance 1 = ⟨base + byteLength before, rest⟩ := by
    simp [hskip, Cursor.advance, hpos, hsize, Nat.add_assoc]
  have hend : (Cursor.mk (base + byteLength before) rest).skip Char.isAlpha =
      ⟨base + byteLength (before ++ word), body⟩ := by
    rw [hword, hbody, byteLength_append, ← Nat.add_assoc]
    rfl
  rw [readBlock, minus_trimStart, ok_bind, cutFrom_leading, hinner, ok_bind, Markup.readBlock,
    hafter]
  simp only [hskip, Cursor.word, List.headD_cons, hend, ← hword]
  rw [if_neg hsigil, ← hpos, hkeyword, ok_bind]
  have hplain := readTagged_follows (P := FailsWide inner) (before ++ word) body base sigil
    (.ofList word) fun f hf =>
      ⟨hf.1, body, hbody ▸ isConst_of_operand hinner (hword ▸ hf.2.1), hf.2.2⟩
  rw [← hsplit] at hplain
  -- the operand stands after the keyword, or after the `if` that follows an `else`
  by_cases helse : sigil = ':' ∧ String.ofList word = "else"
  · have hchained := findChained_eq (before ++ word) body (base + byteLength (before ++ word))
    rw [← hsplit] at hchained
    rw [if_pos helse, if_pos helse, hchained, ok_bind]
    cases hc : chainedIf? ⟨base + byteLength (before ++ word), body⟩ with
    | none => exact hplain
    | some d =>
      obtain ⟨w, hw⟩ := le_of_chainedIf? hc
      have hoffset : d.offset = base + byteLength (before ++ word) + byteLength w := hw.offset_eq
      have hrest : body = w ++ d.rest := hw.rest_eq
      have hread := readTagged_follows (P := FailsWide inner) (before ++ word ++ w) d.rest base
        sigil "else if" (by simp [helse.1, operand])
      rw [List.append_assoc (before ++ word), ← hrest, ← hsplit, byteLength_append,
        ← Nat.add_assoc, ← hoffset] at hread
      dsimp only [Option.map_some]
      rw [hoffset, Nat.add_sub_cancel_left]
      exact hread
  · rw [if_neg helse, if_neg helse]
    exact hplain

/-- A text with a `@const` tag whose binding has a character of more than one byte. -/
def HasWideConst (src : List Char) : Prop :=
  ∃ before inner after body, src = before ++ '\x7b' :: (inner ++ '\x7d' :: after) ∧
    Balanced inner ∧ IsConst inner body ∧ BindsWide (topLevel body)

def Permitted (src : List Char) : Failure → Prop
  | .parse offset _ => isBoundary offset src = true
  | .wideBinding _ => HasWideConst src
  | _ => False

theorem readInner_follows {src before inner after : List Char}
    (hsrc : src = before ++ '\x7b' :: (inner ++ '\x7d' :: after)) (hinner : Balanced inner)
    (o : Nat) :
    Follows (Permitted src) Eq (readInner inner ⟨o, o + byteLength inner + 2⟩)
      (Mustache.ofInner o inner) := by
  have hskip : (Cursor.mk (o + 1) inner).skipBlanks.rest = trimStart inner := rfl
  rw [readInner, Mustache.ofInner]
  dsimp only
  rw [hskip]
  by_cases hblock : (trimStart inner).head?.any isBlockSigil = true
  · rw [if_pos hblock, if_pos hblock]
    obtain ⟨sigil, rest, htrim⟩ : ∃ sigil rest, trimStart inner = sigil :: rest := by
      cases htrim : trimStart inner with
      | nil => simp [htrim] at hblock
      | cons sigil rest => exact ⟨sigil, rest, rfl⟩
    by_cases hslash : sigil = '/'
    · rw [readBlock_of_slash inner _ (hslash ▸ htrim), ok_bind, htrim, hslash,
        if_pos List.head?_cons]
      exact .read rfl
    · have hsize : sigil.utf8Size = 1 := by
        apply utf8Size_of_isBlockSigil
        simpa [htrim] using hblock
      rw [if_neg (by simpa [htrim] using hslash)]
      refine ((readBlock_follows inner (o + 1) htrim hsize hslash).mono ?_).bind ?_
      · rintro f ⟨⟨p, rfl⟩, body, hbody, hwide⟩
        exact ⟨before, inner, after, body, hsrc, hinner, hbody, hwide⟩
      · rintro _ ⟨keyword, expression⟩ rfl -
        exact .read rfl
  · rw [if_neg hblock, if_neg hblock, readExpr_eq, ok_bind]
    exact .read rfl

theorem readMustache_follows {src cs : List Char} {c : Cursor} (h : Cursor.ofText src ≤ c)
    (hc : c.rest = '\x7b' :: cs) :
    Follows (Permitted src) (Reached src) (readMustache src c.offset) (Markup.readMustache c) := by
  have hclose : closingBrace .plain 0 c.offset ('\x7b' :: cs) =
      .ok ((splitBraces .top cs).map fun p => c.offset + 1 + byteLength p.1) :=
    closingBrace_eq .top (c.offset + 1) cs
  rw [readMustache, cutFrom_offset h, ok_bind, hc, hclose, ok_bind]
  cases hs : splitBraces .top cs with
  | none =>
    rw [Markup.readMustache, hc, List.tail_cons, hs]
    exact .failed (f := .parse c.offset .unterminatedExpression) (isBoundary_offset h)
  | some p =>
    obtain ⟨inner, after⟩ := p
    have hinner := balanced_of_splitBraces hs
    obtain ⟨before, hsrc, hoffset⟩ := exists_append h
    rw [hc, splitBraces_append hs] at hsrc
    have hcut : cutOut src (c.offset + 1) (c.offset + 1 + byteLength inner) = .ok inner := by
      have := cutOut_append (before ++ ['\x7b']) inner ('\x7d' :: after)
      rw [byteLength_append, List.append_assoc, List.singleton_append, ← hsrc, ← hoffset] at this
      exact this
    have hmodel : Markup.readMustache c = (Mustache.ofInner c.offset inner).map fun m =>
        (m, ⟨c.offset + (byteLength inner + 2), after⟩) := by
      rw [← readMustache_ofInner hinner, ← splitBraces_append hs, ← hc]
    have hstop : c.offset + 1 + byteLength inner + 1 = c.offset + byteLength inner + 2 := by omega
    dsimp only [Option.map_some]
    rw [hcut, ok_bind, hmodel, hstop]
    refine (readInner_follows hsrc hinner c.offset).map ?_
    rintro m _ rfl -
    refine ⟨rfl, Cursor.le_trans h ⟨'\x7b' :: (inner ++ ['\x7d']), ?_, ?_⟩⟩
    · rw [hc, splitBraces_append hs]
      simp
    · have hopen : ('\x7b').utf8Size = 1 := rfl
      have hclose : ('\x7d').utf8Size = 1 := rfl
      rw [byteLength_between hopen hclose]
      change c.offset + (byteLength inner + 2) = _
      omega

example :
    readMustache "\x7b@const é = 1\x7d".toList 0 = .error (.fault .lookahead) := by decide +kernel

end ClassWeave.Slicing

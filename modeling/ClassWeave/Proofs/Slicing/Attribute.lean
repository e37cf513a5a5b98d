import ClassWeave.Proofs.Markup.Recovery
import ClassWeave.Proofs.Slicing.Mustache

namespace ClassWeave.Slicing

open Text Markup

def skipWhile (src : List Char) (stays : List Char → Bool) (pos : Nat) : Except Halt Nat := do
  match ← cutFrom src pos with
  | [] => return pos
  | c :: cs =>
    if stays (c :: cs) then
      let ⟨next, _⟩ ← onward src pos (pos + c.utf8Size)
      skipWhile src stays next
    else return pos
termination_by byteLength src - pos

def startsIn (p : Char → Bool) (cs : List Char) : Bool := cs.head?.any p

def endsValue (cs : List Char) : Bool :=
  startsIn isBlank cs || cs.head? == some '>' || "/>".toList.isPrefixOf cs

def cutPart (src : List Char) (start stop : Nat) : Except Halt ValuePart := do
  return .text ⟨⟨start, stop⟩, .ofList (← cutOut src start stop)⟩

def cutBefore (src : List Char) (start stop : Nat) : Except Halt (List ValuePart) :=
  if start < stop then (cutPart src start stop).map ([·]) else .ok []

def readQuoted (src : List Char) (quote : Char) (opening textStart pos : Nat) :
    Except Halt (List ValuePart × Nat) := do
  match ← cutFrom src pos with
  | [] => throw (.failure (.parse opening .unterminatedValue))
  | c :: _ =>
    if c = quote ∨ c = '\x7b' then
      let parts ← cutBefore src textStart pos
      if c = quote then return (parts, pos + 1)
      else
        let (m, next) ← readMustache src pos
        let ⟨next, _⟩ ← onward src pos next
        let (more, stop) ← readQuoted src quote opening next next
        return (parts ++ m.part?.toList ++ more, stop)
    else
      let ⟨next, _⟩ ← onward src pos (pos + c.utf8Size)
      readQuoted src quote opening textStart next
termination_by byteLength src - pos

def readValue (src : List Char) (pos : Nat) : Except Halt (List ValuePart × Nat) := do
  match ← cutFrom src pos with
  | [] => throw (.failure (.parse pos .missingValue))
  | c :: _ =>
    if c = '\x22' ∨ c = '\x27' then readQuoted src c pos (pos + 1) (pos + 1)
    else if c = '\x7b' then
      let (m, stop) ← readMustache src pos
      return (m.part?.toList, stop)
    else
      let stop ← skipWhile src (fun cs => !endsValue cs) pos
      return ([← cutPart src pos stop], stop)

def readAttribute (src : List Char) (pos : Nat) : Except Halt (Attribute × Nat) := do
  if (← cutFrom src pos).head? = some '\x7b' then
    let (m, stop) ← readMustache src pos
    return (.other ⟨⟨pos, stop⟩, "", m.part?.toList⟩, stop)
  else
    let nameStop ← skipWhile src (startsIn fun x => !endsName x) pos
    let name ← cutOut src pos nameStop
    let next ← skipWhile src (startsIn isBlank) nameStop
    if (← cutFrom src next).head? = some '=' then
      let (parts, stop) ← readValue src (← skipWhile src (startsIn isBlank) (next + 1))
      return (.ofValue ⟨pos, stop⟩ name parts, stop)
    else return (.ofValue ⟨pos, nameStop⟩ name [], nameStop)

def readAttributes (src : List Char) (start : Nat) (name : String) (pos : Nat) :
    Except Halt (List Attribute × Bool × Nat) := do
  let next ← skipWhile src (startsIn isBlank) pos
  match ← cutFrom src next with
  | [] => throw (.failure (.parse start (.unterminatedTag name)))
  | c :: cs =>
    if c = '/' ∧ cs.head? = some '>' then return ([], true, next + 2)
    else if c = '>' then return ([], false, next + 1)
    else if c = '/' then
      let ⟨after, _⟩ ← onward src pos (next + 1)
      readAttributes src start name after
    else
      let (a, stop) ← readAttribute src next
      let ⟨after, _⟩ ← onward src pos stop
      let (as, closed, stop) ← readAttributes src start name after
      return (a :: as, closed, stop)
termination_by byteLength src - pos

theorem lt_of_rest {c : Cursor} {x : Char} {xs : List Char} (h : c.rest = x :: xs) :
    c < ⟨c.offset + x.utf8Size, xs⟩ := ⟨x, [], h, by simp⟩

def heldBy (stays : List Char → Bool) : List Char → List Char
  | [] => []
  | c :: cs => if stays (c :: cs) then c :: heldBy stays cs else []

theorem heldBy_startsIn (p : Char → Bool) (cs : List Char) :
    heldBy (startsIn p) cs = cs.takeWhile p := by
  induction cs with
  | nil => rfl
  | cons c cs ih => rw [heldBy, ih, List.takeWhile_cons]; rfl

theorem endsValue_cons (c : Char) (cs : List Char) :
    endsValue (c :: cs) = (isBlank c || c == '>' || c == '/' && cs.head? == some '>') := by
  have hslash : ['/', '>'].isPrefixOf (c :: cs) = (c == '/' && cs.head? == some '>') := by
    cases cs with
    | nil => simp [List.isPrefixOf]
    | cons x xs =>
      rw [Bool.eq_iff_iff]
      simp only [List.isPrefixOf, Bool.and_eq_true, beq_iff_eq, List.head?_cons, Option.some.injEq,
        and_true]
      exact and_congr eq_comm eq_comm
  rw [endsValue]
  change (_ || _ || ['/', '>'].isPrefixOf (c :: cs)) = _
  rw [hslash]
  rfl

theorem heldBy_endsValue (cs : List Char) :
    heldBy (fun cs => !endsValue cs) cs = unquotedText cs := by
  induction cs with
  | nil => rfl
  | cons c cs ih =>
    rw [heldBy, unquotedText, endsValue_cons, ih]
    cases (isBlank c || c == '>' || c == '/' && cs.head? == some '>') <;> rfl

theorem skipWhile_eq {src : List Char} {c : Cursor} (stays : List Char → Bool)
    (h : Cursor.ofText src ≤ c) :
    skipWhile src stays c.offset = .ok (c.offset + byteLength (heldBy stays c.rest)) := by
  induction hrest : c.rest generalizing c with
  | nil =>
    rw [skipWhile, cutFrom_offset h, ok_bind, hrest]
    rfl
  | cons x xs ih =>
    have hlt := lt_of_rest hrest
    obtain ⟨hnext, honward⟩ := onward_of_lt h hlt
    rw [skipWhile, cutFrom_offset h, ok_bind, hrest]
    dsimp only
    rw [heldBy]
    split
    · dsimp only at honward
      rw [honward, ok_bind]
      dsimp only
      have := ih (Cursor.le_trans h (Cursor.le_of_lt hlt)) rfl
      dsimp only at this
      rw [this, byteLength_cons, Nat.add_assoc]
    · rfl

theorem skipWhile_skip {src : List Char} {c : Cursor} (p : Char → Bool)
    (h : Cursor.ofText src ≤ c) : skipWhile src (startsIn p) c.offset = .ok (c.skip p).offset := by
  rw [skipWhile_eq _ h, heldBy_startsIn]
  rfl

theorem cutPart_reads {src w : List Char} {c d : Cursor} (h : Cursor.ofText src ≤ c)
    (hw : c.Reads w d) : cutPart src c.offset d.offset = .ok (.text (textPart c d w)) := by
  rw [cutPart, cutOut_reads h hw, ok_bind]
  rfl

theorem lt_of_reads {w : List Char} {c d : Cursor} (hw : c.Reads w d) :
    c.offset < d.offset ↔ w ≠ [] := by
  rw [hw.offset_eq]
  constructor
  · rintro hlt rfl
    exact Nat.lt_irrefl _ hlt
  · intro hne
    exact Nat.lt_add_of_pos_right (byteLength_pos hne)

theorem cutBefore_reads {src w : List Char} {c d : Cursor} (h : Cursor.ofText src ≤ c)
    (hw : c.Reads w d) :
    cutBefore src c.offset d.offset =
      .ok (if w.isEmpty then [] else [.text (textPart c d w)]) := by
  rw [cutBefore]
  cases w with
  | nil => rw [if_neg fun hlt => (lt_of_reads hw).1 hlt rfl]; rfl
  | cons x w =>
    rw [if_pos ((lt_of_reads hw).2 (List.cons_ne_nil x w)), cutPart_reads h hw]
    rfl

theorem utf8Size_quote {quote : Char} (hq : quote = '\x22' ∨ quote = '\x27') :
    quote.utf8Size = 1 := by
  rcases hq with rfl | rfl
  · rfl
  · rfl

theorem ne_of_quote {quote : Char} (hq : quote = '\x22' ∨ quote = '\x27') : quote ≠ '\x7b' := by
  rcases hq with rfl | rfl
  · decide
  · decide

theorem stays_iff (quote x : Char) :
    stays quote x = true ↔ ¬ (x = quote ∨ x = '\x7b') := by
  simp [not_or]

theorem readQuoted_of_nil {quote : Char} {opening : Nat} {c : Cursor}
    (hr : (c.skip (stays quote)).rest = []) :
    Markup.readQuoted quote opening c = .error (.parse opening .unterminatedValue) := by
  rw [Markup.readQuoted]
  split
  · rfl
  · next h =>
    rw [hr] at h
    cases h

theorem skip_of_reads {p : Char → Bool} {c d : Cursor} {w : List Char} (hw : c.Reads w d)
    (hp : ∀ x ∈ w, p x = true) (hd : ∀ x, d.rest.head? = some x → p x = false) :
    c.word p = w ∧ c.skip p = d := by
  obtain ⟨o, rest⟩ := c
  obtain ⟨stop, rest'⟩ := d
  obtain ⟨rfl, rfl⟩ : rest = w ++ rest' ∧ stop = o + byteLength w := ⟨hw.1, hw.2⟩
  exact ⟨Cursor.word_append o hp hd, Cursor.skip_append o hp hd⟩

theorem readQuoted_follows {src : List Char} {quote : Char} (hq : quote = '\x22' ∨ quote = '\x27')
    {opening : Nat} (ho : isBoundary opening src = true) {c d : Cursor} {w : List Char}
    (hc : Cursor.ofText src ≤ c) (hw : c.Reads w d) (hstays : ∀ x ∈ w, stays quote x = true) :
    Follows (Permitted src) (Reached src) (readQuoted src quote opening c.offset d.offset)
      (Markup.readQuoted quote opening c) := by
  -- by induction on what is left at `d`: the text from `c` to `d` grows until a quote or a brace
  have hd : Cursor.ofText src ≤ d := Cursor.le_trans hc ⟨w, hw⟩
  rw [readQuoted, cutFrom_offset hd, ok_bind]
  cases hrest : d.rest with
  | nil =>
    obtain ⟨-, hskip⟩ := skip_of_reads hw hstays (by simp [hrest])
    rw [readQuoted_of_nil (hskip ▸ hrest)]
    exact .failed (f := .parse opening .unterminatedValue) ho
  | cons x xs =>
    dsimp only
    have hlt := lt_of_rest hrest
    by_cases hstop : x = quote ∨ x = '\x7b'
    · have hends : ∀ y, d.rest.head? = some y → stays quote y = false := by
        intro y hy
        rw [hrest] at hy
        cases hy
        exact Bool.eq_false_iff.2 fun h => (stays_iff quote x).1 h hstop
      obtain ⟨hword, hskip⟩ := skip_of_reads hw hstays hends
      rw [if_pos hstop, cutBefore_reads hc hw, ok_bind]
      by_cases hquote : x = quote
      · subst hquote
        rw [if_pos rfl, readQuoted_of_quote hword hskip hrest]
        have hoffset := offset_advance_one (utf8Size_quote hq) hrest
        exact .read ⟨Prod.ext rfl hoffset.symm, Cursor.le_trans hd (d.le_advance 1)⟩
      · obtain rfl := hstop.resolve_left hquote
        rw [if_neg hquote, readQuoted_of_brace (ne_of_quote hq) hword hskip hrest]
        refine (readMustache_follows hd hrest).bind ?_
        rintro _ ⟨m, e⟩ ⟨rfl, he⟩ hm
        dsimp only
        obtain ⟨hnext, honward⟩ := onward_of_lt hd (lt_of_readMustache hm)
        rw [honward, ok_bind]
        dsimp only
        refine (readQuoted_follows hq ho he (.refl e) (by simp)).bind ?_
        rintro _ ⟨more, f⟩ ⟨rfl, hf⟩ -
        exact .read ⟨rfl, hf⟩
    · obtain ⟨hnext, honward⟩ := onward_of_lt hd hlt
      dsimp only at honward
      rw [if_neg hstop, honward, ok_bind]
      have hstep : d.Reads [x] ⟨d.offset + x.utf8Size, xs⟩ := ⟨hrest, by simp⟩
      refine readQuoted_follows hq ho hc (hw.trans hstep) ?_
      intro y hy
      rcases List.mem_append.1 hy with hy | hy
      · exact hstays y hy
      · obtain rfl := List.mem_singleton.1 hy
        exact (stays_iff quote y).2 hstop
termination_by d.rest.length
decreasing_by
  · exact Cursor.length_lt (lt_of_readMustache hm)
  · exact Cursor.length_lt hlt

theorem reads_unquotedText (c : Cursor) :
    c.Reads (unquotedText c.rest) (c.advance (unquotedText c.rest).length) := by
  obtain ⟨r, hr, -⟩ := exists_of_unquotedText c.rest
  have hreads := c.reads_advance (unquotedText c.rest).length
  rwa [← List.prefix_iff_eq_take.1 ⟨r, hr.symm⟩] at hreads

theorem readValue_follows {src : List Char} {c : Cursor} (h : Cursor.ofText src ≤ c) :
    Follows (Permitted src) (Reached src) (readValue src c.offset) (Markup.readValue c) := by
  rw [readValue, cutFrom_offset h, ok_bind, Markup.readValue]
  cases hrest : c.rest with
  | nil => exact .failed (f := .parse c.offset .missingValue) (isBoundary_offset h)
  | cons x xs =>
    dsimp only
    by_cases hquote : x = '\x22' ∨ x = '\x27'
    · rw [if_pos hquote, if_pos hquote, ← offset_advance_one (utf8Size_quote hquote) hrest]
      exact readQuoted_follows hquote (isBoundary_offset h) (Cursor.le_trans h (c.le_advance 1))
        (.refl _) (by simp)
    rw [if_neg hquote, if_neg hquote]
    by_cases hopen : x = '\x7b'
    · subst hopen
      rw [if_pos rfl, if_pos rfl]
      refine (readMustache_follows h hrest).map ?_
      rintro _ ⟨m, d⟩ ⟨rfl, hd⟩ -
      exact ⟨rfl, hd⟩
    · rw [if_neg hopen, if_neg hopen, skipWhile_eq _ h, heldBy_endsValue, ok_bind]
      have hr := reads_unquotedText c
      rw [← hr.offset_eq, cutPart_reads h hr, ok_bind, hrest]
      exact .read ⟨rfl, Cursor.le_trans h (c.le_advance _)⟩

theorem readAttribute_follows {src : List Char} {c : Cursor} (h : Cursor.ofText src ≤ c) :
    Follows (Permitted src) (Reached src) (readAttribute src c.offset)
      (Markup.readAttribute c) := by
  rw [readAttribute, cutFrom_offset h, ok_bind, Markup.readAttribute]
  by_cases hopen : c.rest.head? = some '\x7b'
  · obtain ⟨xs, hrest⟩ := List.head?_eq_some_iff.1 hopen
    rw [if_pos hopen, if_pos hopen]
    refine (readMustache_follows h hrest).map ?_
    rintro _ ⟨m, d⟩ ⟨rfl, hd⟩ -
    exact ⟨rfl, hd⟩
  · rw [if_neg hopen, if_neg hopen, skipWhile_skip _ h, ok_bind,
      cutOut_reads h (c.reads_skip _), ok_bind]
    have hd := Cursor.le_trans h (c.le_skip fun x => !endsName x)
    generalize c.skip (fun x => !endsName x) = d at hd
    rw [skipWhile_skip _ hd, ok_bind]
    have he := Cursor.le_trans hd (d.le_skip isBlank)
    rw [cutFrom_offset he, ok_bind]
    dsimp only
    change Follows _ _ _ (if d.skipBlanks.rest.head? = some '=' then _ else _)
    rw [Cursor.skipBlanks]
    by_cases hequals : (d.skip isBlank).rest.head? = some '='
    · obtain ⟨xs, hrest⟩ := List.head?_eq_some_iff.1 hequals
      have hoffset := offset_advance_one rfl hrest
      have hf := Cursor.le_trans he ((d.skip isBlank).le_advance 1)
      rw [if_pos hequals, if_pos hequals, ← hoffset, skipWhile_skip _ hf, ok_bind]
      refine (readValue_follows (Cursor.le_trans hf (Cursor.le_skip _ _))).map ?_
      rintro _ ⟨ps, stop⟩ ⟨rfl, hstop⟩ -
      exact ⟨rfl, hstop⟩
    · rw [if_neg hequals, if_neg hequals]
      exact .read ⟨rfl, hd⟩

theorem readAttributes_of_nil {start : Nat} {name : String} {c d : Cursor}
    (hd : c.skipBlanks = d) (hr : d.rest = []) :
    Markup.readAttributes start name c = .error (.parse start (.unterminatedTag name)) := by
  subst hd
  rw [Markup.readAttributes]
  split
  · rfl
  · next h =>
    rw [hr] at h
    cases h

theorem readAttributes_follows {src : List Char} {start : Nat}
    (hstart : isBoundary start src = true) (name : String) {c : Cursor}
    (h : Cursor.ofText src ≤ c) :
    Follows (Permitted src) (fun p q => p = (q.1, q.2.1, q.2.2.offset) ∧ Cursor.ofText src ≤ q.2.2)
      (readAttributes src start name c.offset) (Markup.readAttributes start name c) := by
  obtain ⟨d, hd⟩ : ∃ d, d = c.skip isBlank := ⟨_, rfl⟩
  have hcd : c ≤ d := hd ▸ c.le_skip isBlank
  have hsrc := Cursor.le_trans h hcd
  rw [readAttributes, skipWhile_skip _ h, ok_bind, ← hd, cutFrom_offset hsrc, ok_bind]
  cases hrest : d.rest with
  | nil =>
    rw [readAttributes_of_nil hd.symm hrest]
    exact .failed (f := .parse start (.unterminatedTag name)) hstart
  | cons x xs =>
    dsimp only
    have hblank : isBlank x = false := Cursor.not_of_skip (hd ▸ hrest)
    by_cases hclosed : x = '/' ∧ xs.head? = some '>'
    · obtain ⟨rfl, ys, rfl⟩ : x = '/' ∧ ∃ ys, xs = '>' :: ys :=
        ⟨hclosed.1, List.head?_eq_some_iff.1 hclosed.2⟩
      have hoffset : (d.advance 2).offset = d.offset + 2 := offset_advance (w := ['/', '>']) hrest
      rw [if_pos hclosed, readAttributes_of_closedStop hd.symm hrest, ← hoffset]
      exact .read ⟨rfl, Cursor.le_trans hsrc (d.le_advance 2)⟩
    rw [if_neg hclosed]
    by_cases hstop : x = '>'
    · subst hstop
      have hoffset := offset_advance_one rfl hrest
      rw [if_pos rfl, readAttributes_of_stop hd.symm hrest, ← hoffset]
      exact .read ⟨rfl, Cursor.le_trans hsrc (d.le_advance 1)⟩
    rw [if_neg hstop]
    by_cases hslash : x = '/'
    · subst hslash
      have hoffset := offset_advance_one rfl hrest
      have hlt := Cursor.lt_of_le_of_lt hcd (Cursor.lt_advance hrest Nat.one_pos)
      obtain ⟨hnext, honward⟩ := onward_of_lt h hlt
      rw [if_pos rfl, readAttributes_of_slash hd.symm hrest fun hx => hclosed ⟨rfl, hx⟩,
        ← hoffset, honward, ok_bind]
      exact readAttributes_follows hstart name (Cursor.le_trans h (Cursor.le_of_lt hlt))
    · rw [if_neg hslash, readAttributes_of_attribute hd.symm hrest hslash hstop]
      refine (readAttribute_follows hsrc).bind ?_
      rintro _ ⟨a, e⟩ ⟨rfl, he⟩ ha
      have hbegins : x = '=' ∨ endsName x = false := by
        by_cases x = '='
        · exact .inl ‹_›
        · exact .inr (by simp_all [endsName])
      have hlt := Cursor.lt_of_le_of_lt hcd (lt_of_readAttribute hrest hbegins ha)
      obtain ⟨hnext, honward⟩ := onward_of_lt h hlt
      dsimp only
      rw [honward, ok_bind]
      refine (readAttributes_follows hstart name he).map ?_
      rintro _ ⟨as, closed, f⟩ ⟨rfl, hf⟩ -
      exact ⟨rfl, hf⟩
termination_by c.rest.length
decreasing_by
  · exact Cursor.length_lt hlt
  · exact Cursor.length_lt hlt

end ClassWeave.Slicing

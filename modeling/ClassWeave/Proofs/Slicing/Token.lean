import ClassWeave.Proofs.Slicing.Attribute

namespace ClassWeave.Slicing

open Text Markup

def seek (src : List Char) (pos : Nat) (needle : String) (cause : ParseCause) :
    Except Halt Nat := do
  match splitBefore needle.toList (← cutFrom src pos) with
  | none => throw (.failure (.parse pos cause))
  | some (w, _) => return pos + byteLength w

def readComment (src : List Char) (pos : Nat) : Except Halt (Option Token × Nat) := do
  let close ← seek src (pos + 4) "-->" .unterminatedComment
  return (none, close + 3)

def readClosing (src : List Char) (pos : Nat) : Except Halt (Option Token × Nat) := do
  let stop ← seek src pos ">" .unterminatedClosingTag
  let name ← cutOut src (pos + 2) stop
  return (some (.closing (.ofList (trim name)) (stop + 1)), stop + 1)

def readContent (src : List Char) (start : Nat) (name : String) (pos : Nat) :
    Except Halt (Option Token × Nat) := do
  let close ← seek src pos ("</" ++ name) (.unterminatedContent name)
  let stop ← seek src close ">" (.unterminatedContent name)
  let block := ⟨⟨start, stop + 1⟩, ⟨pos, close⟩⟩
  return (if name = "style" then some (.style block) else none, stop + 1)

def readOpening (src : List Char) (pos : Nat) : Except Halt (Option Token × Nat) := do
  let nameStop ← skipWhile src (startsIn fun x => !endsTagName x) (pos + 1)
  let name := String.ofList (← cutOut src (pos + 1) nameStop)
  let (attributes, closed, stop) ← readAttributes src pos name nameStop
  if name = "script" ∨ name = "style" then readContent src pos name stop
  else
    let tag := ⟨name, .ofName name, ⟨pos, stop⟩, attributes⟩
    return (some (.opening tag (closed || voidElements.contains name)), stop)

def opensTag (rest : List Char) : Except Halt Bool :=
  if rest.head? = some '<' then (cutFrom rest 1).map (startsIn Char.isAlpha) else .ok false

def skipPlain (src : List Char) (pos : Nat) (rest : List Char) : Except Halt Nat := do
  let size := rest.head?.elim 1 Char.utf8Size
  let after ← cutFrom rest size
  if after.all isPlain then return byteLength src
  else return pos + size + byteLength (after.takeWhile isPlain)

def readToken (src : List Char) (pos : Nat) : Except Halt (Option Token × Nat) := do
  let rest ← cutFrom src pos
  if "<!--".toList.isPrefixOf rest then readComment src pos
  else if "</".toList.isPrefixOf rest then readClosing src pos
  else if ← opensTag rest then readOpening src pos
  else if "\x7b".toList.isPrefixOf rest then
    let (m, stop) ← readMustache src pos
    return (m.token?, stop)
  else return (none, ← skipPlain src pos rest)

def readTokens (src : List Char) (pos : Nat) : Except Halt (List Token) := do
  if pos < byteLength src then
    let (t, next) ← readToken src pos
    let ⟨next, _⟩ ← onward src pos next
    return t.toList ++ (← readTokens src next)
  else return []
termination_by byteLength src - pos

def parse (source : String) : Except Halt Component :=
  (readTokens source.toList 0).map (.ofTokens (byteLength source.toList))

def Sought (c : Cursor) (needle : String) (pos : Nat) (r : List Char × Cursor × Cursor) : Prop :=
  c.Reads r.1 r.2.1 ∧ r.2.1.Reads needle.toList r.2.2 ∧ pos = r.2.1.offset

theorem seek_follows {src : List Char} {c : Cursor} (h : Cursor.ofText src ≤ c) (needle : String)
    (cause : ParseCause) :
    Follows (Permitted src) (Sought c needle) (seek src c.offset needle cause)
      (seekPast needle cause c) := by
  rw [seek, cutFrom_offset h, ok_bind, seekPast, Cursor.seek]
  cases hs : splitBefore needle.toList c.rest with
  | none => exact .failed (f := .parse c.offset cause) (isBoundary_offset h)
  | some r =>
    obtain ⟨w, rest⟩ := r
    obtain ⟨hrest, hneedle⟩ := splitBefore_append hs
    obtain ⟨after, rfl⟩ := List.isPrefixOf_iff_prefix.1 hneedle
    refine .read ⟨⟨hrest, rfl⟩, ?_, rfl⟩
    rw [← String.length_toList]
    exact reads_advance_of_append rfl

theorem readComment_follows {src : List Char} {c : Cursor} (h : Cursor.ofText src ≤ c)
    (hc : "<!--".toList <+: c.rest) :
    Follows (Permitted src) (Reached src) (readComment src c.offset) (Markup.readComment c) := by
  obtain ⟨r, hr⟩ := hc
  have hoffset : (c.advance 4).offset = c.offset + 4 :=
    offset_advance (w := "<!--".toList) hr.symm
  have hd := Cursor.le_trans h (c.le_advance 4)
  rw [readComment, ← hoffset]
  refine (seek_follows hd "-->" _).map ?_
  rintro _ ⟨w, close, stop⟩ ⟨hw, hneedle, rfl⟩ -
  refine ⟨?_, Cursor.le_trans hd (Cursor.le_trans ⟨w, hw⟩ ⟨_, hneedle⟩)⟩
  exact Prod.ext rfl hneedle.offset_eq.symm

theorem readClosing_follows {src : List Char} {c : Cursor} (h : Cursor.ofText src ≤ c)
    (hc : "</".toList <+: c.rest) :
    Follows (Permitted src) (Reached src) (readClosing src c.offset) (Markup.readClosing c) := by
  obtain ⟨r, hr⟩ := hc
  have hoffset : (c.advance 2).offset = c.offset + 2 := offset_advance (w := "</".toList) hr.symm
  have hd := Cursor.le_trans h (c.le_advance 2)
  refine (seek_follows h ">" .unterminatedClosingTag).bind ?_
  rintro _ ⟨w, close, stop⟩ ⟨hw, hneedle, rfl⟩ -
  -- the needle stands after the `</`
  obtain ⟨name, rfl⟩ : ∃ name, w = "</".toList ++ name := by
    have hrest := hr.trans hw.rest_eq
    rw [hneedle.rest_eq] at hrest
    rcases List.append_eq_append_iff.1 hrest with ⟨name, hname, -⟩ | ⟨v, hv, htail⟩
    · exact ⟨name, hname⟩
    · cases v with
      | nil => exact ⟨[], by rw [hv, List.append_nil, List.append_nil]⟩
      | cons y v =>
        obtain ⟨rfl, -⟩ := List.cons.inj htail
        have hmem : '>' ∈ "</".toList := by
          rw [hv]
          exact List.mem_append_right _ List.mem_cons_self
        exact absurd hmem (by decide)
  have hname : (c.advance 2).Reads name close := by
    refine ⟨?_, ?_⟩
    · have hrest := hw.rest_eq
      rw [List.append_assoc] at hrest
      rw [Cursor.advance, hrest]
      rfl
    · rw [hoffset, hw.offset_eq, byteLength_append, ← Nat.add_assoc]
      rfl
  have hstop : stop.offset = close.offset + 1 := hneedle.offset_eq
  dsimp only
  rw [← hoffset, cutOut_reads hd hname, ok_bind, ← hstop]
  exact .read ⟨rfl, Cursor.le_trans h (Cursor.le_trans ⟨_, hw⟩ ⟨_, hneedle⟩)⟩

theorem readContent_follows {src : List Char} (start : Nat) (name : String) {c : Cursor}
    (h : Cursor.ofText src ≤ c) :
    Follows (Permitted src) (Reached src) (readContent src start name c.offset)
      (Markup.readContent start name c) := by
  refine (seek_follows h _ _).bind ?_
  rintro _ ⟨w, close, past⟩ ⟨hw, -, rfl⟩ -
  have hclose := Cursor.le_trans h ⟨w, hw⟩
  refine (seek_follows hclose _ _).bind ?_
  rintro _ ⟨v, stop, d⟩ ⟨hv, hneedle, rfl⟩ -
  have hoffset : d.offset = stop.offset + 1 := hneedle.offset_eq
  dsimp only
  rw [← hoffset]
  exact .read ⟨rfl, Cursor.le_trans hclose (Cursor.le_trans ⟨v, hv⟩ ⟨_, hneedle⟩)⟩

theorem readOpening_follows {src : List Char} {c : Cursor} (h : Cursor.ofText src ≤ c)
    (hc : c.rest.head? = some '<') :
    Follows (Permitted src) (Reached src) (readOpening src c.offset) (Markup.readOpening c) := by
  obtain ⟨r, hr⟩ := List.head?_eq_some_iff.1 hc
  have hoffset := offset_advance_one rfl hr
  have hd := Cursor.le_trans h (c.le_advance 1)
  rw [readOpening, ← hoffset, skipWhile_skip _ hd, ok_bind,
    cutOut_reads hd (Cursor.reads_skip _ _), ok_bind]
  have he := Cursor.le_trans hd ((c.advance 1).le_skip fun x => !endsTagName x)
  refine (readAttributes_follows (isBoundary_offset h) _ he).bind ?_
  rintro _ ⟨attributes, closed, stop⟩ ⟨rfl, hstop⟩ -
  dsimp only
  split
  · exact readContent_follows c.offset _ hstop
  · exact .read ⟨rfl, hstop⟩

theorem opensTag_eq (rest : List Char) : opensTag rest = .ok (Markup.opensTag rest) := by
  rw [opensTag]
  split
  · next h =>
    obtain ⟨r, rfl⟩ := List.head?_eq_some_iff.1 h
    have hcut : cutFrom ('<' :: r) 1 = .ok r := cutFrom_append ['<'] r
    rw [hcut]
    cases r with
    | nil => rfl
    | cons x r => rfl
  · next h =>
    rw [Markup.opensTag.eq_def]
    split
    · exact absurd rfl h
    · rfl

theorem head?_of_opensTag {rest : List Char} (h : Markup.opensTag rest = true) :
    rest.head? = some '<' := by
  rw [Markup.opensTag.eq_def] at h
  split at h
  · rfl
  · cases h

theorem skipPlain_eq {src : List Char} {c : Cursor} {x : Char} {xs : List Char}
    (h : Cursor.ofText src ≤ c) (hc : c.rest = x :: xs) :
    skipPlain src c.offset c.rest = .ok ((c.advance 1).skip isPlain).offset := by
  have hcut : cutFrom (x :: xs) x.utf8Size = .ok xs := cutFrom_append [x] xs
  have hlength := offset_add_byteLength h
  rw [skipPlain, hc]
  dsimp only [List.head?_cons, Option.elim_some]
  rw [hcut, ok_bind]
  have hskip : ((c.advance 1).skip isPlain).offset =
      c.offset + x.utf8Size + byteLength (xs.takeWhile isPlain) := by
    simp [Cursor.skip, Cursor.advance, hc]
  rw [hskip]
  split
  · next hall =>
    rw [List.takeWhile_eq_self_iff.2 (List.all_eq_true.1 hall)]
    rw [hc, byteLength_cons, ← Nat.add_assoc] at hlength
    rw [hlength]
    rfl
  · rfl

theorem readToken_follows {src : List Char} {c : Cursor} {x : Char} {xs : List Char}
    (h : Cursor.ofText src ≤ c) (hc : c.rest = x :: xs) :
    Follows (Permitted src) (Reached src) (readToken src c.offset) (Markup.readToken c) := by
  have hstarts (w : String) : c.startsWith w = w.toList.isPrefixOf c.rest := rfl
  rw [readToken, cutFrom_offset h, ok_bind, Markup.readToken, hstarts "<!--", hstarts "</",
    hstarts "\x7b"]
  by_cases hcomment : "<!--".toList.isPrefixOf c.rest = true
  · rw [if_pos hcomment, if_pos hcomment]
    exact readComment_follows h (List.isPrefixOf_iff_prefix.1 hcomment)
  rw [if_neg hcomment, if_neg hcomment]
  by_cases hclosing : "</".toList.isPrefixOf c.rest = true
  · rw [if_pos hclosing, if_pos hclosing]
    exact readClosing_follows h (List.isPrefixOf_iff_prefix.1 hclosing)
  rw [if_neg hclosing, if_neg hclosing, opensTag_eq, ok_bind]
  by_cases hopening : Markup.opensTag c.rest = true
  · rw [if_pos hopening, if_pos hopening]
    exact readOpening_follows h (head?_of_opensTag hopening)
  rw [if_neg hopening, if_neg hopening]
  by_cases hbrace : "\x7b".toList.isPrefixOf c.rest = true
  · obtain ⟨r, hr⟩ := List.isPrefixOf_iff_prefix.1 hbrace
    rw [if_pos hbrace, if_pos hbrace]
    refine (readMustache_follows h hr.symm).map ?_
    rintro _ ⟨m, d⟩ ⟨rfl, hd⟩ -
    exact ⟨rfl, hd⟩
  · rw [if_neg hbrace, if_neg hbrace, skipPlain_eq h hc, ok_bind]
    exact .read ⟨rfl, Cursor.le_trans h (Cursor.le_trans (c.le_advance 1) (Cursor.le_skip _ _))⟩

theorem readTokens_follows {src : List Char} {c : Cursor} (h : Cursor.ofText src ≤ c) :
    Follows (Permitted src) Eq (readTokens src c.offset) (Markup.readTokens c) := by
  have hlength := offset_add_byteLength h
  rw [readTokens]
  cases hc : c.rest with
  | nil =>
    rw [hc, byteLength_nil] at hlength
    rw [if_neg (by omega), readTokens_of_nil hc]
    exact .read rfl
  | cons x xs =>
    have hpos := byteLength_pos (List.cons_ne_nil x xs)
    rw [hc] at hlength
    rw [if_pos (by omega), readTokens_of_cons hc]
    refine (readToken_follows h hc).bind ?_
    rintro _ ⟨t, d⟩ ⟨rfl, hd⟩ ht
    have hlt := lt_of_readToken hc ht
    obtain ⟨hnext, honward⟩ := onward_of_lt h hlt
    dsimp only
    rw [honward, ok_bind]
    refine (readTokens_follows hd).map ?_
    rintro ts _ rfl -
    rfl
termination_by c.rest.length
decreasing_by exact Cursor.length_lt hlt

theorem parse_follows (source : String) :
    Follows (Permitted source.toList) Eq (parse source) (Component.parse source) := by
  refine (readTokens_follows (Cursor.le_refl (.ofText source.toList))).map ?_
  rintro ts _ rfl -
  rfl

/-- Reading a component by offsets ends as reading it by cursors does: with the same component, with
the same failure at a byte between two characters, or at the binding of a `@const` tag that has a
character of more than one byte before its assignment. -/
theorem parse_ends (source : String) :
    (∃ component, Component.parse source = .ok component ∧ parse source = .ok component) ∨
    (∃ offset cause, Component.parse source = .error (.parse offset cause) ∧
      parse source = .error (.failure (.parse offset cause)) ∧
      offset ≤ byteLength source.toList ∧ isBoundary offset source.toList = true) ∨
    (∃ offset, Component.parse source = .error (.wideBinding offset) ∧
      parse source = .error (.fault .lookahead) ∧ HasWideConst source.toList) := by
  have hfollows := parse_follows source
  generalize parse source = x, Component.parse source = y at hfollows
  cases hfollows with
  | read h =>
    subst h
    exact .inl ⟨_, rfl, rfl⟩
  | @failed f h =>
    cases f with
    | parse offset cause =>
      exact .inr (.inl ⟨offset, cause, rfl, rfl, le_byteLength_of_isBoundary h, h⟩)
    | wideBinding offset => exact .inr (.inr ⟨offset, rfl, rfl, h⟩)
    | malformedConditional offset depth => exact h.elim
    | overlap first second => exact h.elim
    | outOfBounds offset length => exact h.elim

end ClassWeave.Slicing

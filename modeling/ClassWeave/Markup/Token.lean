import ClassWeave.Markup.Attribute

namespace ClassWeave.Markup

open Text

/-- A `leaf` tag is one that has no children, whatever follows it. -/
inductive Token
  | opening (tag : Tag) (leaf : Bool)
  | closing (name : String) (stop : Nat)
  | expression (tag : ExpressionTag)
  | block (tag : BlockTag)
  | style (block : StyleBlock)
deriving DecidableEq, Repr

def voidElements : List String :=
  ["area", "base", "br", "col", "embed", "hr", "img", "input", "link", "meta", "param", "source",
    "track", "wbr"]

def Mustache.token? : Mustache → Option Token
  | expression tag => some (.expression tag)
  | block tag => some (.block tag)
  | closing => none

def seekPast (needle : String) (cause : ParseCause) (c : Cursor) :
    Except Failure (List Char × Cursor × Cursor) :=
  match c.seek needle.toList with
  | none => .error (.parse c.offset cause)
  | some (w, d) => .ok (w, d, d.advance needle.length)

def readComment (c : Cursor) : Except Failure (Option Token × Cursor) :=
  (seekPast "-->" .unterminatedComment (c.advance 4)).map fun r => (none, r.2.2)

def readClosing (c : Cursor) : Except Failure (Option Token × Cursor) :=
  (seekPast ">" .unterminatedClosingTag c).map fun r =>
    (some (.closing (.ofList (trim (r.1.drop 2))) r.2.2.offset), r.2.2)

def readContent (start : Nat) (name : String) (c : Cursor) :
    Except Failure (Option Token × Cursor) := do
  let (_, close, _) ← seekPast ("</" ++ name) (.unterminatedContent name) c
  let (_, _, d) ← seekPast ">" (.unterminatedContent name) close
  let block := ⟨⟨start, d.offset⟩, ⟨c.offset, close.offset⟩⟩
  return (if name = "style" then some (.style block) else none, d)

def endsTagName (c : Char) : Bool := isBlank c || c == '/' || c == '>'

def readOpening (c : Cursor) : Except Failure (Option Token × Cursor) := do
  let d := c.advance 1
  let name := String.ofList (d.word fun x => !endsTagName x)
  let (attributes, closed, e) ← readAttributes c.offset name (d.skip fun x => !endsTagName x)
  if name = "script" ∨ name = "style" then readContent c.offset name e
  else
    let tag := ⟨name, .ofName name, ⟨c.offset, e.offset⟩, attributes⟩
    return (some (.opening tag (closed || voidElements.contains name)), e)

def opensTag : List Char → Bool
  | '<' :: x :: _ => x.isAlpha
  | _ => false

def isPlain (c : Char) : Bool := c != '<' && c != '\x7b'

def readToken (c : Cursor) : Except Failure (Option Token × Cursor) :=
  if c.startsWith "<!--" then readComment c
  else if c.startsWith "</" then readClosing c
  else if opensTag c.rest then readOpening c
  else if c.startsWith "\x7b" then (readMustache c).map fun r => (r.1.token?, r.2)
  else .ok (none, (c.advance 1).skip isPlain)

theorem lt_of_seekPast {needle : String} {cause : ParseCause} {c d e : Cursor} {w : List Char}
    (hn : needle ≠ "") (h : seekPast needle cause c = .ok (w, d, e)) : c ≤ d ∧ d < e := by
  rw [seekPast] at h
  split at h
  · cases h
  · next hs =>
    cases h
    refine ⟨⟨_, Cursor.reads_seek hs⟩, ?_⟩
    have hl : needle.length ≠ 0 := by simpa [← String.length_toList] using hn
    cases hd : d.rest with
    | nil =>
      have := Cursor.isPrefixOf_of_seek hs
      rw [hd] at this
      cases hl' : needle.toList with
      | nil => simp_all
      | cons x xs => simp [hl'] at this
    | cons x xs => exact Cursor.lt_advance hd (by omega)

theorem le_of_readAttributes {start : Nat} {name : String} {c d : Cursor} {as : List Attribute}
    {closed : Bool} (h : readAttributes start name c = .ok (as, closed, d)) : c ≤ d := by
  fun_induction readAttributes start name c generalizing as with
  | case1 => cases h
  | case2 c => cases h; exact Cursor.le_trans (c.le_skip _) (Cursor.le_advance _ _)
  | case3 c => cases h; exact Cursor.le_trans (c.le_skip _) (Cursor.le_advance _ _)
  | case4 c =>
    rename_i ih
    exact Cursor.le_trans (c.le_skip _) (Cursor.le_trans (Cursor.le_advance _ _) (ih h))
  | case5 => cases h
  | case6 c _ x xs hd =>
    rename_i ha ih
    obtain ⟨⟨bs, closed', e⟩, hr, h⟩ := exists_of_map_ok h
    cases h
    refine Cursor.le_trans (c.le_skip isBlank) (Cursor.le_trans (Cursor.le_of_lt ?_) (ih hr))
    refine lt_of_readAttribute hd ?_ ha
    have := Cursor.not_of_skip hd
    by_cases x = '=' <;> simp_all [endsName]

theorem le_of_readContent {start : Nat} {name : String} {c d : Cursor} {t : Option Token}
    (h : readContent start name c = .ok (t, d)) : c ≤ d := by
  obtain ⟨r, hr, h⟩ := exists_of_bind_ok h
  obtain ⟨q, hq, h⟩ := exists_of_bind_ok h
  cases h
  have h₁ := (lt_of_seekPast (by simp) hr).1
  have h₂ := lt_of_seekPast (by decide) hq
  exact Cursor.le_trans h₁ (Cursor.le_trans h₂.1 (Cursor.le_of_lt h₂.2))

theorem lt_of_readToken {c d : Cursor} {t : Option Token} {x : Char} {xs : List Char}
    (hc : c.rest = x :: xs) (h : readToken c = .ok (t, d)) : c < d := by
  rw [readToken] at h
  split at h
  · obtain ⟨r, hr, h⟩ := exists_of_map_ok h
    cases h
    have := lt_of_seekPast (by decide) hr
    exact Cursor.lt_of_lt_of_le (Cursor.lt_advance hc (by omega))
      (Cursor.le_trans this.1 (Cursor.le_of_lt this.2))
  split at h
  · obtain ⟨r, hr, h⟩ := exists_of_map_ok h
    cases h
    have := lt_of_seekPast (by decide) hr
    exact Cursor.lt_of_le_of_lt this.1 this.2
  split at h
  · rw [readOpening] at h
    obtain ⟨r, hr, h⟩ := exists_of_bind_ok h
    have hlt : c < r.2.2 := Cursor.lt_of_lt_of_le (Cursor.lt_advance hc Nat.one_pos)
      (Cursor.le_trans (Cursor.le_skip _ _) (le_of_readAttributes hr))
    dsimp only at h
    split at h
    · exact Cursor.lt_of_lt_of_le hlt (le_of_readContent h)
    · cases h; exact hlt
  split at h
  · obtain ⟨r, hr, h⟩ := exists_of_map_ok h
    cases h
    exact lt_of_readMustache hr
  · cases h
    exact Cursor.lt_of_lt_of_le (Cursor.lt_advance hc Nat.one_pos) (Cursor.le_skip _ _)

def readTokens (c : Cursor) : Except Failure (List Token) :=
  match _hc : c.rest with
  | [] => .ok []
  | _ :: _ =>
    match _ : readToken c with
    | .error e => .error e
    | .ok (t, d) => (readTokens d).map (t.toList ++ ·)
termination_by c.rest.length
decreasing_by exact Cursor.length_lt (lt_of_readToken _hc ‹_›)

def tokens (source : List Char) : Except Failure (List Token) := readTokens (.ofText source)

end ClassWeave.Markup

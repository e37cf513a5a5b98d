import ClassWeave.Markup.Mustache

namespace ClassWeave.Markup

open Text

def textPart (c d : Cursor) (w : List Char) : TextPart := ⟨⟨c.offset, d.offset⟩, .ofList w⟩

def readQuoted (quote : Char) (opening : Nat) (c : Cursor) :
    Except Failure (List ValuePart × Cursor) :=
  let stays := fun x => x != quote && x != '\x7b'
  let w := c.word stays
  let d := c.skip stays
  let parts := if w.isEmpty then [] else [.text (textPart c d w)]
  match d.rest with
  | [] => .error (.parse opening .unterminatedValue)
  | x :: _ =>
    if x = quote then .ok (parts, d.advance 1)
    else
      match _ : readMustache d with
      | .error e => .error e
      | .ok (m, e) =>
        match readQuoted quote opening e with
        | .error e => .error e
        | .ok (more, f) => .ok (parts ++ m.part?.toList ++ more, f)
termination_by c.rest.length
decreasing_by
  exact Cursor.length_lt (Cursor.lt_of_le_of_lt (c.le_skip _) (lt_of_readMustache ‹_›))

theorem le_of_readQuoted {quote : Char} {opening : Nat} {c d : Cursor} {ps : List ValuePart}
    (h : readQuoted quote opening c = .ok (ps, d)) : c ≤ d := by
  fun_induction readQuoted quote opening c generalizing ps with
  | case1 => cases h
  | case2 c => cases h; exact Cursor.le_trans (c.le_skip _) (Cursor.le_advance _ _)
  | case3 => cases h
  | case4 => cases h
  | case5 c =>
    rename_i hm _ _ hq ih
    cases h
    exact Cursor.le_trans (c.le_skip _)
      (Cursor.le_trans (Cursor.le_of_lt (lt_of_readMustache hm)) (ih hq))

def unquotedText : List Char → List Char
  | [] => []
  | c :: cs =>
    if isBlank c || c == '>' || c == '/' && cs.head? == some '>' then [] else c :: unquotedText cs

def readValue (c : Cursor) : Except Failure (List ValuePart × Cursor) :=
  match c.rest with
  | [] => .error (.parse c.offset .missingValue)
  | x :: _ =>
    if x = '\x22' ∨ x = '\x27' then readQuoted x c.offset (c.advance 1)
    else if x = '\x7b' then (readMustache c).map fun r => (r.1.part?.toList, r.2)
    else
      let w := unquotedText c.rest
      let d := c.advance w.length
      .ok ([.text (textPart c d w)], d)

theorem le_of_readValue {c d : Cursor} {ps : List ValuePart} (h : readValue c = .ok (ps, d)) :
    c ≤ d := by
  rw [readValue] at h
  split at h
  · cases h
  split at h
  · exact Cursor.le_trans (c.le_advance 1) (le_of_readQuoted h)
  split at h
  · cases hm : readMustache c with
    | error e => rw [hm] at h; cases h
    | ok r => rw [hm] at h; cases h; exact Cursor.le_of_lt (lt_of_readMustache hm)
  · cases h; exact c.le_advance _

def endsName (c : Char) : Bool := isBlank c || c == '=' || c == '>' || c == '/'

def directiveName? (name : List Char) : Option (List Char) :=
  if "class:".toList.isPrefixOf name then some (name.drop 6) else none

def Attribute.ofValue (span : Span) (name : List Char) (value : List ValuePart) : Attribute :=
  if name = "class".toList then .classes ⟨span, value⟩
  else
    match directiveName? name with
    | some directed => .directive ⟨span, .ofList directed, value.findSome? ValuePart.expression?⟩
    | none => .other ⟨span, .ofList name, value⟩

def readAttribute (c : Cursor) : Except Failure (Attribute × Cursor) :=
  if c.rest.head? = some '\x7b' then
    (readMustache c).map fun r => (.other ⟨⟨c.offset, r.2.offset⟩, "", r.1.part?.toList⟩, r.2)
  else
    let name := c.word fun x => !endsName x
    let d := c.skip fun x => !endsName x
    let e := d.skipBlanks
    if e.rest.head? = some '=' then
      (readValue (e.advance 1).skipBlanks).map fun r =>
        (.ofValue ⟨c.offset, r.2.offset⟩ name r.1, r.2)
    else .ok (.ofValue ⟨c.offset, d.offset⟩ name [], d)

theorem lt_of_readAttribute {c d : Cursor} {a : Attribute} {x : Char} {xs : List Char}
    (hc : c.rest = x :: xs) (hx : x = '=' ∨ endsName x = false)
    (h : readAttribute c = .ok (a, d)) : c < d := by
  rw [readAttribute] at h
  split at h
  · cases hm : readMustache c with
    | error e => rw [hm] at h; cases h
    | ok r => rw [hm] at h; cases h; exact lt_of_readMustache hm
  dsimp only at h
  split at h
  · next he =>
    generalize hf : (c.skip fun x => !endsName x).skipBlanks = f at h he
    have hcf : c ≤ f := hf ▸ Cursor.le_trans (c.le_skip _) (Cursor.le_skip _ _)
    cases hf' : f.rest with
    | nil => simp [hf'] at he
    | cons y ys =>
      cases hv : readValue (f.advance 1).skipBlanks with
      | error e => rw [hv] at h; cases h
      | ok r =>
        rw [hv] at h
        cases h
        exact Cursor.lt_of_le_of_lt hcf (Cursor.lt_of_lt_of_le
          (Cursor.lt_advance hf' Nat.one_pos)
          (Cursor.le_trans (Cursor.le_skip _ _) (le_of_readValue hv)))
  · next he =>
    cases h
    rcases hx with rfl | hx
    · refine absurd ?_ he
      rw [Cursor.skip_eq_self hc (by simp [endsName]), Cursor.skipBlanks,
        Cursor.skip_eq_self hc rfl, hc]
      rfl
    · exact Cursor.lt_skip hc (by simp [hx])

def readAttributes (start : Nat) (name : String) (c : Cursor) :
    Except Failure (List Attribute × Bool × Cursor) :=
  let d := c.skipBlanks
  match _hd : d.rest with
  | [] => .error (.parse start (.unterminatedTag name))
  | x :: xs =>
    if x = '/' ∧ xs.head? = some '>' then .ok ([], true, d.advance 2)
    else if x = '>' then .ok ([], false, d.advance 1)
    else if x = '/' then readAttributes start name (d.advance 1)
    else
      match _ : readAttribute d with
      | .error e => .error e
      | .ok (a, e) => (readAttributes start name e).map fun r => (a :: r.1, r.2)
termination_by c.rest.length
decreasing_by
  · exact Cursor.length_lt (Cursor.lt_of_le_of_lt (c.le_skip _) (Cursor.lt_advance _hd Nat.one_pos))
  · refine Cursor.length_lt (Cursor.lt_of_le_of_lt (c.le_skip _) (lt_of_readAttribute _hd ?_ ‹_›))
    have := Cursor.not_of_skip _hd
    by_cases x = '=' <;> simp_all [endsName]

end ClassWeave.Markup

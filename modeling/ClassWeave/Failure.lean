namespace ClassWeave

/-- A range of byte offsets, its last one excluded. -/
structure Span where
  start : Nat
  stop : Nat
deriving DecidableEq, Repr, Inhabited

inductive ParseCause
  | unterminatedComment
  | unterminatedClosingTag
  | unterminatedContent (name : String)
  | unterminatedTag (name : String)
  | missingValue
  | unterminatedValue
  | unterminatedExpression
deriving DecidableEq, Repr

def ParseCause.message : ParseCause → String
  | unterminatedComment => "unterminated comment"
  | unterminatedClosingTag => "unterminated closing tag"
  | unterminatedContent name => s!"unterminated <{name}>"
  | unterminatedTag name => s!"unterminated <{name}> tag"
  | missingValue => "missing attribute value"
  | unterminatedValue => "unterminated attribute value"
  | unterminatedExpression => "unterminated expression"

/-- A `wideBinding` is a character of more than one byte in the name that a `@const` tag binds; such
a tag cannot be read at all. -/
inductive Failure
  | parse (offset : Nat) (cause : ParseCause)
  | wideBinding (offset : Nat)
  | malformedConditional (offset depth : Nat)
  | overlap (first second : Span)
  | outOfBounds (offset length : Nat)
deriving DecidableEq, Repr

def Failure.message : Failure → String
  | parse offset cause => s!"parse error at byte {offset}: {cause.message}"
  | wideBinding offset => s!"binding at byte {offset} is longer than one byte"
  | malformedConditional offset depth =>
    s!"conditional expression at byte {offset} has no literal branch within {depth} levels"
  | overlap first second =>
    s!"edit {second.start}..{second.stop} overlaps edit {first.start}..{first.stop}"
  | outOfBounds offset length =>
    s!"edit offset {offset} is outside the source (length {length}) or not on a char boundary"

theorem exists_of_map_ok {ε α β : Type} {f : α → β} {x : Except ε α} {b : β}
    (h : x.map f = .ok b) : ∃ a, x = .ok a ∧ f a = b := by
  cases x with
  | error e => cases h
  | ok a => cases h; exact ⟨a, rfl, rfl⟩

theorem exists_of_bind_ok {ε α β : Type} {f : α → Except ε β} {x : Except ε α} {b : β}
    (h : x >>= f = .ok b) : ∃ a, x = .ok a ∧ f a = .ok b := by
  cases x with
  | error e => cases h
  | ok a => exact ⟨a, rfl, h⟩

end ClassWeave

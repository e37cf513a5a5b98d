namespace ClassWeave.Toml

abbrev Reader (α : Type) := List Char → Option (α × List Char)

structure Step (α : Type) where
  value : α
  last : Bool
  rest : List Char

def iterate {α : Type} (step : List Char → Option (Step α)) : Nat → Reader (List α)
  | 0, _ => none
  | fuel + 1, cs =>
    match step cs with
    | none => none
    | some s =>
      if s.last then some ([s.value], s.rest)
      else (iterate step fuel s.rest).map fun r => (s.value :: r.1, r.2)

/-- Repeats a step that takes at least one character, as often as the text can bear. -/
def many {α : Type} (step : List Char → Option (Step α)) : Reader (List α) := fun cs =>
  iterate step (cs.length + 1) cs

def isSpace (c : Char) : Bool := c == ' ' || c == '\t'

def skipSpaces (cs : List Char) : List Char := cs.dropWhile isSpace

def isInline (c : Char) : Bool :=
  c == '\t' || 0x20 ≤ c.toNat && c.toNat ≤ 0x7E || 0x80 ≤ c.toNat

def afterNewline? : List Char → Option (List Char)
  | '\n' :: cs => some cs
  | '\r' :: '\n' :: cs => some cs
  | _ => none

def afterLine? (cs : List Char) : Option (List Char) :=
  let cs := skipSpaces cs
  let cs := if cs.head? = some '#' then cs.dropWhile isInline else cs
  if cs.isEmpty then some [] else afterNewline? cs

def skipNewlines : List Char → List Char
  | ' ' :: cs => skipNewlines cs
  | '\t' :: cs => skipNewlines cs
  | '\n' :: cs => skipNewlines cs
  | '\r' :: '\n' :: cs => skipNewlines cs
  | cs => cs

def skipLayout (cs : List Char) : Option (List Char) :=
  (many (fun cs =>
    let cs := skipSpaces cs
    match cs with
    | '#' :: _ => (afterNewline? (cs.dropWhile isInline)).map fun rest => ⟨(), false, rest⟩
    | _ =>
      match afterNewline? cs with
      | some rest => some ⟨(), false, rest⟩
      | none => if cs.head? = some '\r' then none else some ⟨(), true, cs⟩) cs).map Prod.snd

end ClassWeave.Toml

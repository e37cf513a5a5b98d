/-!
Splitting style text at a separator outside of quotes, round and square brackets. A backslash keeps
the character after it from counting, inside quotes and outside.
-/

namespace ClassWeave.Style

structure SplitState where
  escaped : Bool
  quote : Option Char
  depth : Nat
deriving DecidableEq, Repr

namespace SplitState

def start : SplitState := ⟨false, none, 0⟩

def next (s : SplitState) (c : Char) : SplitState :=
  if s.escaped then { s with escaped := false }
  else if c = '\x5c' then { s with escaped := true }
  else
    match s.quote with
    | some q => if c = q then { s with quote := none } else s
    | none =>
      if c = '\x22' ∨ c = '\x27' then { s with quote := some c }
      else if c = '(' ∨ c = '[' then { s with depth := s.depth + 1 }
      else if c = ')' ∨ c = ']' then { s with depth := s.depth - 1 }
      else s

end SplitState

def isDelimiter (c : Char) : Bool :=
  c == '\x5c' || c == '\x22' || c == '\x27' || c == '(' || c == '[' || c == ')' || c == ']'

def splitFrom (separator : Char) (s : SplitState) : List Char → List (List Char)
  | [] => [[]]
  | c :: cs =>
    if s = .start ∧ c = separator ∧ isDelimiter c = false then [] :: splitFrom separator .start cs
    else (splitFrom separator (s.next c) cs).modifyHead (c :: ·)

def splitTopLevel (separator : Char) (cs : List Char) : List (List Char) :=
  splitFrom separator .start cs

end ClassWeave.Style

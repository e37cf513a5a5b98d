import ClassWeave.Toml.Reader

namespace ClassWeave.Toml

def hexValue (cs : List Char) : Option Nat :=
  cs.foldlM (fun n c =>
    if c.isDigit then some (16 * n + (c.toNat - 48))
    else
      let d := c.toLower
      if 'a' ≤ d ∧ d ≤ 'f' then some (16 * n + (d.toNat - 87)) else none) 0

def codePoint? (n : Nat) : Option Char := if n.isValidChar then some (.ofNat n) else none

def readCodePoint (digits : Nat) : Reader (List Char) := fun cs =>
  if cs.length < digits then none
  else do
    let c ← codePoint? (← hexValue (cs.take digits))
    return ([c], cs.drop digits)

def readEscape : Reader (List Char)
  | 'b' :: cs => some (['\x08'], cs)
  | 't' :: cs => some (['\t'], cs)
  | 'n' :: cs => some (['\n'], cs)
  | 'f' :: cs => some (['\x0c'], cs)
  | 'r' :: cs => some (['\r'], cs)
  | '\x22' :: cs => some (['\x22'], cs)
  | '\x5c' :: cs => some (['\x5c'], cs)
  | 'u' :: cs => readCodePoint 4 cs
  | 'U' :: cs => readCodePoint 8 cs
  | _ => none

def continueWith (r : Option (List Char × List Char)) : Option (Step (List Char)) :=
  r.map fun r => ⟨r.1, false, r.2⟩

def lineStep (quote : Char) (escapes : Bool) : List Char → Option (Step (List Char))
  | [] => none
  | c :: cs =>
    if c = quote then some ⟨[], true, cs⟩
    else if escapes ∧ c = '\x5c' then continueWith (readEscape cs)
    else if isInline c then some ⟨[c], false, cs⟩
    else none

def linesStep (quote : Char) (escapes : Bool) (cs : List Char) : Option (Step (List Char)) :=
  let quotes := cs.takeWhile (· == quote)
  if 3 ≤ quotes.length then
    let kept := min (quotes.length - 3) 2
    some ⟨quotes.take kept, true, cs.drop (kept + 3)⟩
  else if 0 < quotes.length then some ⟨quotes, false, cs.drop quotes.length⟩
  else
    match afterNewline? cs, cs with
    | some rest, _ => some ⟨['\n'], false, rest⟩
    | none, [] => none
    | none, c :: rest =>
      if escapes ∧ c = '\x5c' then
        match afterNewline? (skipSpaces rest) with
        | some next => some ⟨[], false, skipNewlines next⟩
        | none => continueWith (readEscape rest)
      else if isInline c then some ⟨[c], false, rest⟩
      else none

def readPieces (step : List Char → Option (Step (List Char))) : Reader String := fun cs =>
  (many step cs).map fun r => (.ofList r.1.flatten, r.2)

def isQuoteMark (c : Char) : Bool := c == '\x22' || c == '\x27'

def readLineText : Reader String
  | [] => none
  | q :: cs => if isQuoteMark q then readPieces (lineStep q (q == '\x22')) cs else none

def readText : Reader String := fun cs =>
  match cs with
  | a :: b :: c :: rest =>
    if isQuoteMark a ∧ a = b ∧ b = c then
      readPieces (linesStep a (a == '\x22')) ((afterNewline? rest).getD rest)
    else readLineText cs
  | _ => readLineText cs

def isBareKeyChar (c : Char) : Bool := c.isAlphanum || c == '-' || c == '_'

def readSimpleKey : Reader String := fun cs =>
  match cs with
  | [] => none
  | c :: _ =>
    if isQuoteMark c then readLineText cs
    else if isBareKeyChar c then
      some (.ofList (cs.takeWhile isBareKeyChar), cs.dropWhile isBareKeyChar)
    else none

def nestingLimit : Nat := 80

def readKey : Reader (List String) := fun cs => do
  let (parts, rest) ← many (fun cs => do
    let (part, rest) ← readSimpleKey (skipSpaces cs)
    match skipSpaces rest with
    | '.' :: more => return ⟨part, false, more⟩
    | rest => return ⟨part, true, rest⟩) cs
  if parts.length < nestingLimit then return (parts, rest) else none

end ClassWeave.Toml

import ClassWeave.Toml.Reader

namespace ClassWeave.Toml

inductive Word
  | boolean (value : Bool)
  | number (text : String)
  | datetime (text : String)
deriving DecidableEq, Repr

def isSign (c : Char) : Bool := c == '+' || c == '-'

def unsigned (cs : List Char) : Bool × List Char :=
  if cs.head?.any isSign then (cs.head? == some '-', cs.tail) else (false, cs)

def digits? (p : Char → Bool) (cs : List Char) : Option (List Char) :=
  let groups := cs.splitOnP (· == '_')
  if groups.all fun g => !g.isEmpty && g.all p then some groups.flatten else none

def decimalDigits? (cs : List Char) : Option (List Char) :=
  if cs.head? = some '0' ∧ 1 < cs.length then none else digits? Char.isDigit cs

def valueOf (base : Nat) (ds : List Char) : Nat :=
  ds.foldl (fun n d =>
    base * n + if d.isDigit then d.toNat - 48 else d.toLower.toNat - 87) 0

def isHexDigit (c : Char) : Bool := c.isDigit || 'a' ≤ c.toLower && c.toLower ≤ 'f'

def inBase (base : Nat) (p : Char → Bool) (ds : List Char) : Bool :=
  (digits? p ds).any fun ds => valueOf base ds < Nat.pow 2 63

def isInteger (cs : List Char) : Bool :=
  match cs with
  | '0' :: 'x' :: ds => inBase 16 isHexDigit ds
  | '0' :: 'o' :: ds => inBase 8 (fun c => '0' ≤ c && c ≤ '7') ds
  | '0' :: 'b' :: ds => inBase 2 (fun c => c == '0' || c == '1') ds
  | _ =>
    let (negative, ds) := unsigned cs
    (decimalDigits? ds).any fun ds => valueOf 10 ds < Nat.pow 2 63 + if negative then 1 else 0

def overflows (m : Nat) (e : Int) : Bool :=
  let size : Int := (Nat.toDigits 10 m).length
  if m = 0 ∨ e + size < 300 then false
  else if 400 < e + size then true
  else
    let limit := Nat.pow 2 1024 - Nat.pow 2 970
    if 0 ≤ e then limit ≤ m * Nat.pow 10 e.toNat else limit * Nat.pow 10 (-e).toNat ≤ m

def isFloat (cs : List Char) : Bool :=
  let (negative, body) := unsigned cs
  if body = "inf".toList ∨ body = "nan".toList then true
  else
    let isMark := fun c : Char => c == 'e' || c == 'E'
    let mantissa := body.takeWhile fun c => !isMark c
    let power := (body.dropWhile fun c => !isMark c)
    let whole := mantissa.takeWhile (· != '.')
    let fraction := mantissa.dropWhile (· != '.')
    if power.isEmpty ∧ fraction.isEmpty then false
    else
      let (small, power?) :=
        if power.isEmpty then (false, some [])
        else ((unsigned power.tail).1, digits? Char.isDigit (unsigned power.tail).2)
      let fraction? := if fraction.isEmpty then some [] else digits? Char.isDigit fraction.tail
      match decimalDigits? whole, fraction?, power? with
      | some whole, some fraction, some power =>
        let e : Int := if small then -valueOf 10 power else valueOf 10 power
        negative || !overflows (valueOf 10 (whole ++ fraction)) (e - fraction.length)
      | _, _, _ => false

def isLeapYear (y : Nat) : Bool := y % 4 = 0 && (y % 100 ≠ 0 || y % 400 = 0)

def daysInMonth (y m : Nat) : Nat :=
  if m = 2 then if isLeapYear y then 29 else 28
  else if m = 4 ∨ m = 6 ∨ m = 9 ∨ m = 11 then 30
  else 31

def readDigits (n : Nat) : Reader Nat := fun cs =>
  let ds := cs.take n
  if ds.length = n ∧ ds.all Char.isDigit then some (valueOf 10 ds, cs.drop n) else none

def readChar (c : Char) : List Char → Option (List Char)
  | d :: cs => if d = c then some cs else none
  | [] => none

def readDate : Reader (List Char) := fun cs => do
  let (y, rest) ← readDigits 4 cs
  let (m, rest) ← readDigits 2 (← readChar '-' rest)
  let (d, rest) ← readDigits 2 (← readChar '-' rest)
  if 1 ≤ m ∧ m ≤ 12 ∧ 1 ≤ d ∧ d ≤ daysInMonth y m then return (cs.take 10, rest) else none

def readFraction : Reader (List Char)
  | '.' :: cs =>
    let ds := cs.takeWhile Char.isDigit
    if ds.isEmpty then none
    else
      let kept := ((ds.take 9).reverse.dropWhile (· == '0')).reverse
      some (if kept.isEmpty then [] else '.' :: kept, cs.dropWhile Char.isDigit)
  | cs => some ([], cs)

def readTime : Reader (List Char) := fun cs => do
  let (h, rest) ← readDigits 2 cs
  let (m, rest) ← readDigits 2 (← readChar ':' rest)
  let (s, rest) ← readDigits 2 (← readChar ':' rest)
  let (fraction, rest) ← readFraction rest
  if h ≤ 23 ∧ m ≤ 59 ∧ s ≤ 60 then return (cs.take 8 ++ fraction, rest) else none

def readOffset : Reader (List Char)
  | [] => some ([], [])
  | c :: cs =>
    if c = 'Z' ∨ c = 'z' then some (['Z'], cs)
    else if isSign c then do
      let (h, rest) ← readDigits 2 cs
      let (m, rest) ← readDigits 2 (← readChar ':' rest)
      let sign := if h = 0 ∧ m = 0 then '+' else c
      if h ≤ 23 ∧ m ≤ 59 then return (sign :: cs.take 5, rest) else none
    else some ([], c :: cs)

def whole? {α : Type} (r : Option (α × List Char)) : Option α :=
  r.bind fun r => if r.2.isEmpty then some r.1 else none

def datetime? (cs : List Char) : Option (List Char) :=
  match readDate cs with
  | none => whole? (readTime cs)
  | some (date, []) => some date
  | some (date, c :: rest) =>
    if c = 'T' ∨ c = 't' ∨ c = ' ' then do
      let (time, rest) ← readTime rest
      let offset ← whole? (readOffset rest)
      return date ++ 'T' :: time ++ offset
    else none

def endsWord (c : Char) : Bool :=
  isSpace c || c == '\n' || c == '\r' || c == '#' || c == ',' || c == ']' || c == '\x7d'

def wordText (cs : List Char) : List Char :=
  let word := cs.takeWhile fun c => !endsWord c
  match cs.drop word.length with
  | ' ' :: rest =>
    let time := rest.takeWhile fun c => !endsWord c
    if (whole? (readDate word)).isSome ∧ time.head?.any Char.isDigit then word ++ ' ' :: time
    else word
  | _ => word

def classify (cs : List Char) : Option Word :=
  if cs = "true".toList then some (.boolean true)
  else if cs = "false".toList then some (.boolean false)
  else if isInteger cs || isFloat cs then some (.number (.ofList cs))
  else (datetime? cs).map fun text => .datetime (.ofList text)

def readWord : Reader Word := fun cs =>
  let word := wordText cs
  (classify word).map fun w => (w, cs.drop word.length)

end ClassWeave.Toml

import ClassWeave.Files.Path
import ClassWeave.Options

namespace ClassWeave

open Files

structure BuildArgs where
  inputs : List String
  config : Option Path := none
  mode : Option Mode := none
  classStem : Option String := none
  outDir : Option Path := none
  ignore : List String := []
  extensions : List String := ["svelte"]
  root : Path := .ofString "."
  noGitignore : Bool := false
deriving DecidableEq, Repr, Inhabited

/-- The interval is in milliseconds. -/
structure Polling where
  enabled : Bool := false
  interval : Nat := 500
deriving DecidableEq, Repr, Inhabited

inductive Command
  | build (args : BuildArgs)
  | watch (args : BuildArgs) (polling : Polling)
deriving DecidableEq, Repr

namespace Command

inductive Setting
  | config
  | mode
  | classStem
  | outDir
  | ignore
  | extension
  | root
  | interval
deriving DecidableEq, Repr

inductive Switch
  | noGitignore
  | poll
deriving DecidableEq, Repr

inductive Item
  | setting (s : Setting) (value : String)
  | switch (s : Switch)
  | input (text : String)
deriving DecidableEq, Repr

def Setting.ofName? (watching : Bool) (name : String) : Option Setting :=
  ([("config", config), ("mode", mode), ("prefix", classStem), ("out-dir", outDir),
    ("ignore", ignore), ("ext", extension), ("root", root)] ++
    if watching then [("poll-interval", interval)] else []).lookup name

def Setting.ofLetter? (letter : Char) : Option Setting :=
  [('c', config), ('o', outDir), ('I', ignore)].lookup letter

def Switch.ofName? (watching : Bool) (name : String) : Option Switch :=
  ([("no-gitignore", noGitignore)] ++ if watching then [("poll", poll)] else []).lookup name

/-- What one word is. After a word that `opens` a setting the next one is its value. -/
inductive Word
  | item (i : Item)
  | opens (s : Setting)
  | onlyInputs
  | unknown
deriving DecidableEq, Repr

def valueOf? (cs : List Char) : Option String :=
  match cs.dropWhile (· != '=') with
  | [] => none
  | _ :: value => some (.ofList value)

def Word.ofName (watching : Bool) (cs : List Char) : Word :=
  let name := String.ofList (cs.takeWhile (· != '='))
  match Setting.ofName? watching name, Switch.ofName? watching name, valueOf? cs with
  | some s, _, some value => .item (.setting s value)
  | some s, _, none => .opens s
  | none, some s, none => .item (.switch s)
  | none, _, _ => .unknown

def Word.ofLetter (letter : Char) (cs : List Char) : Word :=
  match Setting.ofLetter? letter, cs with
  | some s, [] => .opens s
  | some s, '=' :: value => .item (.setting s (.ofList value))
  | some s, value => .item (.setting s (.ofList value))
  | none, _ => .unknown

def Word.ofText (watching : Bool) (text : String) : Word :=
  match text.toList with
  | ['-', '-'] => .onlyInputs
  | '-' :: '-' :: cs => ofName watching cs
  | '-' :: c :: cs => ofLetter c cs
  | _ => .item (.input text)

def isOrdinary (text : String) : Bool := text.toList.head? != some '-' || text == "-"

def items? (watching : Bool) : List String → Option (List Item)
  | [] => some []
  | text :: texts =>
    match Word.ofText watching text with
    | .item i => (items? watching texts).map (i :: ·)
    | .onlyInputs => some (texts.map .input)
    | .unknown => none
    | .opens s =>
      match texts with
      | [] => none
      | value :: texts =>
        if isOrdinary value then (items? watching texts).map (.setting s value :: ·) else none

def values (s : Setting) (items : List Item) : List String :=
  items.filterMap fun
    | .setting t value => if t = s then some value else none
    | _ => none

def value? (s : Setting) (items : List Item) : Option (Option String) :=
  match values s items with
  | [] => some none
  | [value] => some (some value)
  | _ => none

def reading? {α : Type} (read : String → Option α) (s : Setting) (items : List Item) :
    Option (Option α) :=
  (value? s items).bind fun
    | none => some none
    | some text => (read text).map some

def switch? (s : Switch) (items : List Item) : Option Bool :=
  match items.count (.switch s) with
  | 0 => some false
  | 1 => some true
  | _ => none

def path? (text : String) : Option Path := if text = "" then none else some (.ofString text)

def number? (text : String) : Option Nat :=
  let digits := match text.toList with
    | '+' :: cs => cs
    | cs => cs
  let n := digits.foldl (fun n c => 10 * n + (c.toNat - '0'.toNat)) 0
  if !digits.isEmpty && digits.all Char.isDigit && n < UInt64.size then some n else none

def inputs (items : List Item) : List String :=
  items.filterMap fun
    | .input text => some text
    | _ => none

def buildArgs? (items : List Item) : Option BuildArgs := do
  let args : BuildArgs := ⟨inputs items, ← reading? path? .config items,
    ← reading? Mode.ofText? .mode items, ← value? .classStem items,
    ← reading? path? .outDir items, values .ignore items,
    if values .extension items = [] then ["svelte"] else values .extension items,
    (← reading? path? .root items).getD (.ofString "."), ← switch? .noGitignore items⟩
  if args.inputs.isEmpty then none else return args

def polling? (items : List Item) : Option Polling := do
  return ⟨← switch? .poll items, (← reading? number? .interval items).getD 500⟩

def ofArgs? : List String → Option Command
  | "build" :: texts => (items? false texts).bind fun items => (buildArgs? items).map .build
  | "watch" :: texts =>
    (items? true texts).bind fun items => do
      return .watch (← buildArgs? items) (← polling? items)
  | _ => none

end Command

end ClassWeave

import ClassWeave.Toml.Text
import ClassWeave.Toml.Value

namespace ClassWeave.Toml

def readBinding (value : Reader Value) : Reader Binding := fun cs => do
  let (path, rest) ← readKey cs
  match rest with
  | '=' :: rest =>
    let (v, rest) ← value (skipSpaces rest)
    return (⟨path, v⟩, rest)
  | _ => none

def readItems (value : Reader Value) : Reader (List Value) := fun cs => do
  let (items, rest) ← many (fun cs => do
    let cs ← skipLayout cs
    if cs.head? = some ']' then return ⟨none, true, cs.tail⟩
    else
      let (v, rest) ← value cs
      match ← skipLayout rest with
      | ',' :: rest => return ⟨some v, false, rest⟩
      | ']' :: rest => return ⟨some v, true, rest⟩
      | _ => none) cs
  return (items.reduceOption, rest)

def readInline (value : Reader Value) : Reader (List Binding) := fun cs =>
  match skipSpaces cs with
  | '\x7d' :: rest => some ([], rest)
  | cs =>
    many (fun cs => do
      let (b, rest) ← readBinding value cs
      match skipSpaces rest with
      | ',' :: rest => return ⟨b, false, rest⟩
      | '\x7d' :: rest => return ⟨b, true, rest⟩
      | _ => none) cs

def readFlat : Reader Value := fun cs =>
  if cs.head?.any isQuoteMark then (readText cs).map fun r => (.text r.1, r.2)
  else (readWord cs).map fun r => (.word r.1, r.2)

def readValue : Nat → Reader Value
  | 0 => readFlat
  | depth + 1 => fun cs =>
    match cs with
    | '[' :: cs => (readItems (readValue depth) cs).map fun r => (.array r.1, r.2)
    | '\x7b' :: cs => do
      let (bindings, rest) ← readInline (readValue depth) cs
      return (.table .inline (← bindAll .inline [] bindings), rest)
    | cs => readFlat cs

inductive Statement
  | blank
  | header (path : List String)
  | row (path : List String)
  | binding (b : Binding)

def readStatement : Reader Statement := fun cs =>
  match cs with
  | '[' :: '[' :: cs => do
    match ← readKey cs with
    | (path, ']' :: ']' :: rest) => return (.row path, ← afterLine? rest)
    | _ => none
  | '[' :: cs => do
    match ← readKey cs with
    | (path, ']' :: rest) => return (.header path, ← afterLine? rest)
    | _ => none
  | _ =>
    match afterLine? cs with
    | some rest => some (.blank, rest)
    | none => do
      let (b, rest) ← readBinding (readValue (nestingLimit - 1)) cs
      return (.binding b, ← afterLine? rest)

def readStatements (cs : List Char) : Option (List Statement) := do
  let cs := skipSpaces cs
  if cs.isEmpty then return []
  let (statements, rest) ← many (fun cs => do
    let (s, rest) ← readStatement cs
    let rest := skipSpaces rest
    return ⟨s, rest.isEmpty, rest⟩) cs
  if rest.isEmpty then return statements else none

structure Section where
  path : List String
  isRow : Bool
  bindings : List Binding

def sections (statements : List Statement) : List Section :=
  let (current, done) := statements.foldl (fun (acc : Section × List Section) s =>
    match s with
    | .blank => acc
    | .header path => (⟨path, false, []⟩, acc.2 ++ [acc.1])
    | .row path => (⟨path, true, []⟩, acc.2 ++ [acc.1])
    | .binding b => ({ acc.1 with bindings := acc.1.bindings ++ [b] }, acc.2))
    (⟨[], false, []⟩, [])
  done ++ [current]

def addSection (root : Entries) (s : Section) : Option Entries :=
  match s.path.getLast? with
  | none => bindAll .header root s.bindings
  | some key =>
    alterAt false (fun _ entries => do
      if s.isRow then
        let row ← bindAll .header [] s.bindings
        match entries.lookup key with
        | none => return entries ++ [(key, .rows [row])]
        | some (.rows tables) => return entries.set key (.rows (tables ++ [row]))
        | some _ => none
      else
        match entries.lookup key with
        | none => return entries ++ [(key, .table .header (← bindAll .header [] s.bindings))]
        | some (.table .implied es) =>
          return entries.erase key ++ [(key, .table .header (← bindAll .header es s.bindings))]
        | some _ => none) .header root s.path.dropLast

def document? (text : String) : Option Entries := do
  let cs := match text.toList with
    | '\ufeff' :: cs => cs
    | cs => cs
  (sections (← readStatements cs)).foldlM addSection []

end ClassWeave.Toml

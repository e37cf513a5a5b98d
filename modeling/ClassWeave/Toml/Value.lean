import ClassWeave.Toml.Word

/-!
Values and tables. A table remembers how it was written, because that decides what may still be
added to it: nothing to one in curly braces, and by a dotted key only to one that no header opened.
-/

namespace ClassWeave.Toml

inductive TableKind
  | inline
  | header
  | implied
  | dotted
deriving DecidableEq, Repr

/-- `rows` are the tables of an array that is written header by header. -/
inductive Value
  | text (value : String)
  | word (value : Word)
  | array (items : List Value)
  | table (kind : TableKind) (entries : List (String × Value))
  | rows (tables : List (List (String × Value)))

abbrev Entries := List (String × Value)

def Entries.set (es : Entries) (key : String) (v : Value) : Entries :=
  match es with
  | [] => [(key, v)]
  | e :: es => if e.1 = key then (key, v) :: es else e :: set es key v

def Entries.erase (es : Entries) (key : String) : Entries := es.filter fun e => e.1 != key

def alterAt (byKey : Bool) (change : TableKind → Entries → Option Entries) (kind : TableKind)
    (es : Entries) : List String → Option Entries
  | [] => change kind es
  | key :: path =>
    match es.lookup key with
    | none => do
      let made : TableKind := if byKey then .dotted else .implied
      return es ++ [(key, .table made (← alterAt byKey change made [] path))]
    | some (.table child entries) =>
      if child = .inline ∨ byKey ∧ child = .header then none
      else do return es.set key (.table child (← alterAt byKey change child entries path))
    | some (.rows tables) => do
      let last ← alterAt byKey change .header (tables.getLastD []) path
      return es.set key (.rows (tables.dropLast ++ [last]))
    | some _ => none

structure Binding where
  path : List String
  value : Value

def bind (kind : TableKind) (es : Entries) (b : Binding) : Option Entries :=
  let parents := b.path.dropLast
  alterAt true (fun kind entries =>
    let key := b.path.getLastD ""
    if decide (kind = .dotted) == parents.isEmpty || (entries.lookup key).isSome then none
    else some (entries ++ [(key, b.value)])) kind es parents

def bindAll (kind : TableKind) (es : Entries) (bs : List Binding) : Option Entries :=
  bs.foldlM (bind kind) es

end ClassWeave.Toml

import ClassWeave.Toml.Document
import ClassWeave.Utility.Builtin

namespace ClassWeave

open Toml Utility

structure Config where
  options : Options := {}
  utilities : Assoc String := []
  preflight : List PreflightEntry := []
deriving DecidableEq, Repr, Inhabited

def datetimeKey : String := "$__toml_private_datetime"

namespace Config

def text? : Value → Option String
  | .text t => some t
  | _ => none

def boolean? : Value → Option Bool
  | .word (.boolean b) => some b
  | _ => none

def orDefault {α : Type} (read : Value → Option α) (fallback : α) : Option Value → Option α
  | none => some fallback
  | some v => read v

def fields? (names : List String) : Value → Option (List (Option Value))
  | .table _ es => some (names.map fun name => es.lookup name)
  | .array items => some ((List.range names.length).map fun i => items[i]?)
  | .rows tables => some ((List.range names.length).map fun i => tables[i]?.map (.table .header))
  | .word (.datetime _) => some (names.map fun _ => none)
  | _ => none

def isEmptyValue : Value → Bool
  | .array items => items.isEmpty
  | .table _ es => es.isEmpty
  | .rows tables => tables.isEmpty
  | _ => false

def mode? : Value → Option Mode
  | .text t => Mode.ofText? t
  | .table _ [(name, v)] => if isEmptyValue v then Mode.ofText? name else none
  | _ => none

def options? (v : Value) : Option Options := do
  match ← fields? ["prefix", "mode"] v with
  | [stem, mode] =>
    let fallback : Options := {}
    return ⟨← orDefault text? fallback.classStem stem, ← orDefault mode? fallback.mode mode⟩
  | _ => none

def utilities? : Value → Option (Assoc String)
  | .table _ es => es.mapM fun e => (text? e.2).map fun t => (e.1, t)
  | .word (.datetime t) => some [(datetimeKey, t)]
  | _ => none

def entry? (v : Value) : Option PreflightEntry := do
  match ← fields? ["selector", "declarations", "global"] v with
  | [some selector, some declarations, isGlobal] =>
    return ⟨← text? selector, ← text? declarations, ← orDefault boolean? false isGlobal⟩
  | _ => none

def preflight? : Value → Option (List PreflightEntry)
  | .array items => items.mapM entry?
  | .rows tables => tables.mapM fun es => entry? (.table .header es)
  | _ => none

def ofEntries? (es : Entries) : Option Config := do
  return ⟨← orDefault options? {} (es.lookup "options"),
    ← orDefault utilities? [] (es.lookup "utilities"),
    ← orDefault preflight? [] (es.lookup "preflight")⟩

def parse? (text : String) : Option Config := (document? text).bind ofEntries?

def table (c : Config) : Table := Table.builtin.extend c.utilities c.preflight

end Config

end ClassWeave

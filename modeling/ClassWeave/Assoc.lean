/-!
Maps from names to values that keep the order in which the names came first.
-/

namespace ClassWeave

abbrev Assoc (α : Type) := List (String × α)

namespace Assoc

variable {α : Type}

def find? (m : Assoc α) (key : String) : Option α := m.lookup key

def contains (m : Assoc α) (key : String) : Bool := (m.find? key).isSome

def keys (m : Assoc α) : List String := m.map Prod.fst

def put (m : Assoc α) (key : String) (value : α) : Assoc α :=
  match m with
  | [] => [(key, value)]
  | e :: es => if e.1 = key then (key, value) :: es else e :: put es key value

def putAll (m : Assoc α) (entries : List (String × α)) : Assoc α :=
  entries.foldl (fun m e => m.put e.1 e.2) m

def putNew (m : Assoc α) (key : String) (value : α) : Assoc α :=
  if m.contains key then m else m.put key value

def findEntry? (m : Assoc α) (key : String) : Option (Nat × α) :=
  (m.findIdx? (·.1 == key)).bind fun i => m[i]?.map fun e => (i, e.2)

def total : Assoc Nat → Nat
  | [] => 0
  | e :: m => e.2 + total m

end Assoc

end ClassWeave

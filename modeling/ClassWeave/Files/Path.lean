import ClassWeave.Text.Bytes

/-!
Paths as they are written. A path keeps its text, doubled slashes and dots included; its components
are what it means, and comparisons and prefixes go by them.
-/

namespace ClassWeave.Files

abbrev Name := List Char

/-- A `.` counts only in front. -/
inductive Component
  | root
  | current
  | parent
  | name (text : Name)
deriving DecidableEq, Repr, Inhabited

namespace Component

def rank : Component → Nat
  | root => 0
  | current => 1
  | parent => 2
  | name _ => 3

def compare : Component → Component → Ordering
  | name a, name b => compareOfLessAndEq a b
  | a, b => Ord.compare a.rank b.rank

def ofPiece? (piece : Name) : Option Component :=
  if piece = [] ∨ piece = ['.'] then none
  else if piece = ['.', '.'] then some parent
  else some (name piece)

end Component

structure Path where
  text : List Char
deriving DecidableEq, Repr, Inhabited

namespace Path

def ofString (s : String) : Path := ⟨s.toList⟩

def toString (p : Path) : String := .ofList p.text

def isAbsolute (p : Path) : Bool := p.text.head? == some '/'

def isEmpty (p : Path) : Bool := p.text.isEmpty

def parts (p : Path) : Option Component × List Name :=
  match p.text.splitOn '/' with
  | [] :: w :: ws => (some .root, w :: ws)
  | ['.'] :: ws => (some .current, ws)
  | ws => (none, ws)

def components (p : Path) : List Component :=
  p.parts.1.toList ++ p.parts.2.filterMap Component.ofPiece?

def joinPieces (pieces : List Name) : List Char := ['/'].intercalate pieces

def ofParts : Option Component → List Name → Path
  | some .root, ws => ⟨'/' :: joinPieces ws⟩
  | some .current, ws => ⟨joinPieces (['.'] :: ws)⟩
  | _, ws => ⟨joinPieces ws⟩

def isVoid (piece : Name) : Bool := (Component.ofPiece? piece).isNone

def dropVoid (pieces : List Name) : List Name := pieces.dropWhile isVoid

def dropVoidEnd (pieces : List Name) : List Name := (dropVoid pieces.reverse).reverse

def strip : List Component → List Name → Option (List Name)
  | [], ws => some ws
  | c :: cs, ws =>
    match dropVoid ws with
    | w :: ws => if Component.ofPiece? w = some c then strip cs ws else none
    | [] => none

def below? (p base : Path) : Option Path :=
  if base.isEmpty then some (ofParts p.parts.1 (dropVoidEnd p.parts.2))
  else if p.parts.1 = base.parts.1 then
    (strip (base.parts.2.filterMap Component.ofPiece?) p.parts.2).map fun ws =>
      ofParts none (dropVoidEnd (dropVoid ws))
  else none

def relativeTo (p base : Path) : Path := (p.below? base).getD p

def join (base p : Path) : Path :=
  if p.isAbsolute then p
  else if base.isEmpty ∨ base.text.getLast? = some '/' then ⟨base.text ++ p.text⟩
  else ⟨base.text ++ '/' :: p.text⟩

def parent? (p : Path) : Option Path :=
  match (dropVoidEnd p.parts.2).reverse, p.parts.1 with
  | _ :: ws, lead => some (ofParts lead (dropVoidEnd ws.reverse))
  | [], some .current => some ⟨[]⟩
  | [], _ => none

def climb : Nat → Path → List Path
  | 0, _ => []
  | n + 1, p =>
    match p.parent? with
    | some q => q :: climb n q
    | none => []

def above (p : Path) : List Path := climb p.text.length p

def fileName? (p : Path) : Option Name :=
  match p.components.getLast? with
  | some (.name w) => some w
  | _ => none

def extension? (p : Path) : Option Name :=
  p.fileName?.bind fun w =>
    match w.reverse.span (· != '.') with
    | (_, []) => none
    | (_, [_]) => none
    | (after, _ :: _ :: _) => some after.reverse

def compareComponents : List Component → List Component → Ordering
  | [], [] => .eq
  | [], _ :: _ => .lt
  | _ :: _, [] => .gt
  | a :: as, b :: bs => (a.compare b).then (compareComponents as bs)

def compare (p q : Path) : Ordering := compareComponents p.components q.components

def isUnder (p base : Path) : Bool := base.components.isPrefixOf p.components

end Path

end ClassWeave.Files

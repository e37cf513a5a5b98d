import ClassWeave.Options
import ClassWeave.Style.Sheet
import ClassWeave.Text.Blank

namespace ClassWeave

open Style

/-- `emitted` is the class that takes the place of the resolved tokens, `ignored` are the tokens
that meant nothing to the resolver. -/
structure Resolution where
  emitted : Option String
  ignored : List String
  sheet : Sheet
deriving DecidableEq, Repr, Inhabited

def Resolution.replacement (r : Resolution) : String :=
  " ".intercalate (r.emitted.toList ++ r.ignored)

/-- `compile` makes one class of a text, its name beginning with the given stem; `interpret` keeps
the classes apart; `preflight` gives the base styles of elements, with or without those that concern
every element. -/
structure Resolver where
  compile : String → String → Resolution
  interpret : String → Resolution
  preflight : List String → Bool → Sheet

def Resolution.checked (classes : String) (r : Resolution) : Resolution :=
  { r with ignored := r.ignored.filter fun token => (Text.wordsOf classes).contains token }

namespace Resolver

def ofAttribute (r : Resolver) (o : Options) (classes : String) : Resolution :=
  match o.mode with
  | .replace =>
    let found := r.compile classes o.classStem
    Resolution.checked classes { found with sheet := found.sheet.withLayer .utility }
  | .resolveInPlace =>
    let found := r.interpret classes
    Resolution.checked classes
      ⟨none, found.ignored, (found.sheet.withScope .deferred).withLayer .utility⟩

def ofDirective (r : Resolver) (classes : String) : Resolution :=
  let found := r.interpret classes
  Resolution.checked classes ⟨none, found.ignored, found.sheet.withLayer .directive⟩

def baseSheet (r : Resolver) (tags : List String) (includeGlobal : Bool) : Sheet :=
  ((r.preflight tags includeGlobal).withScope .everywhere).withLayer .preflight

end Resolver

end ClassWeave

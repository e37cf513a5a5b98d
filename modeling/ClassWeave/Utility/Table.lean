import ClassWeave.Assoc
import ClassWeave.Resolution
import ClassWeave.Utility.ClassName
import ClassWeave.Utility.Digest

/-!
A resolver that looks tokens up in a table. A token's place in the table is the order of its rule.
-/

namespace ClassWeave.Utility

open Style Text

structure PreflightEntry where
  selector : String
  declarations : String
  isGlobal : Bool := false
deriving DecidableEq, Repr, Inhabited

structure PreflightRule where
  selector : String
  tags : List String
  declarations : List Declaration
  isGlobal : Bool
deriving DecidableEq, Repr, Inhabited

def isTagChar (c : Char) : Bool := c.isAlphanum || c == '-'

def selectorTags (selector : String) : List String :=
  let parts := (selector.toList.splitOnP (· == ',')).map trimStart
  let names := parts.map fun p => (p.takeWhile isTagChar).map Char.toLower
  ((names.filter fun n => !n.isEmpty).map String.ofList).eraseDups

def PreflightRule.ofEntry (e : PreflightEntry) : PreflightRule :=
  ⟨e.selector, selectorTags e.selector, Declaration.parseList e.declarations, e.isGlobal⟩

structure Table where
  utilities : Assoc (List Declaration)
  preflight : List PreflightRule
deriving DecidableEq, Repr, Inhabited

namespace Table

def empty : Table := ⟨[], []⟩

def extend (t : Table) (utilities : Assoc String) (entries : List PreflightEntry) : Table :=
  ⟨t.utilities.putAll (utilities.map fun e => (e.1, Declaration.parseList e.2)),
    t.preflight ++ entries.map PreflightRule.ofEntry⟩

def size (t : Table) : Nat := t.utilities.length

def lookup (t : Table) (token : String) : Option (UInt32 × List Declaration) :=
  (t.utilities.findEntry? token).map fun e => (UInt32.ofNat e.1, e.2)

def knows (t : Table) (token : String) : Bool := (t.lookup token).isSome

def resolved (t : Table) (classes : String) : List String :=
  ((wordsOf classes).filter t.knows).eraseDups

def ignored (t : Table) (classes : String) : List String :=
  (wordsOf classes).filter fun token => !t.knows token

def compile (t : Table) (classes classStem : String) : Resolution :=
  let tokens := t.resolved classes
  if tokens.isEmpty then ⟨none, t.ignored classes, []⟩
  else
    let name := classStem ++ Digest.shortText (" ".intercalate tokens)
    let found := tokens.filterMap t.lookup
    let declarations := found.foldl (fun ds e => Declaration.overrideAll ds e.2) []
    let order := found.foldl (fun n e => min n e.1) (0xFFFFFFFF : UInt32)
    ⟨some name, t.ignored classes, [Rule.plain (classSelector name) declarations order]⟩

def interpret (t : Table) (classes : String) : Resolution :=
  ⟨none, t.ignored classes, (t.resolved classes).filterMap fun token =>
    (t.lookup token).map fun e => Rule.plain (classSelector token) e.2 e.1⟩

def wantsPreflight (tags : List String) (includeGlobal : Bool) (r : PreflightRule) : Bool :=
  if r.isGlobal then includeGlobal else r.tags.any fun tag => tags.contains tag

def preflightSheet (t : Table) (tags : List String) (includeGlobal : Bool) : Sheet :=
  (t.preflight.zipIdx.filter fun e => wantsPreflight tags includeGlobal e.1).map fun e =>
    Rule.plain e.1.selector e.1.declarations (UInt32.ofNat e.2)

def resolver (t : Table) : Resolver := ⟨t.compile, t.interpret, t.preflightSheet⟩

end Table

end ClassWeave.Utility

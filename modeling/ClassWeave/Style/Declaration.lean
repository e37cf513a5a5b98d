import ClassWeave.Style.Split
import ClassWeave.Text.Blank

namespace ClassWeave.Style

open Text

structure Declaration where
  property : String
  value : String
deriving DecidableEq, Repr, Inhabited

namespace Declaration

def text (d : Declaration) : String := d.property ++ ": " ++ d.value ++ ";"

def ofEntry (entry : List Char) : Option Declaration :=
  let property := trim (entry.takeWhile (· != ':'))
  let value := trim ((entry.dropWhile (· != ':')).drop 1)
  if property.isEmpty || value.isEmpty then none else some ⟨.ofList property, .ofList value⟩

def parseList (text : String) : List Declaration :=
  (splitTopLevel ';' text.toList).filterMap ofEntry

/-- Adds a declaration at the end of a list in which it takes the place of any of its property. -/
def override (ds : List Declaration) (d : Declaration) : List Declaration :=
  ds.filter (fun e => e.property != d.property) ++ [d]

def overrideAll (ds es : List Declaration) : List Declaration := es.foldl override ds

end Declaration

end ClassWeave.Style

namespace ClassWeave

inductive Mode
  | replace
  | resolveInPlace
deriving DecidableEq, Repr, Inhabited

namespace Mode

def text : Mode → String
  | replace => "rewrite"
  | resolveInPlace => "resolve-in-place"

def ofText? (text : String) : Option Mode :=
  if text = "rewrite" then some replace
  else if text = "resolve-in-place" then some resolveInPlace
  else none

def unknownMessage (text : String) : String :=
  "unknown mode '" ++ text ++ "', expected 'rewrite' or 'resolve-in-place'"

end Mode

/-- The names of generated classes begin with `classStem`. -/
structure Options where
  classStem : String := "windi-"
  mode : Mode := .resolveInPlace
deriving DecidableEq, Repr, Inhabited

end ClassWeave

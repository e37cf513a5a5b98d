namespace ClassWeave.Utility

def escapedChars : List Char :=
  ['\x5c', ':', '/', '[', ']', '(', ')', '&', '>', '+', ',', '%', '=', '!', '*', '@', '#', '\x27',
    '\x22', '.']

def escapeChar (c : Char) : List Char := if escapedChars.contains c then ['\x5c', c] else [c]

/-- A digit at the front is written by its code point, which ends at a space. -/
def escapeClass : List Char → List Char
  | [] => []
  | c :: cs => (if c.isDigit then ['\x5c', '3', c, ' '] else escapeChar c) ++ cs.flatMap escapeChar

def classSelector (name : String) : String := .ofList ('.' :: escapeClass name.toList)

end ClassWeave.Utility

import ClassWeave.Markup.Tree
import ClassWeave.Text.Cursor

namespace ClassWeave.Markup

open Text

inductive Mustache
  | expression (tag : ExpressionTag)
  | block (tag : BlockTag)
  | closing
deriving DecidableEq, Repr

def isBlockSigil (c : Char) : Bool := c == '#' || c == ':' || c == '/' || c == '@'

inductive Operand
  | whole
  | beforeWord (word : String)
  | afterAssignment
  | absent
deriving DecidableEq, Repr

def operand (sigil : Char) (keyword : String) : Operand :=
  if sigil = '#' then
    if keyword = "if" ∨ keyword = "key" then .whole
    else if keyword = "each" then .beforeWord "as"
    else if keyword = "await" then .beforeWord "then"
    else .absent
  else if sigil = ':' then if keyword = "else if" then .whole else .absent
  else if sigil = '@' then
    if keyword = "html" ∨ keyword = "render" then .whole
    else if keyword = "const" then .afterAssignment
    else .absent
  else .absent

def beginsWord (word cs : List Char) : Bool :=
  word.isPrefixOf cs && (cs.drop word.length).head?.any isBlank

def isAssignment (s : Spot) : Bool :=
  s.char == '=' && !s.after.head?.any (fun c => c == '=' || c == '>') &&
    !s.before.head?.any fun c => c == '=' || c == '!' || c == '<' || c == '>'

def findAssignment (offset : Nat) : List Spot → Except Failure (Option Spot)
  | [] => .ok none
  | s :: ss =>
    if s.char.utf8Size ≠ 1 then .error (.wideBinding (offset + s.offset))
    else if isAssignment s then .ok (some s)
    else findAssignment offset ss

def Operand.text (body : Cursor) : Operand → Except Failure (Option Cursor)
  | whole => .ok (some body)
  | beforeWord word =>
    match (topLevel body.rest).find? fun s => isBlank s.char && beginsWord word.toList s.after with
    | some s => .ok (some ⟨body.offset, s.left⟩)
    | none => .ok (some body)
  | afterAssignment => do
    match ← findAssignment body.offset (topLevel body.rest) with
    | some s => return some ⟨body.offset + s.offset + 1, s.after⟩
    | none => return none
  | absent => .ok none

def readOperand (sigil : Char) (keyword : String) (body : Cursor) :
    Except Failure (Option Expr) := do
  match ← (operand sigil keyword).text body with
  | some text => return if isBlankText text.rest then none else some (.read text.offset text.rest)
  | none => return none

def chainedIf? (c : Cursor) : Option Cursor :=
  let d := c.skipBlanks
  if c.rest.head?.any isBlank ∧ beginsWord "if".toList d.rest then some (d.advance 2) else none

def readBlock (c : Cursor) : Except Failure (String × Option Expr) := do
  let sigil := c.rest.headD '/'
  let d := c.advance 1
  let keyword := String.ofList (d.word Char.isAlpha)
  let body := d.skip Char.isAlpha
  match if sigil = ':' ∧ keyword = "else" then chainedIf? body else none with
  | some chained => return ("else if", ← readOperand sigil "else if" chained)
  | none => return (keyword, ← readOperand sigil keyword body)

def readMustache (c : Cursor) : Except Failure (Mustache × Cursor) := do
  match splitBraces .top c.rest.tail with
  | none => throw (.parse c.offset .unterminatedExpression)
  | some (inner, _) =>
    let d := c.advance (inner.length + 2)
    let body : Cursor := ⟨c.offset + 1, inner⟩
    let start := body.skipBlanks
    if start.rest.head?.any isBlockSigil then
      if start.rest.head? = some '/' then return (.closing, d)
      else
        let (keyword, expression) ← readBlock start
        return (.block ⟨⟨c.offset, d.offset⟩, keyword, expression⟩, d)
    else return (.expression ⟨⟨c.offset, d.offset⟩, .read body.offset inner⟩, d)

def Mustache.part? : Mustache → Option ValuePart
  | expression tag => some (.expression tag)
  | _ => none

theorem readMustache_eq_advance {c d : Cursor} {m : Mustache} (h : readMustache c = .ok (m, d)) :
    ∃ inner after, c.rest.tail = inner ++ '\x7d' :: after ∧ d = c.advance (inner.length + 2) := by
  rw [readMustache] at h
  split at h
  · cases h
  · next inner after heq =>
    refine ⟨inner, after, splitBraces_append heq, ?_⟩
    dsimp only at h
    split at h
    · split at h
      · cases h; rfl
      · cases hb : readBlock (Cursor.skipBlanks ⟨c.offset + 1, inner⟩) with
        | error e => rw [hb] at h; cases h
        | ok r => rw [hb] at h; cases h; rfl
    · cases h; rfl

theorem lt_of_readMustache {c d : Cursor} {m : Mustache} (h : readMustache c = .ok (m, d)) :
    c < d := by
  obtain ⟨inner, after, heq, rfl⟩ := readMustache_eq_advance h
  cases hc : c.rest with
  | nil => simp [hc] at heq
  | cons x cs => exact Cursor.lt_advance hc (by omega)

end ClassWeave.Markup

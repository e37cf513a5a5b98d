import ClassWeave.Text.Cursor
import ClassWeave.Text.Nesting

namespace ClassWeave.Markup

open Text

inductive Expr
  | literal (text : String)
  | conditional (start : Nat) (test consequent alternate : Expr)
  | other (text : String)
deriving DecidableEq, Repr, Inhabited

namespace Expr

def insideParens (depth : Nat) : List Char → Option (List Char)
  | [] => none
  | c :: cs =>
    if c = ')' ∧ depth ≤ 1 then if cs.isEmpty then some [] else none
    else
      let depth := if c = '(' then depth + 1 else if c = ')' then depth - 1 else depth
      (insideParens depth cs).map (c :: ·)

def unwrap? : List Char → Option (List Char)
  | '(' :: cs => insideParens 1 cs
  | _ => none

/-- A question mark is part of a conditional unless it belongs to `??` or `?.`. -/
def isTernaryMark (s : Spot) : Bool :=
  s.char == '?' && s.after.head? != some '?' && s.after.head? != some '.' &&
    s.before.head? != some '?'

/-- The colon that answers the question mark before these spots, past those of the `pending`
conditionals that began in between. -/
def answeringColon (pending : Nat) : List Spot → Option Spot
  | [] => none
  | s :: ss =>
    if isTernaryMark s then answeringColon (pending + 1) ss
    else if s.char = ':' then
      if pending = 0 then some s else answeringColon (pending - 1) ss
    else answeringColon pending ss

structure Ternary where
  test : List Char
  consequent : List Char
  alternate : List Char

def ternary? (cs : List Char) : Option Ternary := do
  let mark ← (topLevel cs).find? isTernaryMark
  let colon ← answeringColon 0 (topLevel mark.after)
  return ⟨mark.left, colon.left, colon.after⟩

def hasBareQuote (quote : Char) (escaped : Bool) : List Char → Bool
  | [] => false
  | c :: cs =>
    if escaped then hasBareQuote quote false cs
    else if c = '\x5c' then hasBareQuote quote true cs
    else c == quote || hasBareQuote quote false cs

def stringLiteral? : List Char → Option (List Char)
  | [] => none
  | q :: cs =>
    let inner := cs.dropLast
    if isQuote q ∧ cs.getLast? = some q ∧ hasBareQuote q false inner = false ∧
        ¬ (q = '\x60' ∧ (splitBefore ['$', '\x7b'] inner).isSome) then some inner
    else none

def startsNumber : List Char → Bool
  | c :: cs => c.isDigit || c == '.' && cs.head?.any Char.isDigit
  | [] => false

def isPlainLiteral (cs : List Char) : Bool :=
  cs == "true".toList || cs == "false".toList || cs == "null".toList ||
    let digits := if cs.head? = some '-' then cs.tail else cs
    startsNumber digits && digits.all fun c => c.isAlphanum || c == '.' || c == '_'

def literal? (cs : List Char) : Option (List Char) :=
  (stringLiteral? cs).or (if isPlainLiteral cs then some cs else none)

theorem insideParens_append {depth : Nat} {cs inner : List Char}
    (h : insideParens depth cs = some inner) : cs = inner ++ [')'] := by
  induction cs generalizing depth inner with
  | nil => simp [insideParens] at h
  | cons c cs ih =>
    rw [insideParens] at h
    split at h
    · split at h
      · simp_all
      · simp at h
    · obtain ⟨inner', hp, rfl⟩ := Option.map_eq_some_iff.1 h
      rw [ih hp, List.cons_append]

theorem unwrap?_append {cs inner : List Char} (h : unwrap? cs = some inner) :
    cs = '(' :: (inner ++ [')']) := by
  rw [unwrap?.eq_def] at h
  split at h
  · rw [insideParens_append h]
  · simp at h

theorem answeringColon_mem {pending : Nat} {ss : List Spot} {s : Spot}
    (h : answeringColon pending ss = some s) : s ∈ ss ∧ s.char = ':' := by
  fun_induction answeringColon pending ss with
  | case1 => simp at h
  | case2 _ _ _ _ ih => exact ⟨List.mem_cons_of_mem _ (ih h).1, (ih h).2⟩
  | case3 s' _ _ hc => simp_all
  | case4 _ _ _ _ _ _ ih => exact ⟨List.mem_cons_of_mem _ (ih h).1, (ih h).2⟩
  | case5 _ _ _ _ _ ih => exact ⟨List.mem_cons_of_mem _ (ih h).1, (ih h).2⟩

theorem ternary?_append {cs : List Char} {t : Ternary} (h : ternary? cs = some t) :
    cs = t.test ++ '?' :: (t.consequent ++ ':' :: t.alternate) := by
  simp only [ternary?, Option.bind_eq_bind, Option.bind_eq_some_iff, Option.pure_def,
    Option.some.injEq] at h
  obtain ⟨mark, hm, colon, hc, rfl⟩ := h
  have hmark : mark.char = '?' := by
    have := List.find?_some hm
    simp_all [isTernaryMark]
  obtain ⟨hmem, hcolon⟩ := answeringColon_mem hc
  have h₁ := text_of_mem_topLevel (List.mem_of_find?_eq_some hm)
  have h₂ := text_of_mem_topLevel hmem
  rw [Spot.text, hmark] at h₁
  rw [Spot.text, hcolon] at h₂
  rw [← h₁, ← h₂]

/-- Reads the text that begins at byte `offset` of the source. A conditional starts at the first
character of its own text, inside any brackets around it. -/
def read (offset : Nat) (cs : List Char) : Expr :=
  let start := offset + byteLength (leading cs)
  match _ : unwrap? (trim cs) with
  | some inner => read (start + 1) inner
  | none =>
    match _ : ternary? (trim cs) with
    | some t =>
      let consequentStart := start + byteLength t.test + 1
      .conditional start (read start t.test) (read consequentStart t.consequent)
        (read (consequentStart + byteLength t.consequent + 1) t.alternate)
    | none =>
      match literal? (trim cs) with
      | some value => .literal (.ofList value)
      | none => .other (.ofList (trim cs))
termination_by cs.length
decreasing_by
  · have h := congrArg List.length (unwrap?_append ‹_›)
    have := length_trim_le cs
    simp at h
    omega
  all_goals
    have h := congrArg List.length (ternary?_append ‹_›)
    have := length_trim_le cs
    simp at h
    omega

end Expr

end ClassWeave.Markup

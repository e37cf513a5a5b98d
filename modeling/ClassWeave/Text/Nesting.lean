import ClassWeave.Text.Bytes

/-!
Quotes and brackets in expression text. A quote opens text up to its next unescaped occurrence;
brackets nest outside quotes only, whatever their shape. The characters outside of both are the
top-level ones, each listed as a `Spot` of its text.
-/

namespace ClassWeave.Text

inductive Quoting
  | plain
  | inside (quote : Char)
  | escaped (quote : Char)
deriving DecidableEq, Repr

def isQuote (c : Char) : Bool := c == '\x22' || c == '\x27' || c == '\x60'

def Quoting.next : Quoting → Char → Quoting
  | .plain, c => if isQuote c then .inside c else .plain
  | .inside q, c => if c = '\x5c' then .escaped q else if c = q then .plain else .inside q
  | .escaped q, _ => .inside q

structure Brackets where
  opens : Char → Bool
  closes : Char → Bool

def Brackets.all : Brackets :=
  ⟨fun c => c == '(' || c == '[' || c == '\x7b', fun c => c == ')' || c == ']' || c == '\x7d'⟩

def Brackets.curly : Brackets := ⟨(· == '\x7b'), (· == '\x7d')⟩

/-- Where a reader of expression text stands. A closing bracket too many is passed over. -/
structure Nesting where
  quoting : Quoting
  depth : Nat
deriving DecidableEq, Repr

namespace Nesting

def top : Nesting := ⟨.plain, 0⟩

def next (b : Brackets) (n : Nesting) (c : Char) : Nesting :=
  if n.quoting = .plain then
    if b.opens c then ⟨.plain, n.depth + 1⟩
    else if b.closes c then ⟨.plain, n.depth - 1⟩
    else ⟨n.quoting.next c, n.depth⟩
  else ⟨n.quoting.next c, n.depth⟩

def run (b : Brackets) (n : Nesting) (cs : List Char) : Nesting := cs.foldl (next b) n

end Nesting

def isOrdinary (c : Char) : Bool :=
  !isQuote c && !Brackets.all.opens c && !Brackets.all.closes c

/-- A character in its text; `before` is read backwards, nearest character first. -/
structure Spot where
  before : List Char
  char : Char
  after : List Char
deriving DecidableEq, Repr

namespace Spot

def left (s : Spot) : List Char := s.before.reverse

def offset (s : Spot) : Nat := byteLength s.before

def text (s : Spot) : List Char := s.left ++ s.char :: s.after

end Spot

def spotsFrom (before : List Char) (n : Nesting) : List Char → List Spot
  | [] => []
  | c :: cs =>
    let rest := spotsFrom (c :: before) (n.next .all c) cs
    if n = .top ∧ isOrdinary c then ⟨before, c, cs⟩ :: rest else rest

def topLevel (cs : List Char) : List Spot := spotsFrom [] .top cs

def splitBraces (n : Nesting) : List Char → Option (List Char × List Char)
  | [] => none
  | c :: cs =>
    if n = .top ∧ c = '\x7d' then some ([], cs)
    else (splitBraces (n.next .curly c) cs).map fun p => (c :: p.1, p.2)

theorem text_of_mem_spotsFrom {before cs : List Char} {n : Nesting} {s : Spot}
    (h : s ∈ spotsFrom before n cs) : s.text = before.reverse ++ cs := by
  induction cs generalizing before n with
  | nil => simp [spotsFrom] at h
  | cons c cs ih =>
    have step (k : s ∈ spotsFrom (c :: before) (n.next .all c) cs) :
        s.text = before.reverse ++ c :: cs := by
      rw [ih k, List.reverse_cons, List.append_assoc]
      rfl
    rw [spotsFrom] at h
    split at h
    · rcases List.mem_cons.1 h with rfl | h
      · rfl
      · exact step h
    · exact step h

theorem text_of_mem_topLevel {cs : List Char} {s : Spot} (h : s ∈ topLevel cs) : s.text = cs :=
  text_of_mem_spotsFrom h

theorem splitBraces_append {n : Nesting} {cs a b : List Char}
    (h : splitBraces n cs = some (a, b)) : cs = a ++ '\x7d' :: b := by
  induction cs generalizing n a with
  | nil => simp [splitBraces] at h
  | cons c cs ih =>
    rw [splitBraces] at h
    split at h
    · simp only [Option.some.injEq, Prod.mk.injEq] at h
      obtain ⟨rfl, rfl⟩ := h
      simp_all
    · obtain ⟨⟨a', b'⟩, hp, hq⟩ := Option.map_eq_some_iff.1 h
      obtain ⟨rfl, rfl⟩ := Prod.mk.inj hq
      rw [ih hp, List.cons_append]

end ClassWeave.Text

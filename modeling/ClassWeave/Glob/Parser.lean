import ClassWeave.Glob.Basic

namespace ClassWeave.Glob

inductive Fault
  | unclosedClass
  | invalidRange
  | danglingEscape
  | unopenedBrace
  | unclosedBrace
deriving DecidableEq, Repr

structure Choice where
  before : Glob
  branches : List Glob
deriving DecidableEq, Repr

structure Reading where
  choices : List Choice := []
  current : Glob := .empty
  previous : Option Char := none
  bare : Bool := false
deriving DecidableEq, Repr

namespace Reading

def push (r : Reading) (g : Glob) (previous : Char) : Reading :=
  { r with current := .append r.current g, previous := some previous }

def inBraces (r : Reading) : Bool := !r.choices.isEmpty

def openBrace (r : Reading) : Reading :=
  { r with choices := ⟨r.current, []⟩ :: r.choices, current := .empty, previous := some '\x7b' }

def comma (r : Reading) : Reading :=
  match r.choices with
  | [] => r.push (.literal ',') ','
  | c :: cs =>
    { r with
      choices := { c with branches := r.current :: c.branches } :: cs
      current := .empty
      previous := some ',' }

def closeBrace (r : Reading) : Except Fault Reading :=
  match r.choices with
  | [] => .error .unopenedBrace
  | c :: cs =>
    .ok { r with
      choices := cs
      current := .append c.before (choice (r.current :: c.branches).reverse)
      previous := some '\x7d' }

def afterBreak (r : Reading) : Bool :=
  r.previous == some '/' ||
    r.inBraces && (r.previous == some ',' || r.previous == some '\x7b')

def breaksBefore (r : Reading) : Option Char → Bool
  | none => true
  | some c => c == '/' || r.inBraces && (c == ',' || c == '\x7d')

def joinPath (g : Glob) : Glob → Glob
  | .append a .leadingPath => .append a .leadingPath
  | .append a .trailingPath => .append a .trailingPath
  | .append a _ => .append a g
  | a => a

def doubleStar (r : Reading) (next : Option Char) : Reading × Bool :=
  let stars := { r with current := .append (.append r.current .run) .run, previous := some '*' }
  let taken := next == some '/'
  let previous := if taken then some '/' else some '*'
  if r.current = .empty then
    if next = none ∨ taken then
      ({ r with current := .append .empty .leadingPath, previous }, taken)
    else (stars, false)
  else if r.afterBreak && r.breaksBefore next then
    let g := if taken then .innerPath else .trailingPath
    ({ r with current := joinPath g r.current, previous }, taken)
  else (stars, false)

end Reading

def classRanges : List (Char × Char) → (pending : Bool) → List Char →
    Except Fault (List (Char × Char) × List Char)
  | _, _, [] => .error .unclosedClass
  | ranges, pending, ']' :: cs => .ok (if pending then ('-', '-') :: ranges else ranges, cs)
  | ranges, false, '-' :: cs => classRanges ranges true cs
  | ranges, false, c :: cs => classRanges ((c, c) :: ranges) false cs
  | (a, _) :: ranges, true, c :: cs =>
    if c < a then .error .invalidRange else classRanges ((a, c) :: ranges) false cs
  | [], true, _ :: _ => .error .unclosedClass

def negation : List Char → Bool × List Char
  | '!' :: cs => (true, cs)
  | '^' :: cs => (true, cs)
  | cs => (false, cs)

def readClass (cs : List Char) : Except Fault (Glob × List Char) :=
  match negation cs with
  | (_, []) => .error .unclosedClass
  | (negated, c :: cs) =>
    (classRanges [(c, c)] false cs).map fun r => (.oneOf negated r.1.reverse, r.2)

theorem length_of_classRanges {ranges : List (Char × Char)} {pending : Bool} {cs : List Char}
    {r : List (Char × Char) × List Char} (h : classRanges ranges pending cs = .ok r) :
    r.2.length < cs.length := by
  induction cs generalizing ranges pending with
  | nil => simp [classRanges] at h
  | cons c cs ih =>
    have step {ranges' : List (Char × Char)} {pending' : Bool}
        (h : classRanges ranges' pending' cs = .ok r) : r.2.length < (c :: cs).length :=
      Nat.lt_succ_of_lt (ih h)
    rw [classRanges.eq_def] at h
    split at h
    · cases h
    · rename_i heq
      cases heq
      cases h
      simp
    all_goals
      rename_i heq
      cases heq
    · exact step h
    · exact step h
    · split at h
      · cases h
      · exact step h
    · cases h

theorem length_negation (cs : List Char) : (negation cs).2.length ≤ cs.length := by
  unfold negation; split <;> simp

theorem length_of_readClass {cs : List Char} {r : Glob × List Char} (h : readClass cs = .ok r) :
    r.2.length < cs.length := by
  have hn := length_negation cs
  rw [readClass] at h
  split at h
  · cases h
  · rename_i negated c cs' hc
    rw [hc, List.length_cons] at hn
    cases hr : classRanges [(c, c)] false cs' with
    | error e => rw [hr] at h; cases h
    | ok p =>
      rw [hr] at h
      cases h
      have := length_of_classRanges hr
      simp only
      omega

/-- With `lenient`, the bracket of a class that never ends stands for itself, and so does every
bracket after it. -/
def read (lenient : Bool) (r : Reading) (cs : List Char) : Except Fault Glob :=
  match cs with
  | [] => if r.inBraces then .error .unclosedBrace else .ok r.current
  | '?' :: cs => read lenient (r.push .single '?') cs
  | '*' :: '*' :: cs =>
    let step := r.doubleStar cs.head?
    read lenient step.1 (cs.drop step.2.toNat)
  | '*' :: cs => read lenient (r.push .run '*') cs
  | '[' :: cs =>
    if r.bare then read lenient (r.push (.literal '[') '[') cs
    else
      match _h : readClass cs with
      | .ok (g, rest) => read lenient (r.push g ']') rest
      | .error .unclosedClass =>
        if lenient then read lenient { r.push (.literal '[') '[' with bare := true } cs
        else .error .unclosedClass
      | .error e => .error e
  | '\x7b' :: cs => read lenient r.openBrace cs
  | '\x7d' :: cs => r.closeBrace.bind fun r => read lenient r cs
  | ',' :: cs => read lenient r.comma cs
  | ['\x5c'] => .error .danglingEscape
  | '\x5c' :: c :: cs => read lenient (r.push (.literal c) c) cs
  | c :: cs => read lenient (r.push (.literal c) c) cs
termination_by cs.length
decreasing_by
  all_goals simp only [List.length_cons, List.length_drop]
  all_goals first
    | omega
    | exact Nat.lt_succ_of_lt (length_of_readClass ‹_›)

def parse (text : List Char) : Except Fault Glob := read false {} text

def parseLenient (text : List Char) : Except Fault Glob := read true {} text

end ClassWeave.Glob

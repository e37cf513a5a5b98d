import Mathlib.Data.List.Infix
import ClassWeave.Proofs.Markup.Matched
import ClassWeave.Proofs.Markup.Offsets
import ClassWeave.Proofs.Text.Blank

namespace ClassWeave.Markup

open Text Canonical

def parenthesized (cs : List Char) : List Char := '(' :: (cs ++ [')'])

/-- The round brackets are balanced, those inside quotes counted too. -/
def RoundBalanced (cs : List Char) : Prop :=
  (∀ p, p <+: cs → p.count ')' ≤ p.count '(') ∧ cs.count ')' = cs.count '('

def NotRound (x : Char) : Prop := x ≠ '(' ∧ x ≠ ')'

namespace Expr

theorem insideParens_of_notRound {v : List Char} (hv : ∀ x ∈ v, NotRound x) (depth : Nat)
    (r : List Char) : insideParens depth (v ++ r) = (insideParens depth r).map (v ++ ·) := by
  induction v with
  | nil => simp
  | cons x v ih =>
    obtain ⟨hopen, hclose⟩ := hv x List.mem_cons_self
    have hrest := ih fun y hy => hv y (List.mem_cons_of_mem _ hy)
    simp [insideParens, hopen, hclose, hrest, Function.comp_def]

theorem insideParens_open (depth : Nat) (r : List Char) :
    insideParens depth ('(' :: r) = (insideParens (depth + 1) r).map ('(' :: ·) := by
  simp [insideParens]

theorem insideParens_close (depth : Nat) (r : List Char) :
    insideParens (depth + 2) (')' :: r) = (insideParens (depth + 1) r).map (')' :: ·) := by
  simp [insideParens]

theorem insideParens_last (r : List Char) :
    insideParens 1 (')' :: r) = if r = [] then some [] else none := by
  simp [insideParens]

theorem notRound_of_isQuote {x : Char} (h : isQuote x = true) : NotRound x := by
  constructor
  · rintro rfl
    cases h
  · rintro rfl
    cases h

theorem notRound_of_isOrdinary {x : Char} (h : isOrdinary x = true) : NotRound x := by
  constructor
  · rintro rfl
    cases h
  · rintro rfl
    cases h

theorem insideParens_matched {w : List Char} (h : Matched NotRound w) (depth : Nat)
    (r : List Char) :
    insideParens (depth + 1) (w ++ r) = (insideParens (depth + 1) r).map (w ++ ·) := by
  induction h generalizing depth r with
  | nil => simp
  | @cons x hx w _ ih =>
    have hone := insideParens_of_notRound (v := [x])
      (by simpa using notRound_of_isOrdinary hx) (depth + 1) (w ++ r)
    rw [List.singleton_append] at hone
    rw [List.cons_append, hone, ih, Option.map_map]
    rfl
  | @quoted quote hquote v w hv hallowed _ ih =>
    have hround := notRound_of_isQuote hquote
    have hall : ∀ x ∈ quote :: (v ++ [quote]), NotRound x := by
      intro x hx
      simp only [List.mem_cons, List.mem_append, List.not_mem_nil, or_false] at hx
      rcases hx with rfl | hx | rfl
      · exact hround
      · exact hallowed x hx
      · exact hround
    have hskip := insideParens_of_notRound hall (depth + 1) (w ++ r)
    have hshape : quote :: (v ++ quote :: w) ++ r = quote :: (v ++ [quote]) ++ (w ++ r) := by simp
    rw [hshape, hskip, ih, Option.map_map]
    congr 1
    funext u
    simp
  | @bracketed x y hpair v w _ _ ihv ihw =>
    have hshape : x :: (v ++ y :: w) ++ r = x :: (v ++ y :: (w ++ r)) := by simp
    rw [hshape]
    rcases closerOf?_cases hpair with ⟨rfl, rfl⟩ | hother
    · rw [insideParens_open, ihv, insideParens_close, ihw]
      simp [Function.comp_def]
    · have hround : NotRound x ∧ NotRound y := by
        rcases hother with ⟨rfl, rfl⟩ | ⟨rfl, rfl⟩ <;> simp [NotRound]
      have hx := insideParens_of_notRound (v := [x]) (by simpa using hround.1) (depth + 1)
        (v ++ y :: (w ++ r))
      have hy := insideParens_of_notRound (v := [y]) (by simpa using hround.2) (depth + 1) (w ++ r)
      rw [List.singleton_append] at hx hy
      rw [hx, ihv, hy, ihw]
      simp [Function.comp_def]

/-- A text closes `depth` round brackets more than it opens, and no part at its beginning more than
that. -/
def Closes (depth : Nat) (cs : List Char) : Prop :=
  (∀ p, p <+: cs → p.count ')' ≤ depth + p.count '(') ∧ cs.count ')' = depth + cs.count '('

theorem closes_zero_iff (cs : List Char) : Closes 0 cs ↔ RoundBalanced cs := by
  simp [Closes, RoundBalanced]

theorem forall_prefix_cons_iff (P : List Char → Prop) (c : Char) (cs : List Char) :
    (∀ p, p <+: c :: cs → P p) ↔ P [] ∧ ∀ p, p <+: cs → P (c :: p) := by
  constructor
  · exact fun h => ⟨h [] List.nil_prefix, fun p hp => h _ ((List.prefix_cons_inj c).2 hp)⟩
  · rintro ⟨hnil, hcons⟩ p hp
    rcases List.prefix_cons_iff.1 hp with rfl | ⟨q, rfl, hq⟩
    · exact hnil
    · exact hcons q hq

theorem closes_open_iff (depth : Nat) (cs : List Char) :
    Closes depth ('(' :: cs) ↔ Closes (depth + 1) cs := by
  have hadd (n : Nat) : depth + 1 + n = depth + (n + 1) := by omega
  simp [Closes, forall_prefix_cons_iff, hadd]

theorem closes_close_iff (depth : Nat) (cs : List Char) :
    Closes (depth + 1) (')' :: cs) ↔ Closes depth cs := by
  have hle (m n : Nat) : m + 1 ≤ depth + 1 + n ↔ m ≤ depth + n := by omega
  have heq (m n : Nat) : m + 1 = depth + 1 + n ↔ m = depth + n := by omega
  simp [Closes, forall_prefix_cons_iff, hle, heq]

theorem not_closes_close (cs : List Char) : ¬ Closes 0 (')' :: cs) := by
  intro h
  have := h.1 [')'] (by simp)
  simp at this

theorem closes_cons_iff {c : Char} (hc : NotRound c) (depth : Nat) (cs : List Char) :
    Closes depth (c :: cs) ↔ Closes depth cs := by
  simp [Closes, forall_prefix_cons_iff, hc.1, hc.2]

theorem insideParens_concat_iff (depth : Nat) (cs : List Char) :
    insideParens (depth + 1) (cs ++ [')']) = some cs ↔ Closes depth cs := by
  induction cs generalizing depth with
  | nil => cases depth <;> simp [insideParens, Closes]
  | cons c cs ih =>
    rw [List.cons_append]
    by_cases hopen : c = '('
    · subst hopen
      rw [insideParens_open, closes_open_iff, ← ih]
      simp
    by_cases hclose : c = ')'
    · subst hclose
      cases depth with
      | zero => simp [insideParens_last, not_closes_close]
      | succ depth =>
        rw [insideParens_close, closes_close_iff, ← ih]
        simp
    · have hone := insideParens_of_notRound (v := [c]) (by simp [NotRound, hopen, hclose])
        (depth + 1) (cs ++ [')'])
      rw [List.singleton_append] at hone
      rw [hone, closes_cons_iff ⟨hopen, hclose⟩, ← ih]
      simp

theorem unwrap?_parenthesized_iff (cs : List Char) :
    unwrap? (parenthesized cs) = some cs ↔ RoundBalanced cs := by
  rw [← closes_zero_iff]
  exact insideParens_concat_iff 0 cs

theorem unwrap?_parenthesized_eq_none {cs : List Char} (h : ¬ RoundBalanced cs) :
    unwrap? (parenthesized cs) = none := by
  cases hu : unwrap? (parenthesized cs) with
  | none => rfl
  | some inner =>
    have hinner : cs = inner := by
      have := unwrap?_append hu
      simpa [parenthesized] using this
    rw [← hinner] at hu
    exact absurd ((unwrap?_parenthesized_iff cs).1 hu) h

theorem roundBalanced_of_matched {cs : List Char} (h : Matched NotRound cs) :
    RoundBalanced cs := by
  rw [← closes_zero_iff, ← insideParens_concat_iff, insideParens_matched h, insideParens_last]
  simp

theorem trim_parenthesized (cs : List Char) : trim (parenthesized cs) = parenthesized cs := by
  have hstart : trimStart (parenthesized cs) = parenthesized cs :=
    List.dropWhile_cons_of_neg (by decide)
  rw [trim, hstart]
  exact trimEnd_concat ('(' :: cs) (by decide)

theorem leading_parenthesized (cs : List Char) : leading (parenthesized cs) = [] :=
  List.takeWhile_cons_of_neg (by decide)

theorem literal?_parenthesized (cs : List Char) : literal? (parenthesized cs) = none := by
  simp [literal?, parenthesized, stringLiteral?, isPlainLiteral, startsNumber, isQuote]

theorem read_parenthesized_of_balanced {cs : List Char} (h : RoundBalanced cs) (o : Nat) :
    read o (parenthesized cs) = read (o + 1) cs := by
  have hunwrap := (unwrap?_parenthesized_iff cs).2 h
  rw [← trim_parenthesized] at hunwrap
  rw [read_of_unwrap hunwrap, leading_parenthesized]
  rfl

theorem read_parenthesized_of_not_balanced {allowed : Char → Prop} {cs : List Char}
    (hcs : Matched allowed cs) (h : ¬ RoundBalanced cs) (o : Nat) :
    read o (parenthesized cs) = .other (.ofList (parenthesized cs)) := by
  have hunwrap := unwrap?_parenthesized_eq_none h
  have hternary : ternary? (parenthesized cs) = none := by
    simp [ternary?, parenthesized, hcs.topLevel_enclosed]
  rw [← trim_parenthesized] at hunwrap hternary
  rw [read_of_none hunwrap hternary, trim_parenthesized, literal?_parenthesized]

theorem length_le_of_read_eq_other {o : Nat} {cs : List Char} {text : String}
    (h : read o cs = .other text) : text.toList.length ≤ cs.length := by
  fun_induction read o cs with
  | case1 o cs start inner hu ih =>
    have hlen := congrArg List.length (unwrap?_append hu)
    have hle := length_trim_le cs
    have := ih h
    simp only [List.length_cons, List.length_append] at hlen
    omega
  | case2 => cases h
  | case3 => cases h
  | case4 o cs =>
    cases h
    rw [String.toList_ofList]
    exact length_trim_le cs

theorem read_parenthesized_iff {allowed : Char → Prop} {cs : List Char}
    (hcs : Matched allowed cs) (o : Nat) :
    read o (parenthesized cs) = read (o + 1) cs ↔ RoundBalanced cs := by
  constructor
  · intro heq
    by_contra h
    rw [read_parenthesized_of_not_balanced hcs h] at heq
    have := length_le_of_read_eq_other heq.symm
    simp only [parenthesized, String.toList_ofList, List.length_cons, List.length_append] at this
    omega
  · exact fun h => read_parenthesized_of_balanced h o

/-- An expression with closed quotes and balanced brackets is read in round brackets as it is read
without them just if its round brackets are balanced with those inside quotes counted too, as they
are if there are none inside quotes. Otherwise nothing of it is read. -/
theorem read_parenthesized {cs : List Char} (hcs : Matched (fun _ => True) cs) (o : Nat) :
    (read o (parenthesized cs) = read (o + 1) cs ↔ RoundBalanced cs) ∧
    (Matched NotRound cs → RoundBalanced cs) ∧
    (¬ RoundBalanced cs → read o (parenthesized cs) = .other (.ofList (parenthesized cs))) :=
  ⟨read_parenthesized_iff hcs o, roundBalanced_of_matched,
    fun h => read_parenthesized_of_not_balanced hcs h o⟩

def conditionalOn (x : Char) : List Char := ['a', '?', '\x27', x, '\x27', ':', 'b']

theorem matched_conditionalOn {allowed : Char → Prop} {x : Char} (hquote : x ≠ '\x27')
    (hescape : x ≠ '\x5c') (hx : allowed x) : Matched allowed (conditionalOn x) := by
  have hend : Matched allowed [':', 'b'] := .cons rfl (.cons rfl .nil)
  have hinner : Quoted '\x27' [x] := .cons hquote hescape .nil
  exact .cons rfl (.cons rfl (.quoted rfl hinner (by simpa using hx) hend))

theorem read_parenthesized_conditional :
    (read 0 (parenthesized (conditionalOn 'c')) = read 1 (conditionalOn 'c') ↔
      RoundBalanced (conditionalOn 'c')) ∧
    (Matched NotRound (conditionalOn 'c') → RoundBalanced (conditionalOn 'c')) ∧
    (¬ RoundBalanced (conditionalOn 'c') → read 0 (parenthesized (conditionalOn 'c')) =
      .other (.ofList (parenthesized (conditionalOn 'c')))) :=
  read_parenthesized (matched_conditionalOn (by decide) (by decide) trivial) 0

theorem exists_read_parenthesized_ne :
    ∃ cs o, Matched (fun _ => True) cs ∧ read o (parenthesized cs) ≠ read (o + 1) cs := by
  have hcs : Matched (fun _ => True) (conditionalOn ')') :=
    matched_conditionalOn (by decide) (by decide) trivial
  refine ⟨_, 1, hcs, fun h => ?_⟩
  have hbalanced := (read_parenthesized_iff hcs 1).1 h
  exact absurd hbalanced.2 (by decide)

end Expr

end ClassWeave.Markup

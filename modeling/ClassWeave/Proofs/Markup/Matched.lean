import ClassWeave.Proofs.Markup.Canonical
import ClassWeave.Proofs.Text.Spots

namespace ClassWeave

namespace Text

def Spot.followedBy (more : List Char) (s : Spot) : Spot := { s with after := s.after ++ more }

theorem spotsFrom_append_right (before : List Char) (n : Nesting) (cs more : List Char) :
    spotsFrom before n (cs ++ more) = (spotsFrom before n cs).map (Spot.followedBy more) ++
      spotsFrom (cs.reverse ++ before) (n.run .all cs) more := by
  induction cs generalizing before n with
  | nil => rfl
  | cons c cs ih =>
    have hrest := ih (c :: before) (n.next .all c)
    have hreverse : (c :: cs).reverse ++ before = cs.reverse ++ c :: before := by simp
    rw [hreverse]
    rw [List.cons_append, spotsFrom, spotsFrom, hrest]
    split
    · rfl
    · rfl

theorem Nesting.run_append (b : Brackets) (n : Nesting) (v w : List Char) :
    n.run b (v ++ w) = (n.run b v).run b w := List.foldl_append

end Text

namespace Markup

open Text Canonical

def closerOf? : Char → Option Char
  | '(' => some ')'
  | '[' => some ']'
  | '\x7b' => some '\x7d'
  | _ => none

/-- All quotes are closed, and all brackets outside of them are balanced, each with one of its own
shape. Inside quotes stand only characters that are `allowed` there. -/
inductive Matched (allowed : Char → Prop) : List Char → Prop
  | nil : Matched allowed []
  | cons {x : Char} (hx : isOrdinary x = true) {w : List Char} (h : Matched allowed w) :
      Matched allowed (x :: w)
  | quoted {quote : Char} (hquote : isQuote quote = true) {v w : List Char} (hv : Quoted quote v)
      (hallowed : ∀ x ∈ v, allowed x) (hw : Matched allowed w) :
      Matched allowed (quote :: (v ++ quote :: w))
  | bracketed {x y : Char} (hpair : closerOf? x = some y) {v w : List Char}
      (hv : Matched allowed v) (hw : Matched allowed w) : Matched allowed (x :: (v ++ y :: w))

theorem closerOf?_cases {x y : Char} (h : closerOf? x = some y) :
    x = '(' ∧ y = ')' ∨ x = '[' ∧ y = ']' ∨ x = '\x7b' ∧ y = '\x7d' := by
  rw [closerOf?.eq_def] at h
  split at h
  · exact .inl ⟨rfl, (Option.some.inj h).symm⟩
  · exact .inr (.inl ⟨rfl, (Option.some.inj h).symm⟩)
  · exact .inr (.inr ⟨rfl, (Option.some.inj h).symm⟩)
  · cases h

namespace Matched

variable {allowed : Char → Prop} {v w : List Char}

theorem append (hv : Matched allowed v) (hw : Matched allowed w) : Matched allowed (v ++ w) := by
  induction hv with
  | nil => exact hw
  | cons hx _ ih => exact cons hx ih
  | @quoted quote hquote u v hu hallowed _ ih =>
    have := quoted hquote hu hallowed ih
    simpa using this
  | @bracketed x y hpair u v hu _ _ ih =>
    have := bracketed hpair hu ih
    simpa using this

theorem enclosed (h : Matched allowed w) : Matched allowed ('(' :: (w ++ [')'])) :=
  bracketed rfl h nil

end Matched

theorem next_inside_quote {quote : Char} (hquote : isQuote quote = true) (d : Nat) :
    (Nesting.mk (.inside quote) d).next .all quote = ⟨.plain, d⟩ := by
  have hescape : quote ≠ '\x5c' := by
    rintro rfl
    cases hquote
  simp [Nesting.next, Quoting.next, hescape]

theorem run_quoted {quote : Char} {v : List Char} (hv : Quoted quote v) (d : Nat) :
    Nesting.run .all ⟨.inside quote, d⟩ v = ⟨.inside quote, d⟩ := by
  induction hv with
  | nil => rfl
  | escaped x _ ih => exact ih
  | @cons x hquote hescape v _ ih =>
    have hnext : (Nesting.mk (.inside quote) d).next .all x = ⟨.inside quote, d⟩ := by
      simp [Nesting.next, Quoting.next, hquote, hescape]
    rw [Nesting.run, List.foldl_cons, hnext]
    exact ih

theorem next_quote {quote : Char} (hquote : isQuote quote = true) (d : Nat) :
    (Nesting.mk .plain d).next .all quote = ⟨.inside quote, d⟩ := by
  simp only [isQuote, Bool.or_eq_true, beq_iff_eq] at hquote
  rcases hquote with (rfl | rfl) | rfl <;> rfl

theorem next_ordinary {x : Char} (hx : isOrdinary x = true) (d : Nat) :
    (Nesting.mk .plain d).next .all x = ⟨.plain, d⟩ := by
  simp only [isOrdinary, Bool.and_eq_true, Bool.not_eq_true'] at hx
  simp [Nesting.next, Quoting.next, hx]

theorem next_opener {x y : Char} (h : closerOf? x = some y) (d : Nat) :
    (Nesting.mk .plain d).next .all x = ⟨.plain, d + 1⟩ := by
  rcases closerOf?_cases h with ⟨rfl, -⟩ | ⟨rfl, -⟩ | ⟨rfl, -⟩ <;> rfl

theorem next_closer {x y : Char} (h : closerOf? x = some y) (d : Nat) :
    (Nesting.mk .plain (d + 1)).next .all y = ⟨.plain, d⟩ := by
  rcases closerOf?_cases h with ⟨-, rfl⟩ | ⟨-, rfl⟩ | ⟨-, rfl⟩ <;> rfl

theorem Matched.run_eq {allowed : Char → Prop} {w : List Char} (h : Matched allowed w) (d : Nat) :
    Nesting.run .all ⟨.plain, d⟩ w = ⟨.plain, d⟩ := by
  induction h generalizing d with
  | nil => rfl
  | cons hx _ ih =>
    rw [Nesting.run, List.foldl_cons, next_ordinary hx]
    exact ih d
  | quoted hquote hv _ _ ih =>
    rw [Nesting.run, List.foldl_cons, next_quote hquote, ← Nesting.run, Nesting.run_append,
      run_quoted hv, Nesting.run, List.foldl_cons, next_inside_quote hquote]
    exact ih d
  | bracketed hpair _ _ ihv ihw =>
    rw [Nesting.run, List.foldl_cons, next_opener hpair, ← Nesting.run, Nesting.run_append,
      ihv (d + 1), Nesting.run, List.foldl_cons, next_closer hpair]
    exact ihw d

theorem spotsFrom_cons_of_ne_top {n : Nesting} (hn : n ≠ .top) (before : List Char) (c : Char)
    (cs : List Char) :
    spotsFrom before n (c :: cs) = spotsFrom (c :: before) (n.next .all c) cs := by
  rw [spotsFrom, if_neg fun h => hn h.1]

theorem spotsFrom_quoted {quote : Char} {v : List Char} (hv : Quoted quote v) (d : Nat)
    (before : List Char) : spotsFrom before ⟨.inside quote, d⟩ v = [] := by
  induction hv generalizing before with
  | nil => rfl
  | escaped x _ ih =>
    rw [spotsFrom_cons_of_ne_top (by simp [Nesting.top])]
    have hnext : (Nesting.mk (.inside quote) d).next .all '\x5c' = ⟨.escaped quote, d⟩ := rfl
    rw [hnext, spotsFrom_cons_of_ne_top (by simp [Nesting.top])]
    exact ih _
  | @cons x hquote hescape v _ ih =>
    have hnext : (Nesting.mk (.inside quote) d).next .all x = ⟨.inside quote, d⟩ := by
      simp [Nesting.next, Quoting.next, hquote, hescape]
    rw [spotsFrom_cons_of_ne_top (by simp [Nesting.top]), hnext]
    exact ih _

theorem Matched.spotsFrom_eq_nil {allowed : Char → Prop} {w : List Char} (h : Matched allowed w)
    (d : Nat) (before : List Char) : spotsFrom before ⟨.plain, d + 1⟩ w = [] := by
  induction h generalizing before d with
  | nil => rfl
  | cons hx _ ih =>
    rw [spotsFrom_cons_of_ne_top (by simp [Nesting.top]), next_ordinary hx]
    exact ih d _
  | quoted hquote hv _ _ ih =>
    rw [spotsFrom_cons_of_ne_top (by simp [Nesting.top]), next_quote hquote,
      spotsFrom_append_right, spotsFrom_quoted hv, run_quoted hv,
      spotsFrom_cons_of_ne_top (by simp [Nesting.top]), next_inside_quote hquote, ih]
    rfl
  | bracketed hpair _ _ ihv ihw =>
    have hv := ihv (d + 1)
    rw [spotsFrom_cons_of_ne_top (by simp [Nesting.top]), next_opener hpair,
      spotsFrom_append_right, hv, Matched.run_eq ‹_›,
      spotsFrom_cons_of_ne_top (by simp [Nesting.top]), next_closer hpair, ihw]
    rfl

theorem Matched.topLevel_enclosed {allowed : Char → Prop} {w : List Char}
    (h : Matched allowed w) : topLevel ('(' :: (w ++ [')'])) = [] := by
  have hopen : Nesting.top.next .all '(' = ⟨.plain, 1⟩ := rfl
  rw [topLevel, spotsFrom, hopen, spotsFrom_append_right, h.spotsFrom_eq_nil 0, h.run_eq 1]
  rfl

end Markup

end ClassWeave

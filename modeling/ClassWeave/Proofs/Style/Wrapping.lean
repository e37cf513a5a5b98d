import ClassWeave.Proofs.Style.TopLevel
import ClassWeave.Style.Rule

/-!
What becomes of a list of selectors when each of them is wrapped. The brackets of the wrapping put a
second reader one level deeper than the first one, and no closing bracket can bring it out of step by
more than that level; so it makes no cut where the first one made none.
-/

namespace ClassWeave.Style

open Text

namespace SplitState

structure Deeper (s t : SplitState) : Prop where
  escaped : t.escaped = s.escaped
  quote : t.quote = s.quote
  le : s.depth ≤ t.depth
  le_succ : t.depth ≤ s.depth + 1

theorem Deeper.next {s t : SplitState} (h : Deeper s t) (c : Char) :
    Deeper (s.next c) (t.next c) := by
  obtain ⟨_, _, depth⟩ := s
  obtain ⟨escaped, quote, depth'⟩ := t
  obtain ⟨rfl, rfl, hle, hsucc⟩ := h
  simp only at hle hsucc
  -- both readers take the same way, as the depth does not matter for which one it is
  cases quote
  all_goals
    simp only [SplitState.next]
    split_ifs
    all_goals
      refine ⟨rfl, rfl, ?_, ?_⟩
      all_goals
        simp only
        omega

theorem Deeper.run {s t : SplitState} (h : Deeper s t) (cs : List Char) :
    Deeper (s.run cs) (t.run cs) := by
  induction cs generalizing s t with
  | nil => exact h
  | cons c cs ih => exact ih (h.next c)

theorem Deeper.eq_start {s : SplitState} (h : Deeper s start) : s = start := by
  obtain ⟨escaped, quote, depth⟩ := s
  obtain ⟨hescaped, hquote, hdepth, -⟩ := h
  simp only [start] at hescaped hquote hdepth ⊢
  rw [← hescaped, ← hquote, Nat.le_zero.1 hdepth]

def inside : SplitState := ⟨false, none, 1⟩

theorem deeper_inside : Deeper start inside :=
  ⟨rfl, rfl, Nat.zero_le 1, Nat.le_refl 1⟩

theorem Deeper.next_closing {t : SplitState} (h : Deeper start t) : t.next ')' = start := by
  obtain ⟨escaped, quote, depth⟩ := t
  obtain ⟨hescaped, hquote, -, hdepth⟩ := h
  simp only [start] at hescaped hquote hdepth
  subst hescaped hquote
  have hclosed : depth - 1 = 0 := by omega
  simp [SplitState.next, start, hclosed]

theorem eq_of_escaped_next {s : SplitState} {c : Char} (h : (s.next c).escaped = true) :
    c = '\x5c' := by
  by_contra hc
  obtain ⟨escaped, quote, depth⟩ := s
  cases quote
  all_goals
    simp only [next] at h
    split_ifs at h
    all_goals
      apply absurd h
      assumption

theorem getLast?_of_escaped {v : List Char} (h : (start.run v).escaped = true) :
    v.getLast? = some '\x5c' := by
  rcases List.eq_nil_or_concat' v with rfl | ⟨u, c, rfl⟩
  · cases h
  · rw [run_append] at h
    rw [eq_of_escaped_next h, List.getLast?_concat]

theorem quote_next {s : SplitState} (h : ∀ q, s.quote = some q → isBlank q = false) (c : Char) :
    ∀ q, (s.next c).quote = some q → isBlank q = false := by
  intro q hq
  obtain ⟨escaped, quote, depth⟩ := s
  cases quote with
  | none =>
    simp only [next] at hq
    split_ifs at hq with _ _ hmark
    cases hq
    rcases hmark with rfl | rfl
    all_goals rfl
  | some p =>
    simp only [next] at hq
    split_ifs at hq
    all_goals exact h q hq

theorem quote_run {s : SplitState} (h : ∀ q, s.quote = some q → isBlank q = false)
    (cs : List Char) : ∀ q, (s.run cs).quote = some q → isBlank q = false := by
  induction cs generalizing s with
  | nil => exact h
  | cons c cs ih => exact ih (quote_next h c)

theorem run_blanks {s : SplitState} {w : List Char} (hescaped : s.escaped = false)
    (hquote : ∀ q, s.quote = some q → isBlank q = false) (hw : ∀ x ∈ w, isBlank x = true) :
    s.run w = s := by
  induction w with
  | nil => rfl
  | cons c w ih =>
    rw [List.forall_mem_cons] at hw
    have hne : s.quote ≠ some c := by
      intro hq
      rw [hquote c hq] at hw
      exact Bool.false_ne_true hw.1
    rw [run, List.foldl_cons, next_eq_self hescaped hne (isDelimiter_of_isBlank hw.1)]
    exact ih hw.2

/-- A blank is lost to a trimmed text only if a backslash keeps it. -/
theorem run_trim {p : List Char} (h : (trim p).getLast? ≠ some '\x5c') :
    start.run (trim p) = start.run p := by
  have hescaped : (start.run (trim p)).escaped = false := by
    rw [← Bool.not_eq_true]
    exact fun he => h (getLast?_of_escaped he)
  have hstart : start.run (leading p) = start := run_blanks rfl nofun (blanks_leading p)
  have hquote : ∀ q, (start.run (trim p)).quote = some q → isBlank q = false :=
    quote_run (s := start) nofun (trim p)
  have hend := run_blanks hescaped hquote (blanks_trailing (trimStart p))
  calc start.run (trim p) = (start.run (trim p)).run (trailing (trimStart p)) := hend.symm
    _ = start.run (leading p ++ (trim p ++ trailing (trimStart p))) := by
      rw [run_append, hstart, run_append]
    _ = start.run p := by rw [leading_append_trim_append]

end SplitState

theorem Uncut.trim {separator : Char} {p : List Char} (h : Uncut separator .start p) :
    Uncut separator .start (trim p) := by
  rintro a b hab ha
  have hstart : SplitState.start.run (leading p) = .start :=
    SplitState.run_blanks rfl nofun (blanks_leading p)
  apply h (leading p ++ a) (b ++ trailing (trimStart p))
  · have hp := leading_append_trim_append p
    rw [hab] at hp
    simpa using hp.symm
  · rw [SplitState.run_append, hstart, ha]

theorem pairwise_splitFrom {separator : Char} {s : SplitState} {cs p : List Char}
    {ps : List (List Char)} (h : splitFrom separator s cs = p :: ps) :
    (ps ≠ [] → s.run p = .start) ∧ ps.Pairwise fun q _ => SplitState.start.run q = .start := by
  induction cs generalizing s p ps with
  | nil =>
    cases h
    exact ⟨fun h => absurd rfl h, .nil⟩
  | cons c cs ih =>
    rw [splitFrom] at h
    split at h
    · next hcut =>
      cases h
      refine ⟨fun _ => hcut.1, ?_⟩
      obtain ⟨q, qs, hq⟩ := exists_splitFrom separator .start cs
      obtain ⟨hfirst, hrest⟩ := ih hq
      rw [hq, List.pairwise_cons]
      exact ⟨fun _ hr => hfirst (List.ne_nil_of_mem hr), hrest⟩
    · obtain ⟨q, qs, hq⟩ := exists_splitFrom separator (s.next c) cs
      rw [hq, List.modifyHead_cons] at h
      cases h
      obtain ⟨hfirst, hrest⟩ := ih hq
      exact ⟨hfirst, hrest⟩

theorem pairwise_splitTopLevel (separator : Char) (cs : List Char) :
    (splitTopLevel separator cs).Pairwise fun p _ => SplitState.start.run p = .start := by
  obtain ⟨p, ps, hp⟩ := exists_splitFrom separator .start cs
  obtain ⟨hfirst, hrest⟩ := pairwise_splitFrom hp
  rw [splitTopLevel, hp, List.pairwise_cons]
  exact ⟨fun _ hr => hfirst (List.ne_nil_of_mem hr), hrest⟩

theorem splitFrom_append_of_concat {separator : Char} {s : SplitState} {v l : List Char}
    {us : List (List Char)} (h : splitFrom separator s v = us ++ [l]) (w : List Char) :
    splitFrom separator s (v ++ w) =
      us ++ (splitFrom separator (s.run v) w).modifyHead (l ++ ·) := by
  induction v generalizing s us l with
  | nil =>
    obtain ⟨rfl, rfl⟩ : us = [] ∧ l = [] := by
      rcases List.singleton_eq_append_iff.1 h with ⟨hus, hl⟩ | ⟨-, hl⟩
      · exact ⟨hus, (List.cons.inj hl).1⟩
      · cases hl
    exact (congrFun List.modifyHead_id _).symm
  | cons c v ih =>
    rw [splitFrom] at h
    rw [List.cons_append, splitFrom]
    split at h
    · next hcut =>
      rw [if_pos hcut]
      obtain ⟨rfl, rfl, hseparator⟩ := hcut
      cases us with
      | nil => exact absurd (List.cons.inj h).2 (splitFrom_ne_nil _ _ _)
      | cons u us =>
        obtain ⟨rfl, hrest⟩ := List.cons.inj h
        have hnext : SplitState.start.run (c :: v) = SplitState.start.run v :=
          congrArg (·.run v) (SplitState.next_start_of_not_isDelimiter hseparator)
        rw [ih hrest, hnext, List.cons_append]
    · next hcut =>
      rw [if_neg hcut]
      obtain ⟨q, qs, hq⟩ := exists_splitFrom separator (s.next c) v
      rw [hq, List.modifyHead_cons] at h
      cases us with
      | nil =>
        obtain ⟨rfl, rfl⟩ := List.cons.inj h
        have hparts : splitFrom separator (s.next c) v = [] ++ [q] := hq
        rw [ih hparts, List.nil_append, List.modifyHead_modifyHead]
        rfl
      | cons u us =>
        obtain ⟨rfl, rfl⟩ := List.cons.inj h
        have hparts : splitFrom separator (s.next c) v = (q :: us) ++ [l] := hq
        rw [ih hparts]
        rfl

theorem map_trim_splitTopLevel_blanks {w : List Char} (hw : ∀ x ∈ w, isBlank x = true)
    (cs : List Char) :
    (splitTopLevel ',' (w ++ cs)).map trim = (splitTopLevel ',' cs).map trim := by
  have hclosed : Closed ',' w := closed_of_blanks rfl hw
  obtain ⟨p, ps, hp⟩ := exists_splitFrom ',' .start cs
  rw [hclosed.splitTopLevel_append, splitTopLevel, hp, List.modifyHead_cons, List.map_cons,
    List.map_cons, trim_blanks_append hw]

theorem map_trim_splitTopLevel_intercalate {ws : List (List Char)} (hne : ws ≠ [])
    (hwhole : ws.Pairwise fun w _ => SplitState.start.run w = .start)
    (hws : ∀ w ∈ ws, Uncut ',' .start w ∧ trim w = w) :
    (splitTopLevel ',' (", ".toList.intercalate ws)).map trim = ws := by
  induction ws with
  | nil => exact absurd rfl hne
  | cons w ws ih =>
    rw [List.forall_mem_cons] at hws
    obtain ⟨⟨huncut, htrim⟩, hws⟩ := hws
    obtain ⟨hfirst, hrest⟩ := List.pairwise_cons.1 hwhole
    cases ws with
    | nil =>
      rw [List.intercalate_singleton, (Uncut.iff (by decide)).1 huncut, List.map_singleton, htrim]
    | cons v vs =>
      -- another text follows, so that nothing is open at the comma
      have hwhole := hfirst v List.mem_cons_self
      have hblank := map_trim_splitTopLevel_blanks (w := [' ']) (List.forall_mem_singleton.2 rfl)
        (", ".toList.intercalate (v :: vs))
      rw [ih (by simp) hrest hws] at hblank
      have htext : ", ".toList.intercalate (w :: v :: vs) =
          w ++ ',' :: ([' '] ++ ", ".toList.intercalate (v :: vs)) := by
        rw [List.intercalate_cons_cons, List.append_assoc]
        rfl
      rw [htext, splitTopLevel, splitFrom_append_separator (by decide) hwhole,
        ← splitTopLevel, (Uncut.iff (by decide)).1 huncut, List.map_append, hblank,
        List.map_singleton, htrim, List.singleton_append]

def wrapped (p : List Char) : List Char := ":global(".toList ++ p ++ [')']

theorem wrapped_eq (p : List Char) : wrapped p = ":global(".toList ++ p ++ [')'] := rfl

theorem wrapGlobal_eq (selector : List Char) :
    wrapGlobal selector = ", ".toList.intercalate ((selectorParts selector).map wrapped) := rfl

theorem trim_wrapped (p : List Char) : trim (wrapped p) = wrapped p := by
  have hclose : isBlank ')' = false := by decide
  have hstart : trimStart (wrapped p) = wrapped p := List.dropWhile_cons_of_neg (by decide)
  have hend : trimEnd (wrapped p) = wrapped p := by
    rw [wrapped_eq, trimEnd_concat _ hclose]
  rw [trim, hstart, hend]

theorem run_wrapping : SplitState.start.run ":global(".toList = .inside := by decide

theorem whole_wrapped {p : List Char} (h : SplitState.start.run p = .start) :
    SplitState.start.run (wrapped p) = .start := by
  have hdeeper := SplitState.deeper_inside.run p
  rw [h] at hdeeper
  rw [wrapped_eq, SplitState.run_append, SplitState.run_append, run_wrapping]
  exact hdeeper.next_closing

theorem uncut_wrapped {p : List Char} (h : Uncut ',' .start p) :
    Uncut ',' .start (wrapped p) := by
  have hinside : Uncut ',' .inside p := by
    rintro a b rfl ha
    have hdeeper := SplitState.deeper_inside.run a
    rw [ha] at hdeeper
    exact h a b rfl hdeeper.eq_start
  apply Uncut.append _ (Uncut.of_not_mem (by decide) _)
  apply (Uncut.of_not_mem (by decide) _).append
  rw [run_wrapping]
  exact hinside

theorem selectorParts_append {selector a b : List Char} (hselector : selector = a ++ ',' :: b)
    (ha : SplitState.start.run a = .start) :
    selectorParts selector = selectorParts a ++ selectorParts b := by
  subst hselector
  rw [selectorParts, splitTopLevel, splitFrom_append_separator (by decide) ha, List.map_append,
    List.filter_append]
  rfl

theorem exists_part_of_open {selector a b : List Char} (hselector : selector = a ++ ',' :: b)
    (ha : SplitState.start.run a ≠ .start) :
    ∃ us l v vs, splitTopLevel ',' selector = us ++ (l ++ ',' :: v) :: vs ∧
      [','].intercalate (us ++ [l]) = a ∧ [','].intercalate (v :: vs) = b := by
  subst hselector
  obtain ⟨us, l, hul⟩ := List.eq_nil_or_concat' (splitTopLevel ',' a) |>.resolve_left
    (splitFrom_ne_nil ',' .start a)
  obtain ⟨v, vs, hv⟩ := exists_splitFrom ',' ((SplitState.start.run a).next ',') b
  refine ⟨us, l, v, vs, ?_, ?_, ?_⟩
  · have hcut : ¬ (SplitState.start.run a = .start ∧ ',' = ',' ∧ isDelimiter ',' = false) :=
      fun h => ha h.1
    rw [splitTopLevel, splitFrom_append_of_concat hul, splitFrom, if_neg hcut, hv]
    rfl
  · rw [← hul]
    exact intercalate_splitFrom ',' .start a
  · rw [← hv]
    exact intercalate_splitFrom ',' _ b

theorem uncut_of_mem_selectorParts {selector p : List Char} (h : p ∈ selectorParts selector) :
    Uncut ',' .start p := by
  obtain ⟨q, hq, rfl⟩ := List.mem_map.1 (List.mem_filter.1 h).1
  exact ((Uncut.iff (by decide)).2 (splitTopLevel_of_mem hq)).trim

theorem pairwise_selectorParts {selector : List Char}
    (h : ∀ p ∈ selectorParts selector, p.getLast? ≠ some '\x5c') :
    (selectorParts selector).Pairwise fun p _ => SplitState.start.run p = .start := by
  have htrimmed : ((splitTopLevel ',' selector).map trim).Pairwise fun p _ =>
      p.getLast? ≠ some '\x5c' → SplitState.start.run p = .start := by
    rw [List.pairwise_map]
    apply (pairwise_splitTopLevel ',' selector).imp
    intro p _ hp hback
    rw [SplitState.run_trim hback, hp]
  apply (htrimmed.filter _).imp_of_mem
  exact fun hp _ hwhole => hwhole (h _ hp)

theorem map_trim_splitTopLevel_wrapGlobal {selector : List Char}
    (h : ∀ p ∈ selectorParts selector, p.getLast? ≠ some '\x5c') :
    (splitTopLevel ',' (wrapGlobal selector)).map trim =
      if selectorParts selector = [] then [[]] else (selectorParts selector).map wrapped := by
  rw [wrapGlobal_eq]
  split
  · next hnil =>
    rw [hnil]
    rfl
  · next hne =>
    apply map_trim_splitTopLevel_intercalate
    · exact List.map_eq_nil_iff.not.2 hne
    · rw [List.pairwise_map]
      exact (pairwise_selectorParts h).imp whole_wrapped
    · rw [List.forall_mem_map]
      exact fun p hp => ⟨uncut_wrapped (uncut_of_mem_selectorParts hp), trim_wrapped p⟩

theorem trim_comma (l v : List Char) : trim (l ++ ',' :: v) = trimStart l ++ ',' :: trimEnd v := by
  have hcomma : isBlank ',' = false := by decide
  rw [trim, trimStart_append_of_not_blank hcomma, trimEnd_append_of_not_blank hcomma]

namespace Rule

theorem toList_selectorText {r : Rule} {wrapDeferred : Bool}
    (h : r.scope.isGlobal wrapDeferred = true) :
    (r.selectorText wrapDeferred).toList = wrapGlobal r.selector.toList := by
  rw [selectorText, if_pos h, String.toList_ofList]

/-- Read again, a wrapped list has each of its selectors once and unchanged. A comma where nothing is
open stands between two of them, and one where a quote, a bracket or an escape is open stays in the
middle of one. -/
theorem splitTopLevel_selectorText {r : Rule} {wrapDeferred : Bool}
    (hglobal : r.scope.isGlobal wrapDeferred = true)
    (hback : ∀ p ∈ selectorParts r.selector.toList, p.getLast? ≠ some '\x5c') :
    (splitTopLevel ',' (r.selectorText wrapDeferred).toList).map trim =
        (if selectorParts r.selector.toList = [] then [[]]
          else (selectorParts r.selector.toList).map wrapped) ∧
      ∀ a b, r.selector.toList = a ++ ',' :: b →
        (SplitState.start.run a = .start →
          selectorParts r.selector.toList = selectorParts a ++ selectorParts b) ∧
        (SplitState.start.run a ≠ .start →
          ∃ us l v vs, splitTopLevel ',' r.selector.toList = us ++ (l ++ ',' :: v) :: vs ∧
            [','].intercalate (us ++ [l]) = a ∧ [','].intercalate (v :: vs) = b ∧
              wrapped (trimStart l ++ ',' :: trimEnd v) ∈
                (splitTopLevel ',' (r.selectorText wrapDeferred).toList).map trim) := by
  have hparts := map_trim_splitTopLevel_wrapGlobal hback
  rw [toList_selectorText hglobal, hparts]
  refine ⟨rfl, ?_⟩
  intro a b hab
  constructor
  · exact selectorParts_append hab
  · intro ha
    obtain ⟨us, l, v, vs, hsplit, hbefore, hbehind⟩ := exists_part_of_open hab ha
    refine ⟨us, l, v, vs, hsplit, hbefore, hbehind, ?_⟩
    have hmem : trimStart l ++ ',' :: trimEnd v ∈ selectorParts r.selector.toList := by
      rw [← trim_comma, selectorParts, hsplit]
      apply List.mem_filter.2
      constructor
      · exact List.mem_map_of_mem (by simp)
      · simp [trim_comma]
    rw [if_neg (List.ne_nil_of_mem hmem)]
    exact List.mem_map_of_mem hmem

def headings : Rule := ⟨"h1, h2:not(.a, .b)", .everywhere, none, [], .preflight, 0⟩

theorem splitTopLevel_selectorText_headings :
    (headings.scope.isGlobal false = true ∧
        ∀ p ∈ selectorParts headings.selector.toList, p.getLast? ≠ some '\x5c') ∧
      (splitTopLevel ',' (headings.selectorText false).toList).map trim =
        [":global(h1)".toList, ":global(h2:not(.a, .b))".toList] := by
  have hparts : selectorParts headings.selector.toList = ["h1".toList, "h2:not(.a, .b)".toList] := by
    decide
  have hback : ∀ p ∈ selectorParts headings.selector.toList, p.getLast? ≠ some '\x5c' := by
    rw [hparts]
    decide
  have hglobal : headings.scope.isGlobal false = true := rfl
  have hwrapped := (splitTopLevel_selectorText hglobal hback).1
  rw [hparts, if_neg (by simp)] at hwrapped
  exact ⟨⟨hglobal, hback⟩, hwrapped⟩

end Rule

end ClassWeave.Style

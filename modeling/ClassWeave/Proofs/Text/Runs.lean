import ClassWeave.Proofs.Text.Words

namespace ClassWeave.Text

def firstRun (w : List Char) : List Char := w.takeWhile fun x => !isBlank x

def lastRun (w : List Char) : List Char := (w.reverse.takeWhile fun x => !isBlank x).reverse

theorem firstRun_append {v s : List Char} (hv : ∀ x ∈ v, isBlank x = false)
    (hs : ∀ x, s.head? = some x → isBlank x = true) : firstRun (v ++ s) = v :=
  takeWhile_append_eq (fun x hx => by simp [hv x hx]) fun x hx => by simp [hs x hx]

theorem lastRun_append {s v : List Char} (hv : ∀ x ∈ v, isBlank x = false)
    (hs : ∀ x, s.getLast? = some x → isBlank x = true) : lastRun (s ++ v) = v := by
  have hreverse := firstRun_append (v := v.reverse) (s := s.reverse)
    (fun x hx => hv x (List.mem_reverse.1 hx)) fun x hx => hs x (by rwa [List.head?_reverse] at hx)
  rw [lastRun, List.reverse_append, ← firstRun, hreverse, List.reverse_reverse]

theorem exists_eq_firstRun_append (w : List Char) :
    ∃ s, w = firstRun w ++ s ∧ ∀ x, s.head? = some x → isBlank x = true := by
  refine ⟨w.dropWhile fun x => !isBlank x, List.takeWhile_append_dropWhile.symm, fun x hx => ?_⟩
  simpa using head?_dropWhile hx

theorem exists_eq_append_lastRun (w : List Char) :
    ∃ s, w = s ++ lastRun w ∧ ∀ x, s.getLast? = some x → isBlank x = true := by
  obtain ⟨s, hs, hblank⟩ := exists_eq_firstRun_append w.reverse
  refine ⟨s.reverse, ?_, fun x hx => hblank x (by rwa [List.getLast?_reverse] at hx)⟩
  rw [lastRun, ← firstRun, ← List.reverse_append, ← hs, List.reverse_reverse]

theorem not_isBlank_of_mem_firstRun {w : List Char} {x : Char} (h : x ∈ firstRun w) :
    isBlank x = false := by
  simpa using List.mem_takeWhile_imp h

theorem not_isBlank_of_mem_lastRun {w : List Char} {x : Char} (h : x ∈ lastRun w) :
    isBlank x = false := by
  simpa using List.mem_takeWhile_imp (List.mem_reverse.1 h)

theorem firstRun_leading_append {w : List Char} (h : leading w ≠ []) (s : List Char) :
    firstRun (leading w ++ s) = [] := by
  obtain ⟨x, u, hu⟩ := List.exists_cons_of_ne_nil h
  have hx : isBlank x = true := blanks_leading w x (by simp [hu])
  simp [hu, firstRun, hx]

theorem firstRun_eq_nil {w : List Char} (h : leading w ≠ []) : firstRun w = [] := by
  simpa [leading_append_trimStart] using firstRun_leading_append h (trimStart w)

theorem lastRun_append_trailing {w : List Char} (h : trailing w ≠ []) (s : List Char) :
    lastRun (s ++ trailing w) = [] := by
  rw [trailing, ne_eq, List.reverse_eq_nil_iff] at h
  rw [lastRun, trailing, List.reverse_append, List.reverse_reverse, ← firstRun, ← leading,
    firstRun_leading_append h, List.reverse_nil]

theorem lastRun_eq_nil {w : List Char} (h : trailing w ≠ []) : lastRun w = [] := by
  simpa [trimEnd_append_trailing] using lastRun_append_trailing h (trimEnd w)

theorem exists_isBlank_leading_append {w : List Char} (h : leading w ≠ []) (s : List Char) :
    ∃ x ∈ leading w ++ s, isBlank x = true := by
  obtain ⟨x, hx⟩ := List.exists_mem_of_ne_nil _ h
  exact ⟨x, List.mem_append_left s hx, blanks_leading w x hx⟩

theorem exists_isBlank_append_trailing {w : List Char} (h : trailing w ≠ []) (s : List Char) :
    ∃ x ∈ s ++ trailing w, isBlank x = true := by
  obtain ⟨x, hx⟩ := List.exists_mem_of_ne_nil _ h
  exact ⟨x, List.mem_append_right s hx, blanks_trailing w x hx⟩

theorem isBlank_head_of_leading {x : Char} {w : List Char} (h : leading (x :: w) = []) :
    isBlank x = false := by
  by_contra hx
  rw [leading, List.takeWhile_cons_of_pos (by simpa using hx)] at h
  cases h

theorem isBlank_last_of_trailing {x : Char} {w : List Char} (h : trailing (w ++ [x]) = []) :
    isBlank x = false := by
  rw [trailing, List.reverse_append, List.reverse_eq_nil_iff] at h
  exact isBlank_head_of_leading h

theorem exists_words_eq_cons {w : List Char} (hne : w ≠ []) (h : leading w = []) :
    ∃ ws, words w = firstRun w :: ws := by
  obtain ⟨s, hs, hblank⟩ := exists_eq_firstRun_append w
  have hword : IsWord (firstRun w) := by
    obtain ⟨x, u, rfl⟩ := List.exists_cons_of_ne_nil hne
    exact ⟨by simp [firstRun, isBlank_head_of_leading h], fun y hy => not_isBlank_of_mem_firstRun hy⟩
  cases s with
  | nil =>
    have hwords := words_of_isWord hword
    rw [List.append_nil] at hs
    rw [← hs] at hwords
    exact ⟨[], by rw [hwords, ← hs]⟩
  | cons x s =>
    have hwords := words_append_blank (hblank x rfl) (firstRun w) s
    rw [← hs, words_of_isWord hword] at hwords
    exact ⟨words s, hwords⟩

theorem exists_words_eq_concat {w : List Char} (hne : w ≠ []) (h : trailing w = []) :
    ∃ ws, words w = ws ++ [lastRun w] := by
  obtain ⟨s, hs, hblank⟩ := exists_eq_append_lastRun w
  have hword : IsWord (lastRun w) := by
    rcases List.eq_nil_or_concat' w with rfl | ⟨u, x, rfl⟩
    · exact absurd rfl hne
    · exact ⟨by simp [lastRun, isBlank_last_of_trailing h],
        fun y hy => not_isBlank_of_mem_lastRun hy⟩
  rcases List.eq_nil_or_concat' s with rfl | ⟨u, x, rfl⟩
  · have hwords := words_of_isWord hword
    rw [List.nil_append] at hs
    rw [← hs] at hwords
    exact ⟨[], by rw [hwords, ← hs, List.nil_append]⟩
  · have hwords := words_append_blank (hblank x (by simp)) u (lastRun w)
    rw [List.append_cons, ← hs, words_of_isWord hword] at hwords
    exact ⟨words u, hwords⟩

theorem two_le_length_words {w : List Char} (hleading : leading w = []) (htrailing : trailing w = [])
    (h : ∃ x ∈ w, isBlank x = true) : 2 ≤ (words w).length := by
  obtain ⟨x, hx, hblank⟩ := h
  obtain ⟨a, b, rfl⟩ := List.append_of_mem hx
  have ha : words a ≠ [] := by
    cases a with
    | nil => simp [leading, hblank] at hleading
    | cons y a => exact words_ne_nil List.mem_cons_self (isBlank_head_of_leading hleading)
  have hb : words b ≠ [] := by
    rcases List.eq_nil_or_concat' b with rfl | ⟨b, z, rfl⟩
    · simp [trailing, hblank] at htrailing
    · refine words_ne_nil (List.mem_append_right b List.mem_cons_self) ?_
      exact isBlank_last_of_trailing (w := a ++ x :: b) (by simpa using htrailing)
  have hlength := List.length_pos_iff.2 ha
  have hlength' := List.length_pos_iff.2 hb
  rw [words_append_blank hblank, List.length_append]
  omega

section

variable {β : Type} (blank : β → Bool)

/-- The maximal runs without a blank that have something in them that was put in. -/
def gluedRuns (l : List (Char ⊕ β)) : List (List (Char ⊕ β)) :=
  (l.splitOnP (Sum.elim isBlank blank)).filter fun r => r.any Sum.isRight

def chars (w : List Char) : List (Char ⊕ β) := w.map .inl

theorem chars_append (v w : List Char) : (chars (v ++ w) : List (Char ⊕ β)) = chars v ++ chars w :=
  List.map_append

@[elab_as_elim]
theorem blank_induction {γ : Type} (p : γ → Bool) {P : List γ → Prop}
    (run : ∀ l, (∀ x ∈ l, p x = false) → P l)
    (append : ∀ a x b, p x = true → P a → P b → P (a ++ x :: b)) (l : List γ) : P l := by
  by_cases h : ∃ x ∈ l, p x = true
  · obtain ⟨x, hx, hp⟩ := h
    obtain ⟨a, b, rfl⟩ := List.append_of_mem hx
    exact append a x b hp (blank_induction p run append a) (blank_induction p run append b)
  · exact run l fun x hx => by simpa using fun hp => h ⟨x, hx, hp⟩
termination_by l.length
decreasing_by
  all_goals
    subst_vars
    simp
    try omega

theorem gluedRuns_append {x : Char ⊕ β} (hx : Sum.elim isBlank blank x = true)
    (a b : List (Char ⊕ β)) :
    gluedRuns blank (a ++ x :: b) = gluedRuns blank a ++ gluedRuns blank b := by
  rw [gluedRuns, List.splitOnP_append_cons a b hx, List.filter_append]
  rfl

theorem gluedRuns_run {l : List (Char ⊕ β)} (h : ∀ x ∈ l, Sum.elim isBlank blank x = false) :
    gluedRuns blank l = if l.any Sum.isRight then [l] else [] := by
  rw [gluedRuns, List.splitOnP_eq_singleton h, List.filter_singleton, cond_eq_ite]

theorem gluedRuns_eq_nil {l : List (Char ⊕ β)} (h : ∀ x ∈ l, x.isRight = false) :
    gluedRuns blank l = [] := by
  induction l using blank_induction (Sum.elim isBlank blank) with
  | run l hl =>
    have hany : l.any Sum.isRight = false := List.any_eq_false.2 fun x hx => by simp [h x hx]
    rw [gluedRuns_run blank hl, hany]
    rfl
  | append a x b hx iha ihb =>
    obtain ⟨ha, hb⟩ := List.forall_mem_append.1 h
    rw [gluedRuns_append blank hx, iha ha, ihb (List.forall_mem_cons.1 hb).2, List.append_nil]

theorem gluedRuns_chars (w : List Char) : gluedRuns blank (chars w) = [] := by
  apply gluedRuns_eq_nil
  intro x hx
  obtain ⟨c, -, rfl⟩ := List.mem_map.1 hx
  rfl

theorem exists_chars_eq_firstRun {w : List Char} (hw : ∃ x ∈ w, isBlank x = true) :
    ∃ x s, isBlank x = true ∧
      (chars w : List (Char ⊕ β)) = chars (firstRun w) ++ .inl x :: chars s := by
  obtain ⟨y, hy, hblank⟩ := hw
  obtain ⟨s, hs, hfirst⟩ := exists_eq_firstRun_append w
  cases s with
  | nil =>
    rw [hs, List.append_nil] at hy
    rw [not_isBlank_of_mem_firstRun hy] at hblank
    cases hblank
  | cons x s =>
    refine ⟨x, s, hfirst x rfl, ?_⟩
    conv_lhs => rw [hs]
    exact chars_append _ _

theorem exists_chars_eq_lastRun {w : List Char} (hw : ∃ x ∈ w, isBlank x = true) :
    ∃ x s, isBlank x = true ∧
      (chars w : List (Char ⊕ β)) = chars s ++ .inl x :: chars (lastRun w) := by
  obtain ⟨y, hy, hblank⟩ := hw
  obtain ⟨s, hs, hlast⟩ := exists_eq_append_lastRun w
  rcases List.eq_nil_or_concat' s with rfl | ⟨s, x, rfl⟩
  · rw [hs, List.nil_append] at hy
    rw [not_isBlank_of_mem_lastRun hy] at hblank
    cases hblank
  · refine ⟨x, s, hlast x (by simp), ?_⟩
    conv_lhs => rw [hs, ← List.append_cons]
    exact chars_append _ _

theorem gluedRuns_around {w : List Char} (hw : ∃ x ∈ w, isBlank x = true)
    (a b : List (Char ⊕ β)) :
    gluedRuns blank (a ++ (chars w ++ b)) =
      gluedRuns blank (a ++ chars (firstRun w)) ++ gluedRuns blank (chars (lastRun w) ++ b) := by
  obtain ⟨x, s, hx, hfirst⟩ := exists_chars_eq_firstRun (β := β) hw
  obtain ⟨y, u, hy, hlast⟩ := exists_chars_eq_lastRun (β := β) hw
  have hleft (a : List (Char ⊕ β)) : gluedRuns blank (a ++ (chars w ++ b)) =
      gluedRuns blank (a ++ chars (firstRun w)) ++ gluedRuns blank (chars s ++ b) := by
    rw [hfirst, ← gluedRuns_append blank (x := .inl x) hx]
    simp
  have hright : gluedRuns blank (chars w ++ b) = gluedRuns blank (chars (lastRun w) ++ b) := by
    rw [hlast, List.append_assoc, List.cons_append, gluedRuns_append blank (x := .inl y) hy,
      gluedRuns_chars, List.nil_append]
  -- Without anything before it the text has nothing glued to it but what stands behind it.
  have hnil := hleft []
  rw [List.nil_append, List.nil_append, gluedRuns_chars, List.nil_append, hright] at hnil
  rw [hleft, hnil]

def fill (value : β → List Char) (l : List (Char ⊕ β)) : List (Char ⊕ Char) :=
  l.flatMap (Sum.elim (fun c => [.inl c]) fun y => (value y).map .inr)

end

theorem gluedRuns_fill {β : Type} (value : β → List Char) (l : List (Char ⊕ β)) :
    gluedRuns isBlank (fill value l) =
      (gluedRuns (fun _ => false) l).flatMap fun r => gluedRuns isBlank (fill value r) := by
  induction l using blank_induction (Sum.elim isBlank fun _ => false) with
  | run l hl =>
    rw [gluedRuns_run _ hl]
    split
    · simp
    · next hany =>
      apply gluedRuns_eq_nil
      intro x hx
      obtain ⟨y, hy, hx⟩ := List.mem_flatMap.1 hx
      cases y with
      | inl c => rw [List.mem_singleton.1 hx]; rfl
      | inr y => exact absurd (List.any_eq_true.2 ⟨_, hy, rfl⟩) hany
  | append a x b hx iha ihb =>
    cases x with
    | inr y => cases hx
    | inl c =>
      have happend : fill value (a ++ .inl c :: b) = fill value a ++ .inl c :: fill value b := by
        simp [fill]
      rw [happend, gluedRuns_append isBlank (by exact hx), gluedRuns_append _ hx, iha, ihb,
        List.flatMap_append]

end ClassWeave.Text

import Mathlib.Data.List.TakeWhile
import ClassWeave.Proofs.Text.Blank
import ClassWeave.Proofs.Text.Cursor

namespace ClassWeave.Text

def IsWord (w : List Char) : Prop := w ≠ [] ∧ ∀ x ∈ w, isBlank x = false

theorem words_of_isWord {w : List Char} (h : IsWord w) : words w = [w] := by
  rw [words, List.splitOnP_eq_singleton h.2]
  simp [h.1]

theorem words_append_blank {x : Char} (hx : isBlank x = true) (a b : List Char) :
    words (a ++ x :: b) = words a ++ words b := by
  rw [words, List.splitOnP_append_cons a b hx, List.filter_append]
  rfl

theorem wordsOf_append_space (a b : String) : wordsOf (a ++ " " ++ b) = wordsOf a ++ wordsOf b := by
  have hlist : (a ++ " " ++ b).toList = a.toList ++ ' ' :: b.toList := by simp
  rw [wordsOf, hlist, words_append_blank rfl, List.map_append]
  rfl

theorem mem_splitOnP {cs w : List Char} (h : w ∈ cs.splitOnP isBlank) :
    ∀ x ∈ w, x ∈ cs ∧ isBlank x = false := by
  induction cs generalizing w with
  | nil =>
    have : w = [] := by simpa using h
    simp [this]
  | cons c cs ih =>
    rw [List.splitOnP_cons_eq_if_modifyHead] at h
    split at h
    · rcases List.mem_cons.1 h with rfl | h
      · simp
      · exact fun x hx => ⟨List.mem_cons_of_mem _ (ih h x hx).1, (ih h x hx).2⟩
    · next hc =>
      obtain ⟨v, vs, hv⟩ := List.exists_cons_of_ne_nil (List.splitOnP_ne_nil isBlank cs)
      rw [hv, List.modifyHead_cons] at h
      rcases List.mem_cons.1 h with rfl | h
      · intro x hx
        rcases List.mem_cons.1 hx with rfl | hx
        · exact ⟨List.mem_cons_self, by simpa using hc⟩
        · have := ih (hv ▸ List.mem_cons_self) x hx
          exact ⟨List.mem_cons_of_mem _ this.1, this.2⟩
      · intro x hx
        have := ih (hv ▸ List.mem_cons_of_mem _ h) x hx
        exact ⟨List.mem_cons_of_mem _ this.1, this.2⟩

theorem isWord_of_mem_words {cs w : List Char} (h : w ∈ words cs) : IsWord w := by
  obtain ⟨hw, hne⟩ := List.mem_filter.1 h
  exact ⟨by simpa using hne, fun x hx => (mem_splitOnP hw x hx).2⟩

theorem mem_of_mem_words {cs w : List Char} (h : w ∈ words cs) : ∀ x ∈ w, x ∈ cs := by
  intro x hx
  exact (mem_splitOnP (List.mem_filter.1 h).1 x hx).1

theorem words_ne_nil {cs : List Char} {x : Char} (hx : x ∈ cs) (hb : isBlank x = false) :
    words cs ≠ [] := by
  induction cs with
  | nil => simp at hx
  | cons c cs ih =>
    by_cases hc : isBlank c = true
    · have hmem : x ∈ cs := by
        rcases List.mem_cons.1 hx with rfl | hx
        · simp [hc] at hb
        · exact hx
      have := words_append_blank hc [] cs
      rw [List.nil_append] at this
      rw [this]
      exact List.append_ne_nil_of_right_ne_nil _ (ih hmem)
    · obtain ⟨v, vs, hv⟩ := List.exists_cons_of_ne_nil (List.splitOnP_ne_nil isBlank cs)
      rw [words, List.splitOnP_cons_eq_if_modifyHead, if_neg hc, hv, List.modifyHead_cons]
      simp

theorem words_intercalate {ws : List (List Char)} (h : ∀ w ∈ ws, IsWord w) :
    words ([' '].intercalate ws) = ws := by
  induction ws with
  | nil => rfl
  | cons w ws ih =>
    have hw := words_of_isWord (h w (by simp))
    by_cases hne : ws = []
    · subst hne
      rw [List.intercalate_singleton, hw]
    · rw [List.intercalate_cons_of_ne_nil hne, List.append_assoc, List.singleton_append,
        words_append_blank rfl, hw, ih fun v hv => h v (List.mem_cons_of_mem _ hv)]
      rfl

def Parted (a b : List Char) : Prop :=
  ∀ x y, a.getLast? = some x → b.head? = some y → isBlank x = true ∨ isBlank y = true

theorem Parted.words_append {a b : List Char} (h : Parted a b) :
    words (a ++ b) = words a ++ words b := by
  rcases List.eq_nil_or_concat' a with rfl | ⟨a, x, rfl⟩
  · rfl
  · cases b with
    | nil => exact (congrArg words (List.append_nil _)).trans (List.append_nil _).symm
    | cons y b =>
      have hnil : words [] = [] := rfl
      rcases h x y List.getLast?_concat rfl with hx | hy
      · rw [List.append_assoc, List.singleton_append, words_append_blank hx,
          words_append_blank hx, hnil, List.append_nil]
      · have hb := words_append_blank hy [] b
        rw [List.nil_append, hnil, List.nil_append] at hb
        rw [words_append_blank hy, hb]

theorem Parted.append {a b c : List Char} (hab : Parted a b) (hac : Parted a c) :
    Parted a (b ++ c) := by
  intro x y hx hy
  cases b with
  | nil => exact hac x y hx hy
  | cons z b => exact hab x y hx hy

theorem words_trimStart (cs : List Char) : words (trimStart cs) = words cs := by
  induction cs with
  | nil => rfl
  | cons c cs ih =>
    by_cases hc : isBlank c = true
    · have hskip := words_append_blank hc [] cs
      rw [trimStart, List.dropWhile_cons_of_pos hc]
      exact ih.trans hskip.symm
    · rw [trimStart, List.dropWhile_cons_of_neg hc]

theorem words_append_blanks {w : List Char} (hw : ∀ x ∈ w, isBlank x = true) (cs : List Char) :
    words (cs ++ w) = words cs := by
  induction w generalizing cs with
  | nil => rw [List.append_nil]
  | cons x w ih =>
    have hrest : words w = [] := ih (fun y hy => hw y (List.mem_cons_of_mem _ hy)) []
    rw [words_append_blank (hw x (by simp)), hrest]
    exact List.append_nil _

structure Tight (m : List Char) : Prop where
  ne_nil : m ≠ []
  head : ∀ x, m.head? = some x → isBlank x = false
  trimEnd_eq : trimEnd m = m

theorem IsWord.trimEnd_eq {w : List Char} (h : IsWord w) : trimEnd w = w := by
  have hlast := List.dropLast_concat_getLast h.1
  rw [← hlast]
  exact trimEnd_concat _ (h.2 _ (List.getLast_mem h.1))

theorem IsWord.tight {w : List Char} (h : IsWord w) : Tight w :=
  ⟨h.1, fun x hx => h.2 x (List.mem_of_mem_head? hx), h.trimEnd_eq⟩

theorem tight_intercalate {ws : List (List Char)} (h : ∀ w ∈ ws, IsWord w) (hne : ws ≠ []) :
    Tight ([' '].intercalate ws) := by
  induction ws with
  | nil => exact absurd rfl hne
  | cons w ws ih =>
    have hw := h w (by simp)
    by_cases hws : ws = []
    · subst hws
      rw [List.intercalate_singleton]
      exact hw.tight
    · have ht := ih (fun v hv => h v (List.mem_cons_of_mem _ hv)) hws
      rw [List.intercalate_cons_of_ne_nil hws]
      refine ⟨?_, ?_, ?_⟩
      · simp [hw.1]
      · intro x hx
        obtain ⟨y, u, rfl⟩ := List.exists_cons_of_ne_nil hw.1
        cases hx
        exact hw.2 x (by simp)
      · rw [trimEnd_append (by rw [ht.trimEnd_eq]; exact ht.ne_nil), ht.trimEnd_eq]

theorem blanks_leading (w : List Char) : ∀ x ∈ leading w, isBlank x = true :=
  fun _ hx => List.mem_takeWhile_imp hx

theorem blanks_trailing (w : List Char) : ∀ x ∈ trailing w, isBlank x = true := by
  intro x hx
  exact List.mem_takeWhile_imp (List.mem_reverse.1 hx)

theorem words_trim (cs : List Char) : words (trim cs) = words cs := by
  have hend := words_append_blanks (blanks_trailing (trimStart cs)) (trimEnd (trimStart cs))
  rw [trimEnd_append_trailing] at hend
  rw [trim, ← hend, words_trimStart]

theorem trimEnd_of_blanks {w : List Char} (h : ∀ x ∈ w, isBlank x = true) : trimEnd w = [] := by
  rw [trimEnd, List.reverse_eq_nil_iff, List.dropWhile_eq_nil_iff]
  exact fun x hx => h x (List.mem_reverse.1 hx)

theorem trim_append_blanks {w : List Char} (hw : ∀ x ∈ w, isBlank x = true) (cs : List Char) :
    trim (cs ++ w) = trim cs := by
  have hnil : trimStart w = [] := List.dropWhile_eq_nil_iff.2 hw
  have happend : trimStart (cs ++ w) = if trimStart cs = [] then [] else trimStart cs ++ w := by
    rw [trimStart, List.dropWhile_append, ← trimStart, ← trimStart, hnil]
    simp only [List.isEmpty_iff]
  rw [trim, trim, happend]
  split
  · next h => rw [h]
  · exact trimEnd_append_of_eq_nil (trimEnd_of_blanks hw)

theorem trim_blanks_append {w : List Char} (hw : ∀ x ∈ w, isBlank x = true) (cs : List Char) :
    trim (w ++ cs) = trim cs := by
  rw [trim, trimStart, List.dropWhile_append_of_pos hw]
  rfl

theorem leading_blanks_append {w : List Char} (hw : ∀ x ∈ w, isBlank x = true) (cs : List Char) :
    leading (w ++ cs) = w ++ leading cs := List.takeWhile_append_of_pos hw

theorem leading_append_of_not_blank {x : Char} (hx : isBlank x = false) (w cs : List Char) :
    leading (w ++ x :: cs) = leading w := by
  induction w with
  | nil => simp [leading, hx]
  | cons y w ih =>
    by_cases hy : isBlank y = true
    · simpa [leading, hy] using ih
    · simp [leading, hy]

theorem trimStart_append_of_not_blank {x : Char} (hx : isBlank x = false) (w cs : List Char) :
    trimStart (w ++ x :: cs) = trimStart w ++ x :: cs := by
  rw [trimStart, List.dropWhile_append, List.dropWhile_cons_of_neg (by simpa using hx)]
  split
  · next h => rw [trimStart, List.isEmpty_iff.1 h, List.nil_append]
  · rfl

theorem trimEnd_append_of_not_blank {x : Char} (hx : isBlank x = false) (w cs : List Char) :
    trimEnd (w ++ x :: cs) = w ++ x :: trimEnd cs := by
  have hlast (v : List Char) : trimEnd (v ++ [x]) = v ++ [x] := trimEnd_concat v hx
  by_cases hcs : trimEnd cs = []
  · rw [List.append_cons, trimEnd_append_of_eq_nil hcs, hlast, hcs]
  · rw [List.append_cons, trimEnd_append hcs, ← List.append_cons]

theorem tight_of_trim_eq {m : List Char} (hne : m ≠ []) (h : trim m = m) : Tight m := by
  refine ⟨hne, fun x hx => ?_, ?_⟩
  · have hstart := trimStart_trim m
    rw [h, trimStart] at hstart
    exact head?_dropWhile (hstart.symm ▸ hx)
  · rw [← h, trim, trimEnd_trimEnd]

section Around

variable {a m b : List Char} (ha : ∀ x ∈ a, isBlank x = true) (hm : Tight m)
  (hb : ∀ x ∈ b, isBlank x = true)

include ha hm

theorem leading_around : leading (a ++ (m ++ b)) = a := by
  apply takeWhile_append_eq ha
  intro x hx
  obtain ⟨y, u, rfl⟩ := List.exists_cons_of_ne_nil hm.ne_nil
  exact hm.head x hx

theorem trimStart_around : trimStart (a ++ (m ++ b)) = m ++ b := by
  apply dropWhile_append_eq ha
  intro x hx
  obtain ⟨y, u, rfl⟩ := List.exists_cons_of_ne_nil hm.ne_nil
  exact hm.head x hx

include hb

theorem trim_around : trim (a ++ (m ++ b)) = m := by
  rw [trim, trimStart_around ha hm, trimEnd_append_of_eq_nil (trimEnd_of_blanks hb), hm.trimEnd_eq]

omit ha in
theorem trailing_around : trailing (a ++ (m ++ b)) = b := by
  have h := trimEnd_append_trailing (a ++ (m ++ b))
  have ht : trimEnd (a ++ (m ++ b)) = a ++ m := by
    rw [← List.append_assoc, trimEnd_append_of_eq_nil (trimEnd_of_blanks hb)]
    have := trimEnd_append (a := a) (by rw [hm.trimEnd_eq]; exact hm.ne_nil)
    rw [this, hm.trimEnd_eq]
  rw [ht] at h
  exact List.append_cancel_left (h.trans (List.append_assoc a m b).symm)

end Around

namespace IsWord

variable {w : List Char} (h : IsWord w)

include h

theorem leading_eq : leading w = [] := by
  simpa using leading_around (a := []) (b := []) (by simp) h.tight

theorem trailing_eq : trailing w = [] := by
  simpa using trailing_around (a := []) (b := []) h.tight (by simp)

theorem trim_eq : trim w = w := by
  simpa using trim_around (a := []) (b := []) (by simp) h.tight (by simp)

end IsWord

end ClassWeave.Text

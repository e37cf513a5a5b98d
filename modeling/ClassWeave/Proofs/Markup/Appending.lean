import ClassWeave.Proofs.Markup.Recovery

namespace ClassWeave.Markup

open Text

def withBreak : List Layout → List Layout
  | [] => [.plain ['\n', '\n']]
  | [.plain w] => [.plain (trimEnd w ++ ['\n', '\n'])]
  | [l] => [l, .plain ['\n', '\n']]
  | l :: ls => l :: withBreak ls

def Layout.isPlain : Layout → Bool
  | plain _ => true
  | _ => false

theorem withBreak_singleton {l : Layout} (h : l.isPlain = false) :
    withBreak [l] = [l, .plain ['\n', '\n']] := by
  cases l with
  | plain w => cases h
  | comment | closing | mustache | opening | content => rfl

theorem withBreak_cons (l : Layout) {ls : List Layout} (h : ls ≠ []) :
    withBreak (l :: ls) = l :: withBreak ls := by
  cases ls with
  | nil => exact absurd rfl h
  | cons k ls => cases l <;> rfl

theorem Layout.exists_concat {l : Layout} (h : l.isPlain = false) :
    ∃ u x, l.text = u ++ [x] ∧ isBlank x = false := by
  cases l with
  | plain w => cases h
  | comment body => exact ⟨'<' :: '!' :: '-' :: '-' :: (body ++ ['-', '-']), '>', by simp [text], rfl⟩
  | closing body => exact ⟨'<' :: '/' :: body, '>', by simp [text], rfl⟩
  | mustache inner => exact ⟨'\x7b' :: inner, '\x7d', by simp [text], rfl⟩
  | opening name tag =>
    obtain ⟨u, hu⟩ := tag.text_eq_append
    exact ⟨'<' :: (name ++ u), '>', by simp [text, hu], rfl⟩
  | content name tag body tail =>
    exact ⟨'<' :: (name ++ (tag.text ++ (body ++ '<' :: '/' :: (name ++ tail)))), '>',
      by simp [text], rfl⟩

theorem Layout.trimEnd_text {l : Layout} (h : l.isPlain = false) : trimEnd l.text = l.text := by
  obtain ⟨u, x, hu, hx⟩ := l.exists_concat h
  rw [hu, trimEnd_concat u hx]

theorem textOf_cons (l : Layout) (ls : List Layout) : textOf (l :: ls) = l.text ++ textOf ls := rfl

theorem textOf_append (ls ks : List Layout) : textOf (ls ++ ks) = textOf ls ++ textOf ks :=
  List.flatMap_append

theorem ValidAll.textOf_ne_nil {ls : List Layout} (h : ValidAll ls) (hne : ls ≠ []) :
    textOf ls ≠ [] := by
  cases ls with
  | nil => exact absurd rfl hne
  | cons l ls =>
    rw [textOf_cons]
    exact List.append_ne_nil_of_left_ne_nil h.1.text_ne_nil _

theorem exists_head_of_plain {w : List Char} {ls : List Layout} (h : ValidAll (.plain w :: ls))
    (hne : ls ≠ []) : ∃ x u, textOf ls = x :: u ∧ Markup.isPlain x = false ∧ isBlank x = false := by
  obtain ⟨⟨-, -, -, hend⟩, hls⟩ := h
  obtain ⟨x, u, hx⟩ := List.exists_cons_of_ne_nil (hls.textOf_ne_nil hne)
  have hmark : Markup.isPlain x = false := by simpa [hx] using hend
  refine ⟨x, u, hx, hmark, ?_⟩
  rw [Markup.isPlain] at hmark
  by_cases h : x = '<'
  · subst h; rfl
  · have : x = '\x7b' := by simpa [h] using hmark
    subst this; rfl

theorem trimEnd_textOf_cons {l : Layout} {ls : List Layout} (h : ValidAll (l :: ls))
    (hne : ls ≠ []) : trimEnd (textOf (l :: ls)) = l.text ++ trimEnd (textOf ls) := by
  rw [textOf_cons]
  by_cases hblank : trimEnd (textOf ls) = []
  · have hl : l.isPlain = false := by
      cases l with
      | plain w =>
        obtain ⟨x, u, hx, -, hb⟩ := exists_head_of_plain h hne
        have := head?_trimEnd u hb
        rw [← hx, hblank] at this
        cases this
      | comment | closing | mustache | opening | content => rfl
    rw [trimEnd_append_of_eq_nil hblank, l.trimEnd_text hl, hblank, List.append_nil]
  · exact trimEnd_append hblank

theorem textOf_withBreak {ls : List Layout} (h : ValidAll ls) :
    textOf (withBreak ls) = trimEnd (textOf ls) ++ ['\n', '\n'] := by
  induction ls with
  | nil => rfl
  | cons l ls ih =>
    by_cases hne : ls = []
    · subst hne
      by_cases hl : l.isPlain = true
      · cases l with
        | plain w => simp [withBreak, textOf, Layout.text]
        | comment | closing | mustache | opening | content => cases hl
      · have hl : l.isPlain = false := by simpa using hl
        have hnil : textOf [] = [] := rfl
        have hplain : (Layout.plain ['\n', '\n']).text = ['\n', '\n'] := rfl
        rw [withBreak_singleton hl, textOf_cons, textOf_cons, textOf_cons, hplain, hnil,
          List.append_nil, List.append_nil, l.trimEnd_text hl]
    · rw [withBreak_cons l hne, trimEnd_textOf_cons h hne, textOf_cons, ih h.2, List.append_assoc]

theorem tokensOf_withBreak (o : Nat) (ls : List Layout) :
    tokensOf o (withBreak ls) = tokensOf o ls := by
  induction ls generalizing o with
  | nil => rfl
  | cons l ls ih =>
    by_cases hne : ls = []
    · subst hne
      cases l with
      | plain w => rfl
      | comment | closing | mustache | opening | content => rfl
    · rw [withBreak_cons l hne, tokensOf, tokensOf]
      simp only [ih]

theorem Layout.Valid.congr {l : Layout} {next next' : List Char} (h : l.Valid next)
    (hl : l.isPlain = false) : l.Valid next' := by
  cases l with
  | plain w => cases hl
  | comment | closing | mustache | opening | content => exact h

theorem valid_break {next : List Char} (hnext : next.head?.any Markup.isPlain = false) :
    (Layout.plain ['\n', '\n']).Valid next :=
  ⟨by simp, ⟨by decide, by decide, by decide, rfl⟩, by simp [Markup.isPlain], hnext⟩

theorem valid_plain_break {w : List Char} {next next' : List Char} (h : (Layout.plain w).Valid next)
    (hnext : next'.head?.any Markup.isPlain = false) :
    (Layout.plain (trimEnd w ++ ['\n', '\n'])).Valid next' := by
  obtain ⟨hne, hstart, hplain, -⟩ := h
  have hw := trimEnd_append_trailing w
  cases ht : trimEnd w with
  | nil => exact valid_break hnext
  | cons x u =>
    rw [ht] at hw
    refine ⟨by simp, ?_, ?_, hnext⟩
    · rw [← hw] at hstart
      apply (hstart.of_append (by simp)).append (by simp)
      rintro y ⟨⟩
      decide
    · intro y hy
      rcases List.mem_append.1 hy with hy | hy
      · apply hplain y
        rw [← hw]
        exact List.mem_append_left _ hy
      · have : y = '\n' := by simpa using hy
        subst this
        rfl

theorem tokensOf_append (o : Nat) (ls ks : List Layout) :
    tokensOf o (ls ++ ks) = (do
      let ts ← tokensOf o ls
      let us ← tokensOf (o + byteLength (textOf ls)) ks
      return ts ++ us) := by
  induction ls generalizing o with
  | nil =>
    have hnil : textOf [] = [] := rfl
    simp only [tokensOf, hnil, byteLength_nil, List.nil_append, Nat.add_zero]
    cases tokensOf o ks <;> rfl
  | cons l ls ih =>
    have hlen : o + byteLength l.text + byteLength (textOf ls) = o + byteLength (textOf (l :: ls)) := by
      rw [textOf_cons, byteLength_append, Nat.add_assoc]
    rw [List.cons_append, tokensOf, tokensOf]
    cases l.token o with
    | error e => rfl
    | ok t =>
      simp only [bind, Except.bind, ih, hlen]
      cases tokensOf (o + byteLength l.text) ls with
      | error e => rfl
      | ok ts =>
        cases tokensOf (o + byteLength (textOf (l :: ls))) ks with
        | error e => rfl
        | ok us => simp [pure, Except.pure]

theorem ValidAll.withBreak_append {ls : List Layout} (h : ValidAll ls) {block : Layout}
    (hblock : block.Valid []) (hhead : block.text.head? = some '<') :
    ValidAll (withBreak ls ++ [block]) := by
  have hnext : (textOf [block]).head?.any Markup.isPlain = false := by
    rw [textOf_cons, List.head?_append, hhead]
    rfl
  induction ls with
  | nil => exact ⟨valid_break hnext, hblock, trivial⟩
  | cons l ls ih =>
    by_cases hne : ls = []
    · subst hne
      by_cases hl : l.isPlain = true
      · cases l with
        | plain w => exact ⟨valid_plain_break h.1 hnext, hblock, trivial⟩
        | comment | closing | mustache | opening | content => cases hl
      · have hl : l.isPlain = false := by simpa using hl
        rw [withBreak_singleton hl]
        exact ⟨h.1.congr hl, valid_break hnext, hblock, trivial⟩
    · rw [withBreak_cons l hne, List.cons_append]
      refine ⟨?_, ih h.2⟩
      by_cases hl : l.isPlain = true
      · cases l with
        | plain w =>
          obtain ⟨x, u, hx, hmark, hb⟩ := exists_head_of_plain h hne
          obtain ⟨hw, hstart, hplain, -⟩ := h.1
          refine ⟨hw, hstart, hplain, ?_⟩
          obtain ⟨v, hv⟩ := List.head?_eq_some_iff.1 (head?_trimEnd u hb)
          rw [textOf_append, textOf_withBreak h.2, hx, hv]
          simpa using hmark
        | comment | closing | mustache | opening | content => cases hl
      · exact h.1.congr (by simpa using hl)

end ClassWeave.Markup

import ClassWeave.Proofs.Markup.Recovery
import ClassWeave.Proofs.Markup.Rereading

namespace ClassWeave.Markup

open Text

structure Revision.Fits (r : Revision) : Prop where
  apply_eq_nil : ∀ w, r.apply w = [] ↔ w = []
  quotable : ∀ {quote w}, quote = '\x22' ∨ quote = '\x27' → Quotable quote w →
    Quotable quote (r.apply w)
  bare : ∀ {w next}, (ValueLayout.bare w).Valid next → (ValueLayout.bare (r.apply w)).Valid next
  inserted : '<' ∉ r.inserted

variable {r : Revision}

theorem ValueLayout.Valid.mapTexts (hr : r.Fits) {v : ValueLayout} {next : List Char}
    (h : v.Valid next) : (v.mapTexts r.apply).Valid next := by
  cases v with
  | quoted quote runs last =>
    obtain ⟨hq, hruns, hlast⟩ := h
    refine ⟨hq, ?_, hr.quotable hq hlast⟩
    intro run hrun
    obtain ⟨run, hmem, rfl⟩ := List.mem_map.1 hrun
    exact ⟨hr.quotable hq (hruns run hmem).1, (hruns run hmem).2⟩
  | braced inner => exact h
  | bare w => exact hr.bare h

theorem AttributeLayout.Valid.revise (hr : r.Fits) {a : AttributeLayout} {next : List Char}
    (h : a.Valid next) : (a.revise r).Valid next := by
  cases a with
  | braced inner | single name => exact h
  | valued name before after v =>
    obtain ⟨hname, hbefore, hne, hafter, hv⟩ := h
    refine ⟨hname, hbefore, hne, hafter, ?_⟩
    split
    · exact hv.mapTexts hr
    · exact hv

theorem AttributeLayout.head?_revise {a : AttributeLayout} (r : Revision) (h : a.text ≠ []) :
    (a.revise r).text.head? = a.text.head? := by
  cases a with
  | braced inner | single name => rfl
  | valued name before after v =>
    rw [AttributeLayout.revise, AttributeLayout.text, AttributeLayout.text]
    cases name with
    | cons x name => rfl
    | nil => cases before <;> rfl

theorem TagLayout.sameStart_revise {tag : TagLayout} (r : Revision) (h : tag.Valid) :
    SameStart tag.text (tag.revise r).text := by
  induction tag with
  | stop gap closed => exact ⟨rfl, rfl, rfl⟩
  | slash gap rest ih => exact sameStart gap rfl fun _ => (ih h.2.2).head
  | item gap a rest ih =>
    obtain ⟨hgap, ha, hrest⟩ := h
    obtain ⟨x, u, hx, hends⟩ := ha.exists_head
    have hne : a.text ≠ [] := by simp [hx]
    obtain ⟨v, hv⟩ : ∃ v, (a.revise r).text = x :: v := by
      have := AttributeLayout.head?_revise r hne
      rw [hx] at this
      exact List.head?_eq_some_iff.1 this
    rw [TagLayout.revise, TagLayout.text, TagLayout.text, hx, hv]
    have hmark : isBlank x = false ∧ x ≠ '/' := by
      rcases hends with rfl | hends
      · decide
      · simp only [endsName, Bool.or_eq_false_iff, beq_eq_false_iff_ne] at hends
        exact ⟨hends.1.1.1, hends.2⟩
    exact sameStart gap hmark.1 fun hslash => absurd hslash hmark.2

theorem TagLayout.Valid.revise (hr : r.Fits) {tag : TagLayout} (h : tag.Valid) :
    (tag.revise r).Valid := by
  induction tag with
  | stop gap closed => exact h
  | slash gap rest ih =>
    obtain ⟨hgap, hhead, hrest⟩ := h
    refine ⟨hgap, ?_, ih hrest⟩
    rwa [← (TagLayout.sameStart_revise r hrest).head]
  | item gap a rest ih =>
    obtain ⟨hgap, ha, hrest⟩ := h
    exact ⟨hgap, (ha.revise hr).congr (TagLayout.sameStart_revise r hrest), ih hrest⟩

theorem Layout.head?_revise (r : Revision) (names : List String) (l : Layout) :
    (l.revise r names).text.head? = l.text.head? := by
  cases l <;> rfl

theorem head?_textOf_reviseAll {ls : List Layout} (r : Revision) (names : List String)
    (h : ValidAll ls) : (textOf (reviseAll r names ls)).head? = (textOf ls).head? := by
  cases ls with
  | nil => rfl
  | cons l ls =>
    obtain ⟨x, u, hx⟩ := List.exists_cons_of_ne_nil h.1.text_ne_nil
    obtain ⟨v, hv⟩ := List.head?_eq_some_iff.1
      ((Layout.head?_revise r names l).trans (by rw [hx]; rfl))
    rw [reviseAll, textOf, textOf, List.flatMap_cons, List.flatMap_cons, hx, hv]
    rfl

theorem Layout.Valid.revise (hr : r.Fits) {l : Layout} {next next' : List Char} (h : l.Valid next)
    (hnext : next'.head? = next.head?) (names : List String) : (l.revise r names).Valid next' := by
  cases l with
  | comment body | closing body | mustache inner => exact h
  | plain w =>
    obtain ⟨hne, hstart, hplain, hend⟩ := h
    exact ⟨hne, hstart, hplain, hnext ▸ hend⟩
  | opening name tag =>
    obtain ⟨hname, hcontent, hend, htag⟩ := h
    refine ⟨hname, hcontent, ?_, htag.revise hr⟩
    rwa [← (TagLayout.sameStart_revise r htag).head]
  | content name tag body tail =>
    obtain ⟨hname, hend, htag, hbody, htail⟩ := h
    refine ⟨hname, hend, htag, ?_, htail⟩
    split
    · exact hbody.append_left hr.inserted
    · exact hbody

theorem ValidAll.revise (hr : r.Fits) {ls : List Layout} (h : ValidAll ls) (names : List String) :
    ValidAll (reviseAll r names ls) := by
  induction ls generalizing names with
  | nil => trivial
  | cons l ls ih =>
    obtain ⟨hl, hls⟩ := h
    exact ⟨hl.revise hr (head?_textOf_reviseAll r _ hls) names, ih hls _⟩

theorem not_isBlank_of_unquotedText {w next : List Char} (h : unquotedText (w ++ next) = w) :
    ∀ x ∈ w, isBlank x = false := by
  induction w with
  | nil => simp
  | cons y w ih =>
    rw [List.cons_append, unquotedText] at h
    split at h
    · cases h
    · next hy =>
      intro x hx
      rcases List.mem_cons.1 hx with rfl | hx
      · simp only [Bool.or_eq_true, not_or] at hy
        simpa using hy.1.1
      · exact ih (List.cons.inj h).2 x hx

theorem unquotedText_append {w next : List Char}
    (hw : ∀ x ∈ w, isBlank x = false ∧ x ≠ '>' ∧ x ≠ '/') (hnext : endsBare next = true) :
    unquotedText (w ++ next) = w := by
  induction w with
  | nil => exact unquotedText_eq_nil hnext
  | cons x w ih =>
    have hx := hw x (by simp)
    rw [List.cons_append, unquotedText, ih fun y hy => hw y (List.mem_cons_of_mem _ hy)]
    simp [hx]

end ClassWeave.Markup

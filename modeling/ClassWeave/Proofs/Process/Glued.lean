import ClassWeave.Proofs.Process.Reparse
import ClassWeave.Proofs.Process.Utilities
import ClassWeave.Proofs.Text.Runs

/-!
Class texts beside expressions. A text that touches an expression is a part of a class that is only
known at run time. Rewriting keeps such a part if no known class touches an expression and if none
is moved in front of it; what touches no expression stays apart from it in any case.
-/

namespace ClassWeave

open Markup Text Utility

namespace Markup

def ValuePart.items : ValuePart → List (Char ⊕ ExpressionTag)
  | text part => chars part.text.toList
  | expression tag => [.inr tag]

def valueItems (parts : List ValuePart) : List (Char ⊕ ExpressionTag) :=
  parts.flatMap ValuePart.items

def ValuePart.edited (resolver : Resolver) (options : Options) : ValuePart → ValuePart
  | text part => text ⟨part.span, Processor.editedText resolver options part.text⟩
  | expression tag => expression tag

end Markup

namespace Utility.Table

/-- Begins with a blank, or has no known class, the name of which would come first. -/
def KeepsStart (t : Table) : ValuePart → Prop
  | .text part => leading part.text.toList = [] → ∀ w ∈ wordsOf part.text, t.knows w = false
  | .expression _ => True

def KeepsEnd (t : Table) : ValuePart → Prop
  | .text part => trailing part.text.toList = [] →
      ∀ w ∈ (wordsOf part.text).getLast?, t.knows w = false
  | .expression _ => True

/-- No known class touches an expression, and none is moved to where one is touched. -/
def KeepsGlued (t : Table) (parts : List ValuePart) : Prop :=
  parts.IsChain fun p q => t.KeepsEnd p ∧ t.KeepsStart q

instance (t : Table) : DecidablePred t.KeepsStart
  | .text _ => inferInstanceAs (Decidable (_ → _))
  | .expression _ => instDecidableTrue

instance (t : Table) : DecidablePred t.KeepsEnd
  | .text _ => inferInstanceAs (Decidable (_ → _))
  | .expression _ => instDecidableTrue

instance (t : Table) (parts : List ValuePart) : Decidable (t.KeepsGlued parts) :=
  inferInstanceAs (Decidable (parts.IsChain _))

end Utility.Table

theorem exists_intercalate_cons (v : String) (vs : List String) :
    ∃ s, (" ".intercalate (v :: vs)).toList = v.toList ++ s ∧
      ∀ x, s.head? = some x → isBlank x = true := by
  cases vs with
  | nil => exact ⟨[], by simp, by simp⟩
  | cons u vs =>
    refine ⟨' ' :: (" ".intercalate (u :: vs)).toList, ?_, ?_⟩
    · rw [String.intercalate_cons_of_ne_nil (by simp)]
      simp
    · rintro x ⟨⟩
      rfl

theorem exists_intercalate_concat (vs : List String) (v : String) :
    ∃ s, (" ".intercalate (vs ++ [v])).toList = s ++ v.toList ∧
      (∀ x, s.getLast? = some x → isBlank x = true) ∧ (vs ≠ [] → ' ' ∈ s) := by
  by_cases hvs : vs = []
  · exact ⟨[], by simp [hvs], by simp, fun hne => absurd hvs hne⟩
  · refine ⟨(" ".intercalate vs).toList ++ [' '], ?_, ?_, by simp⟩
    · rw [String.intercalate_append_of_ne_nil hvs (by simp)]
      simp
    · intro x hx
      rw [List.getLast?_concat] at hx
      cases hx
      rfl

namespace Utility.Table

variable (t : Table) (stem : String) (part : TextPart)

def written : List String := (t.compile (.ofList (trim part.text.toList)) stem).classes

theorem written_of_unknown (h : ∀ w ∈ wordsOf part.text, t.knows w = false) :
    t.written stem part = wordsOf part.text := by
  rw [← part.wordsOf_trim] at h ⊢
  exact classes_compile_of_unknown h

theorem exists_written_concat {v : String} (hv : (wordsOf part.text).getLast? = some v)
    (hknows : t.knows v = false) :
    ∃ vs, t.written stem part = vs ++ [v] ∧ (2 ≤ (wordsOf part.text).length → vs ≠ []) := by
  obtain ⟨ws, hws⟩ := List.getLast?_eq_some_iff.1 hv
  by_cases hunknown : ∀ w ∈ wordsOf part.text, t.knows w = false
  · refine ⟨ws, (t.written_of_unknown stem part hunknown).trans hws, fun hlength hnil => ?_⟩
    rw [hws, hnil] at hlength
    simp at hlength
  · have hresolved : t.resolved (.ofList (trim part.text.toList)) ≠ [] := by
      push Not at hunknown
      obtain ⟨w, hw, hknown⟩ := hunknown
      apply List.ne_nil_of_mem (a := w)
      rw [resolved, List.mem_eraseDups, part.wordsOf_trim]
      exact List.mem_filter.2 ⟨hw, by simpa using hknown⟩
    have hignored : t.ignored (.ofList (trim part.text.toList)) =
        ws.filter (fun w => !t.knows w) ++ [v] := by
      simp [ignored, part.wordsOf_trim, hws, hknows]
    -- The name of the known classes comes before all others.
    rw [written, Resolution.classes, emitted_compile, if_neg hresolved, ignored_compile, hignored]
    exact ⟨_, (List.append_assoc _ _ _).symm, by simp⟩

theorem exists_written_eq_append_lastRun (hne : part.text.toList ≠ [])
    (htrailing : trailing part.text.toList = []) (h : t.KeepsEnd (.text part)) :
    ∃ s, (" ".intercalate (t.written stem part)).toList = s ++ lastRun part.text.toList ∧
      (∀ x, s.getLast? = some x → isBlank x = true) ∧
      (2 ≤ (wordsOf part.text).length → ' ' ∈ s) := by
  obtain ⟨ws, hws⟩ := exists_words_eq_concat hne htrailing
  have hlast : (wordsOf part.text).getLast? = some (.ofList (lastRun part.text.toList)) := by
    simp [wordsOf, hws]
  obtain ⟨vs, hvs, hne⟩ := t.exists_written_concat stem part hlast (h htrailing _ hlast)
  obtain ⟨s, hs, hblank, hspace⟩ :=
    exists_intercalate_concat vs (.ofList (lastRun part.text.toList))
  rw [String.toList_ofList] at hs
  exact ⟨s, by rw [hvs, hs], hblank, fun hlength => hspace (hne hlength)⟩

end Utility.Table

namespace Processor

section

variable {t : Table} {options : Options} {part : TextPart}

theorem toList_editedText (hmode : options.mode = .replace)
    (hclasses : trim part.text.toList ≠ []) :
    (editedText t.resolver options part.text).toList = leading part.text.toList ++
      ((" ".intercalate (t.written options.classStem part)).toList ++
        trailing part.text.toList) := by
  rw [editedText, if_pos ⟨hmode, hclasses⟩, Table.replacement_ofAttribute hmode,
    String.toList_ofList, List.append_assoc]
  rfl

theorem editedText_of_blank (h : trim part.text.toList = []) :
    editedText t.resolver options part.text = part.text :=
  if_neg fun hedited => hedited.2 h

theorem firstRun_editedText (hmode : options.mode = .replace)
    (h : t.KeepsStart (.text part)) :
    firstRun (editedText t.resolver options part.text).toList = firstRun part.text.toList := by
  by_cases hclasses : trim part.text.toList = []
  · rw [editedText_of_blank hclasses]
  rw [toList_editedText hmode hclasses]
  by_cases hleading : leading part.text.toList = []
  · have hne : part.text.toList ≠ [] := fun hnil => hclasses (by rw [hnil]; rfl)
    obtain ⟨ws, hws⟩ := exists_words_eq_cons hne hleading
    have hwords : wordsOf part.text = .ofList (firstRun part.text.toList) :: ws.map .ofList := by
      rw [wordsOf, hws, List.map_cons]
    obtain ⟨s, hs, hblank⟩ := exists_intercalate_cons (.ofList (firstRun part.text.toList))
      (ws.map .ofList)
    rw [t.written_of_unknown _ _ (h hleading), hwords, hs, hleading, String.toList_ofList,
      List.nil_append, List.append_assoc]
    refine firstRun_append (fun x hx => not_isBlank_of_mem_firstRun hx) fun x hx => ?_
    cases s with
    | nil => exact blanks_trailing _ x (List.mem_of_head? hx)
    | cons y s => exact hblank x hx
  · rw [firstRun_leading_append hleading, firstRun_eq_nil hleading]

theorem lastRun_editedText (hmode : options.mode = .replace)
    (h : t.KeepsEnd (.text part)) :
    lastRun (editedText t.resolver options part.text).toList = lastRun part.text.toList := by
  by_cases hclasses : trim part.text.toList = []
  · rw [editedText_of_blank hclasses]
  rw [toList_editedText hmode hclasses, ← List.append_assoc]
  by_cases htrailing : trailing part.text.toList = []
  · have hne : part.text.toList ≠ [] := fun hnil => hclasses (by rw [hnil]; rfl)
    obtain ⟨s, hs, hblank, -⟩ :=
      t.exists_written_eq_append_lastRun options.classStem part hne htrailing h
    rw [hs, htrailing, List.append_nil, ← List.append_assoc]
    refine lastRun_append (fun x hx => not_isBlank_of_mem_lastRun hx) fun x hx => ?_
    rcases List.eq_nil_or_concat' s with rfl | ⟨s, y, rfl⟩
    · rw [List.append_nil] at hx
      exact blanks_leading _ x (List.mem_of_getLast? hx)
    · rw [← List.append_assoc, List.getLast?_concat] at hx
      exact hblank x (by rwa [List.getLast?_concat])
  · rw [lastRun_append_trailing htrailing, lastRun_eq_nil htrailing]

theorem editedText_of_isWord (hmode : options.mode = .replace) (h : IsWord part.text.toList)
    (hlast : t.KeepsEnd (.text part)) :
    editedText t.resolver options part.text = part.text := by
  have hwords : wordsOf part.text = [part.text] := by
    rw [wordsOf, words_of_isWord h, List.map_singleton, String.ofList_toList]
  have hknows : ∀ w ∈ wordsOf part.text, t.knows w = false := by
    simpa [hwords] using hlast h.trailing_eq part.text (by rw [hwords]; rfl)
  apply String.toList_injective
  rw [toList_editedText hmode (by rw [h.trim_eq]; exact h.1), t.written_of_unknown _ _ hknows,
    hwords, h.leading_eq, h.trailing_eq]
  simp

theorem editedText_eq_or (hmode : options.mode = .replace)
    (hlast : leading part.text.toList = [] → t.KeepsEnd (.text part)) :
    editedText t.resolver options part.text = part.text ∨
      (∃ x ∈ part.text.toList, isBlank x = true) ∧
        ∃ x ∈ (editedText t.resolver options part.text).toList, isBlank x = true := by
  by_cases hclasses : trim part.text.toList = []
  · exact .inl (editedText_of_blank hclasses)
  have hedited := toList_editedText (t := t) hmode hclasses
  by_cases hleading : leading part.text.toList = []
  case neg =>
    have hblank := exists_isBlank_leading_append hleading (trimStart part.text.toList)
    rw [leading_append_trimStart] at hblank
    exact .inr ⟨hblank, hedited ▸ exists_isBlank_leading_append hleading _⟩
  by_cases htrailing : trailing part.text.toList = []
  case neg =>
    have hblank := exists_isBlank_append_trailing htrailing (trimEnd part.text.toList)
    rw [trimEnd_append_trailing] at hblank
    rw [← List.append_assoc] at hedited
    exact .inr ⟨hblank, hedited ▸ exists_isBlank_append_trailing htrailing _⟩
  have hne : part.text.toList ≠ [] := fun hnil => hclasses (by rw [hnil]; rfl)
  by_cases hblank : ∃ x ∈ part.text.toList, isBlank x = true
  · have htwo := two_le_length_words hleading htrailing hblank
    obtain ⟨s, hs, -, hspace⟩ :=
      t.exists_written_eq_append_lastRun options.classStem part hne htrailing (hlast hleading)
    refine .inr ⟨hblank, ' ', ?_, rfl⟩
    rw [hedited, hs]
    simp [hspace (by simpa [wordsOf] using htwo)]
  · have hword : IsWord part.text.toList :=
      ⟨hne, fun x hx => by simpa using fun hx' => hblank ⟨x, hx, hx'⟩⟩
    exact .inl (editedText_of_isWord hmode hword (hlast hleading))

variable {β : Type} (blank : β → Bool) {a b : List (Char ⊕ β)}

theorem gluedRuns_editedText (hmode : options.mode = .replace)
    (ha : a = [] ∨ t.KeepsStart (.text part)) (hb : b = [] ∨ t.KeepsEnd (.text part)) :
    gluedRuns blank (a ++ (chars (editedText t.resolver options part.text).toList ++ b)) =
      gluedRuns blank (a ++ (chars part.text.toList ++ b)) := by
  by_cases hnil : a = [] ∧ b = []
  · obtain ⟨rfl, rfl⟩ := hnil
    simp only [List.nil_append, List.append_nil, gluedRuns_chars]
  have hlast : leading part.text.toList = [] → t.KeepsEnd (.text part) := by
    intro hleading
    rcases hb with rfl | hb
    · rcases ha with rfl | ha
      · exact absurd ⟨rfl, rfl⟩ hnil
      · exact fun _ w hw => ha hleading w (List.mem_of_getLast? hw)
    · exact hb
  obtain heq | ⟨hblank, hblank'⟩ := editedText_eq_or hmode hlast
  · rw [heq]
  rw [gluedRuns_around blank hblank', gluedRuns_around blank hblank]
  congr 1
  · rcases ha with rfl | ha
    · simp only [List.nil_append, gluedRuns_chars]
    · rw [firstRun_editedText hmode ha]
  · rcases hb with rfl | hb
    · simp only [List.append_nil, gluedRuns_chars]
    · rw [lastRun_editedText hmode hb]

end

section

variable {t : Table} {options : Options}

theorem gluedRuns_append_valueItems (hmode : options.mode = .replace) {parts : List ValuePart}
    (hparts : t.KeepsGlued parts) (a : List (Char ⊕ ExpressionTag))
    (ha : a = [] ∨ ∀ p ∈ parts.head?, t.KeepsStart p) :
    gluedRuns (fun _ => false)
        (a ++ valueItems (parts.map (ValuePart.edited t.resolver options))) =
      gluedRuns (fun _ => false) (a ++ valueItems parts) := by
  -- The parts are edited from the last one to the first, with all that stands before as it was.
  induction parts generalizing a with
  | nil => rfl
  | cons p parts ih =>
    obtain ⟨hnext, hparts⟩ := List.isChain_cons.1 hparts
    have hrest := ih hparts (a ++ p.items) (.inr fun q hq => (hnext q hq).2)
    rw [List.append_assoc, List.append_assoc] at hrest
    refine Eq.trans ?_ hrest
    cases p with
    | expression tag => rfl
    | text part =>
      refine gluedRuns_editedText _ hmode (ha.imp_right fun h => h _ rfl) ?_
      cases parts with
      | nil => exact .inl rfl
      | cons q parts => exact .inr (hnext q rfl).1

end

end Processor

/-- Rewriting a class attribute puts edited texts in the place of its class texts. What is glued to
its expressions stays as it is, and so do the classes that their values are a part of. -/
theorem Scan.enter_keeps_glued {t : Table} {session : Session}
    (hmode : session.options.mode = .replace) {a : ClassAttribute} (ha : t.KeepsGlued a.parts)
    (s : Scan) :
    ∃ s', Scan.enter t.resolver session s (.classes a) = .ok s' ∧
      s'.edits = s.edits ++ ((a.parts.filterMap ValuePart.text?).filter TextPart.hasClasses).map
        (fun part => ⟨part.span, Processor.editedText t.resolver session.options part.text⟩) ∧
      gluedRuns (fun _ => false)
          (valueItems (a.parts.map (ValuePart.edited t.resolver session.options))) =
        gluedRuns (fun _ => false) (valueItems a.parts) ∧
      ∀ value : ExpressionTag → List Char,
        gluedRuns isBlank
            (fill value (valueItems (a.parts.map (ValuePart.edited t.resolver session.options)))) =
          gluedRuns isBlank (fill value (valueItems a.parts)) := by
  have hglued := Processor.gluedRuns_append_valueItems hmode ha [] (.inl rfl)
  rw [List.nil_append, List.nil_append] at hglued
  refine ⟨_, rfl, ?_, hglued, fun value => ?_⟩
  · rw [edits_addParts, editsOf, rewritesOf, if_pos hmode, List.map_map]
    refine congrArg _ (List.map_congr_left fun part hpart => ?_)
    have htext := Processor.text_rewriteOf t.resolver session.options hmode
      (List.mem_filter.1 hpart).2
    rw [← htext]
    rfl
  · rw [gluedRuns_fill, hglued, ← gluedRuns_fill]

def flexTable : Table := ⟨[("flex", [])], []⟩

def flexAttribute : ClassAttribute :=
  ⟨⟨3, 25⟩, [.text ⟨⟨10, 16⟩, "flex b"⟩, .expression ⟨⟨16, 19⟩, .other "x"⟩,
    .text ⟨⟨19, 24⟩, " flex"⟩]⟩

theorem Scan.enter_keeps_glued_flex :
    ∃ s', Scan.enter flexTable.resolver (.start ⟨"w", .replace⟩) .empty (.classes flexAttribute) =
        .ok s' ∧
      s'.edits.map Edit.span = [⟨10, 16⟩, ⟨19, 24⟩] ∧
      gluedRuns (fun _ => false) (valueItems (flexAttribute.parts.map
        (ValuePart.edited flexTable.resolver ⟨"w", .replace⟩))) =
          [[.inl 'b', .inr ⟨⟨16, 19⟩, .other "x"⟩]] ∧
      gluedRuns isBlank (fill (fun _ => "1 c".toList) (valueItems (flexAttribute.parts.map
        (ValuePart.edited flexTable.resolver ⟨"w", .replace⟩)))) =
          [[.inl 'b', .inr '1'], [.inr 'c']] := by
  have hmode : (Session.start ⟨"w", .replace⟩).options.mode = .replace := rfl
  have hkeeps : flexTable.KeepsGlued flexAttribute.parts := by decide
  obtain ⟨s', hs', hedits, hglued, hvalue⟩ := Scan.enter_keeps_glued hmode hkeeps .empty
  refine ⟨s', hs', ?_, hglued.trans (by decide), (hvalue _).trans (by decide)⟩
  rw [hedits]
  decide

theorem Scan.exists_gluedRuns_ne :
    ∃ (t : Table) (options : Options) (parts : List ValuePart), options.mode = .replace ∧
      gluedRuns (fun _ => false) (valueItems (parts.map (ValuePart.edited t.resolver options))) ≠
        gluedRuns (fun _ => false) (valueItems parts) ∧
      ∃ value : ExpressionTag → List Char,
        gluedRuns isBlank
            (fill value (valueItems (parts.map (ValuePart.edited t.resolver options)))) ≠
          gluedRuns isBlank (fill value (valueItems parts)) := by
  refine ⟨flexTable, ⟨"w", .replace⟩,
    [.expression ⟨⟨10, 13⟩, .other "a"⟩, .text ⟨⟨13, 20⟩, "-b flex"⟩], rfl, ?_,
    fun _ => ['1'], ?_⟩
  · decide +kernel
  · decide +kernel

end ClassWeave

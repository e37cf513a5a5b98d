import ClassWeave.Proofs.Text.Words
import ClassWeave.Proofs.Utility.Names

/-!
The classes that a text has once it is compiled: the name of the new class and the words that are not
known. They are not known either if no table has that name, so that compiling them again changes
nothing.
-/

namespace ClassWeave

open Style Text

def Resolution.classes (r : Resolution) : List String := r.emitted.toList ++ r.ignored

theorem Resolution.checked_eq {text : String} {r : Resolution}
    (h : ∀ w ∈ r.ignored, w ∈ wordsOf text) : r.checked text = r := by
  have hfilter : (r.ignored.filter fun w => (wordsOf text).contains w) = r.ignored := by
    apply List.filter_eq_self.2
    intro w hw
    exact List.contains_iff_mem.2 (h w hw)
  rw [Resolution.checked, hfilter]

theorem Text.isWord_of_mem_wordsOf {text w : String} (h : w ∈ wordsOf text) : IsWord w.toList := by
  obtain ⟨v, hv, rfl⟩ := List.mem_map.1 h
  rw [String.toList_ofList]
  exact isWord_of_mem_words hv

theorem Text.mem_of_mem_wordsOf {text w : String} (h : w ∈ wordsOf text) :
    ∀ c ∈ w.toList, c ∈ text.toList := by
  obtain ⟨v, hv, rfl⟩ := List.mem_map.1 h
  rw [String.toList_ofList]
  exact mem_of_mem_words hv

theorem Text.Parted.wordsOf_append {a b : String} (h : Parted a.toList b.toList) :
    wordsOf (a ++ b) = wordsOf a ++ wordsOf b := by
  rw [wordsOf, String.toList_append, h.words_append, List.map_append]
  rfl

theorem Text.wordsOf_intercalate {ws : List String} (h : ∀ w ∈ ws, IsWord w.toList) :
    wordsOf (" ".intercalate ws) = ws := by
  have hwords : ∀ w ∈ ws.map String.toList, IsWord w := by
    intro w hw
    obtain ⟨v, hv, rfl⟩ := List.mem_map.1 hw
    exact h v hv
  have hspace : " ".toList = [' '] := rfl
  rw [wordsOf, String.toList_intercalate, hspace, words_intercalate hwords, List.map_map]
  exact List.map_id'' (fun w => String.ofList_toList) ws

namespace Utility.Table

variable {t : Table} {classes stem : String}

theorem ignored_compile : (t.compile classes stem).ignored = t.ignored classes := by
  rw [compile]
  dsimp only
  split <;> rfl

theorem emitted_compile :
    (t.compile classes stem).emitted =
      if t.resolved classes = [] then none
      else some (stem ++ Digest.shortText (" ".intercalate (t.resolved classes))) := by
  rw [compile]
  dsimp only
  by_cases h : t.resolved classes = []
  · simp [h]
  · simp [h]

theorem mem_ignored {w : String} :
    w ∈ t.ignored classes ↔ w ∈ wordsOf classes ∧ t.knows w = false := by
  simp [ignored]

theorem mem_resolved {token : String} :
    token ∈ t.resolved classes ↔ token ∈ wordsOf classes ∧ t.knows token = true := by
  rw [resolved, List.mem_eraseDups, List.mem_filter]

theorem mem_interpret {r : Rule} :
    r ∈ (t.interpret classes).sheet ↔ ∃ token ∈ wordsOf classes, ∃ e, t.lookup token = some e ∧
      r = Rule.plain (classSelector token) e.2 e.1 := by
  simp only [interpret, List.mem_filterMap, mem_resolved, Option.map_eq_some_iff]
  constructor
  · rintro ⟨token, ⟨htoken, -⟩, e, he, rfl⟩
    exact ⟨token, htoken, e, he, rfl⟩
  · rintro ⟨token, htoken, e, he, rfl⟩
    refine ⟨token, ⟨htoken, ?_⟩, e, he, rfl⟩
    rw [knows, he]
    rfl

theorem sheet_compile_of_emitted_eq_none (h : (t.compile classes stem).emitted = none) :
    (t.compile classes stem).sheet = [] := by
  rw [compile] at h ⊢
  dsimp only at h ⊢
  split
  · rfl
  · next hne =>
    rw [if_neg hne] at h
    cases h

theorem resolved_eq_nil (h : ∀ w ∈ wordsOf classes, t.knows w = false) :
    t.resolved classes = [] := by
  have hfilter : (wordsOf classes).filter t.knows = [] := by
    apply List.filter_eq_nil_iff.2
    intro w hw
    simp [h w hw]
  rw [resolved, hfilter]
  rfl

theorem ignored_eq_wordsOf (h : ∀ w ∈ wordsOf classes, t.knows w = false) :
    t.ignored classes = wordsOf classes := by
  apply List.filter_eq_self.2
  intro w hw
  simp [h w hw]

theorem classes_compile_of_unknown (h : ∀ w ∈ wordsOf classes, t.knows w = false) :
    (t.compile classes stem).classes = wordsOf classes := by
  rw [Resolution.classes, emitted_compile, ignored_compile, if_pos (resolved_eq_nil h),
    ignored_eq_wordsOf h]
  rfl

theorem of_mem_classes {w : String} (h : w ∈ (t.compile classes stem).classes) :
    (∃ text, w = stem ++ Digest.shortText text) ∨ w ∈ wordsOf classes ∧ t.knows w = false := by
  rw [Resolution.classes, emitted_compile, ignored_compile] at h
  rcases List.mem_append.1 h with h | h
  · split at h
    · cases h
    · have hname : w = stem ++ Digest.shortText (" ".intercalate (t.resolved classes)) := by
        simpa using h
      exact .inl ⟨_, hname⟩
  · exact .inr (mem_ignored.1 h)

theorem classes_compile_ne_nil (h : wordsOf classes ≠ []) :
    (t.compile classes stem).classes ≠ [] := by
  by_cases hresolved : t.resolved classes = []
  · have hunknown : ∀ w ∈ wordsOf classes, t.knows w = false := by
      intro w hw
      have hnot : w ∉ t.resolved classes := by simp [hresolved]
      rw [resolved, List.mem_eraseDups, List.mem_filter] at hnot
      simpa [hw] using hnot
    rwa [classes_compile_of_unknown hunknown]
  · rw [Resolution.classes, emitted_compile, if_neg hresolved]
    simp

theorem classes_compile_of_word (t : Table) (stem : String) {w : String}
    (h : wordsOf classes = [w]) :
    (∃ text, (t.compile classes stem).classes = [stem ++ Digest.shortText text]) ∨
      (t.compile classes stem).classes = [w] := by
  by_cases hw : t.knows w = true
  · have hresolved : t.resolved classes = [w] := by
      rw [resolved, h, List.filter_cons_of_pos hw]
      rfl
    have hignored : t.ignored classes = [] := by simp [ignored, h, hw]
    refine .inl ⟨" ".intercalate [w], ?_⟩
    rw [Resolution.classes, emitted_compile, ignored_compile, hresolved, hignored]
    rfl
  · have hunknown : ∀ v ∈ wordsOf classes, t.knows v = false := by
      intro v hv
      rw [h, List.mem_singleton] at hv
      simpa [hv] using hw
    exact .inr (h ▸ classes_compile_of_unknown hunknown)

theorem replacement_ofAttribute {options : Options} (hmode : options.mode = .replace)
    (classes : String) :
    (t.resolver.ofAttribute options classes).replacement =
      " ".intercalate (t.compile classes options.classStem).classes := by
  have hwords : ∀ w ∈ (t.compile classes options.classStem).ignored, w ∈ wordsOf classes := by
    intro w hw
    rw [ignored_compile] at hw
    exact (mem_ignored.1 hw).1
  rw [Resolver.ofAttribute, hmode]
  dsimp only
  rw [Resolution.checked_eq]
  · rfl
  · exact hwords

end Utility.Table

end ClassWeave

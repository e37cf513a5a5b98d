import ClassWeave.Proofs.Process.Sheet
import ClassWeave.Proofs.Session.Reload

namespace ClassWeave

open Markup Style Utility

structure Result where
  file : String
  out : Processed
  sheet : Sheet

def Call.result? (c : Call) (s : Session) : Option Result :=
  match c.run s, c.processor.sheet s c.file c.source with
  | .ok (out, _), .ok sheet => some ⟨c.file, out, sheet⟩
  | _, _ => none

def Session.results (s : Session) : List Call → List Result
  | [] => []
  | c :: calls => (c.result? s).toList ++ (s.step c).results calls

def latest? (rs : List Result) (file : String) : Option Result :=
  rs.reverse.find? (·.file == file)

def Utility.Table.Styles (t : Table) (sheet : Sheet) (tag : String) : Prop :=
  ∀ e ∈ t.preflight, e.isGlobal = false → tag ∈ e.tags →
    ∃ r ∈ sheet, r.key = e.key ∧ e.declarations.map Declaration.property ⊆ r.properties

structure Visit where
  read : String → Except Failure Component
  file : String
  source : String

def Visit.call (t : Table) (v : Visit) : Call := ⟨⟨t.resolver, v.read⟩, v.file, v.source⟩

namespace Session

/-- That a session knows the elements which these results introduced, each by the file whose latest
result has its base styles. -/
structure Introduces (t : Table) (s : Session) (rs : List Result) : Prop where
  keys : s.tags.keys = rs.flatMap fun r => r.out.newTags
  latest : ∀ e ∈ s.tags, ∃ r, latest? rs e.2 = some r ∧ e.1 ∈ r.out.preflightTags ∧
    t.Styles r.sheet e.1
  nodup : ∀ r ∈ rs, r.out.preflightTags.Nodup
  css : ∀ r ∈ rs, r.out.css = r.sheet.text s.options.mode.wrapsDeferred

variable {t : Table} {s : Session} {rs : List Result}

theorem introduces_start (t : Table) (options : Options) : Introduces t (start options) [] :=
  ⟨rfl, by simp [start], by simp, by simp⟩

theorem latest?_concat (rs : List Result) (r : Result) (file : String) :
    latest? (rs ++ [r]) file = if r.file = file then some r else latest? rs file := by
  rw [latest?, List.reverse_append]
  by_cases h : r.file = file <;> simp [latest?, h]

theorem styles_sheetOf (t : Table) (read : String → Except Failure Component) (s : Session)
    (file : String) (scan : Scan) {tag : String} (h : tag ∈ s.preflightTags file scan.newTags) :
    t.Styles (Processor.sheetOf ⟨t.resolver, read⟩ s file scan) tag := by
  intro e he hglobal htag
  have hw : Table.wantsPreflight (s.preflightTags file scan.newTags) (s.includesBaseline file) e =
      true := by
    simp only [Table.wantsPreflight, hglobal, Bool.false_eq_true, if_false]
    apply List.any_eq_true.2
    exact ⟨tag, htag, List.contains_iff_mem.2 h⟩
  obtain ⟨r, hr, hkey, hdeclarations⟩ := Table.exists_mem_baseSheet he hw
  have hrule : r ∈ Processor.rulesOf ⟨t.resolver, read⟩ s file scan :=
    List.mem_append_left _ (List.mem_append_left _ hr)
  obtain ⟨q, hq, hqkey, hsub⟩ := (Processor.gathers_sheetOf _ s file scan).exists_mem hrule
  refine ⟨q, hq, hqkey.trans hkey, ?_⟩
  rw [← hdeclarations]
  exact hsub

theorem result_cases (t : Table) (s : Session) (v : Visit) :
    (s.step (v.call t) = s ∧ (v.call t).result? s = none) ∨
      ∃ component scan code, v.read v.source = .ok component ∧
        component.scan t.resolver s = .ok scan ∧
        s.step (v.call t) = s.commit v.file scan.newTags ∧
        (v.call t).result? s = some ⟨v.file,
          ⟨code, Processor.cssOf ⟨t.resolver, v.read⟩ s v.file scan, scan.ignored, scan.newTags,
            s.preflightTags v.file scan.newTags⟩,
          Processor.sheetOf ⟨t.resolver, v.read⟩ s v.file scan⟩ := by
  cases h : (v.call t).run s with
  | error e => exact .inl ⟨by simp [step, h], by simp [Call.result?, h]⟩
  | ok r =>
    obtain ⟨component, scan, code, hread, hscan, -, hout, ht⟩ := Processor.process_eq_ok_iff.1 h
    refine .inr ⟨component, scan, code, hread, hscan, ?_, ?_⟩
    · have hstep : s.step (v.call t) = r.2 := by simp [step, h]
      exact hstep.trans ht
    · obtain ⟨out, u⟩ := r
      cases hout
      simp only [Call.result?, h, Processor.sheet_eq_ok hread hscan]
      rfl

theorem mem_tagsIntroducedBy {s : Session} {file tag : String} :
    tag ∈ s.tagsIntroducedBy file ↔ (tag, file) ∈ s.tags := by
  simp [tagsIntroducedBy, Assoc.keys]

theorem nodup_preflightTags {h : List Success} (hs : Remembers s h) (file : String)
    {names : List String} (hnodup : names.Nodup) (hnew : ∀ tag ∈ names, s.hasTag tag = false) :
    (s.preflightTags file names).Nodup := by
  rw [(preflightTags_perm hs file hnew).nodup_iff, List.nodup_append]
  refine ⟨?_, hnodup, ?_⟩
  · have hkeys : s.tags.keys.Nodup := hs.tags ▸ Scan.nodup_eraseDups _
    exact hkeys.sublist (List.filter_sublist.map Prod.fst)
  · rintro tag htag _ hmem rfl
    have hknown : s.hasTag tag = true :=
      (s.hasTag_iff tag).2 (List.mem_map_of_mem (mem_tagsIntroducedBy.1 htag))
    rw [hnew tag hmem] at hknown
    cases hknown

theorem introduces_step {h : List Success} (hs : Remembers s h) (hr : Introduces t s rs)
    (v : Visit) : Introduces t (s.step (v.call t)) (rs ++ ((v.call t).result? s).toList) := by
  rcases result_cases t s v with ⟨hstep, hnone⟩ | ⟨component, scan, code, -, hscan, hstep, hsome⟩
  · simpa [hstep, hnone] using hr
  have hnew := Scan.newTags_eq _ _ hscan
  have hunknown : ∀ tag ∈ scan.newTags, s.hasTag tag = false := by
    intro tag htag
    rw [hnew] at htag
    simpa using (List.mem_filter.1 htag).2
  have hnodup : scan.newTags.Nodup := hnew ▸ (Scan.nodup_eraseDups _).filter _
  have htags : (s.commit v.file scan.newTags).tags =
      s.tags ++ scan.newTags.map fun tag => (tag, v.file) := by
    rw [hnew]
    exact tags_commit _ _ _
  have hperm := preflightTags_perm hs v.file hunknown
  rw [hstep, hsome, Option.toList_some]
  constructor
  · rw [htags, Assoc.keys, List.map_append, ← Assoc.keys, hr.keys]
    simp [Function.comp_def]
  · rintro ⟨tag, file⟩ he
    rw [htags, List.mem_append] at he
    rw [latest?_concat]
    by_cases hfile : v.file = file
    · -- The new result takes the place of the latest one of its file, so that it needs the earlier
      -- elements of the file as well, whether or not its source still has them.
      subst hfile
      have htag : tag ∈ s.preflightTags v.file scan.newTags := by
        rw [hperm.mem_iff, List.mem_append, mem_tagsIntroducedBy]
        exact he.imp_right (by simp)
      exact ⟨_, if_pos rfl, htag, styles_sheetOf t v.read s v.file scan htag⟩
    · have hold : (tag, file) ∈ s.tags := by
        apply he.resolve_right
        intro hnew
        obtain ⟨_, -, heq⟩ := List.mem_map.1 hnew
        exact hfile (Prod.mk.inj heq).2
      rw [if_neg hfile]
      exact hr.latest _ hold
  · intro r hr'
    rcases List.mem_append.1 hr' with hr' | hr'
    · exact hr.nodup r hr'
    · cases List.mem_singleton.1 hr'
      exact nodup_preflightTags hs v.file hnodup hunknown
  · intro r hr'
    rcases List.mem_append.1 hr' with hr' | hr'
    · exact hr.css r hr'
    · cases List.mem_singleton.1 hr'
      exact Processor.cssOf_eq_text _ _ _ _

theorem introduces_after {h : List Success} (hs : Remembers s h) (hr : Introduces t s rs)
    (visits : List Visit) :
    Introduces t (s.after (visits.map (Visit.call t)))
      (rs ++ s.results (visits.map (Visit.call t))) := by
  induction visits generalizing s h rs with
  | nil => simpa [after, results] using hr
  | cons v visits ih =>
    have := ih (remembers_step hs (v.call t)) (introduces_step hs hr v)
    rwa [List.append_assoc] at this

theorem files_results (s : Session) (visits : List Visit) :
    (s.results (visits.map (Visit.call t))).map Result.file =
      (s.history (visits.map (Visit.call t))).map Success.file := by
  induction visits generalizing s with
  | nil => rfl
  | cons v visits ih =>
    have hone : ((v.call t).result? s).map Result.file =
        ((v.call t).success? s).map Success.file := by
      cases h : (v.call t).run s with
      | error e => simp [Call.result?, Call.success?, h]
      | ok r =>
        obtain ⟨component, scan, code, hread, hscan, -⟩ := Processor.process_eq_ok_iff.1 h
        simp [Call.result?, Call.success?, h, hread, Processor.sheet_eq_ok hread hscan]
    have htoList (o : Option Result) (o' : Option Success)
        (h : o.map Result.file = o'.map Success.file) :
        o.toList.map Result.file = o'.toList.map Success.file := by
      cases o <;> cases o' <;> simp_all
    simp only [List.map_cons, results, history, List.map_append, ih, htoList _ _ hone]

/-- The new elements of the successes of a run are told apart, and are all elements that any of them
has. Whichever file introduced an element, its latest result has the base styles of that element. -/
theorem preflight_introduced_once (t : Table) (options : Options) (visits : List Visit) :
    let calls := visits.map (Visit.call t)
    let s := (start options).after calls
    let h := (start options).history calls
    let rs := (start options).results calls
    rs.map Result.file = h.map Success.file ∧
    (∀ r ∈ rs, r.out.newTags.Nodup) ∧
    (rs.Pairwise fun a b => a.out.newTags.Disjoint b.out.newTags) ∧
    (∀ tag, (∃ r ∈ rs, tag ∈ r.out.newTags) ↔ ∃ x ∈ h, tag ∈ x.component.elementNames) ∧
    (∀ tag file, s.tagOrigin tag = some file → ∃ r, latest? rs file = some r ∧
      tag ∈ r.out.preflightTags ∧ t.Styles r.sheet tag) ∧
    (∀ r ∈ rs, r.out.preflightTags.Nodup) ∧
    ∀ r ∈ rs, r.out.css = r.sheet.text options.mode.wrapsDeferred := by
  intro calls s h rs
  have hs : Remembers s h := remembers_after (remembers_start options) calls
  have hr : Introduces t s rs :=
    introduces_after (remembers_start options) (introduces_start t options) visits
  have hkeys : (rs.flatMap fun r => r.out.newTags).Nodup := by
    rw [← hr.keys, hs.tags]
    exact Scan.nodup_eraseDups _
  obtain ⟨hnodup, hdisjoint⟩ := List.nodup_flatMap.1 hkeys
  refine ⟨files_results _ visits, hnodup, hdisjoint, ?_, ?_, hr.nodup, ?_⟩
  · intro tag
    rw [← List.mem_flatMap, ← hr.keys, hs.tags, List.mem_eraseDups, List.mem_flatMap]
  · intro tag file horigin
    exact hr.latest (tag, file) (Assoc.mem_of_find? horigin)
  · intro r hmem
    rw [hr.css r hmem, options_after]
    rfl

end Session

end ClassWeave

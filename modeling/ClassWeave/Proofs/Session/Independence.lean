import ClassWeave.Proofs.Session.Reload

namespace ClassWeave

open Markup Utility

def Call.names (c : Call) : List String :=
  match c.processor.read c.source with
  | .ok component => component.elementNames
  | .error _ => []

namespace Session

/-- Everything that is read of a session to process a file with these elements. -/
structure SameFor (file : String) (names : List String) (s t : Session) : Prop where
  options : s.options = t.options
  hasSeen : s.hasSeen file = t.hasSeen file
  introduced : s.tagsIntroducedBy file = t.tagsIntroducedBy file
  baseline : s.includesBaseline file = t.includesBaseline file
  hasTag : ∀ tag ∈ names, s.hasTag tag = t.hasTag tag

/-- That no query tells two sessions apart but for the order of their files. -/
structure Alike (s t : Session) : Prop where
  options : s.options = t.options
  fileState : ∀ file, s.fileState file = t.fileState file
  tagOrigin : ∀ tag, s.tagOrigin tag = t.tagOrigin tag
  includesBaseline : ∀ file, s.includesBaseline file = t.includesBaseline file
  tagsIntroducedBy : ∀ file, s.tagsIntroducedBy file = t.tagsIntroducedBy file
  invocations : s.close.invocations = t.close.invocations
  tags : s.close.tags = t.close.tags

theorem Alike.refl (s : Session) : Alike s s :=
  ⟨rfl, fun _ => rfl, fun _ => rfl, fun _ => rfl, fun _ => rfl, rfl, rfl⟩

variable {s t : Session}

theorem newNames_congr {names : List String} (h : ∀ tag ∈ names, s.hasTag tag = t.hasTag tag) :
    (names.eraseDups.filter fun tag => !s.hasTag tag) =
      names.eraseDups.filter fun tag => !t.hasTag tag := by
  apply List.filter_congr
  intro tag htag
  rw [h tag (List.mem_eraseDups.1 htag)]

theorem SameFor.scan_eq {file : String} {component : Component}
    (h : SameFor file component.elementNames s t) (resolver : Resolver) :
    component.scan resolver s = component.scan resolver t := by
  rw [Scan.scan_eq_dropTags resolver s, Scan.scan_eq_dropTags resolver t, h.options]
  cases hbase : component.scan resolver (start t.options) with
  | error e => rfl
  | ok base =>
    have hnew := Scan.newTags_eq _ _ hbase
    have hall : (component.elementNames.eraseDups.filter fun tag =>
        !(start t.options).hasTag tag) = component.elementNames.eraseDups :=
      List.filter_eq_self.2 fun tag _ => rfl
    simp only [Except.map, Scan.dropTags]
    rw [hnew, hall, newNames_congr h.hasTag]

theorem SameFor.preflightTags_eq {file : String} {names : List String}
    (h : SameFor file names s t) (new : List String) :
    s.preflightTags file new = t.preflightTags file new := by
  rw [preflightTags, preflightTags, h.hasSeen, h.introduced]

theorem SameFor.cssOf_eq {p : Processor} {file : String} {names : List String}
    (h : SameFor file names s t) (scan : Scan) : p.cssOf s file scan = p.cssOf t file scan := by
  rw [Processor.cssOf, Processor.cssOf, h.options, h.preflightTags_eq, h.baseline]

theorem SameFor.result_eq {c : Call} (h : SameFor c.file c.names s t) :
    (c.run s).map Prod.fst = (c.run t).map Prod.fst := by
  rw [Call.run, Call.run, Processor.map_fst_process, Processor.map_fst_process]
  cases hread : c.processor.read c.source with
  | error e => simp only [bind, Except.bind]
  | ok component =>
    have hnames : c.names = component.elementNames := by rw [Call.names, hread]
    rw [hnames] at h
    simp only [bind, Except.bind, h.scan_eq, h.cssOf_eq, h.preflightTags_eq]

def newNames (s : Session) (c : Call) : List String :=
  c.names.eraseDups.filter fun tag => !s.hasTag tag

theorem step_of_run_ok {c : Call} {r : Processed × Session} (h : c.run s = .ok r) :
    s.step c = s.commit c.file (s.newNames c) := by
  rcases s.step_cases c with ⟨-, -, e, he⟩ | ⟨component, hsome, hstep⟩
  · rw [he] at h
    cases h
  · rw [Call.success?, h] at hsome
    cases hread : c.processor.read c.source with
    | error e => simp [hread] at hsome
    | ok component' =>
      simp only [hread, Option.some.injEq, Success.mk.injEq, true_and] at hsome
      rw [hstep, newNames, Call.names, hread, hsome]

theorem SameFor.step_cases {c : Call} (h : SameFor c.file c.names s t) :
    (s.step c = s ∧ t.step c = t) ∨
      s.step c = s.commit c.file (s.newNames c) ∧ t.step c = t.commit c.file (s.newNames c) := by
  have hresult := h.result_eq
  cases hs : c.run s with
  | error e =>
    cases ht : c.run t with
    | error e' => exact .inl ⟨by rw [step, hs], by rw [step, ht]⟩
    | ok r =>
      rw [hs, ht] at hresult
      cases hresult
  | ok r =>
    cases ht : c.run t with
    | error e =>
      rw [hs, ht] at hresult
      cases hresult
    | ok r' =>
      refine .inr ⟨step_of_run_ok hs, ?_⟩
      rw [step_of_run_ok ht, newNames, newNames, newNames_congr h.hasTag]

theorem step_eq_or (s : Session) (c : Call) :
    s.step c = s ∨ s.step c = s.commit c.file (s.newNames c) := by
  cases h : c.run s with
  | error e => exact .inl (by rw [step, h])
  | ok r => exact .inr (step_of_run_ok h)

theorem includesBaseline_of_seenFiles (hs : s.seenFiles ≠ []) (h : s.seenFiles <+: t.seenFiles)
    (file : String) : t.includesBaseline file = s.includesBaseline file := by
  have hempty : ∀ {u : Session}, u.seenFiles ≠ [] → u.files.isEmpty = false := by
    intro u hu
    cases hf : u.files with
    | nil => exact absurd (by rw [seenFiles, hf]; rfl) hu
    | cons e es => rfl
  have ht : t.seenFiles ≠ [] := fun h' => hs (List.prefix_nil.1 (h' ▸ h))
  obtain ⟨rest, hrest⟩ := h
  rw [includesBaseline, includesBaseline, hempty hs, hempty ht, ← hrest,
    List.head?_append_of_ne_nil _ hs]

theorem hasSeen_commit {file other : String} (h : other ≠ file) (names : List String) :
    (s.commit file names).hasSeen other = s.hasSeen other := by
  rw [hasSeen, hasSeen, Assoc.contains, Assoc.contains, commit, Assoc.find?_put, if_neg h]

theorem nodup_newNames (s : Session) (c : Call) : (s.newNames c).Nodup :=
  (Scan.nodup_eraseDups _).filter _

theorem mem_newNames {c : Call} {tag : String} (h : tag ∈ s.newNames c) :
    tag ∈ c.names ∧ tag ∉ s.tags.keys := by
  obtain ⟨hmem, hnew⟩ := List.mem_filter.1 h
  refine ⟨List.mem_eraseDups.1 hmem, fun hk => ?_⟩
  rw [(s.hasTag_iff tag).2 hk] at hnew
  cases hnew

def Unknown (s : Session) (names : List String) : Prop :=
  names.Nodup ∧ ∀ tag ∈ names, tag ∉ s.tags.keys

theorem Unknown.tags_commit {names : List String} (h : s.Unknown names) (file : String) :
    (s.commit file names).tags = s.tags ++ names.map fun tag => (tag, file) :=
  Assoc.foldl_putNew h.1 h.2 file

theorem Unknown.keys_commit {names : List String} (h : s.Unknown names) (file : String) :
    (s.commit file names).tags.keys = s.tags.keys ++ names := by
  rw [h.tags_commit, Assoc.keys, List.map_append, ← Assoc.keys]
  simp [Function.comp_def]

theorem unknown_newNames (s : Session) (c : Call) : s.Unknown (s.newNames c) :=
  ⟨nodup_newNames s c, fun _ h => (mem_newNames h).2⟩

theorem sameFor_step {file : String} {names : List String} {d : Call} (hs : s.seenFiles ≠ [])
    (hfile : d.file ≠ file) (hnames : names.Disjoint d.names) :
    SameFor file names s (s.step d) := by
  have hkeeps := keeps_step (s := s) (c := d) (.inl hfile)
  rcases s.step_eq_or d with hstep | hstep
  · rw [hstep]
    exact ⟨rfl, rfl, rfl, rfl, fun _ _ => rfl⟩
  refine ⟨hkeeps.options.symm, ?_, hkeeps.tagsIntroducedBy_eq.symm,
    (includesBaseline_of_seenFiles hs hkeeps.files file).symm, ?_⟩
  · rw [hstep, hasSeen_commit hfile.symm]
  · intro tag htag
    have hnot : tag ∉ s.newNames d := fun hmem => hnames htag (mem_newNames hmem).1
    rw [hstep, Bool.eq_iff_iff, hasTag_iff, hasTag_iff, (unknown_newNames s d).keys_commit]
    simp [hnot]

theorem alike_commit_comm {file other : String} {names more : List String} (hs : s.seenFiles ≠ [])
    (hne : file ≠ other) (hnames : s.Unknown names) (hmore : s.Unknown more)
    (hdisjoint : names.Disjoint more) :
    Alike ((s.commit file names).commit other more) ((s.commit other more).commit file names) := by
  have hnames' : (s.commit other more).Unknown names := by
    refine ⟨hnames.1, fun tag htag => ?_⟩
    rw [hmore.keys_commit, List.mem_append, not_or]
    exact ⟨hnames.2 tag htag, hdisjoint htag⟩
  have hmore' : (s.commit file names).Unknown more := by
    refine ⟨hmore.1, fun tag htag => ?_⟩
    rw [hnames.keys_commit, List.mem_append, not_or]
    exact ⟨hmore.2 tag htag, fun h => hdisjoint h htag⟩
  have htags := hmore'.tags_commit other
  have htags' := hnames'.tags_commit file
  rw [hnames.tags_commit, List.append_assoc] at htags
  rw [hmore.tags_commit, List.append_assoc] at htags'
  have hprefix {a b : String} {xs ys : List String} :
      s.seenFiles <+: ((s.commit a xs).commit b ys).seenFiles :=
    (seenFiles_commit s a xs).trans (seenFiles_commit _ b ys)
  constructor
  · rfl
  · intro f
    simp only [fileState, commit, Assoc.find?_put]
    by_cases hf : f = file <;> by_cases ho : f = other <;> simp_all
  · intro tag
    rw [tagOrigin, tagOrigin, htags, htags']
    simp only [Assoc.find?_append, Assoc.find?_map_const]
    by_cases hn : tag ∈ names
    · have hm : tag ∉ more := fun h => hdisjoint hn h
      simp [hn, hm]
    · simp [hn]
  · intro f
    rw [includesBaseline_of_seenFiles hs hprefix, includesBaseline_of_seenFiles hs hprefix]
  · intro f
    rw [tagsIntroducedBy, tagsIntroducedBy, htags, htags']
    simp only [List.filter_append, List.filter_map, Function.comp_def]
    by_cases hf : file = f
    · have ho : (other == f) = false := beq_false_of_ne (hf ▸ hne.symm)
      simp [ho]
    · have hf' : (file == f) = false := beq_false_of_ne hf
      simp [hf']
  · rw [close, close]
    dsimp only
    rw [commit, commit, Assoc.total_put, commit, commit, Assoc.total_put]
    dsimp only
    rw [Assoc.total_put, Assoc.total_put]
  · rw [close, close, htags, htags']
    simp only [List.length_append]
    omega

theorem step_comm {c d : Call} (hs : s.seenFiles ≠ []) (hfile : c.file ≠ d.file)
    (hnames : c.names.Disjoint d.names) :
    Alike ((s.step c).step d) ((s.step d).step c) := by
  have hc : SameFor c.file c.names s (s.step d) := sameFor_step hs hfile.symm hnames
  have hd : SameFor d.file d.names s (s.step c) := sameFor_step hs hfile fun _ h k => hnames k h
  rcases hc.step_cases with ⟨hsc, htc⟩ | ⟨hsc, htc⟩
  · rw [hsc, htc]
    exact .refl _
  rcases hd.step_cases with ⟨hsd, htd⟩ | ⟨hsd, htd⟩
  · rw [hsd, htd]
    exact .refl _
  · rw [htc, htd, hsc, hsd]
    exact alike_commit_comm hs hfile (unknown_newNames s c) (unknown_newNames s d)
      fun tag h k => hnames (mem_newNames h).1 (mem_newNames k).1

theorem seenFiles_ne_nil {h : List Success} (hs : Remembers s h) (hne : h ≠ []) :
    s.seenFiles ≠ [] := by
  obtain ⟨x, h, rfl⟩ := List.exists_cons_of_ne_nil hne
  rw [hs.files, List.map_cons, List.eraseDups_cons]
  exact List.cons_ne_nil _ _

/-- Once some file has succeeded, two calls about different files without a common element do not
notice each other: in either order both have the results that they have alone, and no query of the
session tells the orders apart. -/
theorem independent_files_commute (options : Options) (before : List Call) (c d : Call)
    (hbefore : (start options).history before ≠ []) (hfile : c.file ≠ d.file)
    (hnames : c.names.Disjoint d.names) :
    let s := (start options).after before
    (c.run (s.step d)).map Prod.fst = (c.run s).map Prod.fst ∧
    (d.run (s.step c)).map Prod.fst = (d.run s).map Prod.fst ∧
    Alike ((s.step c).step d) ((s.step d).step c) := by
  intro s
  have hs : s.seenFiles ≠ [] :=
    seenFiles_ne_nil (remembers_after (remembers_start options) before) hbefore
  have hc : SameFor c.file c.names s (s.step d) := sameFor_step hs hfile.symm hnames
  have hd : SameFor d.file d.names s (s.step c) := sameFor_step hs hfile fun _ h k => hnames k h
  exact ⟨hc.result_eq.symm, hd.result_eq.symm, step_comm hs hfile hnames⟩

def readsOne (name : String) : Processor :=
  ⟨Table.empty.resolver, fun _ => .ok ⟨[.element ⟨name, .element, ⟨0, 0⟩, []⟩ []], []⟩⟩

theorem history_readsOne :
    (start {}).history [⟨readsOne "i", "c", ""⟩] =
      [⟨"c", ⟨[.element ⟨"i", .element, ⟨0, 0⟩, []⟩ []], []⟩⟩] := by
  obtain ⟨r, hr⟩ : ∃ r, (⟨readsOne "i", "c", ""⟩ : Call).run (start {}) = .ok r := by
    have hscan : Component.scan ⟨[.element ⟨"i", .element, ⟨0, 0⟩, []⟩ []], []⟩
        Table.empty.resolver (start {}) = .ok ⟨[], [], [], ["i"], []⟩ := rfl
    have hcode (css : String) : ∃ code, Processor.codeOf ""
        ⟨[.element ⟨"i", .element, ⟨0, 0⟩, []⟩ []], []⟩ ⟨[], [], [], ["i"], []⟩ css = .ok code := by
      simp [Processor.codeOf, Splice.inject, Splice.append, Splice.ofText, Splice.finish,
        Splice.badOffset?, Splice.sortedEdits, Splice.overlap?, Splice.insideEdit?]
    obtain ⟨code, hcode⟩ := hcode (Processor.cssOf (readsOne "i") (start {}) "c" _)
    exact ⟨_, Processor.process_eq_ok_iff.2 ⟨_, _, code, rfl, hscan, hcode, rfl, rfl⟩⟩
  have hsuccess : (⟨readsOne "i", "c", ""⟩ : Call).success? (start {}) =
      some ⟨"c", ⟨[.element ⟨"i", .element, ⟨0, 0⟩, []⟩ []], []⟩⟩ := by
    rw [Call.success?, hr]
    rfl
  rw [history, hsuccess]
  rfl

theorem independent_files_commute_readsOne :
    let s := (start {}).after [⟨readsOne "i", "c", ""⟩]
    let c : Call := ⟨readsOne "p", "a", ""⟩
    let d : Call := ⟨readsOne "b", "b", ""⟩
    (c.run (s.step d)).map Prod.fst = (c.run s).map Prod.fst ∧
    (d.run (s.step c)).map Prod.fst = (d.run s).map Prod.fst ∧
    Alike ((s.step c).step d) ((s.step d).step c) := by
  apply independent_files_commute {} [⟨readsOne "i", "c", ""⟩]
  · rw [history_readsOne]
    exact List.cons_ne_nil _ _
  · decide
  · have hp : (⟨readsOne "p", "a", ""⟩ : Call).names = ["p"] := rfl
    have hb : (⟨readsOne "b", "b", ""⟩ : Call).names = ["b"] := rfl
    simp [hp, hb]

end Session

end ClassWeave

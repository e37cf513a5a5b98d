import ClassWeave.Proofs.Session.History
import ClassWeave.Utility.Table

namespace ClassWeave

open Markup Utility

namespace Session

/-- Each call is about another file, or it fails. -/
def LeavesAlone (file : String) : Session → List Call → Prop
  | _, [] => True
  | s, c :: calls => (c.file ≠ file ∨ ∃ e, c.run s = .error e) ∧ LeavesAlone file (s.step c) calls

structure Keeps (file : String) (s t : Session) : Prop where
  options : t.options = s.options
  files : s.seenFiles <+: t.seenFiles
  tags : ∃ more, t.tags = s.tags ++ more ∧ ∀ e ∈ more, e.2 ≠ file

theorem Keeps.refl (file : String) (s : Session) : Keeps file s s :=
  ⟨rfl, List.prefix_refl _, [], by simp, by simp⟩

theorem Keeps.trans {file : String} {s t u : Session} (hst : Keeps file s t)
    (htu : Keeps file t u) : Keeps file s u := by
  obtain ⟨more, ht, hmore⟩ := hst.tags
  obtain ⟨rest, hu, hrest⟩ := htu.tags
  refine ⟨htu.options.trans hst.options, hst.files.trans htu.files, more ++ rest, ?_, ?_⟩
  · rw [hu, ht, List.append_assoc]
  · intro e he
    rcases List.mem_append.1 he with he | he
    · exact hmore e he
    · exact hrest e he

theorem seenFiles_commit (s : Session) (file : String) (names : List String) :
    s.seenFiles <+: (s.commit file names).seenFiles := by
  rw [seenFiles, seenFiles, commit]
  by_cases hf : file ∈ s.files.keys
  · simp only [Assoc.keys_put_of_mem hf, List.prefix_rfl]
  · rw [Assoc.put_of_not_mem hf, Assoc.keys, Assoc.keys, List.map_append]
    exact List.prefix_append _ _

theorem keeps_step {file : String} {s : Session} {c : Call}
    (h : c.file ≠ file ∨ ∃ e, c.run s = .error e) : Keeps file s (s.step c) := by
  rcases s.step_cases c with ⟨hstep, -⟩ | ⟨component, hsome, hstep⟩
  · rw [hstep]
    exact .refl file s
  · have hc : c.file ≠ file := by
      refine h.resolve_right ?_
      rintro ⟨e, he⟩
      simp [Call.success?, he] at hsome
    rw [hstep]
    refine ⟨rfl, seenFiles_commit _ _ _, _, tags_commit _ _ _, ?_⟩
    intro e he
    obtain ⟨tag, -, rfl⟩ := List.mem_map.1 he
    exact hc

theorem keeps_after {file : String} {s : Session} {calls : List Call}
    (h : LeavesAlone file s calls) : Keeps file s (s.after calls) := by
  induction calls generalizing s with
  | nil => exact .refl file s
  | cons c calls ih => exact (keeps_step h.1).trans (ih h.2)

theorem Keeps.tagsIntroducedBy_eq {file : String} {s t : Session} (h : Keeps file s t) :
    t.tagsIntroducedBy file = s.tagsIntroducedBy file := by
  obtain ⟨more, ht, hmore⟩ := h.tags
  have hf : more.filter (fun e => e.2 == file) = [] := by
    apply List.filter_eq_nil_iff.2
    intro e he
    simpa using hmore e he
  rw [tagsIntroducedBy, tagsIntroducedBy, ht, List.filter_append, hf, List.append_nil]

theorem Keeps.hasTag {file tag : String} {s t : Session} (h : Keeps file s t)
    (hs : s.hasTag tag = true) : t.hasTag tag = true := by
  obtain ⟨more, ht, -⟩ := h.tags
  rw [hasTag_iff] at hs ⊢
  rw [ht, Assoc.keys, List.map_append]
  exact List.mem_append_left _ hs

theorem Keeps.head?_seenFiles {file : String} {s t : Session} (h : Keeps file s t)
    (hs : s.seenFiles ≠ []) : t.seenFiles.head? = s.seenFiles.head? := by
  obtain ⟨rest, hrest⟩ := h.files
  rw [← hrest, List.head?_append_of_ne_nil _ hs]

theorem tagsIntroducedBy_eq_nil {s : Session} {h : List Success} (hs : Remembers s h)
    {file : String} (hf : s.hasSeen file = false) : s.tagsIntroducedBy file = [] := by
  have hseen : file ∉ h.map Success.file := by
    intro hm
    have := (Assoc.contains_iff s.files file).2 ((mem_seenFiles_iff hs file).2 hm)
    simp [hasSeen, this] at hf
  have hfilter : s.tags.filter (fun e => e.2 == file) = [] := by
    apply List.filter_eq_nil_iff.2
    intro e he hfile
    have hn : s.tags.keys.Nodup := hs.tags ▸ Scan.nodup_eraseDups _
    have ho := hs.origin e.1
    rw [tagOrigin, Assoc.find?_of_mem hn he, eq_comm, Option.map_eq_some_iff] at ho
    obtain ⟨x, hx, hxe⟩ := ho
    apply hseen
    rw [← beq_iff_eq.1 hfile, ← hxe]
    exact List.mem_map_of_mem (List.mem_of_find?_eq_some hx)
  rw [tagsIntroducedBy, hfilter]
  rfl

theorem preflightTags_perm {s : Session} {h : List Success} (hs : Remembers s h) (file : String)
    {names : List String} (hn : ∀ tag ∈ names, s.hasTag tag = false) :
    (s.preflightTags file names).Perm (s.tagsIntroducedBy file ++ names) := by
  rw [preflightTags]
  split
  · have hf : (s.tagsIntroducedBy file).filter (fun tag => !names.contains tag) =
        s.tagsIntroducedBy file := by
      apply List.filter_eq_self.2
      intro tag htag
      have hk : s.hasTag tag = true :=
        (s.hasTag_iff tag).2 ((List.filter_sublist.map Prod.fst).subset htag)
      have hnot : tag ∉ names := fun hm => by simp [hn tag hm] at hk
      simpa using hnot
    rw [hf]
    exact List.perm_append_comm
  · next hseen =>
    rw [tagsIntroducedBy_eq_nil hs (by simpa using hseen), List.nil_append]

theorem tagsIntroducedBy_commit (s : Session) (file : String) (names : List String) :
    (s.commit file (names.eraseDups.filter fun tag => !s.hasTag tag)).tagsIntroducedBy file =
      s.tagsIntroducedBy file ++ names.eraseDups.filter fun tag => !s.hasTag tag := by
  rw [tagsIntroducedBy, tagsIntroducedBy, tags_commit, List.filter_append]
  have hf : ∀ new : List String, (new.map fun tag => (tag, file)).filter (fun e => e.2 == file) =
      new.map fun tag => (tag, file) := by
    intro new
    apply List.filter_eq_self.2
    intro e he
    obtain ⟨tag, -, rfl⟩ := List.mem_map.1 he
    exact beq_self_eq_true file
  rw [hf, Assoc.keys, List.map_append, List.map_map]
  simp [Assoc.keys, Function.comp_def]

theorem includesBaseline_commit (s : Session) (file : String) (names : List String) :
    (s.commit file names).seenFiles ≠ [] ∧
      ((s.commit file names).seenFiles.head? = some file ↔ s.includesBaseline file = true) := by
  cases hs : s.files with
  | nil => simp [seenFiles, commit, includesBaseline, hs, Assoc.put, Assoc.keys]
  | cons e es =>
    by_cases he : e.1 = file <;>
      simp [seenFiles, commit, includesBaseline, hs, Assoc.put, Assoc.keys, he]

theorem Keeps.includesBaseline_eq {file : String} {s t : Session} {names : List String}
    (h : Keeps file (s.commit file names) t) :
    t.includesBaseline file = s.includesBaseline file := by
  obtain ⟨hne, hhead⟩ := includesBaseline_commit s file names
  have ht := h.head?_seenFiles hne
  have hfiles : t.files ≠ [] := by
    intro he
    have hnil : t.seenFiles = [] := by rw [seenFiles, he]; rfl
    rw [hnil, eq_comm, List.head?_nil, List.head?_eq_none_iff] at ht
    exact hne ht
  rw [Bool.eq_iff_iff, ← hhead, ← ht]
  simp [includesBaseline, hfiles]

end Session

theorem Utility.Table.preflightSheet_congr (t : Table) {as bs : List String}
    (h : ∀ tag, tag ∈ as ↔ tag ∈ bs) (includeGlobal : Bool) :
    t.preflightSheet as includeGlobal = t.preflightSheet bs includeGlobal := by
  have hw : ∀ r, wantsPreflight as includeGlobal r = wantsPreflight bs includeGlobal r := by
    intro r
    simp only [wantsPreflight]
    split
    · rfl
    · congr 1
      funext tag
      rw [Bool.eq_iff_iff, List.contains_iff_mem, List.contains_iff_mem, h]
  simp only [preflightSheet, hw]

namespace Session

theorem Keeps.dropTags_eq_nil {file : String} {s t : Session} {names : List String}
    (h : Keeps file (s.commit file (names.eraseDups.filter fun tag => !s.hasTag tag)) t) :
    (names.eraseDups.filter fun tag => !t.hasTag tag) = [] := by
  apply List.filter_eq_nil_iff.2
  intro tag htag
  have hc : (s.commit file (names.eraseDups.filter fun tag => !s.hasTag tag)).hasTag tag =
      true := by
    rw [hasTag_iff, tags_commit, Assoc.keys, List.map_append, List.mem_append]
    by_cases hk : s.hasTag tag = true
    · exact .inl ((s.hasTag_iff tag).1 hk)
    · right
      simpa [hk] using htag
  simp [h.hasTag hc]

theorem Keeps.preflightTags_perm {before : List Call} {options : Options} {file : String}
    {s t : Session} {names : List String} (hs : s = (start options).after before)
    (h : Keeps file (s.commit file (names.eraseDups.filter fun tag => !s.hasTag tag)) t) :
    (t.preflightTags file []).Perm
      (s.preflightTags file (names.eraseDups.filter fun tag => !s.hasTag tag)) := by
  have hr := remembers_after (remembers_start options) before
  rw [← hs] at hr
  have hseen : t.hasSeen file = true := by
    apply (Assoc.contains_iff _ _).2
    apply h.files.subset
    rw [seenFiles, commit]
    by_cases hf : file ∈ s.files.keys
    · rwa [Assoc.keys_put_of_mem hf]
    · simp [Assoc.put_of_not_mem hf, Assoc.keys]
  have ht : t.preflightTags file [] = s.tagsIntroducedBy file ++
      names.eraseDups.filter fun tag => !s.hasTag tag := by
    rw [← tagsIntroducedBy_commit, ← h.tagsIntroducedBy_eq]
    simp [Session.preflightTags, hseen]
  rw [ht]
  apply List.Perm.symm
  apply Session.preflightTags_perm hr
  intro tag htag
  simpa using (List.mem_filter.1 htag).2

theorem Keeps.scan_eq {resolver : Resolver} {component : Component} {scan : Scan} {file : String}
    {s t : Session} (h : Keeps file
      (s.commit file (component.elementNames.eraseDups.filter fun tag => !s.hasTag tag)) t)
    (hoptions : t.options = s.options) (hscan : component.scan resolver s = .ok scan) :
    component.scan resolver t = .ok { scan with newTags := [] } := by
  rw [Scan.scan_eq_dropTags] at hscan ⊢
  rw [hoptions]
  obtain ⟨base, hok, hdrop⟩ := exists_of_map_ok hscan
  have hnil : base.newTags.filter (fun tag => !t.hasTag tag) = [] := by
    rw [Scan.newTags_eq _ _ hok]
    have hall : (component.elementNames.eraseDups.filter fun tag =>
        !(start s.options).hasTag tag) = component.elementNames.eraseDups :=
      List.filter_eq_self.2 fun tag _ => rfl
    rw [hall, h.dropTags_eq_nil]
  rw [hok, ← hdrop]
  simp only [Except.map, Scan.dropTags, hnil]

end Session

namespace Processor

/-- Processing a file again, after any calls that leave it alone, gives the same code and the same
sheet, finds no new element, and asks for the base styles of the same elements. -/
theorem process_again (table : Table) (read : String → Except Failure Component) (options : Options)
    (before between : List Call) (file source : String) {out : Processed} {s : Session}
    (h : process ⟨table.resolver, read⟩ ((Session.start options).after before) file source =
      .ok (out, s))
    (hb : s.LeavesAlone file between) :
    ∃ again t, process ⟨table.resolver, read⟩ (s.after between) file source = .ok (again, t) ∧
      again.code = out.code ∧ again.css = out.css ∧ again.ignored = out.ignored ∧
      again.newTags = [] ∧ again.preflightTags.Perm out.preflightTags := by
  obtain ⟨component, scan, code, hread, hscan, hcode, rfl, rfl⟩ := process_eq_ok_iff.1 h
  generalize hs : (Session.start options).after before = s at *
  generalize ht : (s.commit file scan.newTags).after between = t at *
  have hnew := Scan.newTags_eq _ _ hscan
  have hk : Session.Keeps file (s.commit file scan.newTags) t := ht ▸ Session.keeps_after hb
  have hbase := hk.includesBaseline_eq
  have hoptions : t.options = s.options := hk.options
  rw [hnew] at hk
  have hagain := hk.scan_eq hoptions hscan
  have hperm := hk.preflightTags_perm hs.symm
  rw [← hnew] at hperm
  have hcss : cssOf ⟨table.resolver, read⟩ t file { scan with newTags := [] } =
      cssOf ⟨table.resolver, read⟩ s file scan := by
    simp only [cssOf, hoptions, hbase, Resolver.baseSheet, Table.resolver]
    rw [table.preflightSheet_congr fun tag => hperm.mem_iff]
  refine ⟨_, _, process_eq_ok_iff.2 ⟨component, _, code, hread, hagain, ?_, rfl, rfl⟩, rfl, hcss,
    rfl, rfl, hperm⟩
  rw [hcss]
  exact hcode

def readParagraph (source : String) : Except Failure Component :=
  if source = "" then .error (.parse 0 .missingValue)
  else .ok ⟨[.element ⟨"p", .element, ⟨0, 0⟩, []⟩ []], []⟩

def paragraphs : Processor := ⟨Table.empty.resolver, readParagraph⟩

theorem process_again_paragraph :
    ∃ out s again t, paragraphs.process (.start {}) "a" "text" = .ok (out, s) ∧
      paragraphs.process (s.after [⟨paragraphs, "b", "text"⟩, ⟨paragraphs, "a", ""⟩]) "a" "text" =
        .ok (again, t) ∧
      again.code = out.code ∧ again.css = out.css ∧ again.ignored = out.ignored ∧
      again.newTags = [] ∧ again.preflightTags.Perm out.preflightTags := by
  have hread : readParagraph "text" = .ok ⟨[.element ⟨"p", .element, ⟨0, 0⟩, []⟩ []], []⟩ :=
    if_neg (by decide)
  have hscan : Component.scan ⟨[.element ⟨"p", .element, ⟨0, 0⟩, []⟩ []], []⟩ Table.empty.resolver
      (.start {}) = .ok ⟨[], [], [], ["p"], []⟩ := rfl
  have hcode (css : String) : ∃ code, codeOf "text"
      ⟨[.element ⟨"p", .element, ⟨0, 0⟩, []⟩ []], []⟩ ⟨[], [], [], ["p"], []⟩ css = .ok code := by
    simp [codeOf, Splice.inject, Splice.append, Splice.ofText, Splice.finish, Splice.badOffset?,
      Splice.sortedEdits, Splice.overlap?, Splice.insideEdit?]
  obtain ⟨out, s, h⟩ : ∃ out s, paragraphs.process (.start {}) "a" "text" = .ok (out, s) := by
    obtain ⟨code, hcode⟩ := hcode (cssOf paragraphs (.start {}) "a" ⟨[], [], [], ["p"], []⟩)
    exact ⟨_, _, process_eq_ok_iff.2 ⟨_, _, code, hread, hscan, hcode, rfl, rfl⟩⟩
  have hfails : (⟨paragraphs, "a", ""⟩ : Call).run (s.step ⟨paragraphs, "b", "text"⟩) =
      .error (.parse 0 .missingValue) := rfl
  obtain ⟨again, t, hagain, hsame⟩ := process_again Table.empty readParagraph {} []
    [⟨paragraphs, "b", "text"⟩, ⟨paragraphs, "a", ""⟩] "a" "text" h
    ⟨.inl (by decide), .inr ⟨_, hfails⟩, trivial⟩
  exact ⟨out, s, again, t, h, hagain, hsame⟩

end Processor

end ClassWeave

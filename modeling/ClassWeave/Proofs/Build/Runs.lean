import ClassWeave.Command.Run
import ClassWeave.Proofs.Build.Relative
import ClassWeave.Proofs.Process.Frame
import ClassWeave.Proofs.Session.History

namespace ClassWeave

open Files

theorem store_cases {d d' : Disk} {target : Path} {code : String} {r : Except BuildFailure Unit}
    (h : store d target code = (r, d')) :
    (r = .ok () ∧ d.Written d' [(d.reach target, code)] ∧ d'.read target = .ok code) ∨
      ∃ failure, r = .error failure ∧ d.Written d' [] := by
  have hmade := Disk.written_makeChain
    (target.parent?.getD ⟨[]⟩ :: (target.parent?.getD ⟨[]⟩).above) d
  rw [store, Disk.makeDirectories] at h
  rcases hchain : Disk.makeChain (target.parent?.getD ⟨[]⟩ :: (target.parent?.getD ⟨[]⟩).above) d
    with ⟨_ | _, e⟩
  · simp only [hchain] at h hmade
    cases h
    exact .inr ⟨_, rfl, hmade⟩
  · simp only [hchain] at h hmade
    cases hwrite : e.write target code with
    | error fault =>
      rw [hwrite] at h
      cases h
      exact .inr ⟨_, rfl, hmade⟩
    | ok f =>
      rw [hwrite] at h
      cases h
      have hwritten := hmade.trans (Disk.written_write hwrite) nofun
      rw [List.nil_append, hmade.reach_eq] at hwritten
      exact .inl ⟨rfl, hwritten, Disk.read_write hwrite⟩

structure Built where
  names : List Name
  source : String
  component : Markup.Component
  processed : Processed

namespace Built

def relative (b : Built) : Path := ⟨Path.joinPieces b.names⟩

end Built

namespace Plan

structure Passes (p : Plan) (dir : Path) (d e : Disk) (s : Session) (b : Built) (f : Disk)
    (t : Session) : Prop where
  read : d.read (p.root.descend b.names) = .ok b.source
  component : p.processor.read b.source = .ok b.component
  process : p.processor.process s (fileName b.relative) b.source = .ok (b.processed, t)
  store : store e (dir.join b.relative) b.processed.code = (.ok (), f)

inductive PassesAll (p : Plan) (dir : Path) (d : Disk) :
    Disk → Session → List Built → Disk → Session → Prop
  | nil {e : Disk} {s : Session} : PassesAll p dir d e s [] e s
  | cons {e f g : Disk} {s t u : Session} {b : Built} {bs : List Built}
      (hb : p.Passes dir d e s b f t) (hbs : PassesAll p dir d f t bs g u) :
      PassesAll p dir d e s (b :: bs) g u

inductive Stops (p : Plan) (dir : Path) (d e : Disk) (s : Session) (names : List Name) :
    BuildFailure → Disk → Prop
  | unread {fault : DiskFault} (hread : d.read (p.root.descend names) = .error fault) :
      Stops p dir d e s names (.disk .read (p.root.descend names) fault) e
  | rejected {source : String} {failure : Failure}
      (hread : d.read (p.root.descend names) = .ok source)
      (hprocess : p.processor.process s (fileName ⟨Path.joinPieces names⟩) source =
        .error failure) :
      Stops p dir d e s names (.component (p.root.descend names) failure) e
  | unstored {source : String} {processed : Processed} {t : Session} {failure : BuildFailure}
      {f : Disk} (hread : d.read (p.root.descend names) = .ok source)
      (hprocess : p.processor.process s (fileName ⟨Path.joinPieces names⟩) source =
        .ok (processed, t))
      (hstore : ClassWeave.store e (dir.join ⟨Path.joinPieces names⟩) processed.code =
        (.error failure, f)) :
      Stops p dir d e s names failure f

inductive Ends (p : Plan) (dir : Path) (d : Disk) : List (List Name) → List Built → Outcome → Prop
  | all {built : List Built} {e : Disk} {s : Session}
      (h : p.PassesAll dir d d (.start p.options) built e s) :
      Ends p dir d (built.map Built.names) built
        ⟨none, e, "", some (.built built.length
          (built.flatMap fun b => b.component.elementNames).eraseDups.length
          (built.flatMap fun b => b.processed.ignored).length), none⟩
  | cut {built : List Built} {e f : Disk} {s : Session} {names : List Name}
      {more : List (List Name)} {failure : BuildFailure}
      (h : p.PassesAll dir d d (.start p.options) built e s)
      (hstops : p.Stops dir d e s names failure f) :
      Ends p dir d (built.map Built.names ++ names :: more) built ⟨some failure, f, "", none, none⟩

variable {p : Plan} {dir : Path} {d e f : Disk} {s t : Session} {built : List Built}

theorem Passes.step_eq {b : Built} (h : p.Passes dir d e s b f t) :
    s.step ⟨p.processor, fileName b.relative, b.source⟩ = t ∧
      Call.success? ⟨p.processor, fileName b.relative, b.source⟩ s =
        some ⟨fileName b.relative, b.component⟩ := by
  constructor
  · rw [Session.step, Call.run, h.process]
  · rw [Call.success?, Call.run, h.process, h.component]

theorem Passes.unique {b b' : Built} {f' : Disk} {t' : Session} (h : p.Passes dir d e s b f t)
    (h' : p.Passes dir d e s b' f' t') (hnames : b.names = b'.names) : f = f' ∧ t = t' := by
  obtain ⟨names, source, component, processed⟩ := b
  obtain ⟨names', source', component', processed'⟩ := b'
  obtain rfl : names = names' := hnames
  obtain rfl : source = source' := Except.ok.inj (h.read.symm.trans h'.read)
  obtain ⟨rfl, rfl⟩ := Prod.mk.inj (Except.ok.inj (h.process.symm.trans h'.process))
  exact ⟨(Prod.mk.inj (h.store.symm.trans h'.store)).2, rfl⟩

theorem Passes.not_stops {b : Built} {failure : BuildFailure} {f' : Disk}
    (h : p.Passes dir d e s b f t) : ¬ p.Stops dir d e s b.names failure f' := by
  rintro (hread | ⟨hread, hprocess⟩ | ⟨hread, hprocess, hstore⟩)
  · cases h.read.symm.trans hread
  · obtain rfl := Except.ok.inj (h.read.symm.trans hread)
    cases h.process.symm.trans hprocess
  · obtain rfl := Except.ok.inj (h.read.symm.trans hread)
    obtain ⟨rfl, rfl⟩ := Prod.mk.inj (Except.ok.inj (h.process.symm.trans hprocess))
    cases h.store.symm.trans hstore

namespace PassesAll

theorem not_stops {g : Disk} {u : Session} {passed : List Built} {names : List Name}
    {more : List (List Name)} {failure : BuildFailure} {f' : Disk}
    (h : p.PassesAll dir d e s built f t) (hstops : p.Stops dir d f t names failure f')
    (hnames : passed.map Built.names = built.map Built.names ++ names :: more) :
    ¬ p.PassesAll dir d e s passed g u := by
  induction h generalizing passed with
  | nil =>
    rintro (_ | ⟨hb, -⟩)
    · cases hnames
    · obtain ⟨rfl, -⟩ := List.cons.inj hnames
      exact hb.not_stops hstops
  | cons hb _ ih =>
    rintro (_ | ⟨hb', hbs'⟩)
    · cases hnames
    · obtain ⟨hname, hrest⟩ := List.cons.inj hnames
      obtain ⟨rfl, rfl⟩ := hb.unique hb' hname.symm
      exact ih hstops hrest hbs'

theorem remembers (h : p.PassesAll dir d e s built f t) {past : List Success}
    (hs : Remembers s past) :
    Remembers t (past ++ built.map fun b => ⟨fileName b.relative, b.component⟩) := by
  induction h generalizing past with
  | nil => rwa [List.map_nil, List.append_nil]
  | @cons _ _ _ s _ _ b bs hb hbs ih =>
    have hstep := Session.remembers_step hs ⟨p.processor, fileName b.relative, b.source⟩
    rw [hb.step_eq.1, hb.step_eq.2] at hstep
    have hrest := ih hstep
    rwa [Option.toList_some, List.append_assoc, List.singleton_append] at hrest

theorem tags_close (h : p.PassesAll dir d e (.start p.options) built f t) :
    t.close.tags = (built.flatMap fun b => b.component.elementNames).eraseDups.length := by
  have htags := (h.remembers (Session.remembers_start p.options)).tags
  rw [List.nil_append, List.flatMap_map] at htags
  rw [← htags, Session.close, Assoc.keys, List.length_map]

theorem written (h : p.PassesAll dir d e s built f t) (hnodup : (built.map Built.names).Nodup)
    (hnames : ∀ b ∈ built, ∀ w ∈ b.names, IsFileName w) :
    e.Written f (built.map fun b => (e.reach dir ++ b.names, b.processed.code)) ∧
      ∀ b ∈ built, f.read (dir.join b.relative) = .ok b.processed.code := by
  induction h with
  | nil => exact ⟨.refl _, nofun⟩
  | @cons e f g s _ _ b bs hb hbs ih =>
    rw [List.map_cons, List.nodup_cons] at hnodup
    rw [List.forall_mem_cons] at hnames
    obtain ⟨-, hone, hread⟩ | ⟨_, herror, -⟩ := store_cases hb.store
    · obtain ⟨hrest, hreads⟩ := ih hnodup.2 hnames.2
      have hreach : e.reach (dir.join b.relative) = e.reach dir ++ b.names :=
        e.reach_join dir hnames.1
      rw [hone.reach_eq] at hrest
      have hapart : ∀ o ∈ bs.map fun b => (e.reach dir ++ b.names, b.processed.code),
          e.reach (dir.join b.relative) ≠ o.1 := by
        intro o ho heq
        obtain ⟨b', hb', rfl⟩ := List.mem_map.1 ho
        rw [hreach, List.append_cancel_left_eq] at heq
        exact hnodup.1 (heq ▸ List.mem_map_of_mem hb')
      refine ⟨?_, List.forall_mem_cons.2 ⟨?_, hreads⟩⟩
      · have htrans := hone.trans hrest (fun o ho => by
          rw [List.mem_singleton.1 ho]
          exact hapart)
        rwa [hreach] at htrans
      · apply hrest.read_ok hread
        rwa [hone.reach_eq]
    · cases herror

end PassesAll

structure Fits (p : Plan) (dir : Path) (d : Disk) (base : Location) (names : List Name) : Prop where
  isFileName : ∀ w ∈ names, IsFileName w
  relative : p.relative (p.root.descend names) = ⟨Path.joinPieces names⟩
  node : d.node? (base ++ names) ≠ none
  apart : ¬ d.reach dir <+: base ++ names

variable {base : Location} {names : List Name}

theorem processFile_cases (hdir : p.outDir = some dir) (hfits : p.Fits dir d base names)
    (g : Progress) (hread : g.disk.read (p.root.descend names) = d.read (p.root.descend names)) :
    (∃ b f t, b.names = names ∧ p.Passes dir d g.disk g.session b f t ∧
      p.processFile g (p.root.descend names) = (.ok (), { g with
        disk := f, session := t, files := g.files + 1,
        ignored := g.ignored + b.processed.ignored.length })) ∨
      ∃ failure f g', p.Stops dir d g.disk g.session names failure f ∧
        p.processFile g (p.root.descend names) = (.error failure, g') ∧
        g'.disk = f ∧ g'.output = g.output := by
  have hrelative : ¬ Path.isAbsolute ⟨Path.joinPieces names⟩ = true :=
    Path.not_isAbsolute_joinPieces hfits.isFileName
  rw [processFile, hread, hfits.relative]
  cases hsource : d.read (p.root.descend names) with
  | error fault => exact .inr ⟨_, _, g, .unread hsource, rfl, rfl, rfl⟩
  | ok source =>
    dsimp only
    cases hprocess : p.processor.process g.session (fileName ⟨Path.joinPieces names⟩) source with
    | error failure => exact .inr ⟨_, _, g, .rejected hsource hprocess, rfl, rfl, rfl⟩
    | ok result =>
      obtain ⟨processed, t⟩ := result
      obtain ⟨component, -, -, hcomponent, -⟩ := Processor.process_eq_ok_iff.1 hprocess
      simp only [deliver, hdir, hfits.relative, if_neg hrelative]
      rcases hstore : store g.disk (dir.join ⟨Path.joinPieces names⟩) processed.code
        with ⟨failure | _, f⟩
      · exact .inr ⟨failure, f, _, .unstored hsource hprocess hstore, rfl, rfl, rfl⟩
      · exact .inl ⟨⟨names, source, component, processed⟩, f, t, rfl,
          ⟨hsource, hcomponent, hprocess, hstore⟩, rfl⟩

/-- All of the components pass, or the first one that does not ends it. They are read as they were in
`d`: what was written by then lies elsewhere. -/
theorem processFiles_cases (hd : d.Sound) (hdir : p.outDir = some dir)
    (hbase : d.locate p.root = .ok base) {all : List (List Name)} (hnodup : all.Nodup)
    (hall : ∀ names ∈ all, p.Fits dir d base names) (g : Progress)
    {outs : List (Location × String)} (hw : d.Written g.disk outs)
    (houts : ∀ o ∈ outs, ∃ past, past ∉ all ∧ o.1 = d.reach dir ++ past) :
    (∃ built f t, built.map Built.names = all ∧ p.PassesAll dir d g.disk g.session built f t ∧
      p.processFiles g (all.map p.root.descend) = (.ok (), { g with
        disk := f, session := t, files := g.files + built.length,
        ignored := g.ignored + (built.flatMap fun b => b.processed.ignored).length })) ∨
      ∃ built names more e s failure f g', built.map Built.names ++ names :: more = all ∧
        p.PassesAll dir d g.disk g.session built e s ∧ p.Stops dir d e s names failure f ∧
        p.processFiles g (all.map p.root.descend) = (.error failure, g') ∧
        g'.disk = f ∧ g'.output = g.output := by
  -- The results so far are named like components that have passed, so none of the ones to come is
  -- stored where one of them is.
  induction all generalizing g outs with
  | nil => exact .inl ⟨[], g.disk, g.session, rfl, .nil, rfl⟩
  | cons names all ih =>
    rw [List.nodup_cons] at hnodup
    rw [List.forall_mem_cons] at hall
    have hread := hd.read_descend_eq hw hbase hall.1.isFileName hall.1.node (by
      intro o ho heq
      obtain ⟨past, -, ho⟩ := houts o ho
      exact hall.1.apart ⟨past, (heq.trans ho).symm⟩)
    rw [List.map_cons, processFiles]
    obtain ⟨b, f, t, rfl, hpasses, hfile⟩ | ⟨failure, f, g', hstops, hfile, hdisk, houtput⟩ :=
      processFile_cases hdir hall.1 g hread
    · rw [hfile]
      obtain ⟨-, hone, -⟩ | ⟨_, herror, -⟩ := store_cases hpasses.store
      · have hreach : g.disk.reach (dir.join b.relative) = d.reach dir ++ b.names :=
          (hw.reach_eq _).trans (d.reach_join dir hall.1.isFileName)
        rw [hreach] at hone
        have hnext := hw.trans hone (by
          intro o ho o' ho' heq
          obtain ⟨past, hpast, ho⟩ := houts o ho
          rw [ho, List.mem_singleton.1 ho', List.append_cancel_left_eq] at heq
          exact hpast (heq ▸ List.mem_cons_self))
        have hnextOuts : ∀ o ∈ outs ++ [(d.reach dir ++ b.names, b.processed.code)],
            ∃ past, past ∉ all ∧ o.1 = d.reach dir ++ past := by
          rw [List.forall_mem_append]
          refine ⟨fun o ho => ?_, List.forall_mem_singleton.2 ⟨b.names, hnodup.1, rfl⟩⟩
          obtain ⟨past, hpast, ho⟩ := houts o ho
          exact ⟨past, fun h => hpast (List.mem_cons_of_mem _ h), ho⟩
        obtain ⟨built, f', t', rfl, hpassesAll, hfiles⟩ |
            ⟨built, names, more, e, s, failure, f', g', rfl, hpassesAll, hstops, hfiles, hdisk,
              houtput⟩ :=
          ih hnodup.2 hall.2 { g with
            disk := f, session := t, files := g.files + 1,
            ignored := g.ignored + b.processed.ignored.length } hnext hnextOuts
        · refine .inl ⟨b :: built, f', t', rfl, .cons hpasses hpassesAll, ?_⟩
          simp only [hfiles, List.length_cons, List.flatMap_cons, List.length_append,
            Nat.add_assoc, Nat.add_comm 1]
        · exact .inr ⟨b :: built, names, more, e, s, failure, f', g', rfl,
            .cons hpasses hpassesAll, hstops, hfiles, hdisk, houtput⟩
      · cases herror
    · rw [hfile]
      exact .inr ⟨[], names, all, g.disk, g.session, failure, f, g', rfl, .nil, hstops, rfl, hdisk,
        houtput⟩

theorem Stops.written {failure : BuildFailure} (h : p.Stops dir d e s names failure f) :
    e.Written f [] := by
  cases h with
  | unread => exact .refl _
  | rejected => exact .refl _
  | unstored _ _ hstore =>
    obtain ⟨hok, -⟩ | ⟨_, -, hwritten⟩ := store_cases hstore
    · cases hok
    · exact hwritten

variable {args : BuildArgs} {g : Progress}

theorem runBuild_of_ok (hplan : ofArgs args d = .ok p) (hbuild : p.build d = (.ok (), g)) :
    Command.runBuild args d =
      ⟨none, g.disk, g.output, some (.built g.files g.session.close.tags g.ignored), none⟩ := by
  simp only [Command.runBuild, hplan, hbuild]

theorem runBuild_of_error {failure : BuildFailure} (hplan : ofArgs args d = .ok p)
    (hbuild : p.build d = (.error failure, g)) :
    Command.runBuild args d = ⟨some failure, g.disk, g.output, none, none⟩ := by
  simp only [Command.runBuild, hplan, hbuild]

/-- A build is the full run up to the first component that does not pass. Its results lie below the
directory for them, each at the path of its component below the root, and all else that there was is
as it was. -/
theorem runBuild_ends (hd : d.Sound) (hplan : ofArgs args d = .ok p) (hdir : args.outDir = some dir)
    (hstraight : p.IsStraight)
    (hapart : ∀ path ∈ p.filter.discover d, ¬ d.reach dir <+: d.reach path) :
    ∃ all built, p.filter.discover d = all.map p.root.descend ∧ all.Nodup ∧
      (p.filter.discover d).Pairwise (fun q r => (q.compare r).isLE = true) ∧
      (∀ names ∈ all, (∀ w ∈ names, IsFileName w) ∧
        p.relative (p.root.descend names) = ⟨Path.joinPieces names⟩) ∧
      p.Ends dir d all built (Command.runBuild args d) ∧
      ((Command.runBuild args d).failure = none ↔ ∃ passed f t, passed.map Built.names = all ∧
        p.PassesAll dir d d (.start p.options) passed f t) ∧
      d.Written (Command.runBuild args d).disk
        (built.map fun b => (d.reach dir ++ b.names, b.processed.code)) ∧
      ∀ b ∈ built, (Command.runBuild args d).disk.read (dir.join b.relative) =
        .ok b.processed.code := by
  obtain ⟨hroot, hout, hoptions, ⟨place, hplace, hrootPlace⟩, -⟩ := fields_of_ofArgs hplan
  rw [← hroot] at hplace hoptions
  rw [hdir] at hout
  obtain ⟨all, hdiscover, hnodup, hnames⟩ := Filter.exists_names hd p.filter
  rw [hoptions] at hdiscover hnames
  have hfits : ∀ names ∈ all, p.Fits dir d place names := by
    intro names hmem
    obtain ⟨hnames, base, hbase, hnode⟩ := hnames names hmem
    cases hplace.symm.trans hbase
    refine ⟨hnames, (relative_eq_iff hd hplace hrootPlace hnames).2 hstraight, hnode, ?_⟩
    have hpath := hapart _ (hdiscover ▸ List.mem_map_of_mem hmem)
    rwa [d.reach_descend _ hnames, Disk.reach_of_locate hplace] at hpath
  have hbuild : p.build d = p.processFiles { disk := d, session := .start p.options }
      (all.map p.root.descend) := by
    rw [build, hout, hdiscover]
    rfl
  have hrun := processFiles_cases hd hout hplace hnodup hfits
    { disk := d, session := .start p.options } (.refl d) nofun
  obtain ⟨built, f, t, rfl, hpasses, hfiles⟩ |
      ⟨built, names, more, e, s, failure, f, g, rfl, hpasses, hstops, hfiles, hdisk, houtput⟩ := hrun
  · have hwritten := hpasses.written hnodup fun b hb =>
      (hfits b.names (List.mem_map_of_mem hb)).isFileName
    have hends := Ends.all hpasses
    rw [← hpasses.tags_close] at hends
    rw [runBuild_of_ok hplan (hbuild.trans hfiles), Nat.zero_add, Nat.zero_add]
    exact ⟨_, built, hdiscover, hnodup, p.filter.pairwise_discover d,
      fun names hmem => ⟨(hfits names hmem).isFileName, (hfits names hmem).relative⟩, hends,
      ⟨fun _ => ⟨built, f, t, rfl, hpasses⟩, fun _ => rfl⟩, hwritten⟩
  · obtain ⟨hwritten, hreads⟩ := hpasses.written (List.nodup_append.1 hnodup).1 fun b hb =>
      (hfits b.names (List.mem_append_left _ (List.mem_map_of_mem hb))).isFileName
    have hall := hwritten.trans hstops.written fun _ _ => nofun
    rw [List.append_nil] at hall
    subst hdisk
    rw [runBuild_of_error hplan (hbuild.trans hfiles), houtput]
    refine ⟨_, built, hdiscover, hnodup, p.filter.pairwise_discover d,
      fun names hmem => ⟨(hfits names hmem).isFileName, (hfits names hmem).relative⟩,
      .cut hpasses hstops, ⟨nofun, ?_⟩, hall, fun b hb => hstops.written.read_ok (hreads b hb) nofun⟩
    rintro ⟨passed, f, t, hmap, hpassed⟩
    exact absurd hpassed (hpasses.not_stops hstops hmap)

theorem runBuild_ends_dist : ∃ plan all built, ofArgs (argsTo "dist") builtTree = .ok plan ∧
    plan.filter.discover builtTree = all.map plan.root.descend ∧
    .ofString "./B.svelte" ∈ plan.filter.discover builtTree ∧
    plan.Ends (.ofString "dist") builtTree all built
      (Command.runBuild (argsTo "dist") builtTree) := by
  obtain ⟨plan, hplan, hfilter⟩ := exists_plan_argsTo mapM_ignored_dist
  have hsound : builtTree.Sound := ⟨named_builtTree, Disk.rooted_of_nodes (by decide), by decide⟩
  have hstraight : plan.IsStraight := by
    obtain ⟨hroot, -, -, ⟨place, hlocate, hplace⟩, -⟩ := fields_of_ofArgs hplan
    cases hlocate.symm.trans locate_builtTree
    rw [← hroot] at hlocate
    exact isStraight_of hlocate hplace nofun (.inl (by rw [hroot]; rfl))
  have hapart : ∀ path ∈ plan.filter.discover builtTree,
      ¬ builtTree.reach (.ofString "dist") <+: builtTree.reach path := by
    intro path hpath
    rw [hfilter] at hpath
    obtain ⟨haccepts, base, names, hbase, rfl, hnode⟩ := Filter.mem_discover hpath
    cases hbase.symm.trans locate_builtTree
    rcases hnode with rfl | ⟨n, hnode⟩
    · decide
    · simp only [builtTree, List.nil_append, List.mem_cons, Prod.mk.injEq, List.not_mem_nil,
        or_false] at hnode
      obtain ⟨rfl, -⟩ | ⟨rfl, -⟩ | ⟨rfl, -⟩ := hnode
      · decide
      · exact absurd haccepts (by decide)
      · exact absurd haccepts (by decide)
  have hfound : (filterTo "dist" (globUnder "dist")).options.base.descend ["B.svelte".toList] ∈
      (filterTo "dist" (globUnder "dist")).discover builtTree :=
    Filter.mem_discover_of_accepts locate_builtTree rfl ignoreFiles_builtTree List.mem_cons_self
      (by decide)
  obtain ⟨all, built, hall, -, -, -, hends, -⟩ :=
    runBuild_ends hsound hplan rfl hstraight hapart
  exact ⟨plan, all, built, hplan, hall, hfilter ▸ hfound, hends⟩

def loopTree : Disk where
  nodes := [(["b".toList], .directory), (["b".toList, "A.svelte".toList], .file "".toUTF8)]
  here := []

def loopArgs : BuildArgs where
  inputs := ["*.svelte"]
  outDir := some (.ofString "/o")
  root := .ofString "/b/../b"

def loopFilter : Filter := ⟨[svelteGlob], [globUnder "/o"], filterOptions loopArgs⟩

theorem ofPatterns_loop : Filter.ofPatterns loopArgs.inputs (ignored loopArgs)
    (filterOptions loopArgs) = .ok loopFilter := by
  have hignored : ignored loopArgs = ["/o/**"] := by decide
  have hparse : Glob.parse "/o/**".toList = .ok (globUnder "/o") := by
    simp [Glob.parse, Glob.read, Glob.Reading.push, Glob.Reading.doubleStar,
      Glob.Reading.afterBreak, Glob.Reading.breaksBefore, Glob.Reading.joinPath,
      Glob.Reading.inBraces, globUnder]
  have hexcluded : (ignored loopArgs).mapM Filter.readGlob = .ok [globUnder "/o"] := by
    rw [hignored, List.mapM_cons, Filter.readGlob, hparse]
    rfl
  have hselected : loopArgs.inputs.mapM Filter.readGlob = .ok [svelteGlob] := by
    rw [loopArgs, List.mapM_cons, readGlob_svelte]
    rfl
  rw [Filter.ofPatterns, hselected, hexcluded]
  rfl

theorem discover_loop : loopFilter.discover loopTree = [.ofString "/b/../b/A.svelte"] := by
  have hlocate : loopTree.locate loopFilter.options.base = .ok ["b".toList] := by decide
  have hbelow : loopTree.filesBelow ["b".toList] = [["A.svelte".toList]] := by decide
  have haccepts : loopFilter.accepts (.ofString "/b/../b/A.svelte") = true := by decide
  have hnone : loopFilter.sources.flatMap loopTree.ignoreFiles = [] :=
    List.flatMap_eq_nil_iff.2 fun s _ => by cases s <;> exact List.mergeSort_nil
  rw [Filter.discover, hlocate]
  have hreached : Filter.isReached [] ["b".toList] ["A.svelte".toList] = true := by decide
  dsimp only
  rw [if_pos (by decide), hnone, hbelow, List.filter_cons_of_pos hreached, List.filter_nil,
    List.map_singleton]
  change (List.filter loopFilter.accepts [.ofString "/b/../b/A.svelte"]).mergeSort _ = _
  rw [List.filter_cons_of_pos haccepts, List.filter_nil, List.mergeSort_singleton]

theorem parse_empty : Markup.Component.parse "" = .ok ⟨[], []⟩ := @Markup.parse_textOf [] trivial

theorem exists_process_empty (resolver : Resolver) (session : Session) (file : String) :
    ∃ processed t, Processor.process ⟨resolver, Markup.Component.parse⟩ session file "" =
      .ok (processed, t) := by
  have hscan : Markup.Component.scan ⟨[], []⟩ resolver session = .ok .empty := rfl
  obtain ⟨code, hprocess⟩ := Processor.exists_process resolver parse_empty hscan file
  exact ⟨_, _, hprocess⟩

def loopResult (code : String) : Disk :=
  (loopTree.put ["o".toList] .directory).put ["b".toList, "A.svelte".toList] (.file code.toUTF8)

theorem store_loop (code : String) :
    store loopTree (.ofString "/o/../b/A.svelte") code = (.ok (), loopResult code) := by
  have hholder : (Path.ofString "/o/../b/A.svelte").parent? = some (.ofString "/o/../b") := by decide
  have hmade : loopTree.makeDirectories (.ofString "/o/../b") =
      (.ok (), loopTree.put ["o".toList] .directory) := by decide
  have hwrite : (loopTree.put ["o".toList] .directory).write (.ofString "/o/../b/A.svelte") code =
      .ok (loopResult code) := rfl
  rw [store, hholder, Option.getD_some, hmade]
  simp only [hwrite]

theorem exists_result_outside : ∃ plan, ofArgs loopArgs loopTree = .ok plan ∧ loopTree.Sound ∧
    plan.filter.discover loopTree = [.ofString "/b/../b/A.svelte"] ∧
    ¬ loopTree.reach (.ofString "/o") <+: loopTree.reach (.ofString "/b/../b/A.svelte") ∧
    (Command.runBuild loopArgs loopTree).failure = none ∧
    (Command.runBuild loopArgs loopTree).disk.read (.ofString "/o/A.svelte") = .error .missing ∧
    ∃ processed t, plan.processor.process (.start plan.options) "../b/A.svelte" "" =
        .ok (processed, t) ∧
      (Command.runBuild loopArgs loopTree).disk.read (.ofString "/b/A.svelte") =
        .ok processed.code := by
  have hlocate : loopTree.locate loopArgs.root = .ok ["b".toList] := by decide
  obtain ⟨plan, hplan, hfilter⟩ := exists_plan rfl hlocate ofPatterns_loop
  obtain ⟨hroot, hout, -, ⟨place, hplace, hrootPlace⟩, resolver, hprocessor⟩ :=
    fields_of_ofArgs hplan
  cases hplace.symm.trans hlocate
  have hsound : loopTree.Sound := by
    refine ⟨?_, Disk.rooted_of_nodes (by decide), by decide⟩
    simp [Disk.Named, loopTree, IsFileName]
  have hdiscover : plan.filter.discover loopTree = [.ofString "/b/../b/A.svelte"] := by
    rw [hfilter, discover_loop]
  have hread : loopTree.read (.ofString "/b/../b/A.svelte") = .ok "" := by
    have hbytes : loopTree.readBytes (.ofString "/b/../b/A.svelte") = .ok "".toUTF8 := rfl
    rw [Disk.read, hbytes]
    simp only [Except.bind, Disk.fromUTF8?_toUTF8]
  have hrelative : plan.relative (.ofString "/b/../b/A.svelte") = .ofString "../b/A.svelte" := by
    rw [relative, hroot, hrootPlace]
    decide
  obtain ⟨processed, t, hprocess⟩ := exists_process_empty resolver (.start plan.options)
    "../b/A.svelte"
  rw [← hprocessor] at hprocess
  have hoption : loopArgs.outDir = some (.ofString "/o") := rfl
  have hjoin : (Path.ofString "/o").join (.ofString "../b/A.svelte") =
      .ofString "/o/../b/A.svelte" := by decide
  have hbuild : plan.build loopTree = (.ok (), ⟨loopResult processed.code, t, "", 1,
      0 + processed.ignored.length⟩) := by
    have hname : fileName (.ofString "../b/A.svelte") = "../b/A.svelte" := by decide
    have habsolute : ¬ (Path.ofString "../b/A.svelte").isAbsolute = true := by decide
    rw [build, hout, hdiscover, hoption]
    simp only [processFiles, processFile, hread, hrelative, hname, hprocess, deliver, hout, hoption,
      if_neg habsolute, hjoin, store_loop]
    rfl
  rw [runBuild_of_ok hplan hbuild]
  refine ⟨plan, hplan, hsound, hdiscover, by decide, rfl, rfl, processed, t, hprocess, ?_⟩
  have hbytes : (loopResult processed.code).readBytes (.ofString "/b/A.svelte") =
      .ok processed.code.toUTF8 := rfl
  rw [Disk.read, hbytes]
  simp only [Except.bind, Disk.fromUTF8?_toUTF8]

end Plan

end ClassWeave

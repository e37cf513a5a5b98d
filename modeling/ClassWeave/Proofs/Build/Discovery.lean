import ClassWeave.Build.Plan
import ClassWeave.Proofs.Files.Reach
import ClassWeave.Proofs.Glob.Plain
import ClassWeave.Proofs.Text.Blank

namespace ClassWeave

open Files

theorem exists_of_mem_mapM {ε α β : Type} {f : α → Except ε β} {xs : List α} {ys : List β}
    (h : xs.mapM f = .ok ys) {x : α} (hx : x ∈ xs) : ∃ y ∈ ys, f x = .ok y := by
  induction xs generalizing ys with
  | nil => cases hx
  | cons a xs ih =>
    rw [List.mapM_cons] at h
    obtain ⟨y, hy, h⟩ := exists_of_bind_ok h
    obtain ⟨zs, hzs, h⟩ := exists_of_bind_ok h
    cases h
    rcases List.mem_cons.1 hx with rfl | hx
    · exact ⟨y, List.mem_cons_self, hy⟩
    · obtain ⟨z, hz, hf⟩ := ih hzs hx
      exact ⟨z, List.mem_cons_of_mem y hz, hf⟩

namespace Files

def Disk.Inside (d : Disk) (p dir : Path) : Prop :=
  ∃ l m names, d.locate p = .ok l ∧ d.locate dir = .ok m ∧ names ≠ [] ∧ l = m ++ names

namespace Filter

variable {f : Filter} {d : Disk} {p : Path}

theorem mem_discover (h : p ∈ f.discover d) :
    f.accepts p = true ∧ ∃ base names, d.locate f.options.base = .ok base ∧
      p = f.options.base.descend names ∧ (names = [] ∨ ∃ n, (base ++ names, n) ∈ d.nodes) := by
  rw [discover] at h
  cases hbase : d.locate f.options.base with
  | error e =>
    rw [hbase] at h
    cases h
  | ok base =>
    simp only [hbase, List.mem_mergeSort, List.mem_filter] at h
    refine ⟨h.2, base, ?_⟩
    have hp := h.1
    split at hp
    · obtain ⟨names, hnames, rfl⟩ := List.mem_map.1 hp
      obtain ⟨⟨l, n⟩, hn, hl⟩ := List.mem_filterMap.1 (List.mem_filter.1 hnames).1
      refine ⟨names, rfl, rfl, .inr ⟨n, ?_⟩⟩
      cases n with
      | directory => cases hl
      | file contents =>
        simp only [Option.ite_none_right_eq_some, Option.some.injEq] at hl
        obtain ⟨hbelow, rfl⟩ := hl
        rwa [List.prefix_iff_eq_append.1 (List.isPrefixOf_iff_prefix.1 hbelow)]
    · exact ⟨[], rfl, List.mem_singleton.1 hp, .inl rfl⟩

theorem mem_discover_of_accepts {base : Location} {names : List Name} {contents : ByteArray}
    (hbase : d.locate f.options.base = .ok base) (hdirectory : d.isDirectoryAt base = true)
    (hignore : ∀ s, d.ignoreFiles s = []) (hfile : (base ++ names, .file contents) ∈ d.nodes)
    (haccepts : f.accepts (f.options.base.descend names) = true) :
    f.options.base.descend names ∈ f.discover d := by
  have hnames : names ∈ d.filesBelow base := by
    apply List.mem_filterMap.2
    refine ⟨_, hfile, ?_⟩
    simp [List.isPrefixOf_iff_prefix]
  have hreached : isReached [] base names = true := by
    simp [isReached, isSkipped]
  have hnone : f.sources.flatMap d.ignoreFiles = [] :=
    List.flatMap_eq_nil_iff.2 fun s _ => hignore s
  rw [discover, hbase]
  simp only [List.mem_mergeSort, List.mem_filter]
  refine ⟨?_, haccepts⟩
  rw [if_pos hdirectory, hnone]
  exact List.mem_map_of_mem (List.mem_filter.2 ⟨hnames, hreached⟩)

theorem not_accepts_of_excluded {g : Glob} (hg : g ∈ f.excluded)
    (h : g.accepts true (Text.utf8 (p.relativeTo f.options.base).text) = true) :
    f.accepts p = false := by
  have hfits : f.fits f.excluded p = true := by
    rw [fits, Bool.or_eq_true]
    exact .inl (List.any_eq_true.2 ⟨g, hg, h⟩)
  simp [accepts, hfits]

end Filter

end Files

namespace Plan

variable {args : BuildArgs} {d : Disk} {plan : Plan}

theorem filter_of_ofArgs (h : ofArgs args d = .ok plan) :
    ∃ selected excluded, plan.filter = ⟨selected, excluded, filterOptions args⟩ ∧
      (ignored args).mapM Filter.readGlob = .ok excluded := by
  obtain ⟨config, -, h⟩ := exists_of_bind_ok h
  obtain ⟨place, -, h⟩ := exists_of_bind_ok h
  obtain ⟨filter, hfilter, h⟩ := exists_of_bind_ok h
  cases h
  rw [Filter.ofPatterns] at hfilter
  split at hfilter
  · cases hfilter
  · cases hselected : args.inputs.mapM Filter.readGlob with
    | error e =>
      rw [hselected] at hfilter
      cases hfilter
    | ok selected =>
      cases hexcluded : (ignored args).mapM Filter.readGlob with
      | error e =>
        rw [hselected, hexcluded] at hfilter
        cases hfilter
      | ok excluded =>
        rw [hselected, hexcluded] at hfilter
        cases hfilter
        exact ⟨selected, excluded, rfl, rfl⟩

theorem exists_plan (hconfig : args.config = none) {base : Location}
    (hroot : d.locate args.root = .ok base) {f : Filter}
    (hf : Filter.ofPatterns args.inputs (ignored args) (filterOptions args) = .ok f) :
    ∃ plan, ofArgs args d = .ok plan ∧ plan.filter = f := by
  rw [ofArgs, config, hconfig, hroot, hf]
  exact ⟨_, rfl, rfl⟩

theorem exists_excluded (hplan : ofArgs args d = .ok plan) {dir : Path}
    (hdir : args.outDir = some dir) {ws : List Name}
    (hspelled : dir.relativeTo args.root = ⟨Path.joinPieces ws⟩)
    (hplain : ∀ w ∈ ws, ∀ c ∈ w, Glob.isBracket c = false) :
    ∃ g ∈ plan.filter.excluded, ∀ cs,
      g.accepts true (Text.utf8 (Path.joinPieces ws ++ '/' :: cs)) = true := by
  obtain ⟨selected, excluded, hfilter, hexcluded⟩ := filter_of_ofArgs hplan
  have hpattern : (dir.relativeTo args.root).toString ++ "/**" ∈ ignored args := by
    rw [ignored, hdir]
    exact List.mem_append_right _ (List.mem_singleton_self _)
  obtain ⟨g, hg, hread⟩ := exists_of_mem_mapM hexcluded hpattern
  have hchars : ∀ c ∈ Path.joinPieces ws, Glob.isBracket c = false := by
    intro c hc
    rcases Text.mem_intercalate hc with hc | ⟨w, hw, hc⟩
    · cases List.mem_singleton.1 hc
      rfl
    · exact hplain w hw c hc
  obtain ⟨g', hparse, haccepts⟩ := Glob.exists_parse hchars
  have htext : ((dir.relativeTo args.root).toString ++ "/**").toList =
      Path.joinPieces ws ++ ['/', '*', '*'] := by
    rw [hspelled, Path.toString, String.toList_append, String.toList_ofList]
    rfl
  rw [Filter.readGlob, htext, hparse] at hread
  cases hread
  refine ⟨g, by rw [hfilter]; exact hg, ?_⟩
  intro cs
  rw [Glob.utf8_append]
  exact haccepts (Text.utf8 cs)

/-- No component lies in the directory that a build writes to, if the path of that directory below
the root is spelled by the names that lead there, and if these have no brackets. -/
theorem not_inside_outDir (hd : d.Named) (hplan : ofArgs args d = .ok plan) {dir : Path}
    (hdir : args.outDir = some dir) {base : Location} {ws : List Name}
    (hroot : d.locate args.root = .ok base) (hbelow : d.locate dir = .ok (base ++ ws))
    (hne : ws ≠ []) (hspelled : dir.relativeTo args.root = ⟨Path.joinPieces ws⟩)
    (hplain : ∀ w ∈ ws, ∀ c ∈ w, Glob.isBracket c = false) :
    ∀ p ∈ plan.filter.discover d, ¬ d.Inside p dir := by
  rintro p hp ⟨l, m, names, hl, hm, hnames, rfl⟩
  cases hbelow.symm.trans hm
  obtain ⟨g, hg, haccepts⟩ := exists_excluded hplan hdir hspelled hplain
  obtain ⟨hp, base', entry, hbase, rfl, hnode⟩ := Filter.mem_discover hp
  have hoptions : plan.filter.options.base = args.root := by
    obtain ⟨selected, excluded, hfilter, -⟩ := filter_of_ofArgs hplan
    rw [hfilter]
    rfl
  rw [hoptions] at hbase hl
  cases hroot.symm.trans hbase
  have hentry : ∀ w ∈ entry, IsFileName w := by
    rcases hnode with rfl | ⟨n, hn⟩
    · nofun
    · exact fun w hw => hd _ hn w (List.mem_append_right base hw)
  have hplace := Disk.locate_descend hentry hroot hl
  rw [List.append_assoc, List.append_cancel_left_eq] at hplace
  have hrelative := Path.relativeTo_descend (Disk.text_ne_nil_of_locate hroot) hentry
  have hexcluded := Filter.not_accepts_of_excluded
    (p := plan.filter.options.base.descend entry) hg (by
      rw [hoptions, hrelative, ← hplace, Path.joinPieces_append hne hnames]
      exact haccepts _)
  rw [hexcluded] at hp
  cases hp

def builtTree : Disk where
  nodes := [(["B.svelte".toList], .file "".toUTF8), (["dist".toList], .directory),
    (["dist".toList, "A.svelte".toList], .file "".toUTF8)]
  here := []

theorem ignoreFiles_builtTree (s : IgnoreSource) : builtTree.ignoreFiles s = [] := by
  cases s <;> exact List.mergeSort_nil

theorem named_builtTree : builtTree.Named := by
  simp [Disk.Named, builtTree, IsFileName]

theorem locate_builtTree : builtTree.locate (.ofString ".") = .ok [] := by decide

def argsTo (dir : String) : BuildArgs where
  inputs := ["*.svelte"]
  outDir := some (.ofString dir)

def svelteGlob : Glob :=
  ".svelte".toList.foldl (fun g c => .append g (.literal c)) (.append .empty .run)

theorem readGlob_svelte : Filter.readGlob "*.svelte" = .ok svelteGlob := by
  have hparse : Glob.parse "*.svelte".toList = .ok svelteGlob := by
    simp [Glob.parse, Glob.read, Glob.Reading.push, Glob.Reading.inBraces, svelteGlob]
  rw [Filter.readGlob, hparse]
  rfl

def filterTo (dir : String) (g : Glob) : Filter := ⟨[svelteGlob], [g], filterOptions (argsTo dir)⟩

theorem exists_plan_argsTo {dir : String} {g : Glob}
    (hg : (ignored (argsTo dir)).mapM Filter.readGlob = .ok [g]) :
    ∃ plan, ofArgs (argsTo dir) builtTree = .ok plan ∧ plan.filter = filterTo dir g := by
  apply exists_plan rfl locate_builtTree
  have hinputs : (argsTo dir).inputs.mapM Filter.readGlob = .ok [svelteGlob] := by
    rw [argsTo, List.mapM_cons, readGlob_svelte]
    rfl
  rw [Filter.ofPatterns, hinputs, hg]
  rfl

def globUnder (w : String) : Glob :=
  .append (w.toList.foldl (fun g c => .append g (.literal c)) .empty) .trailingPath

theorem mapM_ignored_dist :
    (ignored (argsTo "dist")).mapM Filter.readGlob = .ok [globUnder "dist"] := by
  have hignored : ignored (argsTo "dist") = ["dist/**"] := by decide
  have hparse : Glob.parse "dist/**".toList = .ok (globUnder "dist") := by
    simp [Glob.parse, Glob.read, Glob.Reading.push, Glob.Reading.doubleStar,
      Glob.Reading.afterBreak, Glob.Reading.breaksBefore, Glob.Reading.joinPath,
      Glob.Reading.inBraces, globUnder]
  rw [hignored, List.mapM_cons, Filter.readGlob, hparse]
  rfl

theorem mapM_ignored_slash :
    (ignored (argsTo "dist/")).mapM Filter.readGlob = .ok [globUnder "dist/"] := by
  have hignored : ignored (argsTo "dist/") = ["dist//**"] := by decide
  have hparse : Glob.parse "dist//**".toList = .ok (globUnder "dist/") := by
    simp [Glob.parse, Glob.read, Glob.Reading.push, Glob.Reading.doubleStar,
      Glob.Reading.afterBreak, Glob.Reading.breaksBefore, Glob.Reading.joinPath,
      Glob.Reading.inBraces, globUnder]
  rw [hignored, List.mapM_cons, Filter.readGlob, hparse]
  rfl

theorem not_inside_outDir_dist : ∃ plan, ofArgs (argsTo "dist") builtTree = .ok plan ∧
    Path.ofString "./B.svelte" ∈ plan.filter.discover builtTree ∧
    ∀ p ∈ plan.filter.discover builtTree, ¬ builtTree.Inside p (.ofString "dist") := by
  obtain ⟨plan, hplan, hfilter⟩ := exists_plan_argsTo mapM_ignored_dist
  have hfound : (filterTo "dist" (globUnder "dist")).options.base.descend ["B.svelte".toList] ∈
      (filterTo "dist" (globUnder "dist")).discover builtTree :=
    Filter.mem_discover_of_accepts locate_builtTree rfl ignoreFiles_builtTree List.mem_cons_self
      (by decide)
  refine ⟨plan, hplan, hfilter ▸ hfound, ?_⟩
  have hdist : builtTree.locate (.ofString "dist") = .ok ([] ++ ["dist".toList]) := by decide
  have hplain : ∀ w ∈ ["dist".toList], ∀ c ∈ w, Glob.isBracket c = false := by
    simp [Glob.isBracket]
  exact not_inside_outDir named_builtTree hplan rfl locate_builtTree hdist (by decide) (by decide)
    hplain

/-- With a slash at the end of the path, results are taken for components. -/
theorem exists_inside_outDir : ∃ plan, ofArgs (argsTo "dist/") builtTree = .ok plan ∧
    builtTree.locate (.ofString "dist/") = .ok ["dist".toList] ∧
    Path.ofString "./dist/A.svelte" ∈ plan.filter.discover builtTree ∧
    builtTree.Inside (.ofString "./dist/A.svelte") (.ofString "dist/") := by
  obtain ⟨plan, hplan, hfilter⟩ := exists_plan_argsTo mapM_ignored_slash
  have hlocate : builtTree.locate (.ofString "dist/") = .ok ["dist".toList] := by decide
  have hfound : (filterTo "dist/" (globUnder "dist/")).options.base.descend
      ["dist".toList, "A.svelte".toList] ∈
      (filterTo "dist/" (globUnder "dist/")).discover builtTree :=
    Filter.mem_discover_of_accepts locate_builtTree rfl ignoreFiles_builtTree
      (List.mem_cons_of_mem _ (List.mem_cons_of_mem _ List.mem_cons_self)) (by decide)
  refine ⟨plan, hplan, hlocate, hfilter ▸ hfound, ?_⟩
  exact ⟨_, _, ["A.svelte".toList], by decide, hlocate, by decide, rfl⟩

end Plan

end ClassWeave

import ClassWeave.Proofs.Files.Reach

namespace ClassWeave.Files.Disk

variable {d d' e : Disk} {l m : Location} {p : Path} {text : String}

/-- What becomes of a disk when files are written to some places. Directories may be made where there
was nothing, but none is lost. -/
structure Written (d d' : Disk) (outs : List (Location × String)) : Prop where
  here : d'.here = d.here
  out : ∀ o ∈ outs, d'.node? o.1 = some (.file o.2.toUTF8)
  fresh : ∀ o ∈ outs, d.node? o.1 ≠ some .directory
  other : ∀ l, (∀ o ∈ outs, l ≠ o.1) →
    d'.node? l = d.node? l ∨ d.node? l = none ∧ d'.node? l = some .directory

namespace Written

variable {outs new : List (Location × String)}

theorem refl (d : Disk) : Written d d [] := ⟨rfl, nofun, nofun, fun _ _ => .inl rfl⟩

theorem node?_eq (h : Written d d' outs) {n : Node} (hn : d.node? l = some n)
    (hl : ∀ o ∈ outs, l ≠ o.1) : d'.node? l = some n := by
  rcases h.other l hl with hsame | ⟨hnone, -⟩
  · exact hsame.trans hn
  · rw [hn] at hnone
    cases hnone

theorem directory (h : Written d d' outs) (hl : d.node? l = some .directory) :
    d'.node? l = some .directory := by
  apply h.node?_eq hl
  rintro o ho rfl
  exact h.fresh o ho hl

theorem isDirectoryAt (h : Written d d' outs) (hl : d.isDirectoryAt l = true) :
    d'.isDirectoryAt l = true := beq_iff_eq.2 (h.directory (beq_iff_eq.1 hl))

theorem ne_none (h : Written d d' outs) (hl : d.node? l ≠ none) : d'.node? l ≠ none := by
  obtain ⟨n, hn⟩ := Option.ne_none_iff_exists'.1 hl
  by_cases hout : ∀ o ∈ outs, l ≠ o.1
  · rw [h.node?_eq hn hout]
    exact Option.some_ne_none n
  · simp only [not_forall, not_not] at hout
    obtain ⟨o, ho, rfl⟩ := hout
    rw [h.out o ho]
    exact Option.some_ne_none _

theorem trans (h : Written d d' outs) (hnew : Written d' e new)
    (hapart : ∀ o ∈ outs, ∀ o' ∈ new, o.1 ≠ o'.1) : Written d e (outs ++ new) where
  here := hnew.here.trans h.here
  out o ho := by
    rcases List.mem_append.1 ho with ho | ho
    · exact hnew.node?_eq (h.out o ho) (hapart o ho)
    · exact hnew.out o ho
  fresh o ho := by
    rcases List.mem_append.1 ho with ho | ho
    · exact h.fresh o ho
    · exact fun hl => hnew.fresh o ho (h.directory hl)
  other l hl := by
    rw [List.forall_mem_append] at hl
    rcases hnew.other l hl.2 with hsame | ⟨hnone, hdirectory⟩
    · rw [hsame]
      exact h.other l hl.1
    · exact .inr ⟨Classical.byContradiction fun hne => h.ne_none hne hnone, hdirectory⟩

theorem step_ok (h : Written d d' outs) {w : Name} (hl : d.step l w = .ok m) :
    d'.step l w = .ok m := by
  obtain ⟨hdirectory, hm, hname⟩ := step_eq_ok_iff.1 hl
  exact step_eq_ok_iff.2 ⟨h.isDirectoryAt hdirectory, hm, fun h₁ h₂ h₃ =>
    (hname h₁ h₂ h₃).imp_right h.ne_none⟩

theorem foldlM_step_ok (h : Written d d' outs) {ws : List Name}
    (hl : ws.foldlM d.step l = .ok m) : ws.foldlM d'.step l = .ok m := by
  induction ws generalizing l with
  | nil => exact hl
  | cons w ws ih =>
    rw [List.foldlM_cons] at hl ⊢
    obtain ⟨k, hk, hl⟩ := exists_of_bind_ok hl
    rw [h.step_ok hk]
    exact ih hl

theorem start_eq (h : Written d d' outs) (p : Path) : d'.start p = d.start p := by
  rw [Disk.start, Disk.start, h.here]

theorem reach_eq (h : Written d d' outs) (p : Path) : d'.reach p = d.reach p := by
  rw [reach, reach, h.here]

theorem locate_ok (h : Written d d' outs) (hl : d.locate p = .ok l) : d'.locate p = .ok l := by
  obtain ⟨s, hs, hl⟩ := exists_of_bind_ok hl
  rw [locate, h.start_eq, hs]
  exact h.foldlM_step_ok hl

theorem read_ok (h : Written d d' outs) (hread : d.read p = .ok text)
    (hp : ∀ o ∈ outs, d.reach p ≠ o.1) : d'.read p = .ok text := by
  obtain ⟨contents, hbytes, htext⟩ := exists_of_bind_ok hread
  obtain ⟨l, hl, hnode⟩ := exists_of_bind_ok hbytes
  rw [reach_of_locate hl] at hp
  split at hnode
  · next c hc =>
    cases hnode
    rw [Disk.read, readBytes, h.locate_ok hl]
    simp only [Except.bind, h.node?_eq hc hp]
    exact htext
  · cases hnode
  · cases hnode

end Written

theorem written_put_directory (hl : d.node? l = none) : Written d (d.put l .directory) [] where
  here := rfl
  out := nofun
  fresh := nofun
  other m _ := by
    by_cases hm : m = l
    · subst hm
      have hne : m ≠ [] := by
        rintro rfl
        cases hl
      exact .inr ⟨hl, node?_put_self hne⟩
    · exact .inl (node?_put_of_ne hm)

theorem written_put_file (hl : d.node? l ≠ some .directory) :
    Written d (d.put l (.file text.toUTF8)) [(l, text)] where
  here := rfl
  out o ho := by
    have hne : l ≠ [] := by
      rintro rfl
      exact hl rfl
    rw [List.mem_singleton.1 ho]
    exact node?_put_self hne
  fresh o ho := by
    rw [List.mem_singleton.1 ho]
    exact hl
  other m hm := .inl (node?_put_of_ne (hm _ (List.mem_singleton_self _)))

theorem written_makeDirectory (h : d.makeDirectory p = .ok d') : Written d d' [] := by
  obtain ⟨⟨l, name?⟩, -, h⟩ := exists_of_bind_ok h
  split at h
  · cases h
  · split at h
    · cases h
    · next hnone =>
      cases h
      exact written_put_directory (by simpa using hnone)

theorem written_makeChain (ps : List Path) (d : Disk) : Written d (makeChain ps d).2 [] := by
  induction ps generalizing d with
  | nil => exact .refl d
  | cons p ps ih =>
    rw [makeChain]
    split
    · exact .refl d
    · split
      · next hmade => exact written_makeDirectory hmade
      · have hrest := ih d
        split
        · next hchain =>
          rw [hchain] at hrest
          exact hrest
        · next hchain =>
          rw [hchain] at hrest
          split
          · next hmade => exact hrest.trans (written_makeDirectory hmade) nofun
          · exact hrest
      · exact .refl d

theorem written_write (h : d.write p text = .ok d') : Written d d' [(d.reach p, text)] := by
  obtain ⟨⟨l, name?⟩, hholder, h⟩ := exists_of_bind_ok h
  split at h
  · next heq =>
    cases heq
    split at h
    · cases h
    · next hdirectory =>
      cases h
      rw [reach_of_holder hholder]
      apply written_put_file
      simpa [Disk.isDirectoryAt] using hdirectory
  · cases h

theorem fromUTF8?_toUTF8 (text : String) : String.fromUTF8? text.toUTF8 = some text :=
  dif_pos text.isValidUTF8

theorem read_write (h : d.write p text = .ok d') : d'.read p = .ok text := by
  have hwritten := written_write h
  obtain ⟨⟨l, name?⟩, hholder, h⟩ := exists_of_bind_ok h
  split at h
  · next l name heq =>
    cases heq
    obtain ⟨top, before, after, hs, hfold, -, hafter, hdirectory, hne, hdot, hdots, hlong⟩ :=
      exists_of_holder hholder
    rw [hafter rfl] at hs
    have hout := hwritten.out _ (List.mem_singleton_self _)
    rw [reach_of_holder hholder] at hout
    have hname : d'.step l name = .ok (l ++ [name]) := by
      refine step_eq_ok_iff.2 ⟨hwritten.isDirectoryAt hdirectory, ?_, fun _ _ _ => ⟨hlong, ?_⟩⟩
      · exact (turn_name hne hdot hdots l).symm
      · rw [hout]
        exact Option.some_ne_none _
    have hlocate : d'.locate p = .ok (l ++ [name]) := by
      rw [locate, hwritten.start_eq, hs]
      change (before ++ [name]).foldlM d'.step top = _
      rw [List.foldlM_append, hwritten.foldlM_step_ok hfold]
      change d'.step l name >>= pure = _
      rw [hname]
      rfl
    rw [Disk.read, readBytes, hlocate]
    simp only [Except.bind, hout]
    rw [fromUTF8?_toUTF8]
  · cases h

structure Sound (d : Disk) : Prop where
  named : d.Named
  rooted : ∀ l w, d.node? (l ++ [w]) ≠ none → d.isDirectoryAt l = true
  distinct : (d.nodes.map Prod.fst).Nodup

theorem node?_of_mem {n : Node} (h : (l, n) ∈ d.nodes) : d.node? l ≠ none := by
  rw [node?]
  split
  · exact Option.some_ne_none _
  · rw [ne_eq, List.lookup_eq_none_iff]
    intro hnone
    exact absurd (beq_self_eq_true l) (by simpa using hnone _ h)

theorem rooted_of_nodes (h : ∀ e ∈ d.nodes, d.isDirectoryAt e.1.dropLast = true) (l : Location)
    (w : Name) (hnode : d.node? (l ++ [w]) ≠ none) : d.isDirectoryAt l = true := by
  obtain ⟨n, hn⟩ := Option.ne_none_iff_exists'.1 hnode
  rw [node?, if_neg (by simp)] at hn
  obtain ⟨before, after, hnodes, -⟩ := List.lookup_eq_some_iff.1 hn
  have hdirectory := h (l ++ [w], n) (by
    rw [hnodes]
    exact List.mem_append_right before List.mem_cons_self)
  rwa [List.dropLast_concat] at hdirectory

theorem eq_append_of_below {e : Location × Node} {names : List Name}
    (h : (match e.2 with
      | .file _ => if l.isPrefixOf e.1 then some (e.1.drop l.length) else none
      | .directory => none) = some names) : e.1 = l ++ names := by
  split at h
  · rw [Option.ite_none_right_eq_some, List.isPrefixOf_iff_prefix, Option.some.injEq] at h
    obtain ⟨hbelow, rfl⟩ := h
    exact (List.prefix_iff_eq_append.1 hbelow).symm
  · cases h

theorem node?_of_mem_filesBelow {names : List Name} (h : names ∈ d.filesBelow l) :
    d.node? (l ++ names) ≠ none := by
  obtain ⟨e, he, hnames⟩ := List.mem_filterMap.1 h
  rw [← eq_append_of_below hnames]
  exact node?_of_mem he

theorem nodup_filesBelow (hdistinct : (d.nodes.map Prod.fst).Nodup) (l : Location) :
    (d.filesBelow l).Nodup := by
  rw [List.Nodup, List.pairwise_map] at hdistinct
  rw [filesBelow, List.Nodup, List.pairwise_filterMap]
  refine hdistinct.imp fun hne names hnames names' hnames' heq => hne ?_
  rw [eq_append_of_below hnames, eq_append_of_below hnames', heq]

namespace Sound

variable (hd : d.Sound)
include hd

theorem isFileName (h : d.node? l ≠ none) : ∀ w ∈ l, IsFileName w := by
  obtain ⟨n, hn⟩ := Option.ne_none_iff_exists'.1 h
  rw [node?] at hn
  split at hn
  · next hnil =>
    rw [hnil]
    exact List.forall_mem_nil _
  · obtain ⟨before, after, hnodes, -⟩ := List.lookup_eq_some_iff.1 hn
    apply hd.named (l, n)
    rw [hnodes]
    exact List.mem_append_right before List.mem_cons_self

theorem isDirectoryAt {w : Name} {ws : List Name} (h : d.node? (l ++ w :: ws) ≠ none) :
    d.isDirectoryAt l = true := by
  induction ws generalizing l w with
  | nil => exact hd.rooted l w h
  | cons v ws ih =>
    rw [List.append_cons] at h
    have hdirectory := ih h
    apply hd.rooted l w
    rw [beq_iff_eq.1 hdirectory]
    exact Option.some_ne_none _

theorem node?_of_step {w : Name} (h : d.step l w = .ok m) : d.node? m ≠ none := by
  obtain ⟨hdirectory, rfl, hname⟩ := step_eq_ok_iff.1 h
  have hl : d.node? l = some .directory := beq_iff_eq.1 hdirectory
  rw [turn]
  split
  · rw [hl]
    exact Option.some_ne_none _
  · next hvoid =>
    rw [not_or] at hvoid
    split
    · -- The way up ends in a directory because there is something below it.
      rcases List.eq_nil_or_concat l with rfl | ⟨k, v, rfl⟩
      · exact Option.some_ne_none _
      · have hk : d.isDirectoryAt k = true := by
          apply hd.rooted k v
          rw [← List.concat_eq_append, hl]
          exact Option.some_ne_none _
        rw [List.concat_eq_append, List.dropLast_concat, beq_iff_eq.1 hk]
        exact Option.some_ne_none _
    · next hdots => exact (hname hvoid.1 hvoid.2 hdots).2

theorem node?_of_foldlM {ws : List Name} (hl : ws = [] → d.node? l ≠ none)
    (h : ws.foldlM d.step l = .ok m) : d.node? m ≠ none := by
  induction ws generalizing l with
  | nil =>
    cases h
    exact hl rfl
  | cons w ws ih =>
    rw [List.foldlM_cons] at h
    obtain ⟨k, hk, h⟩ := exists_of_bind_ok h
    exact ih (fun _ => hd.node?_of_step hk) h

theorem node?_of_locate (h : d.locate p = .ok l) : d.node? l ≠ none := by
  obtain ⟨s, hs, h⟩ := exists_of_bind_ok h
  refine hd.node?_of_foldlM (fun hnil => ?_) h
  rw [start_eq hs] at hnil ⊢
  split
  · exact Option.some_ne_none _
  · next hrelative =>
    rw [if_neg hrelative] at hnil
    exact absurd hnil (List.splitOn_ne_nil '/' p.text)

variable {names : List Name} {outs : List (Location × String)}

theorem foldlM_step_eq (h : Written d d' outs) (hnames : ∀ w ∈ names, IsFileName w)
    (hnode : d.node? (l ++ names) ≠ none) : names.foldlM d'.step l = names.foldlM d.step l := by
  induction names generalizing l with
  | nil => rfl
  | cons w names ih =>
    rw [List.forall_mem_cons] at hnames
    obtain ⟨⟨hne, -, hdot, hdots⟩, hnames⟩ := hnames
    have hl := hd.isDirectoryAt hnode
    have hl' := h.isDirectoryAt hl
    have hnext : d.node? (l ++ [w]) ≠ none := by
      cases names with
      | nil => exact hnode
      | cons v names =>
        rw [List.append_cons] at hnode
        rw [beq_iff_eq.1 (hd.isDirectoryAt hnode)]
        exact Option.some_ne_none _
    have hstep : d'.step l w = d.step l w := by
      simp [step, hl, hl', hne, hdot, hdots, hnext, h.ne_none hnext]
    rw [List.foldlM_cons, List.foldlM_cons, hstep]
    cases hw : d.step l w with
    | error e => rfl
    | ok m =>
      have hm : m = l ++ [w] := by
        rw [(step_eq_ok_iff.1 hw).2.1, turn_name hne hdot hdots]
      subst hm
      apply ih hnames
      rwa [List.append_assoc, List.singleton_append]

theorem read_descend_eq (h : Written d d' outs) {base : Location} (hbase : d.locate p = .ok base)
    (hnames : ∀ w ∈ names, IsFileName w) (hnode : d.node? (base ++ names) ≠ none)
    (hout : ∀ o ∈ outs, base ++ names ≠ o.1) :
    d'.read (p.descend names) = d.read (p.descend names) := by
  have hlocate : d'.locate (p.descend names) = d.locate (p.descend names) := by
    by_cases hne : names = []
    · subst hne
      exact (h.locate_ok hbase).trans hbase.symm
    · rw [locate_descend_eq hbase hnames hne, locate_descend_eq (h.locate_ok hbase) hnames hne,
        h.start_eq, hd.foldlM_step_eq h hnames hnode]
  obtain ⟨n, hn⟩ := Option.ne_none_iff_exists'.1 hnode
  rw [Disk.read, Disk.read, readBytes, readBytes, hlocate]
  cases hl : d.locate (p.descend names) with
  | error e => rfl
  | ok l =>
    rw [locate_descend hnames hbase hl]
    simp only [Except.bind, hn, h.node?_eq hn hout]

end Sound

end ClassWeave.Files.Disk

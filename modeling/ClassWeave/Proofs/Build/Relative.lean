import ClassWeave.Proofs.Build.Listing

/-!
The paths of components below the root, which are those of their results below the directory for
them. The directory of the root as the system gives it is taken off a path before the root as it was
given, so a root that leaves its own directory and comes back to it leaves the way back in the path.
-/

namespace ClassWeave

open Files

namespace Files

namespace Path

variable {p base : Path} {names : List Name}

theorem filterMap_dropVoid (ws : List Name) :
    (dropVoid ws).filterMap Component.ofPiece? = ws.filterMap Component.ofPiece? := by
  have hvoid : (ws.takeWhile isVoid).filterMap Component.ofPiece? = [] := by
    rw [List.filterMap_eq_nil_iff]
    intro w hw
    simpa [isVoid] using List.mem_takeWhile_imp hw
  have happend := congrArg (List.filterMap Component.ofPiece?)
    (List.takeWhile_append_dropWhile (p := isVoid) (l := ws))
  rwa [List.filterMap_append, hvoid, List.nil_append] at happend

theorem filterMap_dropVoidEnd (ws : List Name) :
    (dropVoidEnd ws).filterMap Component.ofPiece? = ws.filterMap Component.ofPiece? := by
  rw [dropVoidEnd, List.filterMap_reverse, filterMap_dropVoid, List.filterMap_reverse,
    List.reverse_reverse]

theorem strip_eq_some {cs : List Component} {ws vs : List Name} (h : strip cs ws = some vs) :
    ws.filterMap Component.ofPiece? = cs ++ vs.filterMap Component.ofPiece? ∧
      ∀ v ∈ vs, v ∈ ws := by
  induction cs generalizing ws with
  | nil =>
    cases h
    exact ⟨rfl, fun _ hv => hv⟩
  | cons c cs ih =>
    have hsubset : ∀ v ∈ dropVoid ws, v ∈ ws := fun v hv => List.dropWhile_subset isVoid hv
    rw [← filterMap_dropVoid]
    rw [strip] at h
    split at h
    · next w ws' hws =>
      rw [hws] at hsubset ⊢
      split at h
      · next hc =>
        obtain ⟨hrest, hmem⟩ := ih h
        rw [List.filterMap_cons_some hc, hrest]
        exact ⟨rfl, fun v hv => hsubset v (List.mem_cons_of_mem w (hmem v hv))⟩
      · cases h
    · cases h

theorem exists_strip_of_prefix {cs : List Component} {ws : List Name}
    (h : cs <+: ws.filterMap Component.ofPiece?) : ∃ vs, strip cs ws = some vs := by
  induction cs generalizing ws with
  | nil => exact ⟨ws, rfl⟩
  | cons c cs ih =>
    rw [← filterMap_dropVoid] at h
    cases hws : dropVoid ws with
    | nil =>
      rw [hws] at h
      cases List.prefix_nil.1 h
    | cons w ws' =>
      have hw : isVoid w = false := by
        have hhead := List.head?_dropWhile_not isVoid ws
        rw [← dropVoid, hws] at hhead
        exact hhead
      rw [hws] at h
      cases hc : Component.ofPiece? w with
      | none => simp [isVoid, hc] at hw
      | some c' =>
        rw [List.filterMap_cons_some hc, List.cons_prefix_cons] at h
        obtain ⟨rfl, hrest⟩ := h
        obtain ⟨vs, hvs⟩ := ih hrest
        exact ⟨vs, by rw [strip, hws]; simpa [hc] using hvs⟩

theorem isPrefix_of_below {q : Path} (hbase : base.text ≠ []) (h : p.below? base = some q) :
    base.components <+: p.components := by
  rw [below?, if_neg (by simpa [isEmpty] using hbase)] at h
  split at h
  · next hlead =>
    obtain ⟨vs, hvs, -⟩ := Option.map_eq_some_iff.1 h
    rw [components, components, hlead, (strip_eq_some hvs).1, ← List.append_assoc]
    exact List.prefix_append _ _
  · cases h

theorem notMem_of_mem_parts {w : Name} (hw : w ∈ p.parts.2) : '/' ∉ w := by
  have hmem : w ∈ p.text.splitOn '/' := by
    rw [parts] at hw
    split at hw
    · next heq =>
      rw [heq]
      exact List.mem_cons_of_mem _ hw
    · next heq =>
      rw [heq]
      exact List.mem_cons_of_mem _ hw
    · exact hw
  exact (of_mem_splitOn hmem).1

theorem exists_below {cs : List Component} (hbase : base.components = .root :: cs)
    (h : base.components <+: p.components) : ∃ q, p.below? base = some q := by
  have hempty : ¬ base.isEmpty = true := by
    intro hempty
    obtain rfl : base = ⟨[]⟩ := congrArg Path.mk (List.isEmpty_iff.1 hempty)
    cases hbase
  obtain ⟨hlead, hrest⟩ := components_of_root hbase
  obtain ⟨more, hmore⟩ := h
  rw [hbase] at hmore
  obtain ⟨hlead', hrest'⟩ := components_of_root hmore.symm
  obtain ⟨vs, hvs⟩ := exists_strip_of_prefix
    (show base.parts.2.filterMap Component.ofPiece? <+: p.parts.2.filterMap Component.ofPiece? by
      rw [hrest, hrest']
      exact List.prefix_append cs more)
  rw [below?, if_neg hempty, if_pos (hlead'.trans hlead.symm), hvs]
  exact ⟨_, rfl⟩

theorem components_of_below (hbase : base.text ≠ []) (hnames : ∀ w ∈ names, IsFileName w)
    (h : p.below? base = some ⟨joinPieces names⟩) :
    p.components = base.components ++ names.map .name := by
  rw [below?, if_neg (by simpa [isEmpty] using hbase)] at h
  split at h
  · next hlead =>
    obtain ⟨vs, hvs, hleft⟩ := Option.map_eq_some_iff.1 h
    obtain ⟨hrest, hmem⟩ := strip_eq_some hvs
    have hjoin : joinPieces (dropVoidEnd (dropVoid vs)) = joinPieces names :=
      congrArg Path.text hleft
    have hslash : ∀ w ∈ dropVoidEnd (dropVoid vs), '/' ∉ w := by
      intro w hw
      have hvs : w ∈ dropVoid vs := by
        rw [dropVoidEnd, List.mem_reverse] at hw
        exact List.mem_reverse.1 (List.dropWhile_subset isVoid hw)
      exact notMem_of_mem_parts (hmem w (List.dropWhile_subset isVoid hvs))
    have hsame := filterMap_splitOn_joinPieces hslash
    rw [hjoin, filterMap_splitOn_names hnames, filterMap_dropVoidEnd, filterMap_dropVoid] at hsame
    rw [components, components, hlead, hrest, hsame, List.append_assoc]
  · cases h

theorem components_descend (hp : p.text ≠ []) (hnames : ∀ w ∈ names, IsFileName w) :
    (p.descend names).components = p.components ++ names.map .name := by
  obtain ⟨ws, hparts, hws⟩ := parts_descend hp hnames
  rw [components, hparts, List.filterMap_append, hws, filterMap_ofPiece_names hnames,
    ← List.append_assoc, components]

end Path

theorem Path.pieces_of_root {p : Path} {cs : List Component} (hp : p.text ≠ [])
    (h : p.components = .root :: cs) : p.isAbsolute = true ∧
      ∃ ts, p.pieces = [] :: ts ∧ ts.filterMap Component.ofPiece? = cs := by
  obtain ⟨t, ts, hpieces⟩ := List.exists_cons_of_ne_nil (List.splitOn_ne_nil '/' p.text)
  rw [components_of_pieces hp hpieces] at h
  have ht : t = [] := by
    by_contra hne
    rw [front, if_neg hne] at h
    split at h
    · cases h
    · next hdot =>
      rw [Component.ofPiece?, if_neg (by simp [hne, hdot])] at h
      split at h <;> cases h
  subst ht
  refine ⟨?_, ts, hpieces, (List.cons.inj h).2⟩
  rw [isAbsolute_eq hp, pieces, hpieces]
  rfl

theorem Disk.reach_of_names {p : Path} {names : List Name} (d : Disk) (hp : p.text ≠ [])
    (h : p.components = .root :: names.map .name) : d.reach p = names := by
  obtain ⟨habsolute, ts, hpieces, hnames⟩ := Path.pieces_of_root hp h
  rw [reach, if_pos habsolute, hpieces, List.foldl_cons, turn_nil, foldl_turn_names hnames,
    List.nil_append]

end Files

namespace Plan

variable {args : BuildArgs} {d : Disk} {plan : Plan} {place : Location} {names : List Name}

theorem components_absolute (hplace : ∀ w ∈ place, IsFileName w) :
    (absolute place).components = .root :: place.map .name := by
  have hpieces : (absolute place).pieces = [] :: (Path.joinPieces place).splitOn '/' := by
    rw [absolute, Path.pieces, List.splitOn_cons_eq_if_modifyHead, if_pos (by simp)]
  have htext : (absolute place).text ≠ [] := List.cons_ne_nil _ _
  rw [Path.components_of_pieces htext hpieces, Path.filterMap_splitOn_names hplace]
  rfl

/-- That the root does not leave its own directory on the way to it. -/
def IsStraight (p : Plan) : Prop :=
  p.root.isUnder p.rootPlace = true → p.root.components = p.rootPlace.components

theorem relative_of_isStraight (hd : d.Sound) (hplace : d.locate plan.root = .ok place)
    (hroot : plan.rootPlace = absolute place) (hstraight : plan.IsStraight)
    (hnames : ∀ w ∈ names, IsFileName w) :
    plan.relative (plan.root.descend names) = ⟨Path.joinPieces names⟩ := by
  have htext := Disk.text_ne_nil_of_locate hplace
  rw [relative]
  cases hbelow : (plan.root.descend names).below? plan.rootPlace with
  | none => rw [Option.none_or, Path.below_descend htext htext hnames rfl rfl, Option.getD_some]
  | some q =>
    have hplaceNames : ∀ w ∈ place, IsFileName w := hd.isFileName (hd.node?_of_locate hplace)
    have hcomponents := components_absolute hplaceNames
    have habsolute : plan.rootPlace.text ≠ [] := by
      rw [hroot]
      exact List.cons_ne_nil _ _
    have hprefix := Path.isPrefix_of_below habsolute hbelow
    rw [Path.components_descend htext hnames] at hprefix
    have hsame : plan.root.components = .root :: place.map .name := by
      rcases List.prefix_or_prefix_of_prefix hprefix (List.prefix_append _ _) with hle | hle
      · rw [hstraight (List.isPrefixOf_iff_prefix.2 hle), hroot, hcomponents]
      · -- A root that is shorter than its place has no way back in it, so it is its place.
        rw [hroot, hcomponents] at hle
        obtain ⟨c, cs, hcs⟩ := List.exists_cons_of_ne_nil (Path.components_ne_nil htext)
        rw [hcs, List.cons_prefix_cons, List.prefix_iff_eq_take, ← List.map_take] at hle
        rw [hle.1, hle.2] at hcs
        have hreach := d.reach_of_names htext hcs
        rw [Disk.reach_of_locate hplace] at hreach
        rw [hcs, ← hreach]
    obtain ⟨hlead, hrest⟩ := Path.components_of_root hsame
    obtain ⟨hlead', hrest'⟩ := Path.components_of_root (hroot ▸ hcomponents)
    rw [← hbelow, Path.below_descend htext habsolute hnames (hlead'.trans hlead.symm)
      (hrest'.trans hrest.symm)]
    rfl

theorem relative_eq_iff (hd : d.Sound) (hplace : d.locate plan.root = .ok place)
    (hroot : plan.rootPlace = absolute place) (hnames : ∀ w ∈ names, IsFileName w) :
    plan.relative (plan.root.descend names) = ⟨Path.joinPieces names⟩ ↔ plan.IsStraight := by
  refine ⟨fun hrelative hunder => ?_, fun h => relative_of_isStraight hd hplace hroot h hnames⟩
  have htext := Disk.text_ne_nil_of_locate hplace
  have habsolute : plan.rootPlace.text ≠ [] := by
    rw [hroot]
    exact List.cons_ne_nil _ _
  have hcomponents : plan.rootPlace.components = .root :: place.map .name := by
    rw [hroot, components_absolute (hd.isFileName (hd.node?_of_locate hplace))]
  have hprefix : plan.rootPlace.components <+: (plan.root.descend names).components := by
    rw [Path.components_descend htext hnames]
    exact (List.isPrefixOf_iff_prefix.1 hunder).trans (List.prefix_append _ _)
  obtain ⟨q, hq⟩ := Path.exists_below hcomponents hprefix
  rw [relative, hq] at hrelative
  obtain rfl : q = ⟨Path.joinPieces names⟩ := hrelative
  have hsame := Path.components_of_below habsolute hnames hq
  rw [Path.components_descend htext hnames] at hsame
  exact List.append_cancel_right hsame

theorem isStraight_of (hplace : d.locate plan.root = .ok place)
    (hroot : plan.rootPlace = absolute place) (hnames : ∀ w ∈ place, IsFileName w)
    (h : plan.root.isAbsolute = false ∨ .parent ∉ plan.root.components) : plan.IsStraight := by
  intro hunder
  have htext := Disk.text_ne_nil_of_locate hplace
  rw [hroot] at hunder ⊢
  rw [components_absolute hnames]
  obtain ⟨more, hmore⟩ := List.isPrefixOf_iff_prefix.1 hunder
  rw [components_absolute hnames] at hmore
  obtain ⟨habsolute, ts, hpieces, hts⟩ := Path.pieces_of_root htext hmore.symm
  have hparent := h.resolve_left (by simp [habsolute])
  have hname : ∀ c ∈ more, c = .name c.text := by
    intro c hc
    have hmem : c ∈ ts.filterMap Component.ofPiece? := hts ▸ List.mem_append_right _ hc
    obtain ⟨w, -, hw⟩ := List.mem_filterMap.1 hmem
    obtain rfl | rfl := Component.of_ofPiece hw
    · exact absurd (hmore ▸ List.mem_cons_of_mem _ (List.mem_append_right _ hc)) hparent
    · rfl
  have hmap : more = (more.map Component.text).map .name := by
    rw [List.map_map]
    exact (List.map_id' more).symm.trans (List.map_congr_left hname)
  have hnil : more.map Component.text = [] := by
    have hcomponents : plan.root.components =
        .root :: (place ++ more.map Component.text).map .name := by
      rw [List.map_append, ← hmap]
      exact hmore.symm
    have hreach := d.reach_of_names htext hcomponents
    rw [Disk.reach_of_locate hplace] at hreach
    exact List.self_eq_append_right.1 hreach
  rw [hnil] at hmap
  rw [← hmore, hmap, List.map_nil, List.append_nil]

theorem fields_of_ofArgs (h : ofArgs args d = .ok plan) :
    plan.root = args.root ∧ plan.outDir = args.outDir ∧ plan.filter.options.base = args.root ∧
      (∃ place, d.locate args.root = .ok place ∧ plan.rootPlace = absolute place) ∧
      ∃ resolver, plan.processor = ⟨resolver, Markup.Component.parse⟩ := by
  obtain ⟨selected, excluded, hfilter, -⟩ := filter_of_ofArgs h
  obtain ⟨config, -, h⟩ := exists_of_bind_ok h
  obtain ⟨place, hplace, h⟩ := exists_of_bind_ok h
  obtain ⟨filter, -, h⟩ := exists_of_bind_ok h
  cases h
  refine ⟨rfl, rfl, by rw [hfilter]; rfl, ⟨place, ?_, rfl⟩, _, rfl⟩
  cases hlocate : d.locate args.root with
  | error e =>
    rw [hlocate] at hplace
    cases hplace
  | ok l =>
    rw [hlocate] at hplace
    cases hplace
    rfl

end Plan

end ClassWeave

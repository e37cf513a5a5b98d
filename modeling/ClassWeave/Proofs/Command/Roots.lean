import ClassWeave.Command.Watch
import ClassWeave.Proofs.Files.Pieces
import ClassWeave.Proofs.Glob.Stem
import ClassWeave.Proofs.Text.Blank

namespace ClassWeave

open Files

/-- Where a path may lie that is found below `root`. What is no absolute path lies below `.`. -/
def Files.Path.Covers (root p : Path) : Prop :=
  p.isUnder root = true ∨ root = .ofString "." ∧ p.isAbsolute = false

def rootAt (absolute : Bool) (kept : List Name) : Path :=
  let start : Path := if absolute then ⟨['/']⟩ else ⟨[]⟩
  let root := start.descend (kept.filter (!·.isEmpty))
  if root.isEmpty then .ofString "." else root

theorem splitOnP_congr {p q : Char → Bool} {cs : List Char} (h : ∀ c ∈ cs, p c = q c) :
    cs.splitOnP p = cs.splitOnP q := by
  induction cs with
  | nil => rfl
  | cons c cs ih =>
    rw [List.forall_mem_cons] at h
    rw [List.splitOnP_cons_eq_if_modifyHead, List.splitOnP_cons_eq_if_modifyHead, h.1, ih h.2]

def isLiteral (w : List Char) : Bool :=
  !w.any fun c => c == '*' || c == '?' || c == '[' || c == '\x7b'

def keptNames (parts : List Name) : List Name :=
  let literal := parts.takeWhile isLiteral
  if literal.length = parts.length then literal.dropLast else literal

theorem exists_keptNames {parts : List Name} (hne : parts ≠ []) :
    ∃ rest, rest ≠ [] ∧ parts = keptNames parts ++ rest ∧
      ∀ w ∈ keptNames parts, isLiteral w = true := by
  have hliteral : ∀ w ∈ parts.takeWhile isLiteral, isLiteral w = true := fun w hw =>
    List.mem_takeWhile_imp hw
  rw [keptNames]
  split
  · next hlength =>
    have hall := (List.takeWhile_prefix isLiteral).eq_of_length hlength
    rw [hall] at hliteral ⊢
    exact ⟨[parts.getLast hne], by simp, (List.dropLast_append_getLast hne).symm,
      fun w hw => hliteral w (List.dropLast_subset parts hw)⟩
  · next hlength =>
    refine ⟨parts.dropWhile isLiteral, ?_, List.takeWhile_append_dropWhile.symm, hliteral⟩
    intro hnil
    have happend := List.takeWhile_append_dropWhile (p := isLiteral) (l := parts)
    rw [hnil, List.append_nil] at happend
    exact hlength (congrArg List.length happend)

theorem keptNames_cons_nil {parts : List Name} (hne : parts ≠ []) :
    ∃ kept, keptNames ([] :: parts) = [] :: kept := by
  obtain ⟨w, ws, rfl⟩ := List.exists_cons_of_ne_nil hne
  have htake : ([] :: w :: ws).takeWhile isLiteral = [] :: (w :: ws).takeWhile isLiteral := rfl
  rw [keptNames, htake]
  split
  · next hlength =>
    obtain ⟨v, vs, hv⟩ : ∃ v vs, (w :: ws).takeWhile isLiteral = v :: vs := by
      apply List.exists_cons_of_ne_nil
      intro hnil
      rw [hnil] at hlength
      simp at hlength
    exact ⟨(v :: vs).dropLast, by rw [hv]; rfl⟩
  · exact ⟨_, rfl⟩

theorem watchRoot_eq {pattern : String} (hescape : '\x5c' ∉ pattern.toList) :
    watchRoot pattern = rootAt (pattern.toList.head? = some '/')
      (keptNames (pattern.toList.splitOn '/')) := by
  have hparts : pattern.toList.splitOnP (fun c => c == '/' || c == '\x5c') =
      pattern.toList.splitOn '/' := by
    apply splitOnP_congr
    intro c hc
    have hne : c ≠ '\x5c' := fun h => hescape (h ▸ hc)
    simp [hne]
  rw [watchRoot, hparts]
  simp only [rootAt, decide_eq_true_eq]
  rfl

theorem filterMap_ofPiece_filter (ws : List Name) :
    (ws.filter (!·.isEmpty)).filterMap Component.ofPiece? = ws.filterMap Component.ofPiece? := by
  rw [List.filterMap_filter]
  apply List.filterMap_congr
  intro w _
  cases w with
  | nil => rfl
  | cons c w => rfl

theorem components_descend_filter (start : Path) (t : Name) (hstart : start.text ≠ [])
    (hpieces : start.pieces = [t] ∨ start.pieces = [t, []]) (htrunk : start.trunk = [t])
    {ts : List Name} (hts : ∀ w ∈ ts, '/' ∉ w) :
    (start.descend (ts.filter (!·.isEmpty))).text ≠ [] ∧
      (start.descend (ts.filter (!·.isEmpty))).components =
        Path.front t ++ ts.filterMap Component.ofPiece? := by
  rw [← filterMap_ofPiece_filter ts]
  have hnames : ∀ w ∈ ts.filter (!·.isEmpty), w ≠ [] ∧ '/' ∉ w := by
    intro w hw
    obtain ⟨hw, hne⟩ := List.mem_filter.1 hw
    exact ⟨by simpa using hne, hts w hw⟩
  by_cases hne : ts.filter (!·.isEmpty) = []
  · have hsame : start.components = Path.front t ++ [] := by
      rcases hpieces with h | h <;> exact Path.components_of_pieces hstart h
    rw [hne]
    exact ⟨hstart, hsame⟩
  · obtain ⟨hpieces, htext⟩ := Path.pieces_descend hstart hnames hne
    rw [htrunk] at hpieces
    exact ⟨htext, Path.components_of_pieces htext hpieces⟩

theorem components_rootAt {absolute : Bool} {t : Name} {ts : List Name}
    (ht : absolute = true ↔ t = []) (hslash : ∀ w ∈ t :: ts, '/' ∉ w) :
    (rootAt absolute (t :: ts)).components = Path.front t ++ ts.filterMap Component.ofPiece? := by
  rw [List.forall_mem_cons] at hslash
  rw [rootAt]
  cases absolute with
  | true =>
    obtain rfl := ht.1 rfl
    obtain ⟨htext, hcomponents⟩ := components_descend_filter ⟨['/']⟩ []
      (by simp) (.inr rfl) rfl hslash.2
    rw [List.filter_cons_of_neg (by simp)]
    simp only [if_true]
    rw [if_neg (by simpa [Path.isEmpty] using htext), hcomponents]
  | false =>
    have ht : t ≠ [] := fun h => Bool.false_ne_true (ht.2 h)
    have hpieces : Path.pieces ⟨t⟩ = [t] := List.splitOn_eq_singleton hslash.1
    have hlast : t.getLast? ≠ some '/' := fun h => hslash.1 (List.mem_of_getLast? h)
    obtain ⟨htext, hcomponents⟩ := components_descend_filter ⟨t⟩ t ht (.inl hpieces)
      (by rw [Path.trunk, if_neg hlast, hpieces]) hslash.2
    have hjoin : Path.join ⟨[]⟩ ⟨t⟩ = ⟨t⟩ := by
      have hrelative : ¬ Path.isAbsolute ⟨t⟩ = true := by
        intro h
        exact hslash.1 (List.mem_of_head? (by simpa [Path.isAbsolute] using h))
      rw [Path.join, if_neg hrelative, if_pos (.inl rfl)]
      rfl
    have hfirst : Path.descend ⟨[]⟩ (t :: ts.filter (!·.isEmpty)) =
        Path.descend ⟨t⟩ (ts.filter (!·.isEmpty)) := by
      rw [Path.descend, List.foldl_cons, hjoin]
      rfl
    rw [List.filter_cons_of_pos (by simpa using ht)]
    simp only [Bool.false_eq_true, if_false]
    rw [hfirst, if_neg (by simpa [Path.isEmpty] using htext), hcomponents]

theorem exists_pieces {kept rest : List Name} (hkept : kept ≠ []) (hrest : rest ≠ [])
    (hslash : ∀ w ∈ kept, '/' ∉ w) (hplain : ∀ w ∈ kept, ∀ c ∈ w, Glob.isPlain c = true)
    {g : Glob} (hg : Glob.parse (Path.joinPieces (kept ++ rest)) = .ok g) {p : Path}
    (hp : g.accepts true (Text.utf8 p.text) = true) :
    ∃ more, p.pieces = kept ++ more ∧ p.text ≠ [] := by
  have hchars : ∀ c ∈ Path.joinPieces kept, Glob.isPlain c = true := by
    intro c hc
    rcases Text.mem_intercalate hc with hc | ⟨w, hw, hc⟩
    · rw [List.mem_singleton.1 hc]
      rfl
    · exact hplain w hw c hc
  rw [Path.joinPieces_append hkept hrest] at hg
  have hprefix := (Glob.begins_of_parse hchars hg).isPrefix (by simp) hp
  have hutf8 : Text.utf8 (Path.joinPieces kept) ++ [Glob.slash] =
      Text.utf8 (Path.joinPieces kept ++ ['/']) := by
    rw [Glob.utf8_append]
    rfl
  rw [hutf8] at hprefix
  obtain ⟨m, hm⟩ := Text.isPrefix_of_utf8 hprefix
  refine ⟨m.splitOn '/', ?_, ?_⟩
  · rw [Path.pieces, ← hm, List.append_assoc, List.singleton_append,
      List.splitOn_append_cons_self, Path.splitOn_joinPieces hslash hkept]
  · rw [← hm]
    simp

theorem head?_of_pieces {cs : List Char} {t u : Name} {ts : List Name}
    (h : cs.splitOn '/' = t :: u :: ts) : cs.head? = some '/' ↔ t = [] := by
  have hcs := Path.joinPieces_splitOn cs
  rw [h, Path.joinPieces_cons t (List.cons_ne_nil u ts)] at hcs
  have hslash : '/' ∉ t := (of_mem_splitOn (h ▸ List.mem_cons_self)).1
  rw [← hcs]
  cases t with
  | nil => simp
  | cons c t =>
    have hc : c ≠ '/' := fun hc => hslash (hc ▸ List.mem_cons_self)
    simp [hc]

theorem covers_watchRoot {pattern : String} (hescape : '\x5c' ∉ pattern.toList) {g : Glob}
    (hg : Glob.parse pattern.toList = .ok g) {p : Path}
    (hp : g.accepts true (Text.utf8 p.text) = true)
    (hrelative : pattern.toList.head? = some '/' ∨ p.isAbsolute = false) :
    (watchRoot pattern).Covers p := by
  obtain ⟨rest, hrest, hsplit, hliteral⟩ := exists_keptNames (List.splitOn_ne_nil '/' pattern.toList)
  have hpiece : ∀ w ∈ keptNames (pattern.toList.splitOn '/'),
      '/' ∉ w ∧ ∀ c ∈ w, Glob.isPlain c = true := by
    intro w hw
    obtain ⟨hslash, hmem⟩ := of_mem_splitOn (hsplit ▸ List.mem_append_left rest hw :
      w ∈ pattern.toList.splitOn '/')
    refine ⟨hslash, fun c hc => ?_⟩
    have hne : c ≠ '\x5c' := fun h => hescape (h ▸ hmem c hc)
    have hstands := hliteral w hw
    simp only [isLiteral, Bool.not_eq_true', List.any_eq_false] at hstands
    simpa [Glob.isPlain, hne] using hstands c hc
  rw [watchRoot_eq hescape]
  cases hkept : keptNames (pattern.toList.splitOn '/') with
  | nil =>
    -- The empty name before a first slash is always kept.
    have hhead : pattern.toList.head? ≠ some '/' := by
      intro hhead
      obtain ⟨cs, hcs⟩ := List.head?_eq_some_iff.1 hhead
      rw [hcs, List.splitOn_cons_eq_if_modifyHead, if_pos (by simp)] at hkept
      obtain ⟨kept, hkept'⟩ := keptNames_cons_nil (List.splitOn_ne_nil '/' cs)
      rw [hkept] at hkept'
      cases hkept'
    exact .inr ⟨by simp [rootAt, hhead, Path.descend, Path.isEmpty], hrelative.resolve_left hhead⟩
  | cons t ts =>
    rw [hkept] at hpiece hsplit
    rw [← Path.joinPieces_splitOn pattern.toList, hsplit] at hg
    obtain ⟨more, hpieces, htext⟩ := exists_pieces (List.cons_ne_nil t ts) hrest
      (fun w hw => (hpiece w hw).1) (fun w hw => (hpiece w hw).2) hg hp
    have hlead : pattern.toList.head? = some '/' ↔ t = [] := by
      obtain ⟨u, us, hu⟩ := List.exists_cons_of_ne_nil
        (List.append_ne_nil_of_right_ne_nil ts hrest)
      exact head?_of_pieces (hsplit.trans (congrArg (t :: ·) hu))
    rw [List.cons_append] at hpieces
    refine .inl ?_
    rw [Path.isUnder, List.isPrefixOf_iff_prefix, components_rootAt (by simpa using hlead)
      (fun w hw => (hpiece w hw).1), Path.components_of_pieces htext hpieces,
      List.filterMap_append, ← List.append_assoc]
    exact List.prefix_append _ _

theorem distinctPaths_foldl (paths known : List Path)
    (hknown : known.Pairwise fun q r => q.components ≠ r.components) :
    ∃ new, new.Sublist paths ∧
      paths.foldl (fun known p =>
        if known.any fun q => q.components == p.components then known else known ++ [p]) known =
        known ++ new ∧
      (known ++ new).Pairwise (fun q r => q.components ≠ r.components) ∧
      ∀ p ∈ paths, ∃ q ∈ known ++ new, q.components = p.components := by
  induction paths generalizing known with
  | nil => exact ⟨[], List.Sublist.slnil, by simp, by simpa using hknown, by simp⟩
  | cons p paths ih =>
    rw [List.foldl_cons]
    by_cases hp : known.any (fun q => q.components == p.components) = true
    · rw [if_pos hp]
      obtain ⟨new, hsub, hfold, hpairwise, hall⟩ := ih known hknown
      refine ⟨new, hsub.cons p, hfold, hpairwise, List.forall_mem_cons.2 ⟨?_, hall⟩⟩
      obtain ⟨q, hq, heq⟩ := List.any_eq_true.1 hp
      exact ⟨q, List.mem_append_left new hq, by simpa using heq⟩
    · rw [if_neg hp]
      have hnext : (known ++ [p]).Pairwise fun q r => q.components ≠ r.components := by
        refine List.pairwise_append.2 ⟨hknown, List.pairwise_singleton _ p, ?_⟩
        intro q hq r hr heq
        rw [List.mem_singleton.1 hr] at heq
        exact hp (List.any_eq_true.2 ⟨q, hq, by simpa using heq⟩)
      obtain ⟨new, hsub, hfold, hpairwise, hall⟩ := ih (known ++ [p]) hnext
      rw [List.append_assoc, List.singleton_append] at hfold hpairwise hall
      refine ⟨p :: new, hsub.cons_cons p, hfold, hpairwise, List.forall_mem_cons.2 ⟨?_, hall⟩⟩
      exact ⟨p, List.mem_append_right known List.mem_cons_self, rfl⟩

/-- What a pattern matches lies below the directory that is watched for it, and the directories that
are watched for some patterns are those of each of them, none of them twice. -/
theorem watchRoots_cover :
    (∀ (pattern : String) (g : Glob) (p : Path), '\x5c' ∉ pattern.toList →
      Glob.parse pattern.toList = .ok g → g.accepts true (Text.utf8 p.text) = true →
      (pattern.toList.head? = some '/' ∨ p.isAbsolute = false) → (watchRoot pattern).Covers p) ∧
    ∀ patterns : List String,
      (watchRoots patterns).Sublist (patterns.map watchRoot) ∧
      (watchRoots patterns).Pairwise (fun q r => q.components ≠ r.components) ∧
      ∀ pattern ∈ patterns, ∃ root ∈ watchRoots patterns,
        root.components = (watchRoot pattern).components := by
  refine ⟨fun pattern g p hescape hg hp => covers_watchRoot hescape hg hp, fun patterns => ?_⟩
  obtain ⟨new, hsub, hfold, hpairwise, hall⟩ :=
    distinctPaths_foldl (patterns.map watchRoot) [] List.Pairwise.nil
  rw [List.nil_append] at hfold hpairwise hall
  rw [watchRoots, distinctPaths, hfold]
  exact ⟨hsub, hpairwise, fun pattern hpattern => hall _ (List.mem_map_of_mem hpattern)⟩

theorem watchRoots_cover_src : (watchRoot "src/*.svelte").Covers (.ofString "src/ui/App.svelte") ∧
    (watchRoot "src/*.svelte").components = [.name "src".toList] := by
  have hparse : Glob.parse "src/*.svelte".toList =
      .ok (".svelte".toList.foldl (fun g c => .append g (.literal c))
        (.append ("src/".toList.foldl (fun g c => .append g (.literal c)) .empty) .run)) := by
    simp [Glob.parse, Glob.read, Glob.Reading.push, Glob.Reading.inBraces]
  exact ⟨watchRoots_cover.1 _ _ _ (by decide) hparse (by decide) (.inr rfl), by decide⟩

end ClassWeave

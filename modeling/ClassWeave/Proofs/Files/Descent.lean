import ClassWeave.Failure
import ClassWeave.Files.Disk

namespace ClassWeave.Files

def IsFileName (w : Name) : Prop := w ≠ [] ∧ '/' ∉ w ∧ w ≠ ['.'] ∧ w ≠ ['.', '.']

theorem IsFileName.isPiece {w : Name} (h : IsFileName w) : w ≠ [] ∧ '/' ∉ w := ⟨h.1, h.2.1⟩

theorem IsFileName.ofPiece? {w : Name} (h : IsFileName w) :
    Component.ofPiece? w = some (.name w) := by
  obtain ⟨hne, -, hdot, hdots⟩ := h
  rw [Component.ofPiece?, if_neg (by simp [hne, hdot]), if_neg hdots]

theorem Component.of_ofPiece {w : Name} {c : Component} (h : ofPiece? w = some c) :
    c = .parent ∨ c = .name w := by
  rw [ofPiece?] at h
  split at h
  · cases h
  · split at h
    · exact .inl (Option.some.inj h).symm
    · exact .inr (Option.some.inj h).symm

theorem filterMap_ofPiece_names {names : List Name} (hnames : ∀ w ∈ names, IsFileName w) :
    names.filterMap Component.ofPiece? = names.map .name := by
  induction names with
  | nil => rfl
  | cons w names ih =>
    rw [List.forall_mem_cons] at hnames
    rw [List.filterMap_cons_some hnames.1.ofPiece?, ih hnames.2, List.map_cons]

namespace Path

def descend (p : Path) (names : List Name) : Path := names.foldl (fun p name => p.join ⟨name⟩) p

def pieces (p : Path) : List Name := p.text.splitOn '/'

def trunk (p : Path) : List Name :=
  if p.text.getLast? = some '/' then p.pieces.dropLast else p.pieces

variable {p : Path} {names : List Name}

theorem isAbsolute_eq (hp : p.text ≠ []) : p.isAbsolute = (p.pieces.head? == some []) := by
  obtain ⟨c, cs, hcs⟩ := List.exists_cons_of_ne_nil hp
  obtain ⟨w, ws, hws⟩ := List.exists_cons_of_ne_nil (List.splitOn_ne_nil '/' cs)
  rw [isAbsolute, pieces, hcs, List.splitOn_cons_eq_if_modifyHead, hws]
  by_cases hc : c = '/'
  · simp [hc]
  · simp [hc]

theorem pieces_eq (p : Path) : p.pieces = p.trunk ∨ p.pieces = p.trunk ++ [[]] := by
  rw [trunk]
  split
  · next hlast =>
    obtain ⟨v, hv⟩ := List.getLast?_eq_some_iff.1 hlast
    have hpieces : p.pieces = v.splitOn '/' ++ [[]] := by
      rw [pieces, hv, List.splitOn_append_cons_self, List.splitOn_nil]
    rw [hpieces, List.dropLast_concat]
    exact .inr rfl
  · exact .inl rfl

theorem trunk_ne_nil (hp : p.text ≠ []) : p.trunk ≠ [] := by
  intro htrunk
  rcases p.pieces_eq with h | h
  · exact List.splitOn_ne_nil _ _ (h.trans htrunk)
  · have hjoin : ['/'].intercalate p.pieces = p.text := List.intercalate_splitOn '/'
    rw [h, htrunk] at hjoin
    exact hp hjoin.symm

theorem pieces_join (hp : p.text ≠ []) {w : Name} (hne : w ≠ []) (hslash : '/' ∉ w) :
    (p.join ⟨w⟩).pieces = p.trunk ++ [w] ∧ (p.join ⟨w⟩).trunk = p.trunk ++ [w] ∧
      (p.join ⟨w⟩).text ≠ [] := by
  have hsplit : w.splitOn '/' = [w] := List.splitOn_eq_singleton hslash
  have hlast (u : List Char) : (u ++ w).getLast? ≠ some '/' := by
    rw [List.getLast?_append, Option.or_of_isSome (by simpa using hne)]
    exact fun h => hslash (List.mem_of_getLast? h)
  have hrelative : ¬ isAbsolute ⟨w⟩ = true := by
    intro h
    exact hslash (List.mem_of_head? (by simpa [isAbsolute] using h))
  have htext : ∃ u, (p.join ⟨w⟩).text = u ++ w ∧ (u ++ w).splitOn '/' = p.trunk ++ [w] := by
    rw [join, if_neg hrelative, trunk, pieces]
    by_cases hend : p.text.getLast? = some '/'
    · obtain ⟨v, hv⟩ := List.getLast?_eq_some_iff.1 hend
      refine ⟨p.text, by rw [if_pos (.inr hend)], ?_⟩
      rw [if_pos hend, hv, List.append_assoc, List.singleton_append,
        List.splitOn_append_cons_self, List.splitOn_append_cons_self, hsplit, List.splitOn_nil,
        List.dropLast_concat]
    · refine ⟨p.text ++ ['/'], by simp [hend, isEmpty, hp], ?_⟩
      rw [if_neg hend, List.append_assoc, List.singleton_append, List.splitOn_append_cons_self,
        hsplit]
  obtain ⟨u, hu, hpieces⟩ := htext
  have hnoslash : (p.join ⟨w⟩).text.getLast? ≠ some '/' := hu ▸ hlast u
  refine ⟨?_, ?_, ?_⟩
  · rw [pieces, hu, hpieces]
  · rw [trunk, if_neg hnoslash, pieces, hu, hpieces]
  · rw [hu]
    exact List.append_ne_nil_of_right_ne_nil u hne

theorem pieces_descend (hp : p.text ≠ []) (hnames : ∀ w ∈ names, w ≠ [] ∧ '/' ∉ w)
    (hne : names ≠ []) : (p.descend names).pieces = p.trunk ++ names ∧
      (p.descend names).text ≠ [] := by
  induction names generalizing p with
  | nil => exact absurd rfl hne
  | cons w names ih =>
    rw [List.forall_mem_cons] at hnames
    obtain ⟨⟨hw, hslash⟩, hnames⟩ := hnames
    obtain ⟨hpieces, htrunk, htext⟩ := pieces_join hp hw hslash
    by_cases hlast : names = []
    · subst hlast
      exact ⟨hpieces, htext⟩
    · have hrest := ih htext hnames hlast
      rwa [htrunk, List.append_assoc] at hrest

theorem dropVoid_of_isFileName (hnames : ∀ w ∈ names, IsFileName w) : dropVoid names = names := by
  cases names with
  | nil => rfl
  | cons w names =>
    apply List.dropWhile_cons_of_neg
    simp [isVoid, (hnames w List.mem_cons_self).ofPiece?]

theorem dropVoidEnd_of_isFileName (hnames : ∀ w ∈ names, IsFileName w) :
    dropVoidEnd names = names := by
  have hreverse : ∀ w ∈ names.reverse, IsFileName w := fun w hw =>
    hnames w (List.mem_reverse.1 hw)
  rw [dropVoidEnd, dropVoid_of_isFileName hreverse, List.reverse_reverse]

theorem exists_strip (hnames : ∀ w ∈ names, IsFileName w) (ws : List Name) :
    ∃ vs, strip (ws.filterMap Component.ofPiece?) (ws ++ names) = some vs ∧
      dropVoid vs = names := by
  induction ws with
  | nil => exact ⟨names, rfl, dropVoid_of_isFileName hnames⟩
  | cons w ws ih =>
    obtain ⟨vs, hvs, hdrop⟩ := ih
    cases hw : Component.ofPiece? w with
    | some c =>
      have hkeep : dropVoid (w :: (ws ++ names)) = w :: (ws ++ names) :=
        List.dropWhile_cons_of_neg (by simp [isVoid, hw])
      refine ⟨vs, ?_, hdrop⟩
      rw [List.filterMap_cons_some hw, List.cons_append, strip, hkeep]
      simpa [hw] using hvs
    | none =>
      have hvoid : isVoid w = true := by rw [isVoid, hw]; rfl
      have hskip : dropVoid (w :: (ws ++ names)) = dropVoid (ws ++ names) :=
        List.dropWhile_cons_of_pos hvoid
      rw [List.filterMap_cons_none hw, List.cons_append]
      cases hcs : ws.filterMap Component.ofPiece? with
      | nil =>
        rw [hcs] at hvs
        cases hvs
        exact ⟨_, rfl, hskip.trans hdrop⟩
      | cons c cs =>
        rw [hcs, strip] at hvs
        refine ⟨vs, ?_, hdrop⟩
        rw [strip, hskip]
        exact hvs

theorem exists_parts (t : Name) (ts : List Name) : ∃ lead ws, ∀ (q : Path) (more : List Name),
    q.text ≠ [] → q.pieces = t :: (ts ++ more) → q.parts = (lead, ws ++ more) := by
  by_cases ht : t = []
  · subst ht
    refine ⟨some .root, ts, ?_⟩
    intro q more hq hpieces
    have hmore : ts ++ more ≠ [] := by
      intro hnil
      have hjoin : ['/'].intercalate q.pieces = q.text := List.intercalate_splitOn '/'
      rw [hpieces, hnil] at hjoin
      exact hq hjoin.symm
    obtain ⟨w, ws, hws⟩ := List.exists_cons_of_ne_nil hmore
    rw [parts, ← pieces, hpieces, hws]
  by_cases hdot : t = ['.']
  · subst hdot
    refine ⟨some .current, ts, ?_⟩
    intro q more hq hpieces
    rw [parts, ← pieces, hpieces]
    rfl
  · refine ⟨none, t :: ts, ?_⟩
    intro q more hq hpieces
    rw [parts, ← pieces, hpieces]
    split
    · next heq => exact absurd (List.cons.inj heq).1 ht
    · next heq => exact absurd (List.cons.inj heq).1 hdot
    · rfl

theorem parts_descend (hp : p.text ≠ []) (hnames : ∀ w ∈ names, IsFileName w) :
    ∃ ws, (p.descend names).parts = (p.parts.1, ws ++ names) ∧
      ws.filterMap Component.ofPiece? = p.parts.2.filterMap Component.ofPiece? := by
  by_cases hne : names = []
  · subst hne
    exact ⟨p.parts.2, by rw [List.append_nil]; rfl, rfl⟩
  obtain ⟨hpieces, htext⟩ := pieces_descend hp (fun w hw => (hnames w hw).isPiece) hne
  obtain ⟨t, ts, htrunk⟩ := List.exists_cons_of_ne_nil (p.trunk_ne_nil hp)
  obtain ⟨lead, ws, hparts⟩ := exists_parts t ts
  rw [hparts _ names htext (by rw [hpieces, htrunk, List.cons_append])]
  rcases p.pieces_eq with h | h
  · rw [htrunk, ← List.append_nil (t :: ts)] at h
    rw [hparts p [] hp h]
    exact ⟨ws, rfl, by rw [List.append_nil]⟩
  · rw [htrunk] at h
    rw [hparts p [[]] hp h]
    exact ⟨ws, rfl, by rw [List.filterMap_append]; exact (List.append_nil _).symm⟩

theorem below_descend {base : Path} (hp : p.text ≠ []) (hbase : base.text ≠ [])
    (hnames : ∀ w ∈ names, IsFileName w) (hlead : base.parts.1 = p.parts.1)
    (hsame : base.parts.2.filterMap Component.ofPiece? =
      p.parts.2.filterMap Component.ofPiece?) :
    (p.descend names).below? base = some ⟨joinPieces names⟩ := by
  obtain ⟨ws, hparts, hws⟩ := parts_descend hp hnames
  obtain ⟨vs, hvs, hdrop⟩ := exists_strip hnames ws
  rw [below?, if_neg (by simpa [isEmpty] using hbase), hparts, if_pos hlead.symm, hsame, ← hws, hvs,
    Option.map_some, hdrop, dropVoidEnd_of_isFileName hnames]
  rfl

theorem relativeTo_descend (hp : p.text ≠ []) (hnames : ∀ w ∈ names, IsFileName w) :
    (p.descend names).relativeTo p = ⟨joinPieces names⟩ := by
  rw [relativeTo, below_descend hp hp hnames rfl rfl, Option.getD_some]

end Path

end ClassWeave.Files

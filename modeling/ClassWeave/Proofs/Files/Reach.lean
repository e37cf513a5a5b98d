import ClassWeave.Failure
import ClassWeave.Files.Disk
import ClassWeave.Proofs.Files.Pieces
import Mathlib.Logic.Basic

/-!
Where paths lead. On a disk there is nothing that leads elsewhere, so a path that leads to something
leads to the place that its text says, and going down by names leads down by these names.
-/

namespace ClassWeave.Files

def turn (l : Location) (piece : Name) : Location :=
  if piece = [] ∨ piece = ['.'] then l
  else if piece = ['.', '.'] then l.dropLast
  else l ++ [piece]

theorem turn_nil (l : Location) : turn l [] = l := if_pos (.inl rfl)

theorem turn_name {w : Name} (hne : w ≠ []) (hdot : w ≠ ['.']) (hdots : w ≠ ['.', '.'])
    (l : Location) : turn l w = l ++ [w] := by
  rw [turn, if_neg (by simp [hne, hdot]), if_neg hdots]

theorem turn_of_ofPiece (l : Location) (w : Name) : turn l w =
    match Component.ofPiece? w with
    | none => l
    | some .parent => l.dropLast
    | some _ => l ++ [w] := by
  rw [turn, Component.ofPiece?]
  split
  · rfl
  · split <;> rfl

theorem foldl_turn_names {ws names : List Name}
    (h : ws.filterMap Component.ofPiece? = names.map .name) (l : Location) :
    ws.foldl turn l = l ++ names := by
  induction ws generalizing names l with
  | nil =>
    rw [List.map_eq_nil_iff.1 h.symm, List.append_nil]
    rfl
  | cons w ws ih =>
    rw [List.foldl_cons, turn_of_ofPiece]
    cases hw : Component.ofPiece? w with
    | none =>
      rw [List.filterMap_cons_none hw] at h
      exact ih h l
    | some c =>
      rw [List.filterMap_cons_some hw] at h
      cases names with
      | nil => cases h
      | cons v names =>
        obtain ⟨rfl, hrest⟩ := List.cons.inj h
        obtain hw | hw := Component.of_ofPiece hw <;> cases hw
        rw [ih hrest, List.append_assoc, List.singleton_append]

namespace Disk

variable {d : Disk} {l m : Location} {p : Path} {names : List Name}

def Named (d : Disk) : Prop := ∀ e ∈ d.nodes, ∀ w ∈ e.1, IsFileName w

def reach (d : Disk) (p : Path) : Location :=
  p.pieces.foldl turn (if p.isAbsolute then [] else d.here)

theorem step_eq_ok_iff {w : Name} : d.step l w = .ok m ↔
    d.isDirectoryAt l = true ∧ m = turn l w ∧
      (w ≠ [] → w ≠ ['.'] → w ≠ ['.', '.'] →
        Text.byteLength w ≤ longestName ∧ d.node? (l ++ [w]) ≠ none) := by
  rw [step, turn]
  by_cases hdirectory : d.isDirectoryAt l = true
  · rw [if_neg (by simp [hdirectory])]
    by_cases hvoid : w = [] ∨ w = ['.']
    · rw [if_pos hvoid, if_pos hvoid, Except.ok.injEq]
      have hnot : ¬ (w ≠ [] ∧ w ≠ ['.']) := by rwa [← not_or, not_not]
      exact ⟨fun h => ⟨hdirectory, h.symm, fun h₁ h₂ => absurd ⟨h₁, h₂⟩ hnot⟩,
        fun h => h.2.1.symm⟩
    · rw [if_neg hvoid, if_neg hvoid]
      rw [not_or] at hvoid
      by_cases hdots : w = ['.', '.']
      · rw [if_pos hdots, if_pos hdots, Except.ok.injEq]
        exact ⟨fun h => ⟨hdirectory, h.symm, fun _ _ h => absurd hdots h⟩, fun h => h.2.1.symm⟩
      · rw [if_neg hdots, if_neg hdots]
        by_cases hlong : longestName < Text.byteLength w
        · simp [hlong, hvoid, hdots, Nat.not_le.2 hlong]
        · by_cases hnone : d.node? (l ++ [w]) = none
          · simp [hlong, hnone, hvoid, hdots]
          · rw [if_neg hlong, if_neg (by simpa using hnone), Except.ok.injEq]
            exact ⟨fun h => ⟨hdirectory, h.symm, fun _ _ _ => ⟨Nat.le_of_not_lt hlong, hnone⟩⟩,
              fun h => h.2.1.symm⟩
  · simp [hdirectory]

theorem foldlM_step_turn {ws : List Name} (h : ws.foldlM d.step l = .ok m) :
    m = ws.foldl turn l := by
  induction ws generalizing l with
  | nil =>
    cases h
    rfl
  | cons w ws ih =>
    rw [List.foldlM_cons] at h
    obtain ⟨k, hk, h⟩ := exists_of_bind_ok h
    rw [ih h, (step_eq_ok_iff.1 hk).2.1, List.foldl_cons]

theorem start_eq {s : Location × List Name} (h : d.start p = .ok s) :
    s = if p.isAbsolute then ([], p.pieces.tail) else (d.here, p.pieces) := by
  rw [start] at h
  split at h
  · cases h
  · split at h
    · cases h
    · split at h
      · cases h
      · split at h <;> next habsolute =>
          cases h
          simp [habsolute, Path.pieces]

theorem text_ne_nil_of_start {s : Location × List Name} (hs : d.start p = .ok s) : p.text ≠ [] := by
  intro hnil
  rw [start] at hs
  simp [hnil, Path.isEmpty] at hs

theorem text_ne_nil_of_locate (h : d.locate p = .ok l) : p.text ≠ [] := by
  obtain ⟨s, hs, -⟩ := exists_of_bind_ok h
  exact text_ne_nil_of_start hs

theorem reach_of_start {s : Location × List Name} (hs : d.start p = .ok s) :
    d.reach p = s.2.foldl turn s.1 := by
  have hp := text_ne_nil_of_start hs
  rw [start_eq hs, reach]
  by_cases habsolute : p.isAbsolute = true
  · rw [if_pos habsolute, if_pos habsolute]
    rw [Path.isAbsolute_eq hp, beq_iff_eq] at habsolute
    obtain ⟨ws, hws⟩ := List.head?_eq_some_iff.1 habsolute
    rw [hws, List.foldl_cons, turn_nil]
    rfl
  · rw [if_neg habsolute, if_neg habsolute]

theorem reach_of_locate (h : d.locate p = .ok l) : d.reach p = l := by
  obtain ⟨s, hs, h⟩ := exists_of_bind_ok h
  rw [reach_of_start hs, foldlM_step_turn h]

theorem locate_descend_eq {base : Location} (hbase : d.locate p = .ok base)
    (hnames : ∀ w ∈ names, IsFileName w) (hne : names ≠ []) :
    d.locate (p.descend names) =
      (d.start (p.descend names)).bind fun _ => names.foldlM d.step base := by
  have hp := text_ne_nil_of_locate hbase
  obtain ⟨hpieces, htext⟩ := Path.pieces_descend hp (fun w hw => (hnames w hw).isPiece) hne
  have htrunk := p.trunk_ne_nil hp
  obtain ⟨⟨top, ws⟩, hs, hfold⟩ := exists_of_bind_ok hbase
  rw [locate]
  cases hs' : d.start (p.descend names) with
  | error e => rfl
  | ok s =>
    obtain ⟨top', vs⟩ := s
    have hsame : top' = top ∧ ∃ us, vs = us ++ names ∧ (ws = us ∨ ws = us ++ [[]]) := by
      have habsolute : (p.descend names).isAbsolute = p.isAbsolute := by
        obtain ⟨t, ts, ht⟩ := List.exists_cons_of_ne_nil htrunk
        rw [Path.isAbsolute_eq htext, Path.isAbsolute_eq hp, hpieces, ht]
        rcases p.pieces_eq with h | h <;> rw [h, ht] <;> rfl
      have hstart := start_eq hs
      have hstart' := start_eq hs'
      rw [habsolute, hpieces] at hstart'
      by_cases hroot : p.isAbsolute = true
      · rw [if_pos hroot] at hstart hstart'
        cases hstart
        cases hstart'
        refine ⟨rfl, p.trunk.tail, List.tail_append_of_ne_nil htrunk, ?_⟩
        rcases p.pieces_eq with h | h
        · exact .inl (congrArg List.tail h)
        · rw [h]
          exact .inr (List.tail_append_of_ne_nil htrunk)
      · rw [if_neg hroot] at hstart hstart'
        cases hstart
        cases hstart'
        exact ⟨rfl, p.trunk, rfl, p.pieces_eq⟩
    obtain ⟨rfl, us, rfl, hws⟩ := hsame
    -- The empty piece behind a last slash leads nowhere.
    have hus : us.foldlM d.step top' = .ok base := by
      rcases hws with rfl | rfl
      · exact hfold
      · rw [List.foldlM_append] at hfold
        obtain ⟨k, hk, hfold⟩ := exists_of_bind_ok hfold
        rw [List.foldlM_cons] at hfold
        obtain ⟨n, hn, hfold⟩ := exists_of_bind_ok hfold
        cases hfold
        rw [(step_eq_ok_iff.1 hn).2.1, turn_nil]
        exact hk
    change (us ++ names).foldlM d.step top' = names.foldlM d.step base
    rw [List.foldlM_append, hus]
    rfl

theorem locate_descend {base : Location} (hnames : ∀ w ∈ names, IsFileName w)
    (hbase : d.locate p = .ok base) (h : d.locate (p.descend names) = .ok l) :
    l = base ++ names := by
  by_cases hne : names = []
  · subst hne
    cases hbase.symm.trans h
    exact (List.append_nil _).symm
  · rw [locate_descend_eq hbase hnames hne] at h
    obtain ⟨-, -, h⟩ := exists_of_bind_ok h
    rw [foldlM_step_turn h, foldl_turn_names (filterMap_ofPiece_names hnames)]

theorem reach_join (d : Disk) (p : Path) (hnames : ∀ w ∈ names, IsFileName w) :
    d.reach (p.join ⟨Path.joinPieces names⟩) = d.reach p ++ names := by
  have hdown (l : Location) : ((Path.joinPieces names).splitOn '/').foldl turn l = l ++ names :=
    foldl_turn_names (Path.filterMap_splitOn_names hnames) l
  rw [Path.join, if_neg (Path.not_isAbsolute_joinPieces hnames)]
  by_cases hp : p.text = []
  · obtain rfl : p = ⟨[]⟩ := congrArg Path.mk hp
    rw [if_pos (.inl rfl)]
    change d.reach ⟨Path.joinPieces names⟩ = d.here ++ names
    rw [reach, if_neg (Path.not_isAbsolute_joinPieces hnames)]
    exact hdown d.here
  have habsolute (u : List Char) : Path.isAbsolute ⟨p.text ++ u⟩ = p.isAbsolute := by
    obtain ⟨c, cs, hcs⟩ := List.exists_cons_of_ne_nil hp
    rw [Path.isAbsolute, Path.isAbsolute, hcs]
    rfl
  by_cases hlast : p.text.getLast? = some '/'
  · obtain ⟨v, hv⟩ := List.getLast?_eq_some_iff.1 hlast
    rw [if_pos (.inr hlast), reach, reach, habsolute, Path.pieces, Path.pieces, hv,
      List.append_assoc, List.singleton_append, List.splitOn_append_cons_self,
      List.splitOn_append_cons_self, List.splitOn_nil, List.foldl_append, List.foldl_append, hdown,
      List.foldl_cons, turn_nil, List.foldl_nil]
  · rw [if_neg (by simp [Path.isEmpty, hp, hlast]), reach, reach, habsolute, Path.pieces,
      Path.pieces, List.splitOn_append_cons_self, List.foldl_append, hdown]

theorem reach_descend (d : Disk) (p : Path) (hnames : ∀ w ∈ names, IsFileName w) :
    d.reach (p.descend names) = d.reach p ++ names := by
  induction names generalizing p with
  | nil => exact (List.append_nil _).symm
  | cons w names ih =>
    rw [List.forall_mem_cons] at hnames
    have hw := d.reach_join p (List.forall_mem_singleton.2 hnames.1)
    rw [Path.joinPieces, List.intercalate_singleton] at hw
    refine (ih (p.join ⟨w⟩) hnames.2).trans ?_
    rw [hw, List.append_assoc, List.singleton_append]

theorem exists_of_dropWhile {ws before : List Name} {w : Name}
    (h : ws.dropWhile (· == []) = w :: before) :
    ∃ after, ws = after ++ w :: before ∧ w ≠ [] ∧ (∀ v ∈ after, v = []) ∧
      (ws.head? ≠ some [] → after = []) := by
  induction ws with
  | nil => cases h
  | cons v ws ih =>
    by_cases hv : v = []
    · subst hv
      rw [List.dropWhile_cons_of_pos (by simp)] at h
      obtain ⟨after, rfl, hne, hafter, -⟩ := ih h
      exact ⟨[] :: after, rfl, hne, List.forall_mem_cons.2 ⟨rfl, hafter⟩, fun h => absurd rfl h⟩
    · rw [List.dropWhile_cons_of_neg (by simpa using hv)] at h
      cases h
      exact ⟨[], rfl, hv, nofun, fun _ => rfl⟩

theorem exists_of_holder {w : Name} {slashed : Bool} (h : d.holder p = .ok (l, some (w, slashed))) :
    ∃ top before after, d.start p = .ok (top, before ++ w :: after) ∧
      before.foldlM d.step top = .ok l ∧ (∀ v ∈ after, v = []) ∧ (slashed = false → after = []) ∧
      d.isDirectoryAt l = true ∧ w ≠ [] ∧ w ≠ ['.'] ∧ w ≠ ['.', '.'] ∧
      Text.byteLength w ≤ longestName := by
  obtain ⟨⟨top, ws⟩, hs, h⟩ := exists_of_bind_ok h
  split at h
  · cases h
  · next last before hlast =>
    obtain ⟨after, hws, hne, hafter, hend⟩ := exists_of_dropWhile hlast
    replace hws : ws = before.reverse ++ last :: after.reverse := by
      rw [← List.reverse_inj, hws]
      simp
    obtain ⟨k, hk, h⟩ := exists_of_bind_ok h
    split at h
    · cases h
    · next hdirectory =>
      split at h
      · cases h
      · next hdots =>
        split at h
        · cases h
        · next hlong =>
          cases h
          rw [not_or] at hdots
          refine ⟨top, before.reverse, after.reverse, hws ▸ hs, hk, ?_, ?_,
            by simpa using hdirectory, hne, hdots.1, hdots.2, Nat.le_of_not_lt hlong⟩
          · exact fun v hv => hafter v (List.mem_reverse.1 hv)
          · intro hslashed
            rw [List.reverse_eq_nil_iff]
            apply hend
            rw [List.head?_reverse]
            simpa using hslashed

theorem reach_of_holder {w : Name} {slashed : Bool}
    (h : d.holder p = .ok (l, some (w, slashed))) : d.reach p = l ++ [w] := by
  obtain ⟨top, before, after, hs, hfold, hafter, -, -, hne, hdot, hdots, -⟩ := exists_of_holder h
  have hvoid : after.filterMap Component.ofPiece? = List.map .name [] := by
    rw [List.map_nil, List.filterMap_eq_nil_iff]
    intro v hv
    rw [hafter v hv]
    rfl
  rw [reach_of_start hs, List.foldl_append, ← foldlM_step_turn hfold, List.foldl_cons,
    turn_name hne hdot hdots, foldl_turn_names hvoid, List.append_nil]

end Disk

end ClassWeave.Files

import ClassWeave.Proofs.Files.Descent

namespace ClassWeave.Files

theorem of_mem_splitOn {x : Char} {cs w : List Char} (h : w ∈ cs.splitOn x) :
    x ∉ w ∧ ∀ c ∈ w, c ∈ cs := by
  induction cs generalizing w with
  | nil =>
    rw [List.splitOn_nil, List.mem_singleton] at h
    rw [h]
    exact ⟨List.not_mem_nil, fun _ hc => hc⟩
  | cons d cs ih =>
    rw [List.splitOn_cons_eq_if_modifyHead] at h
    split at h
    · rcases List.mem_cons.1 h with rfl | h
      · exact ⟨List.not_mem_nil, fun _ hc => absurd hc List.not_mem_nil⟩
      · exact (ih h).imp_right fun hw c hc => List.mem_cons_of_mem d (hw c hc)
    · next hd =>
      obtain ⟨v, vs, hv⟩ := List.exists_cons_of_ne_nil (List.splitOn_ne_nil x cs)
      rw [hv, List.modifyHead_cons, List.mem_cons] at h
      rcases h with rfl | h
      · obtain ⟨hnot, hmem⟩ := ih (hv ▸ List.mem_cons_self : v ∈ cs.splitOn x)
        rw [List.mem_cons, not_or]
        exact ⟨⟨fun hx => hd (by simp [hx]), hnot⟩, fun c => List.mem_cons.2 ∘
          Or.imp_right (hmem c) ∘ List.mem_cons.1⟩
      · exact (ih (hv ▸ List.mem_cons_of_mem v h)).imp_right fun hw c hc =>
          List.mem_cons_of_mem d (hw c hc)

namespace Path

theorem joinPieces_cons (w : Name) {ws : List Name} (hne : ws ≠ []) :
    joinPieces (w :: ws) = w ++ '/' :: joinPieces ws := by
  rw [joinPieces, List.intercalate_cons_of_ne_nil hne, List.append_assoc]
  rfl

theorem joinPieces_append {ws names : List Name} (hws : ws ≠ []) (hne : names ≠ []) :
    joinPieces (ws ++ names) = joinPieces ws ++ '/' :: joinPieces names := by
  induction ws with
  | nil => exact absurd rfl hws
  | cons w ws ih =>
    by_cases hlast : ws = []
    · subst hlast
      rw [List.cons_append, List.nil_append, joinPieces_cons w hne, joinPieces, joinPieces,
        List.intercalate_singleton]
    · have hmore : ws ++ names ≠ [] := List.append_ne_nil_of_left_ne_nil hlast _
      rw [List.cons_append, joinPieces_cons w hmore, ih hlast, joinPieces_cons w hlast,
        List.append_assoc, List.cons_append]

theorem joinPieces_splitOn (cs : List Char) : joinPieces (cs.splitOn '/') = cs :=
  List.intercalate_splitOn '/'

theorem splitOn_joinPieces {ws : List Name} (hws : ∀ w ∈ ws, '/' ∉ w) (hne : ws ≠ []) :
    (joinPieces ws).splitOn '/' = ws := List.splitOn_intercalate '/' hws hne

def front (piece : Name) : List Component :=
  if piece = [] then [.root]
  else if piece = ['.'] then [.current]
  else (Component.ofPiece? piece).toList

theorem components_of_pieces {p : Path} {t : Name} {ts : List Name} (hp : p.text ≠ [])
    (h : p.pieces = t :: ts) : p.components = front t ++ ts.filterMap Component.ofPiece? := by
  rw [pieces] at h
  rw [components, parts, h]
  by_cases ht : t = []
  · subst ht
    obtain ⟨w, ws, rfl⟩ : ∃ w ws, ts = w :: ws := by
      apply List.exists_cons_of_ne_nil
      rintro rfl
      have hjoin := joinPieces_splitOn p.text
      rw [h] at hjoin
      exact hp hjoin.symm
    rfl
  by_cases hdot : t = ['.']
  · subst hdot
    rfl
  · rw [front, if_neg ht, if_neg hdot]
    split
    · next heq => exact absurd (List.cons.inj heq).1 ht
    · next heq => exact absurd (List.cons.inj heq).1 hdot
    · cases hc : Component.ofPiece? t with
      | none => exact List.filterMap_cons_none hc
      | some c => exact List.filterMap_cons_some hc

theorem components_ne_nil {p : Path} (hp : p.text ≠ []) : p.components ≠ [] := by
  obtain ⟨t, ts, hpieces⟩ := List.exists_cons_of_ne_nil (List.splitOn_ne_nil '/' p.text)
  rw [components_of_pieces hp hpieces, front]
  split
  · exact List.cons_ne_nil _ _
  · next ht =>
    split
    · exact List.cons_ne_nil _ _
    · next hdot =>
      rw [Component.ofPiece?, if_neg (by simp [ht, hdot])]
      split <;> exact List.cons_ne_nil _ _

theorem components_of_root {p : Path} {cs : List Component} (h : p.components = .root :: cs) :
    p.parts.1 = some .root ∧ p.parts.2.filterMap Component.ofPiece? = cs := by
  rw [components] at h
  cases hlead : p.parts.1 with
  | some c =>
    rw [hlead] at h
    cases h
    exact ⟨rfl, rfl⟩
  | none =>
    rw [hlead, Option.toList_none, List.nil_append] at h
    obtain ⟨w, -, hw⟩ := List.mem_filterMap.1 (h ▸ List.mem_cons_self)
    rcases Component.of_ofPiece hw with hc | hc <;> cases hc

theorem not_isAbsolute_joinPieces {names : List Name} (hnames : ∀ w ∈ names, IsFileName w) :
    ¬ isAbsolute ⟨joinPieces names⟩ = true := by
  intro habsolute
  by_cases hne : joinPieces names = []
  · rw [hne] at habsolute
    cases habsolute
  · have hnil : names ≠ [] := fun h => hne (h ▸ rfl)
    have hpieces : pieces ⟨joinPieces names⟩ = names :=
      splitOn_joinPieces (fun w hw => (hnames w hw).2.1) hnil
    have hhead := (isAbsolute_eq (p := ⟨joinPieces names⟩) hne).symm.trans habsolute
    rw [hpieces, beq_iff_eq] at hhead
    exact (hnames [] (List.mem_of_head? hhead)).1 rfl

theorem filterMap_splitOn_joinPieces {ws : List Name} (hws : ∀ w ∈ ws, '/' ∉ w) :
    ((joinPieces ws).splitOn '/').filterMap Component.ofPiece? =
      ws.filterMap Component.ofPiece? := by
  by_cases hne : ws = []
  · subst hne
    rfl
  · rw [splitOn_joinPieces hws hne]

theorem filterMap_splitOn_names {names : List Name} (hnames : ∀ w ∈ names, IsFileName w) :
    ((joinPieces names).splitOn '/').filterMap Component.ofPiece? = names.map .name := by
  rw [filterMap_splitOn_joinPieces fun w hw => (hnames w hw).2.1, filterMap_ofPiece_names hnames]

end Path

end ClassWeave.Files

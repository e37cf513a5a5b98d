import ClassWeave.Process
import ClassWeave.Proofs.Style.Cascade

namespace ClassWeave

open Style

namespace Style

/-- That rules of one layer, at-rule and selector have one scope and declare the same. -/
def Sheet.Consistent (s : Sheet) : Prop :=
  ∀ r ∈ s, ∀ q ∈ s, r.layer = q.layer → r.atRule = q.atRule → r.selector = q.selector →
    r.scope = q.scope ∧ r.declarations = q.declarations

instance (s : Sheet) : Decidable s.Consistent :=
  inferInstanceAs (Decidable (∀ r ∈ s, ∀ q ∈ s, _))

theorem Rule.of_compare_eq {a b : Rule} (h : a.compare b = .eq) :
    a.layer = b.layer ∧ a.atRule = b.atRule ∧ a.selector = b.selector := by
  simp only [compare, Ordering.then_eq_eq, compareAtRule_eq_compare, Std.compare_eq_iff_eq] at h
  have hrank {l m : Layer} (hlm : l.rank = m.rank) : l = m := by
    cases l <;> cases m <;> first | rfl | cases hlm
  exact ⟨hrank h.1, h.2.1, h.2.2.2⟩

theorem Rule.mergeAll_of_perm {q x : Rule} {qs xs : List Rule} (hperm : (q :: qs).Perm (x :: xs))
    (hkey : ∀ r ∈ q :: qs, r.key = q.key)
    (hsame : ∀ r ∈ q :: qs, r.declarations = q.declarations) : q.mergeAll qs = x.mergeAll xs := by
  have hx : x ∈ q :: qs := hperm.mem_iff.2 List.mem_cons_self
  have hsame' : ∀ r ∈ xs, r.declarations = x.declarations := by
    intro r hr
    rw [hsame x hx]
    exact hsame r (hperm.mem_iff.2 (List.mem_cons_of_mem _ hr))
  have hempty : qs = [] ↔ xs = [] := by
    have hlength := hperm.length_eq
    rw [List.length_cons, List.length_cons, Nat.add_right_cancel_iff] at hlength
    rw [← List.length_eq_zero_iff, hlength, List.length_eq_zero_iff]
  apply eq_of_key_eq
  · rw [key_mergeAll, key_mergeAll, hkey x hx]
  · exact (hasLeastOrder_mergeAll q qs).unique (hasLeastOrder_mergeAll x xs) fun r => hperm.mem_iff
  · rw [declarations_mergeAll_of_same fun r hr => hsame r (List.mem_cons_of_mem _ hr),
      declarations_mergeAll_of_same hsame', hsame x hx]
    simp only [hempty]

namespace Sheet

variable {s t : Sheet}

theorem Consistent.perm (h : s.Consistent) (hperm : s.Perm t) : t.Consistent := by
  intro r hr q hq
  exact h r (hperm.mem_iff.2 hr) q (hperm.mem_iff.2 hq)

theorem Consistent.mem_combine (h : s.Consistent) (hperm : s.Perm t) {r : Rule}
    (hr : r ∈ s.combine) : r ∈ t.combine := by
  obtain ⟨q, qs, hgroup, rfl⟩ := Sheet.mem_combine.1 hr
  rw [Rule.key_mergeAll] at hgroup
  have hgroups : (s.group q.key).Perm (t.group q.key) := hperm.filter _
  rw [hgroup] at hgroups
  obtain ⟨x, xs, hx⟩ : ∃ x xs, t.group q.key = x :: xs := by
    apply List.exists_cons_of_ne_nil
    intro hnil
    rw [hnil] at hgroups
    cases hgroups.eq_nil
  rw [hx] at hgroups
  have hmem {v : Rule} (hv : v ∈ q :: qs) : v ∈ s ∧ v.key = q.key := mem_group.1 (hgroup ▸ hv)
  rw [Rule.mergeAll_of_perm hgroups fun v hv => (hmem hv).2]
  · exact mergeAll_mem_combine hx
  · intro v hv
    have hkey := (hmem hv).2
    exact (h v (hmem hv).1 q (hmem List.mem_cons_self).1 (congrArg Rule.Key.layer hkey)
      (congrArg Rule.Key.atRule hkey) (congrArg Rule.Key.selector hkey)).2

theorem Consistent.perm_combine (h : s.Consistent) (hperm : s.Perm t) :
    s.combine.Perm t.combine := by
  have hnodup (s : Sheet) : s.combine.Nodup := List.Nodup.of_map _ (nodup_keys_combine s)
  apply (List.perm_ext_iff_of_nodup (hnodup s) (hnodup t)).2
  intro r
  exact ⟨h.mem_combine hperm, (h.perm hperm).mem_combine hperm.symm⟩

theorem Consistent.eq_of_compare_eq (h : s.Consistent) {a b : Rule} (ha : a ∈ s.combine)
    (hb : b ∈ s.combine) (hab : a.compare b = .eq) : a = b := by
  obtain ⟨hlayer, hatRule, hselector⟩ := Rule.of_compare_eq hab
  have hsource {r : Rule} (hr : r ∈ s.combine) : ∃ q ∈ s, q.key = r.key :=
    List.mem_map.1 (((gathers_combine s).key r.key).1 (List.mem_map_of_mem hr))
  obtain ⟨p, hp, hpa⟩ := hsource ha
  obtain ⟨q, hq, hqb⟩ := hsource hb
  simp only [Rule.key, Rule.Key.mk.injEq] at hpa hqb
  -- rules are not compared by scope, so that it is taken from the rules they were made of
  have hscope : p.scope = q.scope := by
    apply (h p hp q hq _ _ _).1
    · rw [hpa.1, hlayer, hqb.1]
    · rw [hpa.2.1, hatRule, hqb.2.1]
    · rw [hpa.2.2.2, hselector, hqb.2.2.2]
  have hkey : a.key = b.key := by
    rw [Rule.key, Rule.key, hlayer, hatRule, ← hpa.2.2.1, hscope, hqb.2.2.1, hselector]
  exact List.inj_on_of_nodup_map (nodup_keys_combine s) ha hb hkey

theorem Consistent.finished_eq (h : s.Consistent) (hperm : s.Perm t) : s.finished = t.finished := by
  have hcombined := h.perm_combine hperm
  apply List.Perm.eq_of_pairwise _ (pairwise_sort _) (pairwise_sort _)
  · exact ((perm_sort _).trans hcombined).trans (perm_sort _).symm
  · intro a b ha hb hab hba
    apply h.eq_of_compare_eq ((perm_sort _).mem_iff.1 ha)
    · exact hcombined.mem_iff.2 ((perm_sort _).mem_iff.1 hb)
    · exact Std.OrientedCmp.isLE_antisymm hab hba

end Sheet

end Style

/-- The rules of the fragments may be put in any order and into other fragments. -/
theorem assemble_rearranged (mode : Mode) {base base' : Sheet}
    {utilities utilities' directives directives' : List Sheet}
    (hperm : (base ++ utilities.flatten ++ directives.flatten).Perm
      (base' ++ utilities'.flatten ++ directives'.flatten))
    (hconsistent : (base ++ utilities.flatten ++ directives.flatten).Consistent) :
    assemble mode base utilities directives = assemble mode base' utilities' directives' :=
  congrArg (Sheet.text mode.wrapsDeferred) (hconsistent.finished_eq hperm)

theorem assemble_rearranged_box :
    let box := Rule.plain ".box" [⟨"display", "-webkit-box"⟩, ⟨"display", "flex"⟩]
    let flex := Rule.plain ".flex" [⟨"display", "flex"⟩] 2
    List.Perm [flex, box 3, box 1] [box 1, flex, box 3] ∧
      Sheet.Consistent [flex, box 3, box 1] ∧
      assemble .replace [flex] [[box 3], [box 1]] [] = assemble .replace [] [[box 1, flex]] [[box 3]] :=
  ⟨by decide, by decide, assemble_rearranged .replace (by decide) (by decide)⟩

end ClassWeave

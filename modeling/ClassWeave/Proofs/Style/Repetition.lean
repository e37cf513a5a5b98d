import ClassWeave.Proofs.Style.Cascade

namespace ClassWeave.Style

open Declaration

theorem eraseDups_append_again {α : Type} [BEq α] [LawfulBEq α] {a b : List α} (h : b ⊆ a)
    (c : List α) : (a ++ b ++ c).eraseDups = (a ++ c).eraseDups := by
  have hnone : b.removeAll a = [] := by
    apply List.filter_eq_nil_iff.2
    intro x hx
    simpa using h hx
  have hrest : (b ++ c).removeAll a = c.removeAll a := by
    have happend : (b ++ c).removeAll a = b.removeAll a ++ c.removeAll a := List.filter_append ..
    rw [happend, hnone, List.nil_append]
  rw [List.append_assoc, List.eraseDups_append, List.eraseDups_append, hrest]

theorem Declaration.lasting_copies (ds : List Declaration) (n : ℕ) :
    lasting (List.replicate (n + 1) ds).flatten = lasting ds := by
  induction n with
  | zero => simp
  | succ n ih =>
    rw [List.replicate_succ, List.flatten_cons, lasting_append_of_subset, ih]
    rw [List.replicate_succ, List.flatten_cons, List.map_append]
    exact List.subset_append_left ..

theorem Sheet.declarations_copies (s : Sheet) (n : ℕ) :
    declarations (List.replicate n s).flatten = (List.replicate n s.declarations).flatten := by
  induction n with
  | zero => rfl
  | succ n ih =>
    rw [List.replicate_succ, List.flatten_cons, declarations_append, ih, List.replicate_succ,
      List.flatten_cons]

namespace Rule

def lasting (r : Rule) : Rule := { r with declarations := Declaration.lasting r.declarations }

variable {r : Rule}

theorem lasting_eq_self_iff : r.lasting = r ↔ r.properties.Nodup := by
  rw [properties, ← Declaration.lasting_eq_self_iff]
  constructor
  · intro h
    exact congrArg declarations h
  · intro h
    rw [lasting, h]

theorem merge_self (h : r.properties.Nodup) : r.merge r = r := by
  have horder : (r.merge r).order = r.order := by
    rcases order_merge r r with h | h <;> exact h
  apply eq_of_key_eq (key_merge r r) horder
  change overrideAll r.declarations r.declarations = r.declarations
  rw [overrideAll_of_subset (List.Subset.refl _), Declaration.lasting_eq_self_iff.2 h]

theorem mergeAll_of_eq {rs : List Rule} (hrs : ∀ q ∈ rs, q = r) (h : r.properties.Nodup) :
    r.mergeAll rs = r := by
  induction rs with
  | nil => rfl
  | cons q rs ih =>
    rw [List.forall_mem_cons] at hrs
    have hstep : r.mergeAll (q :: rs) = (r.merge q).mergeAll rs := rfl
    rw [hstep, hrs.1, merge_self h, ih hrs.2]

theorem mergeAll_copies (r : Rule) (g : Sheet) (n : ℕ) :
    r.mergeAll (g ++ (List.replicate (n + 1) (r :: g)).flatten) = (r.mergeAll g).lasting := by
  have hmem : ∀ q, q ∈ r :: (g ++ (List.replicate (n + 1) (r :: g)).flatten) ↔ q ∈ r :: g := by
    intro q
    simp only [List.mem_cons, List.mem_append, List.mem_flatten, List.mem_replicate]
    constructor
    · rintro (h | h | ⟨-, ⟨-, rfl⟩, h⟩)
      · exact .inl h
      · exact .inr h
      · exact List.mem_cons.1 h
    · rintro (h | h)
      · exact .inl h
      · exact .inr (.inl h)
  have hfirst : r.declarations ⊆ Sheet.declarations (r :: g) :=
    Sheet.subset_declarations List.mem_cons_self
  have hrest : Sheet.declarations g ⊆ Sheet.declarations (r :: g) := by
    rw [Sheet.declarations_cons]
    exact List.subset_append_right ..
  have hcopies : Sheet.declarations (r :: g) ⊆
      (List.replicate (n + 1) (Sheet.declarations (r :: g))).flatten := by
    rw [List.replicate_succ, List.flatten_cons]
    exact List.subset_append_left ..
  apply eq_of_key_eq
  · rw [key_mergeAll, lasting]
    exact (key_mergeAll r g).symm
  · exact (hasLeastOrder_mergeAll r _).unique (hasLeastOrder_mergeAll r g) hmem
  · -- the second copy declares again all that the first rule and the rest of the first copy do
    rw [declarations_mergeAll, Sheet.declarations_append, Sheet.declarations_copies,
      overrideAll_of_subset, lasting_append_of_subset, lasting_copies, lasting,
      declarations_mergeAll, lasting_overrideAll, Sheet.declarations_cons]
    · exact List.map_subset _ (List.Subset.trans hrest hcopies)
    · rw [List.map_append]
      exact List.subset_append_of_subset_right _ (List.map_subset _ (List.Subset.trans hfirst hcopies))

end Rule

namespace Sheet

variable {s : Sheet}

/-- That whatever the first rule of a key declares more than once is declared by a later rule of that
key too. -/
def Settles (s : Sheet) : Prop :=
  ∀ k q qs, s.group k = q :: qs → ∀ p, 1 < q.properties.count p → p ∈ (declarations qs).map property

theorem settles_iff : s.Settles ↔ ∀ r ∈ s.combine, r.properties.Nodup := by
  have hcount (q : Rule) (qs : Sheet) (p : String) : 1 < (q.mergeAll qs).properties.count p ↔
      1 < q.properties.count p ∧ p ∉ (declarations qs).map property := by
    rw [Rule.properties, Rule.declarations_mergeAll]
    exact one_lt_count_overrideAll
  constructor
  · intro h r hr
    obtain ⟨q, qs, hgroup, hmerge⟩ := mem_combine.1 hr
    apply List.nodup_iff_count_le_one.2
    intro p
    by_contra hp
    rw [hmerge, Nat.not_le, hcount] at hp
    exact hp.2 (h _ q qs hgroup p hp.1)
  · intro h k q qs hgroup p hp
    by_contra hnot
    have hle := List.nodup_iff_count_le_one.1 (h _ (mergeAll_mem_combine hgroup)) p
    exact Nat.not_lt.2 hle ((hcount q qs p).2 ⟨hp, hnot⟩)

theorem group_copies (s : Sheet) (n : ℕ) (k : Rule.Key) :
    group (List.replicate n s).flatten k = (List.replicate n (s.group k)).flatten := by
  rw [group, List.filter_flatten, List.map_replicate, group]

theorem apart_copies (s : Sheet) (n : ℕ) (k : Rule.Key) :
    apart (List.replicate n s).flatten k = (List.replicate n (s.apart k)).flatten := by
  rw [apart, List.filter_flatten, List.map_replicate, apart]

theorem combine_copies (s : Sheet) (n : ℕ) :
    combine (List.replicate (n + 2) s).flatten = (combine s).map Rule.lasting := by
  induction s using combine_induction with
  | nil => simp [combine]
  | cons r s ih =>
    have hapart : apart (s ++ (List.replicate (n + 1) (r :: s)).flatten) r.key =
        (List.replicate (n + 2) (apart s r.key)).flatten := by
      rw [apart_append, apart_copies, apart_cons_self, List.replicate_succ (n := n + 1),
        List.flatten_cons]
    rw [List.replicate_succ, List.flatten_cons, List.cons_append, combine_cons, group_append,
      group_copies, group_cons_self, hapart, Rule.mergeAll_copies, ih, combine_cons, List.map_cons]

theorem combine_append_self_iff : combine (s ++ s) = combine s ↔ s.Settles := by
  have htwo : s ++ s = (List.replicate 2 s).flatten := by simp
  have hself : s.combine.map Rule.lasting = s.combine ↔ ∀ r ∈ s.combine, r.lasting = r := by
    have := List.map_inj_left (l := s.combine) (f := Rule.lasting) (g := id)
    rwa [List.map_id] at this
  rw [htwo, combine_copies s 0, settles_iff, hself]
  simp only [Rule.lasting_eq_self_iff]

theorem combine_append_again {a b c : Sheet}
    (hsame : ∀ q ∈ a ++ s ++ b ++ c, ∀ r ∈ s, q.key = r.key → q = r)
    (honce : ∀ r ∈ s, r.properties.Nodup) :
    combine (a ++ s ++ b ++ s ++ c) = combine (a ++ s ++ b ++ c) := by
  apply combine_congr
  · have hsub : s.map Rule.key ⊆ (a ++ s ++ b).map Rule.key := by
      apply List.map_subset
      intro r hr
      simp [hr]
    have hagain := eraseDups_append_again hsub (c.map Rule.key)
    rwa [← List.map_append, ← List.map_append, ← List.map_append] at hagain
  · intro k q qs x xs hq hx
    by_cases hs : s.group k = []
    · have hgroups : group (a ++ s ++ b ++ s ++ c) k = group (a ++ s ++ b ++ c) k := by
        simp only [group_append, hs, List.append_nil]
      rw [hgroups, hx] at hq
      cases hq
      rfl
    · -- all rules of the key are one rule here, and merging it with itself does nothing
      obtain ⟨r, hgroup⟩ := List.exists_mem_of_ne_nil _ hs
      obtain ⟨hr, rfl⟩ := mem_group.1 hgroup
      have hall {t y : Sheet} {z : Rule} (ht : t ⊆ a ++ s ++ b ++ c) (hy : t.group r.key = z :: y) :
          z.mergeAll y = r := by
        have heq : ∀ v ∈ z :: y, v = r := by
          intro v hv
          obtain ⟨hv, hkey⟩ := mem_group.1 (hy ▸ hv)
          exact hsame v (ht hv) r hr hkey
        rw [heq z List.mem_cons_self]
        exact Rule.mergeAll_of_eq (fun v hv => heq v (List.mem_cons_of_mem _ hv)) (honce r hr)
      have hsub : a ++ s ++ b ++ s ++ c ⊆ a ++ s ++ b ++ c := by
        intro v hv
        simp only [List.mem_append] at hv ⊢
        tauto
      rw [hall hsub hq, hall (List.Subset.refl _) hx]

end Sheet

end ClassWeave.Style

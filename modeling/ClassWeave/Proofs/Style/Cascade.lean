import ClassWeave.Proofs.Style.Lasting
import ClassWeave.Proofs.Style.Layering

namespace ClassWeave.Style

open Declaration

def Rule.mergeAll (r : Rule) (rs : List Rule) : Rule := rs.foldl merge r

namespace Sheet

def declarations (s : Sheet) : List Declaration := s.flatMap Rule.declarations

theorem declarations_cons (r : Rule) (s : Sheet) :
    declarations (r :: s) = r.declarations ++ declarations s := List.flatMap_cons

theorem declarations_append (s t : Sheet) :
    declarations (s ++ t) = s.declarations ++ t.declarations := List.flatMap_append

theorem subset_declarations {s : Sheet} {r : Rule} (hr : r ∈ s) :
    r.declarations ⊆ s.declarations :=
  fun _ hd => List.mem_flatMap.2 ⟨r, hr, hd⟩

def group (s : Sheet) (k : Rule.Key) : Sheet := s.filter fun r => r.key = k

def apart (s : Sheet) (k : Rule.Key) : Sheet := s.filter fun r => r.key ≠ k

def HasLeastOrder (s : Sheet) (n : UInt32) : Prop :=
  (∃ r ∈ s, r.order = n) ∧ ∀ r ∈ s, n ≤ r.order

theorem HasLeastOrder.unique {s t : Sheet} {n m : UInt32} (hs : s.HasLeastOrder n)
    (ht : t.HasLeastOrder m) (hmem : ∀ r, r ∈ s ↔ r ∈ t) : n = m := by
  obtain ⟨⟨r, hr, rfl⟩, hn⟩ := hs
  obtain ⟨⟨q, hq, rfl⟩, hm⟩ := ht
  exact UInt32.le_antisymm (hn q ((hmem q).2 hq)) (hm r ((hmem r).1 hr))

end Sheet

namespace Rule

theorem order_merge_le (r s : Rule) :
    (r.merge s).order ≤ r.order ∧ (r.merge s).order ≤ s.order := by
  have hmin : (r.merge s).order = if r.order ≤ s.order then r.order else s.order := rfl
  rw [hmin]
  split
  · next h => exact ⟨UInt32.le_refl _, h⟩
  · next h => exact ⟨(UInt32.le_total r.order s.order).resolve_left h, UInt32.le_refl _⟩

theorem eq_of_key_eq {r s : Rule} (hkey : r.key = s.key) (horder : r.order = s.order)
    (hdeclarations : r.declarations = s.declarations) : r = s := by
  cases r
  cases s
  cases hkey
  cases horder
  cases hdeclarations
  rfl

theorem key_mergeAll (r : Rule) (rs : List Rule) : (r.mergeAll rs).key = r.key := by
  induction rs generalizing r with
  | nil => rfl
  | cons q rs ih => exact ih (r.merge q)

theorem declarations_mergeAll (r : Rule) (rs : List Rule) :
    (r.mergeAll rs).declarations = overrideAll r.declarations (Sheet.declarations rs) := by
  induction rs generalizing r with
  | nil => rfl
  | cons q rs ih =>
    rw [Sheet.declarations_cons, overrideAll_append]
    exact ih (r.merge q)

theorem hasLeastOrder_mergeAll (r : Rule) (rs : List Rule) :
    Sheet.HasLeastOrder (r :: rs) (r.mergeAll rs).order := by
  induction rs generalizing r with
  | nil => exact ⟨⟨r, by simp, rfl⟩, by simp [mergeAll]⟩
  | cons q rs ih =>
    obtain ⟨⟨x, hx, horder⟩, hle⟩ := ih (r.merge q)
    have hstep : r.mergeAll (q :: rs) = (r.merge q).mergeAll rs := rfl
    obtain ⟨hr, hq⟩ := order_merge_le r q
    rw [hstep]
    constructor
    · rcases List.mem_cons.1 hx with rfl | hx
      · rcases order_merge r q with h | h
        · exact ⟨r, by simp, by rw [← horder, h]⟩
        · exact ⟨q, by simp, by rw [← horder, h]⟩
      · exact ⟨x, by simp [hx], horder⟩
    · intro y hy
      have hfirst := hle (r.merge q) List.mem_cons_self
      rcases List.mem_cons.1 hy with rfl | hy
      · exact UInt32.le_trans hfirst hr
      · rcases List.mem_cons.1 hy with rfl | hy
        · exact UInt32.le_trans hfirst hq
        · exact hle y (List.mem_cons_of_mem _ hy)

theorem lasting_declarations_of_same {ds : List Declaration} {rs : Sheet} (hne : rs ≠ [])
    (h : ∀ r ∈ rs, r.declarations = ds) : lasting rs.declarations = lasting ds := by
  induction rs with
  | nil => exact absurd rfl hne
  | cons r rs ih =>
    rw [List.forall_mem_cons] at h
    rw [Sheet.declarations_cons, h.1]
    by_cases hrs : rs = []
    · rw [hrs]
      exact congrArg lasting (List.append_nil ds)
    · obtain ⟨q, hq⟩ := List.exists_mem_of_ne_nil _ hrs
      rw [lasting_append_of_subset, ih hrs h.2]
      apply List.map_subset
      rw [← h.2 q hq]
      exact Sheet.subset_declarations hq

theorem declarations_mergeAll_of_same {r : Rule} {rs : Sheet}
    (h : ∀ q ∈ rs, q.declarations = r.declarations) :
    (r.mergeAll rs).declarations = if rs = [] then r.declarations else lasting r.declarations := by
  rw [declarations_mergeAll]
  split
  · next hrs =>
    rw [hrs]
    rfl
  · next hrs =>
    obtain ⟨q, hq⟩ := List.exists_mem_of_ne_nil _ hrs
    rw [overrideAll_of_subset, lasting_declarations_of_same hrs h]
    apply List.map_subset
    rw [← h q hq]
    exact Sheet.subset_declarations hq

end Rule

namespace Sheet

variable {s : Sheet} {r q : Rule} {k : Rule.Key}

theorem group_cons_self (r : Rule) (s : Sheet) : group (r :: s) r.key = r :: group s r.key :=
  List.filter_cons_of_pos (by simp)

theorem group_cons_of_ne (h : r.key ≠ k) (s : Sheet) : group (r :: s) k = group s k :=
  List.filter_cons_of_neg (by simpa using h)

theorem apart_cons_self (r : Rule) (s : Sheet) : apart (r :: s) r.key = apart s r.key :=
  List.filter_cons_of_neg (by simp)

theorem apart_cons_of_ne (h : r.key ≠ k) (s : Sheet) : apart (r :: s) k = r :: apart s k :=
  List.filter_cons_of_pos (by simpa using h)

theorem group_append (s t : Sheet) (k : Rule.Key) :
    group (s ++ t) k = s.group k ++ t.group k := List.filter_append ..

theorem apart_append (s t : Sheet) (k : Rule.Key) :
    apart (s ++ t) k = s.apart k ++ t.apart k := List.filter_append ..

theorem mem_group : r ∈ s.group k ↔ r ∈ s ∧ r.key = k := by
  rw [group, List.mem_filter, decide_eq_true_eq]

theorem group_apart_self (s : Sheet) (k : Rule.Key) : (s.apart k).group k = [] := by
  simp [group, apart]

theorem group_apart_of_ne {l : Rule.Key} (h : l ≠ k) (s : Sheet) :
    (s.apart l).group k = s.group k := by
  rw [group, apart, List.filter_filter, group]
  apply List.filter_congr
  intro r _
  by_cases hr : r.key = k <;> simp [hr, Ne.symm h]

theorem foldl_absorb_cons (r : Rule) (t s : Sheet) :
    s.foldl absorb (r :: t) = r.mergeAll (s.group r.key) :: (s.apart r.key).foldl absorb t := by
  induction s generalizing r t with
  | nil => rfl
  | cons q s ih =>
    by_cases hq : q.key = r.key
    · rw [List.foldl_cons, absorb, if_pos hq.symm, ih, Rule.key_merge, ← hq, group_cons_self,
        apart_cons_self]
      rfl
    · rw [List.foldl_cons, absorb, if_neg (Ne.symm hq), ih, group_cons_of_ne hq,
        apart_cons_of_ne hq]
      rfl

theorem combine_cons (r : Rule) (s : Sheet) :
    combine (r :: s) = r.mergeAll (s.group r.key) :: combine (s.apart r.key) :=
  foldl_absorb_cons r [] s

theorem combine_induction {motive : Sheet → Prop} (nil : motive [])
    (cons : ∀ r s, motive (apart s r.key) → motive (r :: s)) : ∀ s, motive s
  | [] => nil
  | r :: s => cons r s (combine_induction nil cons (apart s r.key))
termination_by s => s.length
decreasing_by exact Nat.lt_succ_of_le (List.length_filter_le _ _)

theorem keys_combine (s : Sheet) : s.combine.map Rule.key = (s.map Rule.key).eraseDups := by
  induction s using combine_induction with
  | nil => rfl
  | cons r s ih =>
    have hkeys : (s.apart r.key).map Rule.key = (s.map Rule.key).filter fun k => !k == r.key := by
      rw [apart, List.filter_map]
      congr 1
      apply List.filter_congr
      intro q _
      rw [Function.comp_apply, beq_eq_decide, decide_not]
    rw [combine_cons, List.map_cons, List.map_cons, Rule.key_mergeAll, ih, hkeys,
      List.eraseDups_cons]

theorem mem_combine : r ∈ s.combine ↔ ∃ q qs, s.group r.key = q :: qs ∧ r = q.mergeAll qs := by
  induction s using combine_induction with
  | nil => simp [combine, group]
  | cons a s ih =>
    rw [combine_cons, List.mem_cons, ih]
    by_cases hk : a.key = r.key
    · rw [← hk, group_cons_self, group_apart_self]
      simp
    · rw [group_cons_of_ne hk, group_apart_of_ne hk, or_iff_right]
      rintro rfl
      exact hk (Rule.key_mergeAll _ _).symm

theorem nodup_keys_combine (s : Sheet) : (s.combine.map Rule.key).Nodup :=
  (gathers_combine s).nodup

theorem combine_of_nodup (h : (s.map Rule.key).Nodup) : s.combine = s := by
  induction s with
  | nil => rfl
  | cons r s ih =>
    rw [List.map_cons, List.nodup_cons] at h
    have hgroup : group s r.key = [] := by
      apply List.filter_eq_nil_iff.2
      intro q hq hkey
      exact h.1 (by rw [← of_decide_eq_true hkey]; exact List.mem_map_of_mem hq)
    have hapart : apart s r.key = s := by
      apply List.filter_eq_self.2
      intro q hq
      rw [decide_eq_true_eq]
      rintro hkey
      exact h.1 (by rw [← hkey]; exact List.mem_map_of_mem hq)
    rw [combine_cons, hgroup, hapart, ih h.2]
    rfl

theorem key_of_group_eq {qs : Sheet} (h : s.group k = q :: qs) : q.key = k :=
  (mem_group.1 (h ▸ List.mem_cons_self)).2

theorem mergeAll_mem_combine {qs : Sheet} (h : s.group k = q :: qs) : q.mergeAll qs ∈ s.combine := by
  refine mem_combine.2 ⟨q, qs, ?_, rfl⟩
  rw [Rule.key_mergeAll, key_of_group_eq h, h]

theorem eq_of_keys_eq {a b : Sheet} (hkeys : a.map Rule.key = b.map Rule.key)
    (hnodup : (b.map Rule.key).Nodup) (hmem : a ⊆ b) : a = b := by
  apply List.ext_getElem
  · simpa using congrArg List.length hkeys
  · intro i ha hb
    have hkey : a[i].key = b[i].key := by
      have := List.getElem_of_eq hkeys (i := i) (by simpa using ha)
      simpa using this
    exact List.inj_on_of_nodup_map hnodup (hmem (List.getElem_mem ha)) (List.getElem_mem hb) hkey

theorem combine_congr {t : Sheet}
    (hkeys : (s.map Rule.key).eraseDups = (t.map Rule.key).eraseDups)
    (hgroup : ∀ k q qs x xs, s.group k = q :: qs → t.group k = x :: xs →
      q.mergeAll qs = x.mergeAll xs) : s.combine = t.combine := by
  have hsame : s.combine.map Rule.key = t.combine.map Rule.key := by
    rw [keys_combine, hkeys, keys_combine]
  apply eq_of_keys_eq hsame (nodup_keys_combine t)
  intro r hr
  obtain ⟨x, hx, hkey⟩ := List.mem_map.1 (hsame ▸ List.mem_map_of_mem hr)
  obtain ⟨q, qs, hq, rfl⟩ := mem_combine.1 hr
  obtain ⟨y, ys, hy, rfl⟩ := mem_combine.1 hx
  rwa [hgroup _ _ _ _ _ hq (hkey ▸ hy)]

/-- That a sheet has one rule for each key of another, in the order in which the keys come first, and
that each of them does what all rules of its key did. -/
structure KeepsCascade (s out : Sheet) : Prop where
  nodup : (out.map Rule.key).Nodup
  keys : out.map Rule.key = (s.map Rule.key).eraseDups
  order : ∀ r ∈ out, (s.group r.key).HasLeastOrder r.order
  declarations : ∀ r ∈ out, lasting r.declarations = lasting (s.group r.key).declarations

theorem keepsCascade_combine (s : Sheet) : s.KeepsCascade s.combine where
  nodup := nodup_keys_combine s
  keys := keys_combine s
  order := by
    intro r hr
    obtain ⟨q, qs, hgroup, hmerge⟩ := mem_combine.1 hr
    rw [hgroup, hmerge]
    exact Rule.hasLeastOrder_mergeAll q qs
  declarations := by
    intro r hr
    obtain ⟨q, qs, hgroup, hmerge⟩ := mem_combine.1 hr
    rw [hgroup, hmerge, Rule.declarations_mergeAll, lasting_overrideAll]
    rfl

/-- A combined sheet keeps the cascade of each rule, and is not changed when it is combined again. -/
theorem combine_keeps_cascade (s : Sheet) :
    s.KeepsCascade s.combine ∧ s.combine.combine = s.combine :=
  ⟨keepsCascade_combine s, combine_of_nodup (nodup_keys_combine s)⟩

end Sheet

end ClassWeave.Style

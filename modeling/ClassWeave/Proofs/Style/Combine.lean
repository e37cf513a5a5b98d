import ClassWeave.Style.Sheet

namespace ClassWeave.Style

def Rule.properties (r : Rule) : List String := r.declarations.map Declaration.property

theorem Declaration.mem_overrideAll_properties {ds es : List Declaration} {p : String} :
    p ∈ (overrideAll ds es).map property ↔ p ∈ ds.map property ∨ p ∈ es.map property := by
  induction es generalizing ds with
  | nil => simp [overrideAll]
  | cons e es ih =>
    have hstep : overrideAll ds (e :: es) = overrideAll (override ds e) es := rfl
    have hone : p ∈ (override ds e).map property ↔ p ∈ ds.map property ∨ p = e.property := by
      by_cases hp : p = e.property
      · simp [override, hp]
      · simp only [override, List.map_append, List.mem_append, List.mem_map, List.mem_filter,
          List.map_cons, List.map_nil, List.mem_singleton, hp, or_false]
        constructor
        · rintro ⟨d, ⟨hd, -⟩, rfl⟩
          exact ⟨d, hd, rfl⟩
        · rintro ⟨d, hd, rfl⟩
          exact ⟨d, ⟨hd, by simpa using hp⟩, rfl⟩
    rw [hstep, ih, hone, List.map_cons, List.mem_cons, or_assoc]

namespace Rule

theorem key_merge (r s : Rule) : (r.merge s).key = r.key := rfl

theorem mem_properties_merge {r s : Rule} {p : String} :
    p ∈ (r.merge s).properties ↔ p ∈ r.properties ∨ p ∈ s.properties :=
  Declaration.mem_overrideAll_properties

theorem order_merge (r s : Rule) : (r.merge s).order = r.order ∨ (r.merge s).order = s.order := by
  have hmin : (r.merge s).order = if r.order ≤ s.order then r.order else s.order := rfl
  rw [hmin]
  split
  · exact .inl rfl
  · exact .inr rfl

end Rule

namespace Sheet

theorem keys_absorb (s : Sheet) (r : Rule) :
    (absorb s r).map Rule.key =
      if r.key ∈ s.map Rule.key then s.map Rule.key else s.map Rule.key ++ [r.key] := by
  induction s with
  | nil => rfl
  | cons q s ih =>
    by_cases hq : q.key = r.key
    · simp [absorb, hq, Rule.key_merge]
    · rw [absorb, if_neg hq, List.map_cons, ih, List.map_cons]
      by_cases hr : r.key ∈ s.map Rule.key
      · rw [if_pos hr, if_pos (List.mem_cons_of_mem _ hr)]
      · have hne : r.key ∉ q.key :: s.map Rule.key := by
          simp only [List.mem_cons, not_or]
          exact ⟨Ne.symm hq, hr⟩
        rw [if_neg hr, if_neg hne, List.cons_append]

theorem mem_absorb {s : Sheet} (hs : (s.map Rule.key).Nodup) {r x : Rule} (h : x ∈ absorb s r) :
    x ∈ s ∧ x.key ≠ r.key ∨ x = r ∧ r.key ∉ s.map Rule.key ∨
      ∃ q ∈ s, q.key = r.key ∧ x = q.merge r := by
  induction s with
  | nil =>
    have : x = r := by simpa [absorb] using h
    exact .inr (.inl ⟨this, by simp⟩)
  | cons q s ih =>
    obtain ⟨hq, hs⟩ := List.nodup_cons.1 hs
    rw [absorb] at h
    split at h
    · next heq =>
      rcases List.mem_cons.1 h with rfl | h
      · exact .inr (.inr ⟨q, List.mem_cons_self, heq, rfl⟩)
      · refine .inl ⟨List.mem_cons_of_mem _ h, ?_⟩
        intro hx
        apply hq
        rw [heq, ← hx]
        exact List.mem_map_of_mem h
    · next hne =>
      rcases List.mem_cons.1 h with rfl | h
      · exact .inl ⟨List.mem_cons_self, hne⟩
      · rcases ih hs h with ⟨hx, hk⟩ | ⟨hx, hk⟩ | ⟨p, hp, hk, hx⟩
        · exact .inl ⟨List.mem_cons_of_mem _ hx, hk⟩
        · refine .inr (.inl ⟨hx, ?_⟩)
          rw [List.map_cons, List.mem_cons, not_or]
          exact ⟨Ne.symm hne, hk⟩
        · exact .inr (.inr ⟨p, List.mem_cons_of_mem _ hp, hk, hx⟩)

/-- That `out` has one rule for each key of `s`, made of the rules of that key. -/
structure Gathers (s out : Sheet) : Prop where
  nodup : (out.map Rule.key).Nodup
  key : ∀ k, k ∈ out.map Rule.key ↔ k ∈ s.map Rule.key
  properties : ∀ r ∈ out, ∀ p, p ∈ r.properties ↔ ∃ q ∈ s, q.key = r.key ∧ p ∈ q.properties
  order : ∀ r ∈ out, ∃ q ∈ s, q.key = r.key ∧ q.order = r.order

theorem Gathers.exists_mem {s out : Sheet} (h : Gathers s out) {r : Rule} (hr : r ∈ s) :
    ∃ q ∈ out, q.key = r.key ∧ r.properties ⊆ q.properties := by
  obtain ⟨q, hq, hk⟩ := List.mem_map.1 ((h.key r.key).2 (List.mem_map_of_mem hr))
  exact ⟨q, hq, hk, fun p hp => (h.properties q hq p).2 ⟨r, hr, hk.symm, hp⟩⟩

theorem Gathers.nil : Gathers [] [] := ⟨by simp, by simp, by simp, by simp⟩

theorem Gathers.properties_absorb {s out : Sheet} (h : Gathers s out) (r : Rule) :
    ∀ x ∈ absorb out r, ∀ p,
      p ∈ x.properties ↔ ∃ q ∈ s ++ [r], q.key = x.key ∧ p ∈ q.properties := by
  intro x hx p
  have hlast {y : Rule} : (∃ q ∈ s ++ [r], q.key = y.key ∧ p ∈ q.properties) ↔
      (∃ q ∈ s, q.key = y.key ∧ p ∈ q.properties) ∨ r.key = y.key ∧ p ∈ r.properties := by
    simp only [List.mem_append, List.mem_singleton, or_and_right, exists_or, exists_eq_left]
  rw [hlast]
  rcases mem_absorb h.nodup hx with ⟨hmem, hk⟩ | ⟨rfl, hk⟩ | ⟨q, hq, hk, rfl⟩
  · rw [h.properties x hmem p, or_iff_left]
    rintro ⟨he, -⟩
    exact hk he.symm
  · have hnew : ¬ ∃ q ∈ s, q.key = x.key ∧ p ∈ q.properties := by
      rintro ⟨q, hq, he, -⟩
      apply hk
      rw [h.key, ← he]
      exact List.mem_map_of_mem hq
    simp [hnew]
  · rw [Rule.mem_properties_merge, h.properties q hq p, Rule.key_merge, hk]
    simp

theorem Gathers.order_absorb {s out : Sheet} (h : Gathers s out) (r : Rule) :
    ∀ x ∈ absorb out r, ∃ q ∈ s ++ [r], q.key = x.key ∧ q.order = x.order := by
  intro x hx
  have hold {y : Rule} : (∃ q ∈ s, q.key = y.key ∧ q.order = y.order) →
      ∃ q ∈ s ++ [r], q.key = y.key ∧ q.order = y.order := by
    rintro ⟨q, hq, he⟩
    exact ⟨q, List.mem_append_left _ hq, he⟩
  rcases mem_absorb h.nodup hx with ⟨hmem, -⟩ | ⟨rfl, -⟩ | ⟨q, hq, hk, rfl⟩
  · exact hold (h.order x hmem)
  · exact ⟨x, by simp, rfl, rfl⟩
  · rcases Rule.order_merge q r with ho | ho
    · rw [Rule.key_merge, ho]
      exact hold (h.order q hq)
    · exact ⟨r, by simp, hk.symm, ho.symm⟩

theorem Gathers.absorb {s out : Sheet} (h : Gathers s out) (r : Rule) :
    Gathers (s ++ [r]) (absorb out r) where
  nodup := by
    rw [keys_absorb]
    split
    · exact h.nodup
    · next hr =>
      rw [List.nodup_append]
      refine ⟨h.nodup, by simp, ?_⟩
      rintro k hk _ hr' rfl
      rw [List.mem_singleton] at hr'
      exact hr (hr' ▸ hk)
  key k := by
    rw [keys_absorb, List.map_append, List.mem_append, ← h.key k]
    split
    · next hr =>
      refine ⟨.inl, ?_⟩
      rintro (hk | hk)
      · exact hk
      · rw [List.map_singleton, List.mem_singleton] at hk
        exact hk ▸ hr
    · rw [List.mem_append]
      rfl
  properties := h.properties_absorb r
  order := h.order_absorb r

theorem Gathers.foldl {s out : Sheet} (h : Gathers s out) (rs : Sheet) :
    Gathers (s ++ rs) (rs.foldl Sheet.absorb out) := by
  induction rs generalizing s out with
  | nil => simpa using h
  | cons r rs ih =>
    have := ih (h.absorb r)
    rwa [List.append_assoc] at this

theorem gathers_combine (s : Sheet) : Gathers s s.combine := Gathers.nil.foldl s

def keysIn (s : Sheet) (layer : Layer) : List Rule.Key :=
  (s.filter (·.layer = layer)).map Rule.key

theorem Gathers.nodup_keysIn {s out : Sheet} (h : Gathers s out) (layer : Layer) :
    (keysIn out layer).Nodup :=
  h.nodup.sublist (List.filter_sublist.map Rule.key)

theorem Gathers.mem_keysIn {s out : Sheet} (h : Gathers s out) {layer : Layer} {k : Rule.Key} :
    k ∈ keysIn out layer ↔ ∃ r ∈ s, r.layer = layer ∧ r.key = k := by
  simp only [keysIn, List.mem_map, List.mem_filter, decide_eq_true_eq]
  constructor
  · rintro ⟨r, ⟨hr, hlayer⟩, rfl⟩
    obtain ⟨q, hq, hkey⟩ := List.mem_map.1 ((h.key r.key).1 (List.mem_map_of_mem hr))
    exact ⟨q, hq, (congrArg Rule.Key.layer hkey).trans hlayer, hkey⟩
  · rintro ⟨q, hq, hlayer, rfl⟩
    obtain ⟨r, hr, hkey⟩ := List.mem_map.1 ((h.key q.key).2 (List.mem_map_of_mem hq))
    exact ⟨r, ⟨hr, (congrArg Rule.Key.layer hkey).trans hlayer⟩, hkey⟩

theorem Gathers.perm {s out out' : Sheet} (h : Gathers s out) (hp : out.Perm out') :
    Gathers s out' where
  nodup := (hp.map Rule.key).nodup_iff.1 h.nodup
  key k := (hp.map Rule.key).mem_iff.symm.trans (h.key k)
  properties r hr := h.properties r (hp.mem_iff.2 hr)
  order r hr := h.order r (hp.mem_iff.2 hr)

end Sheet

end ClassWeave.Style

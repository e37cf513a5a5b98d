import ClassWeave.Assoc

namespace ClassWeave.Assoc

variable {α : Type}

theorem find?_cons (e : String × α) (m : Assoc α) (key : String) :
    Assoc.find? (e :: m) key = if key = e.1 then some e.2 else Assoc.find? m key := by
  obtain ⟨name, value⟩ := e
  by_cases h : key = name
  · simp [find?, h]
  · rw [if_neg h, find?, find?, List.lookup_cons, beq_false_of_ne h]

theorem contains_iff (m : Assoc α) (key : String) : m.contains key = true ↔ key ∈ m.keys := by
  induction m with
  | nil => simp [contains, find?, keys]
  | cons e m ih =>
    rw [contains, find?_cons, keys, List.map_cons, List.mem_cons]
    by_cases h : key = e.1
    · simp [h]
    · simpa [h, contains, keys] using ih

theorem find?_of_mem {m : Assoc α} (hn : m.keys.Nodup) {e : String × α} (he : e ∈ m) :
    m.find? e.1 = some e.2 := by
  induction m with
  | nil => cases he
  | cons d m ih =>
    obtain ⟨hd, hn⟩ := List.nodup_cons.1 hn
    rw [find?_cons]
    rcases List.mem_cons.1 he with rfl | he
    · rw [if_pos rfl]
    · have hne : e.1 ≠ d.1 := fun h => hd (h ▸ List.mem_map_of_mem he)
      rw [if_neg hne, ih hn he]

theorem mem_of_find? {m : Assoc α} {key : String} {value : α} (h : m.find? key = some value) :
    (key, value) ∈ m := by
  induction m with
  | nil => cases h
  | cons e m ih =>
    rw [find?_cons] at h
    split at h
    · next hkey =>
      cases h
      rw [hkey]
      exact List.mem_cons_self
    · exact List.mem_cons_of_mem _ (ih h)

theorem find?_append (m n : Assoc α) (key : String) :
    Assoc.find? (m ++ n) key = (m.find? key).or (n.find? key) := by
  induction m with
  | nil => simp [find?]
  | cons e m ih =>
    rw [List.cons_append, find?_cons, find?_cons, ih]
    by_cases h : key = e.1 <;> simp [h]

theorem find?_map_const (ks : List String) (value : α) (key : String) :
    Assoc.find? (ks.map fun k => (k, value)) key = if key ∈ ks then some value else none := by
  induction ks with
  | nil => simp [find?]
  | cons k ks ih =>
    rw [List.map_cons, find?_cons, ih]
    by_cases h : key = k <;> simp [h]

theorem put_of_not_mem {m : Assoc α} {key : String} (h : key ∉ m.keys) (value : α) :
    m.put key value = m ++ [(key, value)] := by
  induction m with
  | nil => rfl
  | cons e m ih =>
    simp only [keys, List.map_cons, List.mem_cons, not_or] at h
    rw [put, if_neg (Ne.symm h.1), ih h.2, List.cons_append]

theorem keys_put_of_mem {m : Assoc α} {key : String} (h : key ∈ m.keys) (value : α) :
    (m.put key value).keys = m.keys := by
  induction m with
  | nil => simp [keys] at h
  | cons e m ih =>
    by_cases he : e.1 = key
    · simp [put, keys, he]
    · have hm : key ∈ Assoc.keys m := by
        simp only [keys, List.map_cons, List.mem_cons] at h
        exact h.resolve_left (Ne.symm he)
      have := ih hm
      simp only [keys] at this
      simp [put, keys, he, this]

theorem find?_put (m : Assoc α) (key : String) (value : α) (other : String) :
    (m.put key value).find? other = if other = key then some value else m.find? other := by
  induction m with
  | nil => simp [put, find?_cons]
  | cons e m ih =>
    by_cases he : e.1 = key
    · rw [put, if_pos he, find?_cons, find?_cons, he]
      by_cases h : other = key <;> simp [h]
    · rw [put, if_neg he, find?_cons, find?_cons, ih]
      by_cases h : other = e.1
      · simp [h, he]
      · simp [h]

theorem mem_put {m : Assoc α} {key : String} {value : α} {e : String × α}
    (h : e ∈ m.put key value) : e ∈ m ∨ e = (key, value) := by
  induction m with
  | nil => exact .inr (by simpa [put] using h)
  | cons d m ih =>
    rw [put] at h
    split at h
    · rcases List.mem_cons.1 h with rfl | h
      · exact .inr rfl
      · exact .inl (List.mem_cons_of_mem _ h)
    · rcases List.mem_cons.1 h with rfl | h
      · exact .inl List.mem_cons_self
      · exact (ih h).imp_left (List.mem_cons_of_mem _)

theorem mem_putAll {m : Assoc α} {entries : List (String × α)} {e : String × α}
    (h : e ∈ m.putAll entries) : e ∈ m ∨ e ∈ entries := by
  induction entries generalizing m with
  | nil => exact .inl h
  | cons d entries ih =>
    rcases ih h with h | h
    · rcases mem_put h with h | rfl
      · exact .inl h
      · exact .inr List.mem_cons_self
    · exact .inr (List.mem_cons_of_mem _ h)

theorem mem_of_findEntry? {m : Assoc α} {key : String} {r : Nat × α}
    (h : m.findEntry? key = some r) : (key, r.2) ∈ m := by
  obtain ⟨i, hi, h⟩ := Option.bind_eq_some_iff.1 h
  obtain ⟨e, he, rfl⟩ := Option.map_eq_some_iff.1 h
  obtain ⟨hlt, hkey, -⟩ := List.findIdx?_eq_some_iff_getElem.1 hi
  rw [List.getElem?_eq_getElem hlt] at he
  cases he
  rw [← eq_of_beq hkey]
  exact List.getElem_mem hlt

theorem findEntry?_cons (e : String × α) (m : Assoc α) (key : String) :
    Assoc.findEntry? (e :: m) key =
      if key = e.1 then some (0, e.2) else (m.findEntry? key).map fun r => (r.1 + 1, r.2) := by
  by_cases h : key = e.1
  · simp [ findEntry?, List.findIdx?_cons, h]
  · have hne : (e.1 == key) = false := beq_false_of_ne (Ne.symm h)
    rw [if_neg h, findEntry?, List.findIdx?_cons, hne, findEntry?]
    cases List.findIdx? (fun e => e.1 == key) m with
    | none => rfl
    | some i => simp [Function.comp_def]

theorem findEntry?_eq (m : Assoc α) (key : String) :
    m.findEntry? key = (m.find? key).map fun value => (m.keys.idxOf key, value) := by
  induction m with
  | nil => rfl
  | cons e m ih =>
    have hkeys : keys (e :: m) = e.1 :: keys m := rfl
    rw [findEntry?_cons, find?_cons, ih, hkeys, List.idxOf_cons]
    by_cases h : key = e.1
    · simp [h]
    · have hne : (e.1 == key) = false := beq_false_of_ne (Ne.symm h)
      rw [if_neg h, if_neg h, hne, Option.map_map]
      rfl

theorem foldl_putNew {m : Assoc α} {ks : List String} (hn : ks.Nodup) (hk : ∀ k ∈ ks, k ∉ m.keys)
    (value : α) :
    ks.foldl (fun m k => m.putNew k value) m = m ++ ks.map fun k => (k, value) := by
  induction ks generalizing m with
  | nil => simp
  | cons k ks ih =>
    obtain ⟨hkn, hn⟩ := List.nodup_cons.1 hn
    have hm : k ∉ m.keys := hk k (by simp)
    have hc : m.contains k = false := by simpa using mt (contains_iff m k).1 hm
    have hput : m.putNew k value = m ++ [(k, value)] := by simp [putNew, hc, put_of_not_mem hm]
    rw [List.foldl_cons, hput, ih hn]
    · simp
    · intro k' hk'
      have hne : k' ≠ k := fun h => hkn (h ▸ hk')
      have := hk k' (List.mem_cons_of_mem _ hk')
      simp_all [keys]

theorem total_put (m : Assoc Nat) (key : String) :
    (m.put key ((m.find? key).getD 0 + 1)).total = m.total + 1 := by
  induction m with
  | nil => simp [put, find?, total]
  | cons e m ih =>
    by_cases he : e.1 = key
    · simp only [put, if_pos he, find?_cons, if_pos he.symm, Option.getD_some, total]
      omega
    · have h : key ≠ e.1 := Ne.symm he
      simp only [put, he, find?_cons, h, if_false, total, ih]
      omega

end ClassWeave.Assoc

import Mathlib.Data.List.Nodup
import ClassWeave.Style.Declaration

namespace ClassWeave.Style.Declaration

def lasting : List Declaration → List Declaration
  | [] => []
  | d :: ds => if d.property ∈ ds.map property then lasting ds else d :: lasting ds

def without (ds : List Declaration) (ps : List String) : List Declaration :=
  ds.filter fun d => d.property ∉ ps

variable {ds es : List Declaration} {ps qs : List String} {p : String}

theorem without_cons (d : Declaration) (ds : List Declaration) (ps : List String) :
    without (d :: ds) ps = if d.property ∈ ps then without ds ps else d :: without ds ps := by
  by_cases hd : d.property ∈ ps
  · rw [if_pos hd, without, List.filter_cons_of_neg (by simpa using hd)]
    rfl
  · rw [if_neg hd, without, List.filter_cons_of_pos (by simpa using hd)]
    rfl

theorem without_congr (ds : List Declaration) (h : ∀ p, p ∈ ps ↔ p ∈ qs) :
    without ds ps = without ds qs := by
  simp only [without, h]

theorem without_without (ds : List Declaration) (ps : List String) :
    without (without ds ps) ps = without ds ps := by
  simp [without]

theorem without_append (ds es : List Declaration) (ps : List String) :
    without (ds ++ es) ps = without ds ps ++ without es ps := List.filter_append ..

theorem without_eq_nil (h : ds.map property ⊆ ps) : without ds ps = [] := by
  apply List.filter_eq_nil_iff.2
  intro d hd
  simpa using h (List.mem_map_of_mem hd)

theorem mem_properties_without :
    p ∈ (without ds ps).map property ↔ p ∈ ds.map property ∧ p ∉ ps := by
  simp only [without, List.mem_map, List.mem_filter, decide_eq_true_eq]
  constructor
  · rintro ⟨d, ⟨hd, hp⟩, rfl⟩
    exact ⟨⟨d, hd, rfl⟩, hp⟩
  · rintro ⟨⟨d, hd, rfl⟩, hp⟩
    exact ⟨d, ⟨hd, hp⟩, rfl⟩

theorem mem_properties_lasting : p ∈ (lasting ds).map property ↔ p ∈ ds.map property := by
  induction ds with
  | nil => rfl
  | cons d ds ih =>
    rw [lasting]
    split
    · next h =>
      rw [ih, List.map_cons, List.mem_cons, or_iff_right_of_imp]
      rintro rfl
      exact h
    · rw [List.map_cons, List.map_cons, List.mem_cons, List.mem_cons, ih]

theorem nodup_lasting (ds : List Declaration) : ((lasting ds).map property).Nodup := by
  induction ds with
  | nil => exact List.nodup_nil
  | cons d ds ih =>
    rw [lasting]
    split
    · exact ih
    · next h =>
      rw [List.map_cons, List.nodup_cons, mem_properties_lasting]
      exact ⟨h, ih⟩

theorem lasting_eq_self_iff : lasting ds = ds ↔ (ds.map property).Nodup := by
  constructor
  · intro h
    rw [← h]
    exact nodup_lasting ds
  · intro h
    induction ds with
    | nil => rfl
    | cons d ds ih =>
      rw [List.map_cons, List.nodup_cons] at h
      rw [lasting, if_neg h.1, ih h.2]

theorem lasting_lasting (ds : List Declaration) : lasting (lasting ds) = lasting ds :=
  lasting_eq_self_iff.2 (nodup_lasting ds)

theorem lasting_without (ds : List Declaration) (ps : List String) :
    lasting (without ds ps) = without (lasting ds) ps := by
  induction ds with
  | nil => rfl
  | cons d ds ih =>
    by_cases hp : d.property ∈ ps
    · rw [without_cons, if_pos hp, ih, lasting]
      split
      · rfl
      · rw [without_cons, if_pos hp]
    · have hmem : d.property ∈ (without ds ps).map property ↔ d.property ∈ ds.map property := by
        rw [mem_properties_without, and_iff_left hp]
      rw [without_cons, if_neg hp, lasting, lasting]
      by_cases hd : d.property ∈ ds.map property
      · rw [if_pos hd, if_pos (hmem.2 hd), ih]
      · rw [if_neg hd, if_neg (mt hmem.1 hd), without_cons, if_neg hp, ih]

theorem lasting_append (ds es : List Declaration) :
    lasting (ds ++ es) = without (lasting ds) (es.map property) ++ lasting es := by
  induction ds with
  | nil => rfl
  | cons d ds ih =>
    have hmem : d.property ∈ (ds ++ es).map property ↔
        d.property ∈ ds.map property ∨ d.property ∈ es.map property := by
      rw [List.map_append, List.mem_append]
    rw [List.cons_append, lasting, lasting]
    by_cases hd : d.property ∈ ds.map property
    · rw [if_pos hd, if_pos (hmem.2 (.inl hd)), ih]
    · rw [if_neg hd, without_cons]
      by_cases he : d.property ∈ es.map property
      · rw [if_pos he, if_pos (hmem.2 (.inr he)), ih]
      · have hnot : d.property ∉ (ds ++ es).map property := by
          rw [hmem, not_or]
          exact ⟨hd, he⟩
        rw [if_neg he, if_neg hnot, ih, List.cons_append]

theorem lasting_append_of_subset (h : ds.map property ⊆ es.map property) :
    lasting (ds ++ es) = lasting es := by
  have hnil : without (lasting ds) (es.map property) = [] :=
    without_eq_nil fun p hp => h (mem_properties_lasting.1 hp)
  rw [lasting_append, hnil, List.nil_append]

theorem overrideAll_append (ds es fs : List Declaration) :
    overrideAll ds (es ++ fs) = overrideAll (overrideAll ds es) fs := List.foldl_append ..

theorem overrideAll_eq (ds es : List Declaration) :
    overrideAll ds es = without ds (es.map property) ++ lasting es := by
  induction es generalizing ds with
  | nil => simp [overrideAll, without, lasting]
  | cons e es ih =>
    have hstep : overrideAll ds (e :: es) = overrideAll (override ds e) es := rfl
    have hrest : without (ds.filter fun d => d.property != e.property) (es.map property) =
        without ds ((e :: es).map property) := by
      simp only [without, List.filter_filter, List.map_cons, List.mem_cons, not_or]
      apply List.filter_congr
      intro d _
      simp only [bne, beq_eq_decide, decide_not, Bool.decide_and, Bool.and_comm]
    rw [hstep, ih, override, without_append, hrest, List.append_assoc, without_cons, lasting]
    by_cases he : e.property ∈ es.map property
    · rw [if_pos he, if_pos he]
      rfl
    · rw [if_neg he, if_neg he]
      rfl

theorem overrideAll_nil (es : List Declaration) : overrideAll [] es = lasting es :=
  overrideAll_eq [] es

theorem overrideAll_of_subset (h : ds.map property ⊆ es.map property) :
    overrideAll ds es = lasting es := by
  rw [overrideAll_eq, without_eq_nil h, List.nil_append]

theorem lasting_overrideAll (ds es : List Declaration) :
    lasting (overrideAll ds es) = lasting (ds ++ es) := by
  have hsame : ∀ p, p ∈ (lasting es).map property ↔ p ∈ es.map property :=
    fun _ => mem_properties_lasting
  rw [overrideAll_eq, lasting_append, lasting_append, lasting_without, lasting_lasting,
    without_congr _ hsame, without_without]

theorem one_lt_count_overrideAll : 1 < ((overrideAll ds es).map property).count p ↔
    1 < (ds.map property).count p ∧ p ∉ es.map property := by
  rw [overrideAll_eq, List.map_append, List.count_append]
  by_cases hp : p ∈ es.map property
  · have hnone : p ∉ (without ds (es.map property)).map property := by
      simp [mem_properties_without, hp]
    have hle := List.nodup_iff_count_le_one.1 (nodup_lasting es) p
    rw [List.count_eq_zero_of_not_mem hnone]
    simp only [hp, not_true_eq_false, and_false, iff_false]
    omega
  · have hnone : p ∉ (lasting es).map property := mt mem_properties_lasting.1 hp
    have hkeep : ((without ds (es.map property)).map property).count p =
        (ds.map property).count p := by
      have hmap : (without ds (es.map property)).map property =
          (ds.map property).filter (· ∉ es.map property) := by
        rw [without, List.filter_map]
        rfl
      rw [hmap, List.count_filter (by simpa using hp)]
    rw [hkeep, List.count_eq_zero_of_not_mem hnone, Nat.add_zero, and_iff_left hp]

end ClassWeave.Style.Declaration

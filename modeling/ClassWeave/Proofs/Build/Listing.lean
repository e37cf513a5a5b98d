import ClassWeave.Proofs.Build.Discovery
import ClassWeave.Proofs.Files.Writing
import Mathlib.Data.List.Nodup
import Mathlib.Order.Compare
import Mathlib.Tactic.ByContra

namespace ClassWeave.Files

theorem transCmp_on {α β : Type} {cmp : β → β → Ordering} (h : Std.TransCmp cmp) (f : α → β) :
    Std.TransCmp fun a b => cmp (f a) (f b) where
  eq_swap := h.eq_swap
  isLE_trans := h.isLE_trans

namespace Component

def text : Component → Name
  | name w => w
  | _ => []

theorem compare_eq : Component.compare = compareLex (compareOn rank)
    fun a b => compareOfLessAndEq a.text b.text := by
  funext a b
  cases a <;> cases b <;> rfl

instance : Std.TransCmp Component.compare := by
  have hlt (v w : Name) : v < w ↔ ¬ w < v ∧ v ≠ w := by
    refine ⟨fun h => ⟨List.lt_asymm h, fun heq => List.lt_irrefl w (heq ▸ h)⟩, fun h => ?_⟩
    by_contra hnot
    exact h.2 (List.le_antisymm (List.not_lt.1 h.1) (List.not_lt.1 hnot))
  have hname : Std.TransCmp fun a b : Name => compareOfLessAndEq a b :=
    Std.TransOrd.compareOfLessAndEq_of_lt_trans_of_lt_iff List.lt_trans hlt
  have htext := transCmp_on hname text
  rw [compare_eq]
  infer_instance

end Component

namespace Path

theorem compareComponents_eq (as bs : List Component) :
    compareComponents as bs = List.compareLex Component.compare as bs := by
  induction as generalizing bs with
  | nil => cases bs <;> rfl
  | cons a as ih =>
    cases bs with
    | nil => rfl
    | cons b bs => rw [compareComponents, ih, List.compareLex_cons_cons]

instance : Std.TransCmp Path.compare := by
  have hcompare : Path.compare = fun p q =>
      List.compareLex Component.compare p.components q.components := by
    funext p q
    exact compareComponents_eq p.components q.components
  rw [hcompare]
  exact transCmp_on inferInstance components

end Path

namespace Filter

theorem pairwise_discover (f : Filter) (d : Disk) :
    (f.discover d).Pairwise fun p q => (p.compare q).isLE = true := by
  rw [discover]
  split
  · exact .nil
  · apply List.pairwise_mergeSort
    · exact fun p q r => Std.TransCmp.isLE_trans
    · intro p q
      have hswap : q.compare p = (p.compare q).swap := Std.OrientedCmp.eq_swap
      rw [hswap]
      cases p.compare q <;> rfl

theorem exists_names {d : Disk} (hd : d.Sound) (f : Filter) :
    ∃ all : List (List Name), f.discover d = all.map f.options.base.descend ∧ all.Nodup ∧
      ∀ names ∈ all, (∀ w ∈ names, IsFileName w) ∧
        ∃ base, d.locate f.options.base = .ok base ∧ d.node? (base ++ names) ≠ none := by
  cases hbase : d.locate f.options.base with
  | error e => exact ⟨[], by rw [discover, hbase]; rfl, List.nodup_nil, nofun⟩
  | ok base =>
    have hfound : ∃ found : List (List Name),
        (if d.isDirectoryAt base then
          ((d.filesBelow base).filter (isReached (f.sources.flatMap d.ignoreFiles) base)).map
            f.options.base.descend
        else [f.options.base]) = found.map f.options.base.descend ∧ found.Nodup ∧
        ∀ names ∈ found, d.node? (base ++ names) ≠ none := by
      by_cases hdirectory : d.isDirectoryAt base = true
      · rw [if_pos hdirectory]
        refine ⟨_, rfl, (Disk.nodup_filesBelow hd.distinct base).filter _, ?_⟩
        exact fun names hnames => Disk.node?_of_mem_filesBelow (List.mem_filter.1 hnames).1
      · rw [if_neg hdirectory]
        refine ⟨[[]], rfl, List.nodup_singleton _, ?_⟩
        intro names hnames
        rw [List.mem_singleton.1 hnames, List.append_nil]
        exact hd.node?_of_locate hbase
    obtain ⟨found, hfound, hnodup, hnode⟩ := hfound
    refine ⟨(found.filter (f.accepts ∘ f.options.base.descend)).mergeSort fun names names' =>
      ((f.options.base.descend names).compare (f.options.base.descend names')).isLE, ?_, ?_, ?_⟩
    · have hsorted (l : List (List Name)) : (l.mergeSort fun names names' =>
          ((f.options.base.descend names).compare (f.options.base.descend names')).isLE).map
            f.options.base.descend =
          (l.map f.options.base.descend).mergeSort fun p q => (p.compare q).isLE :=
        List.map_mergeSort fun _ _ _ _ => rfl
      rw [hsorted, ← List.filter_map, ← hfound, discover, hbase]
      rfl
    · exact (List.mergeSort_perm _ _).nodup_iff.2 (hnodup.filter _)
    · intro names hnames
      rw [List.mem_mergeSort, List.mem_filter] at hnames
      have hsome := hnode names hnames.1
      exact ⟨fun w hw => hd.isFileName hsome w (List.mem_append_right base hw), base, rfl, hsome⟩

end Filter

end ClassWeave.Files

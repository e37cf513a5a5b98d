import Mathlib.Order.Compare
import ClassWeave.Proofs.Style.Combine

namespace ClassWeave.Style

theorem compareAtRule_eq_compare (a b : Option String) : compareAtRule a b = Ord.compare a b := by
  cases a <;> cases b <;> rfl

theorem Rule.compare_eq_lex : Rule.compare =
    compareLex (compareOn fun r => r.layer.rank)
      (compareLex (compareOn Rule.atRule)
        (compareLex (compareOn Rule.order) (compareOn Rule.selector))) := by
  funext r s
  simp only [Rule.compare, compareLex, compareOn, compareAtRule_eq_compare]

instance : Std.TransCmp Rule.compare := by
  rw [Rule.compare_eq_lex]
  infer_instance

namespace Sheet

theorem perm_sort (s : Sheet) : s.sort.Perm s := List.mergeSort_perm s _

theorem isLE_total (a b : Rule) : ((a.compare b).isLE || (b.compare a).isLE) = true := by
  have hswap : b.compare a = (a.compare b).swap := Std.OrientedCmp.eq_swap
  rw [hswap]
  cases a.compare b <;> rfl

theorem pairwise_sort (s : Sheet) : s.sort.Pairwise fun a b => (a.compare b).isLE = true := by
  apply List.pairwise_mergeSort
  · intro a b c hab hbc
    exact Std.TransCmp.isLE_trans hab hbc
  · exact isLE_total

theorem gathers_sort_combine (s : Sheet) : Gathers s s.combine.sort :=
  (gathers_combine s).perm (perm_sort _).symm

end Sheet

theorem Rule.order_le_of_compare {a b : Rule} (hlayer : a.layer = b.layer) (ha : a.atRule = none)
    (hb : b.atRule = none) (h : (a.compare b).isLE = true) : a.order ≤ b.order := by
  have horder : (Ord.compare a.order b.order).isLE = true := by
    have hrank : Ord.compare a.layer.rank b.layer.rank = .eq := by
      rw [hlayer]
      exact Std.ReflCmp.compare_self
    rw [Rule.compare, hrank, ha, hb] at h
    change ((Ord.compare a.order b.order).then _).isLE = true at h
    exact (Ordering.isLE_then_iff_and.1 h).1
  exact (Std.LawfulOrderOrd.isLE_compare _ _).1 horder

end ClassWeave.Style

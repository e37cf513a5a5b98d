import Mathlib.Data.List.TakeWhile
import ClassWeave.Proofs.Style.Sorting

namespace ClassWeave.Style

def Sheet.finished (s : Sheet) : Sheet := s.combine.sort

def Sheet.Precedes (s t : Sheet) : Prop := ∀ a ∈ s, ∀ b ∈ t, a.layer.rank < b.layer.rank

namespace Sheet

variable {s t : Sheet}

theorem Precedes.append {u : Sheet} (h : Precedes s u) (k : Precedes t u) : Precedes (s ++ t) u := by
  intro a ha
  rcases List.mem_append.1 ha with ha | ha
  · exact h a ha
  · exact k a ha

theorem Precedes.combine (h : Precedes s t) : Precedes (combine s) (combine t) := by
  intro a ha b hb
  have hlayer {s : Sheet} {r : Rule} (hr : r ∈ s.combine) : ∃ q ∈ s, q.layer = r.layer := by
    obtain ⟨q, hq, hkey⟩ :=
      List.mem_map.1 (((gathers_combine s).key r.key).1 (List.mem_map_of_mem hr))
    exact ⟨q, hq, congrArg Rule.Key.layer hkey⟩
  obtain ⟨p, hp, hpa⟩ := hlayer ha
  obtain ⟨q, hq, hqb⟩ := hlayer hb
  rw [← hpa, ← hqb]
  exact h p hp q hq

end Sheet

end ClassWeave.Style

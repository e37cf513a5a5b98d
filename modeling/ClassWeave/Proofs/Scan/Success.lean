import ClassWeave.Proofs.Markup.Unplaced
import ClassWeave.Proofs.Scan.Edits

namespace ClassWeave

open Markup Text

def Markup.Place.Resolves : Place → Prop
  | conditional start _ consequent alternate =>
    (branchLiteral start .consequent 1 consequent).toOption.isSome ∧
      (branchLiteral start .alternate 1 alternate).toOption.isSome
  | _ => True

theorem exists_of_isSome_toOption {α : Type} {x : Except Failure α} (h : x.toOption.isSome) :
    ∃ a, x = .ok a := by
  cases x with
  | error e => cases h
  | ok a => exact ⟨a, rfl⟩

theorem toOption_branchLiteral_unplaced (o o' : Nat) (branch : Branch) (depth : Nat) (e : Expr) :
    (branchLiteral o' branch depth e.unplaced).toOption =
      (branchLiteral o branch depth e).toOption := by
  induction e generalizing depth with
  | literal text => rfl
  | other text => rfl
  | conditional start test consequent alternate _ ihc iha =>
    cases branch with
    | consequent =>
      simp only [Expr.unplaced, branchLiteral]
      split
      · rfl
      · exact ihc (depth + 1)
    | alternate =>
      simp only [Expr.unplaced, branchLiteral]
      split
      · rfl
      · exact iha (depth + 1)

theorem Markup.Place.resolves_unplaced (f : String → String) (p : Place) :
    (p.unplaced f).Resolves ↔ p.Resolves := by
  cases p with
  | element | classes | directive | style => exact Iff.rfl
  | conditional start test consequent alternate =>
    rw [Place.unplaced, Resolves, Resolves, toOption_branchLiteral_unplaced start,
      toOption_branchLiteral_unplaced start]

namespace Scan

variable {resolver : Resolver} {session : Session}

theorem exists_enter {p : Place} (h : p.Resolves) (s : Scan) :
    ∃ t, enter resolver session s p = .ok t := by
  cases p with
  | element | classes | directive | style => exact ⟨_, rfl⟩
  | conditional start test consequent alternate =>
    obtain ⟨whenTrue, htrue⟩ := exists_of_isSome_toOption h.1
    obtain ⟨whenFalse, hfalse⟩ := exists_of_isSome_toOption h.2
    simp only [enter, htrue, hfalse]
    exact ⟨_, rfl⟩

theorem resolves_of_enter {p : Place} {s t : Scan} (h : enter resolver session s p = .ok t) :
    p.Resolves := by
  cases p with
  | element | classes | directive | style => trivial
  | conditional start test consequent alternate =>
    obtain ⟨whenTrue, htrue, h⟩ := exists_of_bind_ok h
    obtain ⟨whenFalse, hfalse, h⟩ := exists_of_bind_ok h
    rw [Place.Resolves, htrue, hfalse]
    exact ⟨rfl, rfl⟩

theorem exists_foldlM_iff {ps : List Place} {s : Scan} :
    (∃ t, ps.foldlM (enter resolver session) s = .ok t) ↔ ∀ p ∈ ps, p.Resolves := by
  induction ps generalizing s with
  | nil =>
    constructor
    · intro _ p hp
      cases hp
    · exact fun _ => ⟨s, rfl⟩
  | cons p ps ih =>
    rw [List.foldlM_cons, List.forall_mem_cons]
    constructor
    · rintro ⟨t, ht⟩
      obtain ⟨u, hu, ht⟩ := exists_of_bind_ok ht
      exact ⟨resolves_of_enter hu, ih.1 ⟨t, ht⟩⟩
    · rintro ⟨hp, hps⟩
      obtain ⟨u, hu⟩ := exists_enter hp s
      obtain ⟨t, ht⟩ := ih.2 hps
      exact ⟨t, by rw [hu]; exact ht⟩

theorem exists_scan_iff {c : Component} :
    (∃ s, c.scan resolver session = .ok s) ↔ ∀ p ∈ placesOf c.fragment, p.Resolves := by
  rw [scan_eq_foldlM, exists_foldlM_iff, Component.places, List.forall_mem_append]
  apply and_iff_left
  intro p hp
  obtain ⟨s, -, rfl⟩ := List.mem_map.1 hp
  trivial

theorem exists_scan_of_unplaced {f g : String → String} {c d : Component}
    (h : unplacedAll f c.fragment = unplacedAll g d.fragment) {s : Scan}
    (hs : d.scan resolver session = .ok s) (resolver' : Resolver) (session' : Session) :
    ∃ t, c.scan resolver' session' = .ok t := by
  have hd := exists_scan_iff.1 ⟨s, hs⟩
  apply exists_scan_iff.2
  intro p hp
  have hmem : p.unplaced f ∈ (placesOf d.fragment).map (Place.unplaced g) := by
    rw [← places_unplacedAll, ← h, places_unplacedAll]
    exact List.mem_map_of_mem hp
  obtain ⟨q, hq, heq⟩ := List.mem_map.1 hmem
  have hunplaced := (q.resolves_unplaced g).2 (hd q hq)
  rw [heq] at hunplaced
  exact (p.resolves_unplaced f).1 hunplaced

end Scan

end ClassWeave

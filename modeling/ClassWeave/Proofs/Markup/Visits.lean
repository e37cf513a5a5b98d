import ClassWeave.Proofs.Markup.Ascending

namespace ClassWeave.Markup

abbrev Visitor (σ ε : Type) : Type := Place → ExceptT ε (StateM σ) Unit

namespace Visitor

variable {σ ε : Type} (v : Visitor σ ε)

def noting : Visitor (σ × List Place) ε := fun p => ExceptT.mk fun s =>
  let (r, t) := (v p).run.run s.1
  (r, t, s.2 ++ [p])

inductive Passes : List Place → σ → σ → Prop
  | nil (s : σ) : Passes [] s s
  | cons {p : Place} {ps : List Place} {s t u : σ} (hp : (v p).run.run s = (.ok (), t))
      (hps : Passes ps t u) : Passes (p :: ps) s u

/-- From a state `s` all of these places are entered if the visitor fails at none of them, and
otherwise those up to the first one that it fails at. -/
inductive Enters : List Place → σ → List Place → Except ε Unit → σ → Prop
  | all {ps : List Place} {s t : σ} (h : v.Passes ps s t) : Enters ps s ps (.ok ()) t
  | cut {before after : List Place} {p : Place} {s t u : σ} {e : ε} (h : v.Passes before s t)
      (hp : (v p).run.run t = (.error e, u)) :
      Enters (before ++ p :: after) s (before ++ [p]) (.error e) u

variable {v}

theorem Enters.cons {p : Place} {ps entered : List Place} {s t u : σ} {r : Except ε Unit}
    (hp : (v p).run.run s = (.ok (), t)) (h : v.Enters ps t entered r u) :
    v.Enters (p :: ps) s (p :: entered) r u := by
  cases h with
  | all h => exact .all (.cons hp h)
  | cut h hfail => exact .cut (.cons hp h) hfail

variable (v)

theorem run_forM_cons (p : Place) (ps : List Place) (s : σ) :
    (forM (p :: ps) v).run.run s =
      match (v p).run.run s with
      | (.ok (), t) => (forM ps v).run.run t
      | (.error e, t) => (.error e, t) := by
  rw [List.forM_cons, ExceptT.run_bind, StateT.run_bind]
  rcases (v p).run.run s with ⟨_ | _, t⟩ <;> rfl

theorem run_forM_eq_ok_iff (ps : List Place) (s t : σ) :
    (forM ps v).run.run s = (.ok (), t) ↔ v.Passes ps s t := by
  induction ps generalizing s with
  | nil =>
    constructor
    · intro h
      cases h
      exact .nil _
    · intro h
      cases h
      rfl
  | cons p ps ih =>
    rw [run_forM_cons]
    constructor
    · intro h
      rcases hp : (v p).run.run s with ⟨_ | _, u⟩
      · rw [hp] at h
        cases h
      · rw [hp] at h
        exact .cons hp ((ih u).1 h)
    · rintro (_ | ⟨hp, hps⟩)
      rw [hp]
      exact (ih _).2 hps

theorem run_noting (p : Place) (s : σ) (noted : List Place) :
    (v.noting p).run.run (s, noted) =
      (((v p).run.run s).1, ((v p).run.run s).2, noted ++ [p]) := rfl

theorem exists_enters (ps : List Place) (s : σ) (noted : List Place) :
    ∃ entered r t, (forM ps v).run.run s = (r, t) ∧
      (forM ps v.noting).run.run (s, noted) = (r, t, noted ++ entered) ∧
      v.Enters ps s entered r t := by
  induction ps generalizing s noted with
  | nil => exact ⟨[], .ok (), s, rfl, by rw [List.append_nil]; rfl, .all (.nil s)⟩
  | cons p ps ih =>
    rw [run_forM_cons, run_forM_cons, run_noting]
    rcases hp : (v p).run.run s with ⟨e | _, t⟩
    · have hcut : v.Enters (p :: ps) s ([] ++ [p]) (.error e) t := .cut (.nil s) hp
      exact ⟨[p], .error e, t, rfl, rfl, hcut⟩
    · obtain ⟨entered, r, u, hrun, hnoting, henters⟩ := ih t (noted ++ [p])
      refine ⟨p :: entered, r, u, hrun, ?_, henters.cons hp⟩
      rw [List.append_assoc] at hnoting
      exact hnoting

end Visitor

open Visitor

/-- A walk enters the places of its component one after another up to the first one that its visitor
fails at. It fails as the visitor does there, and succeeds if and only if there is no such place. The
places of a component that was read begin one behind the other, but for its style blocks. -/
theorem Component.walk_enters (c : Component) :
    (∀ (σ ε : Type) (v : Visitor σ ε) (s : σ), ∃ entered r t,
      (c.walk v).run.run s = (r, t) ∧ (c.walk v.noting).run.run (s, []) = (r, t, entered) ∧
        v.Enters c.places s entered r t ∧ (r = .ok () ↔ ∃ u, v.Passes c.places s u)) ∧
      ∀ source, parse source = .ok c → (startsOf c.places).Pairwise (· < ·) := by
  refine ⟨?_, fun source h => pairwise_startsOf h⟩
  intro σ ε v s
  obtain ⟨entered, r, t, hrun, hnoting, henters⟩ := v.exists_enters c.places s []
  refine ⟨entered, r, t, ?_, ?_, henters, ?_⟩
  · rw [walk_eq, hrun]
  · rw [walk_eq, hnoting, List.nil_append]
  · constructor
    · rintro rfl
      exact ⟨t, (v.run_forM_eq_ok_iff _ _ _).1 hrun⟩
    · rintro ⟨u, hpasses⟩
      have hok := (v.run_forM_eq_ok_iff _ _ _).2 hpasses
      exact (Prod.mk.inj (hrun.symm.trans hok)).1

def stopping : Visitor Nat Nat := fun p => ExceptT.mk fun n =>
  match p with
  | .conditional start _ _ _ => (.error start, n)
  | _ => (.ok (), n + 1)

theorem walk_enters_styledParagraph :
    Component.parse "<style>x</style><p class={a?b:c}>" = .ok styledParagraph ∧
      startsOf styledParagraph.places = [16, 19, 26] ∧ [16, 19, 26].Pairwise (· < ·) ∧
      styledParagraph.places.length = 4 ∧
      ∃ entered, (styledParagraph.walk stopping.noting).run.run (0, []) = (.error 26, 2, entered) ∧
        stopping.Enters styledParagraph.places 0 entered (.error 26) 2 ∧ entered.length = 3 := by
  obtain ⟨hwalk, hstarts⟩ := styledParagraph.walk_enters
  obtain ⟨entered, r, t, hrun, hnoting, henters, -⟩ := hwalk _ _ stopping 0
  have hrun' : (styledParagraph.walk stopping).run.run 0 = (.error 26, 2) := rfl
  cases hrun'.symm.trans hrun
  have hlength : entered.length = 3 := by
    have hnoting' : (styledParagraph.walk stopping.noting).run.run (0, []) =
        (.error 26, 2, styledParagraph.places.take 3) := rfl
    cases hnoting'.symm.trans hnoting
    rfl
  exact ⟨parse_styledParagraph, rfl, hstarts _ parse_styledParagraph, rfl, entered, hnoting, henters,
    hlength⟩

end ClassWeave.Markup

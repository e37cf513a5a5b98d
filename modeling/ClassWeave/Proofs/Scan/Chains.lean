import ClassWeave.Proofs.Scan.Basic

/-!
Chains of conditionals that are linked by the same branch, and how they make a scan fail. A scan
follows the chains of each conditional anew. All of them end in literals just if no branch is
anything else, because the conditionals of a chain are places of their own.
-/

namespace ClassWeave

open Markup

def Branch.select (branch : Branch) (consequent alternate : Expr) : Expr :=
  match branch with
  | .consequent => consequent
  | .alternate => alternate

namespace Markup

def Expr.isOther : Expr → Bool
  | .other _ => true
  | _ => false

def Expr.chainLength (branch : Branch) : Expr → Nat
  | .conditional _ _ consequent alternate =>
    match branch with
    | .consequent => consequent.chainLength branch + 1
    | .alternate => alternate.chainLength branch + 1
  | _ => 0

/-- What the last conditional of a chain links to. It is as many links away from the first one as the
chain is long. -/
def Expr.chainEnd (branch : Branch) : Expr → Expr
  | .conditional _ _ consequent alternate =>
    match branch with
    | .consequent => consequent.chainEnd branch
    | .alternate => alternate.chainEnd branch
  | e => e

/-- If a chain is too long or does not end in a literal, the number of links that are followed. -/
def Expr.chainFault? (branch : Branch) (e : Expr) : Option Nat :=
  if maxConditionalDepth < e.chainLength branch then some maxConditionalDepth
  else if (e.chainEnd branch).isOther then some (e.chainLength branch)
  else none

def Place.fault? : Place → Option Failure
  | conditional start test consequent alternate =>
    let e := Expr.conditional start test consequent alternate
    ((e.chainFault? .consequent).or (e.chainFault? .alternate)).map (.malformedConditional start)
  | _ => none

/-- A conditional is well branched if its branches are literals or conditionals and it begins no
chain that is too long. -/
def Place.WellBranched : Place → Prop
  | conditional start test consequent alternate =>
    consequent.isOther = false ∧ alternate.isOther = false ∧
      ∀ branch, (Expr.conditional start test consequent alternate).chainLength branch ≤
        maxConditionalDepth
  | _ => True

@[elab_as_elim]
theorem Expr.chain_induction (branch : Branch) {P : Expr → Prop}
    (literal : ∀ text, P (.literal text)) (other : ∀ text, P (.other text))
    (conditional : ∀ start test consequent alternate, P (branch.select consequent alternate) →
      P (.conditional start test consequent alternate)) (e : Expr) : P e := by
  induction e with
  | literal text => exact literal text
  | other text => exact other text
  | conditional start test consequent alternate _ ihc iha =>
    apply conditional
    cases branch with
    | consequent => exact ihc
    | alternate => exact iha

section

variable (branch : Branch) (start : Nat) (test consequent alternate : Expr)

theorem Expr.chainLength_conditional :
    (conditional start test consequent alternate).chainLength branch =
      (branch.select consequent alternate).chainLength branch + 1 := by
  cases branch <;> rfl

theorem Expr.chainEnd_conditional :
    (conditional start test consequent alternate).chainEnd branch =
      (branch.select consequent alternate).chainEnd branch := by
  cases branch <;> rfl

theorem branchLiteral_conditional (offset depth : Nat) :
    branchLiteral offset branch depth (.conditional start test consequent alternate) =
      if maxConditionalDepth ≤ depth then .error (.malformedConditional offset maxConditionalDepth)
      else branchLiteral offset branch (depth + 1) (branch.select consequent alternate) := by
  cases branch <;> rfl

end

theorem branchLiteral_eq (offset : Nat) (branch : Branch) {depth : Nat}
    (h : depth ≤ maxConditionalDepth) (e : Expr) :
    branchLiteral offset branch depth e =
      if maxConditionalDepth < depth + e.chainLength branch then
        .error (.malformedConditional offset maxConditionalDepth)
      else
        match e.chainEnd branch with
        | .literal text => .ok text
        | _ => .error (.malformedConditional offset (depth + e.chainLength branch)) := by
  induction e using Expr.chain_induction branch generalizing depth with
  | literal text =>
    have hlength : depth + (Expr.literal text).chainLength branch = depth := rfl
    rw [hlength, if_neg (Nat.not_lt.2 h)]
    rfl
  | other text =>
    have hlength : depth + (Expr.other text).chainLength branch = depth := rfl
    rw [hlength, if_neg (Nat.not_lt.2 h)]
    rfl
  | conditional start test consequent alternate ih =>
    rw [branchLiteral_conditional, Expr.chainLength_conditional, Expr.chainEnd_conditional,
      ← Nat.add_assoc, Nat.add_right_comm]
    by_cases hdepth : maxConditionalDepth ≤ depth
    · rw [if_pos hdepth, if_pos (by omega)]
    · rw [if_neg hdepth, ih (Nat.lt_of_not_le hdepth)]

example :
    let chain n := Nat.repeat (Expr.conditional 0 (.other "x") · (.literal "b")) n (.literal "a")
    branchLiteral 0 .consequent 1 (chain 31) = .ok "a" ∧
      branchLiteral 0 .consequent 1 (chain 32) = .error (.malformedConditional 0 32) := by
  exact ⟨rfl, rfl⟩

theorem chainEnd_eq (branch : Branch) (e : Expr) :
    (∃ text, e.chainEnd branch = .literal text) ∨ (e.chainEnd branch).isOther = true := by
  induction e using Expr.chain_induction branch with
  | literal text => exact .inl ⟨text, rfl⟩
  | other text => exact .inr rfl
  | conditional start test consequent alternate ih => rwa [Expr.chainEnd_conditional]

section

variable {branch : Branch} {start : Nat} {test consequent alternate : Expr}

theorem chainFault?_eq_none_iff {e : Expr} :
    e.chainFault? branch = none ↔
      e.chainLength branch ≤ maxConditionalDepth ∧ (e.chainEnd branch).isOther = false := by
  rw [Expr.chainFault?]
  by_cases hlength : maxConditionalDepth < e.chainLength branch
  · simp [hlength, Nat.not_le.2 hlength]
  · simp [hlength, Nat.not_lt.1 hlength]

theorem one_add_chainLength_select (start : Nat) (test : Expr) :
    1 + (branch.select consequent alternate).chainLength branch =
      (Expr.conditional start test consequent alternate).chainLength branch := by
  rw [Expr.chainLength_conditional, Nat.add_comm]

theorem branchLiteral_of_fault {depth : Nat}
    (h : (Expr.conditional start test consequent alternate).chainFault? branch = some depth) :
    branchLiteral start branch 1 (branch.select consequent alternate) =
      .error (.malformedConditional start depth) := by
  rw [branchLiteral_eq start branch (by decide),
    one_add_chainLength_select start test]
  rw [Expr.chainFault?] at h
  split at h
  · next hlength =>
    cases h
    rw [if_pos hlength]
  · next hlength =>
    rw [if_neg hlength]
    split at h
    · next hother =>
      cases h
      rw [Expr.chainEnd_conditional] at hother
      cases hend : (branch.select consequent alternate).chainEnd branch with
      | other text => rfl
      | literal | conditional => simp [hend, Expr.isOther] at hother
    · cases h

theorem exists_branchLiteral
    (h : (Expr.conditional start test consequent alternate).chainFault? branch = none) :
    ∃ text, (Expr.conditional start test consequent alternate).chainEnd branch = .literal text ∧
      branchLiteral start branch 1 (branch.select consequent alternate) = .ok text := by
  obtain ⟨hlength, hother⟩ := chainFault?_eq_none_iff.1 h
  obtain ⟨text, hend⟩ := (chainEnd_eq branch _).resolve_right (ne_true_of_eq_false hother)
  refine ⟨text, hend, ?_⟩
  rw [Expr.chainEnd_conditional] at hend
  rw [branchLiteral_eq start branch (by decide), one_add_chainLength_select start test,
    if_neg (Nat.not_lt.2 hlength), hend]

end

theorem isOther_chainEnd (branch : Branch) {e : Expr} (h : ∀ p ∈ e.places, p.WellBranched) :
    (e.chainEnd branch).isOther = e.isOther := by
  induction e with
  | literal text => rfl
  | other text => rfl
  | conditional start test consequent alternate _ ihc iha =>
    -- What the conditional links to has its own places among these, so that it ends in a literal.
    obtain ⟨⟨hconsequent, halternate, -⟩, hrest⟩ := List.forall_mem_cons.1 h
    obtain ⟨hrest, ha⟩ := List.forall_mem_append.1 hrest
    have hc := (List.forall_mem_append.1 hrest).2
    cases branch with
    | consequent => exact (ihc hc).trans hconsequent
    | alternate => exact (iha ha).trans halternate

theorem fault?_eq_none_of_expr (e : Expr) (h : ∀ p ∈ e.places, p.WellBranched) :
    ∀ p ∈ e.places, p.fault? = none := by
  induction e with
  | literal text => exact fun p hp => absurd hp List.not_mem_nil
  | other text => exact fun p hp => absurd hp List.not_mem_nil
  | conditional start test consequent alternate iht ihc iha =>
    obtain ⟨⟨-, -, hlength⟩, hrest⟩ := List.forall_mem_cons.1 h
    obtain ⟨hrest, ha⟩ := List.forall_mem_append.1 hrest
    obtain ⟨ht, hc⟩ := List.forall_mem_append.1 hrest
    have hfault (branch : Branch) :
        (Expr.conditional start test consequent alternate).chainFault? branch = none :=
      chainFault?_eq_none_iff.2 ⟨hlength branch, isOther_chainEnd branch h⟩
    have hhead : (Place.conditional start test consequent alternate).fault? = none := by
      rw [Place.fault?, hfault, hfault]
      rfl
    exact List.forall_mem_cons.2
      ⟨hhead, List.forall_mem_append.2 ⟨List.forall_mem_append.2 ⟨iht ht, ihc hc⟩, iha ha⟩⟩

theorem hereditary_fault : Hereditary fun ps =>
    (∀ p ∈ ps, p.WellBranched) → ∀ p ∈ ps, p.fault? = none where
  nil _ p hp := absurd hp List.not_mem_nil
  append ps qs hps hqs h := by
    obtain ⟨h₁, h₂⟩ := List.forall_mem_append.1 h
    exact List.forall_mem_append.2 ⟨hps h₁, hqs h₂⟩
  expr := fault?_eq_none_of_expr
  single p hp _ q hq := by
    rw [List.mem_singleton.1 hq]
    cases p with
    | element | classes | directive | style => rfl
    | conditional => exact absurd trivial hp

theorem isOther_select_of_fault {branch : Branch} {start : Nat} {test consequent alternate : Expr}
    (h : (Expr.conditional start test consequent alternate).chainFault? branch = none) :
    (branch.select consequent alternate).isOther = false := by
  have hend := (chainFault?_eq_none_iff.1 h).2
  rw [Expr.chainEnd_conditional] at hend
  cases hbranch : branch.select consequent alternate with
  | other text => rwa [hbranch] at hend
  | literal | conditional => rfl

theorem Place.wellBranched_of_fault {p : Place} (h : p.fault? = none) : p.WellBranched := by
  cases p with
  | element | classes | directive | style => trivial
  | conditional start test consequent alternate =>
    rw [fault?, Option.map_eq_none_iff, Option.or_eq_none_iff] at h
    refine ⟨isOther_select_of_fault h.1, isOther_select_of_fault h.2, fun branch => ?_⟩
    cases branch with
    | consequent => exact (chainFault?_eq_none_iff.1 h.1).1
    | alternate => exact (chainFault?_eq_none_iff.1 h.2).1

end Markup

namespace Scan

variable {resolver : Resolver} {session : Session}

theorem enter_of_fault {p : Place} {f : Failure} (h : p.fault? = some f) (s : Scan) :
    enter resolver session s p = .error f := by
  cases p with
  | element | classes | directive | style => cases h
  | conditional start test consequent alternate =>
    rw [Place.fault?, Option.map_eq_some_iff] at h
    obtain ⟨depth, hdepth, rfl⟩ := h
    cases hc : (Expr.conditional start test consequent alternate).chainFault? .consequent with
    | some d =>
      rw [hc] at hdepth
      cases hdepth
      have htrue : branchLiteral start .consequent 1 consequent = _ := branchLiteral_of_fault hc
      rw [enter, htrue]
      rfl
    | none =>
      rw [hc, Option.none_or] at hdepth
      obtain ⟨text, -, htrue⟩ := exists_branchLiteral hc
      change branchLiteral start .consequent 1 consequent = _ at htrue
      have hfalse : branchLiteral start .alternate 1 alternate = _ := branchLiteral_of_fault hdepth
      rw [enter, htrue, hfalse]
      rfl

variable (resolver session) in
theorem exists_enter_of_fault {p : Place} (h : p.fault? = none) (s : Scan) :
    ∃ t, enter resolver session s p = .ok t := by
  cases p with
  | element | classes | directive | style => exact ⟨_, rfl⟩
  | conditional start test consequent alternate =>
    rw [Place.fault?, Option.map_eq_none_iff, Option.or_eq_none_iff] at h
    obtain ⟨whenTrue, -, htrue⟩ := exists_branchLiteral h.1
    obtain ⟨whenFalse, -, hfalse⟩ := exists_branchLiteral h.2
    change branchLiteral start .consequent 1 consequent = _ at htrue
    change branchLiteral start .alternate 1 alternate = _ at hfalse
    rw [enter, htrue, hfalse]
    exact ⟨_, rfl⟩

theorem foldlM_eq_error_iff {ps : List Place} {s : Scan} {f : Failure} :
    ps.foldlM (enter resolver session) s = .error f ↔ ps.findSome? Place.fault? = some f := by
  induction ps generalizing s with
  | nil =>
    constructor
    all_goals
      intro h
      cases h
  | cons p ps ih =>
    rw [List.foldlM_cons, List.findSome?_cons]
    cases hp : p.fault? with
    | some g =>
      rw [enter_of_fault hp]
      constructor
      all_goals
        intro h
        cases h
        rfl
    | none =>
      obtain ⟨t, ht⟩ := exists_enter_of_fault resolver session hp s
      rw [ht]
      exact ih

theorem exists_foldlM_iff_fault {ps : List Place} {s : Scan} :
    (∃ t, ps.foldlM (enter resolver session) s = .ok t) ↔ ∀ p ∈ ps, p.fault? = none := by
  rw [← List.findSome?_eq_none_iff]
  cases h : ps.foldlM (enter resolver session) s with
  | ok t =>
    refine iff_of_true ⟨t, rfl⟩ ?_
    rw [Option.eq_none_iff_forall_ne_some]
    intro f hf
    have hfold : ps.foldlM (enter resolver session) s = .error f := foldlM_eq_error_iff.2 hf
    rw [h] at hfold
    cases hfold
  | error f =>
    rw [foldlM_eq_error_iff.1 h]
    apply iff_of_false
    all_goals simp

/-- A scan succeeds just if every conditional is well branched. Otherwise it fails at the first
conditional in document order one of whose chains is at fault. -/
theorem scan_outcome (c : Component) (resolver : Resolver) (session : Session) :
    ((∃ s, c.scan resolver session = .ok s) ↔ ∀ p ∈ c.places, p.WellBranched) ∧
      ∀ f, c.scan resolver session = .error f ↔ c.places.findSome? Place.fault? = some f := by
  rw [scan_eq_foldlM]
  refine ⟨?_, fun f => foldlM_eq_error_iff⟩
  rw [exists_foldlM_iff_fault]
  constructor
  · exact fun h p hp => Place.wellBranched_of_fault (h p hp)
  · exact hereditary_fault.ofComponent c

end Scan

end ClassWeave

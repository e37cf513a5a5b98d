import ClassWeave.Proofs.Scan.Basic
import ClassWeave.Proofs.Style.Repetition
import ClassWeave.Proofs.Utility.Compiled
import ClassWeave.Proofs.Utility.Tokens

namespace ClassWeave

open Style Text Declaration

theorem Style.Rule.mergeAll_plain (selector : String) (ds : List Declaration) (n : UInt32)
    (s : Sheet) :
    (plain selector ds n).mergeAll s = plain selector
      (s.foldl (fun ds r => overrideAll ds r.declarations) ds)
      (s.foldl (fun n r => min n r.order) n) := by
  induction s generalizing ds n with
  | nil => rfl
  | cons r s ih => exact ih (overrideAll ds r.declarations) (min n r.order)

theorem Style.Rule.hasLeastOrder_mergeAll_plain (selector : String) (ds : List Declaration)
    {s : Sheet} (hs : s ≠ []) :
    s.HasLeastOrder ((plain selector ds 0xFFFFFFFF).mergeAll s).order := by
  obtain ⟨⟨r, hr, horder⟩, hle⟩ := hasLeastOrder_mergeAll (plain selector ds 0xFFFFFFFF) s
  have hrest : ∀ q ∈ s, ((plain selector ds 0xFFFFFFFF).mergeAll s).order ≤ q.order :=
    fun q hq => hle q (List.mem_cons_of_mem _ hq)
  refine ⟨?_, hrest⟩
  rcases List.mem_cons.1 hr with rfl | hr
  · -- no order is greater than the one of the first rule, so another rule has it too
    obtain ⟨q, hq⟩ := List.exists_mem_of_ne_nil s hs
    refine ⟨q, hq, UInt32.le_antisymm ?_ (hrest q hq)⟩
    have hmax : (0xFFFFFFFF : UInt32).toNat = 4294967295 := by decide
    have hlt := q.order.toNat_lt
    rw [← horder]
    change q.order ≤ 0xFFFFFFFF
    rw [UInt32.le_iff_toNat_le, hmax]
    omega
  · exact ⟨r, hr, horder⟩

namespace Utility.Table

variable {t : Table} {classes stem : String}

theorem knows_eq (t : Table) (token : String) : t.knows token = decide (token ∈ t.tokens) := by
  rw [Bool.eq_iff_iff, decide_eq_true_iff]
  exact knows_iff

theorem resolved_eq (t : Table) (classes : String) :
    t.resolved classes = ((wordsOf classes).filter (· ∈ t.tokens)).eraseDups := by
  rw [resolved]
  congr 2
  exact funext t.knows_eq

theorem ignored_eq (t : Table) (classes : String) :
    t.ignored classes = (wordsOf classes).filter (· ∉ t.tokens) := by
  apply List.filter_congr
  intro token _
  rw [knows_eq, decide_not]

structure IsRuleOf (t : Table) (token : String) (r : Rule) : Prop where
  lookup : t.lookup token = some (r.order, r.declarations)
  key : r.key = classKey .utility .component token

theorem forall₂_interpret (t : Table) (classes : String) :
    List.Forall₂ t.IsRuleOf (t.resolved classes) (t.interpret classes).sheet := by
  have hknown : ∀ token ∈ t.resolved classes, t.knows token = true :=
    fun token h => (mem_resolved.1 h).2
  rw [interpret]
  generalize t.resolved classes = tokens at hknown
  induction tokens with
  | nil => exact .nil
  | cons token tokens ih =>
    rw [List.forall_mem_cons] at hknown
    obtain ⟨e, he⟩ := Option.isSome_iff_exists.1 hknown.1
    rw [List.filterMap_cons_some (by rw [he]; rfl)]
    exact .cons ⟨he, rfl⟩ (ih hknown.2)

section Rules

variable {tokens : List String} {s : Sheet} (h : List.Forall₂ t.IsRuleOf tokens s)

include h

theorem selectors_of_forall₂ : s.map Rule.selector = tokens.map classSelector := by
  induction h with
  | nil => rfl
  | cons hr _ ih =>
    rw [List.map_cons, List.map_cons, ih]
    exact congrArg (· :: _) (congrArg Rule.Key.selector hr.key)

theorem lookups_of_forall₂ :
    tokens.filterMap t.lookup = s.map fun r => (r.order, r.declarations) := by
  induction h with
  | nil => rfl
  | cons hr _ ih => rw [List.filterMap_cons_some hr.lookup, ih, List.map_cons]

theorem eq_nil_iff_of_forall₂ : tokens = [] ↔ s = [] := by
  cases h with
  | nil => simp
  | cons _ _ => simp

end Rules

theorem nodup_selectors_interpret (t : Table) (classes : String) :
    ((t.interpret classes).sheet.map Rule.selector).Nodup := by
  rw [selectors_of_forall₂ (t.forall₂_interpret classes), resolved]
  apply List.Nodup.map
  · intro a b hab
    exact classSelector_inj hab
  · exact Scan.nodup_eraseDups _

theorem compile_of_resolved (stem : String) (h : t.resolved classes ≠ []) :
    (t.compile classes stem).sheet =
      [(Rule.plain (classSelector (stem ++ Digest.shortText (" ".intercalate (t.resolved classes))))
        [] 0xFFFFFFFF).mergeAll (t.interpret classes).sheet] := by
  have hempty : (t.resolved classes).isEmpty = false := by simpa using h
  rw [compile, hempty, Rule.mergeAll_plain]
  simp only [lookups_of_forall₂ (t.forall₂_interpret classes), List.foldl_map]
  rfl

/-- That a text resolves to one class for all tokens and to a class for each in the same way. -/
structure Agreement (t : Table) (classes : String) (one each : Resolution) : Prop where
  ignored_one : one.ignored = (wordsOf classes).filter (· ∉ t.tokens)
  ignored_each : each.ignored = (wordsOf classes).filter (· ∉ t.tokens)
  rules : List.Forall₂ t.IsRuleOf ((wordsOf classes).filter (· ∈ t.tokens)).eraseDups each.sheet
  nodup : (each.sheet.map Rule.selector).Nodup
  emitted : one.emitted.isSome = true ↔ each.sheet ≠ []
  sheet_of_none : one.emitted = none → one.sheet = []
  sheet_of_some : ∀ name, one.emitted = some name → ∃ r, one.sheet = [r] ∧
    r.key = classKey .utility .component name ∧ each.sheet.HasLeastOrder r.order ∧
    r.declarations = lasting each.sheet.declarations

theorem agreement (t : Table) (classes stem : String) :
    t.Agreement classes (t.compile classes stem) (t.interpret classes) where
  ignored_one := by rw [ignored_compile, ignored_eq]
  ignored_each := t.ignored_eq classes
  rules := by
    rw [← resolved_eq]
    exact t.forall₂_interpret classes
  nodup := t.nodup_selectors_interpret classes
  emitted := by
    rw [emitted_compile, Ne, ← eq_nil_iff_of_forall₂ (t.forall₂_interpret classes)]
    split
    · next h => simp [h]
    · next h => simp [h]
  sheet_of_none := sheet_compile_of_emitted_eq_none
  sheet_of_some := by
    intro name hname
    rw [emitted_compile] at hname
    split at hname
    · cases hname
    · next h =>
      cases hname
      refine ⟨_, compile_of_resolved stem h, Rule.key_mergeAll _ _, ?_, ?_⟩
      · apply Rule.hasLeastOrder_mergeAll_plain
        exact mt (eq_nil_iff_of_forall₂ (t.forall₂_interpret classes)).2 h
      · rw [Rule.declarations_mergeAll]
        exact overrideAll_nil _

theorem resolved_inserted {a added b : String} (hleft : Parted a.toList added.toList)
    (hright : Parted added.toList b.toList) (hab : Parted a.toList b.toList)
    (hadded : ∀ token ∈ wordsOf added, token ∈ t.tokens → token ∈ wordsOf a) :
    t.resolved (a ++ (added ++ b)) = t.resolved (a ++ b) := by
  have hwhole : Parted a.toList (added ++ b).toList := by
    rw [String.toList_append]
    exact hleft.append hab
  have hsub : (wordsOf added).filter (· ∈ t.tokens) ⊆ (wordsOf a).filter (· ∈ t.tokens) := by
    intro token htoken
    simp only [List.mem_filter, decide_eq_true_eq] at htoken ⊢
    exact ⟨hadded token htoken.1 htoken.2, htoken.2⟩
  rw [resolved_eq, resolved_eq, hwhole.wordsOf_append, hright.wordsOf_append, hab.wordsOf_append,
    List.filter_append, List.filter_append, List.filter_append, ← List.append_assoc,
    eraseDups_append_again hsub]

/-- A text resolves to one class for all tokens and to a class for each in the same way. The name of
the one class stays the same if blanks, unknown tokens and tokens that came before are added, at any
place where no token is cut by that. -/
theorem compile_agrees (t : Table) (classes stem : String) :
    t.Agreement classes (t.compile classes stem) (t.interpret classes) ∧
      ∀ a added b, classes = a ++ b → Parted a.toList b.toList →
        Parted a.toList added.toList → Parted added.toList b.toList →
        (∀ token ∈ wordsOf added, token ∈ t.tokens → token ∈ wordsOf a) →
        (t.compile (a ++ (added ++ b)) stem).emitted = (t.compile classes stem).emitted := by
  refine ⟨t.agreement classes stem, ?_⟩
  rintro a added b rfl hab hleft hright hadded
  rw [emitted_compile, emitted_compile, resolved_inserted hleft hright hab hadded]

theorem compile_agrees_flex :
    let t : Table := ⟨[("flex", [⟨"display", "flex"⟩]), ("p-4", [⟨"padding", "1rem"⟩])], []⟩
    t.Agreement "flex p-4" (t.compile "flex p-4" "w-") (t.interpret "flex p-4") ∧
      (∀ token ∈ wordsOf " nope  flex", token ∈ t.tokens → token ∈ wordsOf "flex") ∧
      (t.compile "flex nope  flex p-4" "w-").emitted = (t.compile "flex p-4" "w-").emitted := by
  intro t
  obtain ⟨hagreement, hname⟩ := compile_agrees t "flex p-4" "w-"
  have hadded : ∀ token ∈ wordsOf " nope  flex", token ∈ t.tokens → token ∈ wordsOf "flex" := by
    decide
  have hblank (a b : List Char) : Parted a (' ' :: b) := by
    intro x y _ hy
    cases hy
    exact .inr rfl
  exact ⟨hagreement, hadded,
    hname "flex" " nope  flex" " p-4" rfl (hblank _ _) (hblank _ _) (hblank _ _) hadded⟩

end Utility.Table

end ClassWeave

import ClassWeave.Proofs.Markup.Numerals
import ClassWeave.Proofs.Scan.Basic

namespace ClassWeave

open Markup Canonical Text

namespace Markup

def conditionalText (test consequent alternate : List Char) : List Char :=
  test ++ ' ' :: '?' :: ' ' :: (consequent ++ ' ' :: ':' :: ' ' :: alternate)

/-- The test of a conditional in a mustache, without a conditional in it. -/
structure IsTest (t : List Char) : Prop where
  plain : Expr.Plain t
  trimmed : trim t = t
  start : t.head?.any (fun x => !isBlockSigil x) = true
  places : ∀ o, (Expr.read o t).places = []

namespace IsTest

variable {t : List Char} (h : IsTest t)

include h

theorem tight : Tight t := by
  apply tight_of_trim_eq ?_ h.trimmed
  rintro rfl
  cases h.start

theorem read_conditionalText (m n : Number) (o : Nat) :
    Expr.read o (conditionalText t m.text n.text) =
      .conditional o (.read o t) m.expr n.expr := by
  have hspace : ∀ x ∈ [' '], isBlank x = true := by
    intro x hx
    rw [List.mem_singleton.1 hx]
    rfl
  have hpassed : Expr.Passed m.text := m.leaf.plain.passed
  have hread := Expr.read_conditional (l := []) (a := n.text) (r := []) (by simp) h.plain
    h.trimmed hpassed o
  have hleading := leading_around (a := []) (b := [' ']) (by simp) h.tight
  rw [List.nil_append] at hleading
  rw [hleading, Expr.read_around (by simp) h.tight hspace, m.read_around hspace hspace,
    n.read_around hspace (by simp), List.nil_append, List.append_nil] at hread
  exact hread

theorem matched_conditionalText (m n : Number) :
    Matched NotRound (conditionalText t m.text n.text) :=
  h.plain.matched.append <| .cons rfl <| .cons rfl <| .cons rfl <|
    m.leaf.plain.matched.append <| .cons rfl <| .cons rfl <| .cons rfl n.leaf.plain.matched

def inner (m n : Number) : Inner where
  chars := conditionalText t m.text n.text
  closed := (h.matched_conditionalText m n).closed
  start := by
    obtain ⟨x, w, hw⟩ := List.exists_cons_of_ne_nil h.tight.ne_nil
    have hblank := h.tight.head x (by rw [hw]; rfl)
    have hstart := h.start
    rw [hw] at hstart
    simp only [List.head?_cons, Option.any_some, Bool.not_eq_true'] at hstart
    rw [conditionalText, hw, List.cons_append, trimStart, List.dropWhile_cons_of_neg (by simp [hblank])]
    exact hstart

theorem parse_conditionalText (m n : Number) :
    ∃ span, Component.parse (.ofList ('\x7b' :: (conditionalText t m.text n.text ++ ['\x7d']))) =
      .ok ⟨[.expression ⟨span, .conditional 1 (.read 1 t) m.expr n.expr⟩], []⟩ := by
  have hparse := parse_print [.mustache (h.inner m n)]
  have hprint : printAll [.mustache (h.inner m n)] =
      '\x7b' :: (conditionalText t m.text n.text ++ ['\x7d']) := List.append_nil _
  have hnodes : nodesOf 0 [.mustache (h.inner m n)] =
      [.expression ⟨_, .read 1 (conditionalText t m.text n.text)⟩] := rfl
  rw [hprint, hnodes, h.read_conditionalText] at hparse
  exact ⟨_, hparse⟩

end IsTest

theorem isTest_leaf {l : Expr.Leaf} (h : l.text.head?.any (fun x => !isBlockSigil x) = true) :
    IsTest l.text where
  plain := l.plain
  trimmed := l.trimmed
  start := h
  places o := by
    have hread := l.read_around (a := []) (b := []) (by simp) (by simp) o
    rw [List.nil_append, List.append_nil] at hread
    rw [hread]
    split <;> rfl

theorem places_number (m : Number) : m.expr.places = [] := by
  rw [Number.expr]
  cases m.hasSignedExponent <;> rfl

end Markup

theorem branchLiteral_number (offset : Nat) (branch : Branch) (depth : Nat) (m : Number) :
    branchLiteral offset branch depth m.expr =
      if m.hasSignedExponent then .error (.malformedConditional offset depth)
      else .ok (.ofList m.text) := by
  rw [Number.expr]
  cases m.hasSignedExponent <;> rfl

namespace Scan

variable (resolver : Resolver) (session : Session)

theorem enter_numbers (offset : Nat) (test : Expr) (m n : Number) (s : Scan) :
    enter resolver session s (.conditional offset test m.expr n.expr) =
      if m.hasSignedExponent || n.hasSignedExponent then .error (.malformedConditional offset 1)
      else .ok (addDirective (resolver.ofDirective (.ofList m.text ++ " " ++ .ofList n.text)) s) := by
  rw [enter, branchLiteral_number, branchLiteral_number]
  cases m.hasSignedExponent with
  | true => rfl
  | false => cases n.hasSignedExponent <;> rfl

theorem exists_scan {t : List Char} (h : IsTest t) (m n : Number) : ∃ c,
    Component.parse (.ofList ('\x7b' :: (conditionalText t m.text n.text ++ ['\x7d']))) = .ok c ∧
    ∀ (resolver : Resolver) (session : Session), c.scan resolver session =
      if m.hasSignedExponent || n.hasSignedExponent then .error (.malformedConditional 1 1)
      else .ok (empty.addDirective
        (resolver.ofDirective (.ofList m.text ++ " " ++ .ofList n.text))) := by
  obtain ⟨span, hparse⟩ := h.parse_conditionalText m n
  refine ⟨_, hparse, ?_⟩
  intro resolver session
  have hplaces : Component.places ⟨[.expression ⟨span, .conditional 1 (.read 1 t) m.expr n.expr⟩],
      []⟩ = [.conditional 1 (.read 1 t) m.expr n.expr] := by
    simp [Component.places, placesOf, Node.places, Expr.places, h.places, places_number]
  rw [scan_eq_foldlM, hplaces, List.foldlM_cons, enter_numbers]
  cases m.hasSignedExponent || n.hasSignedExponent <;> rfl

/-- A number is read as a literal just if its exponent has no sign, whatever blanks stand around it.
Between two such numbers a conditional resolves their texts; it cannot be scanned if the exponent of
either has a sign. -/
theorem scan_number_branches {a b t : List Char} (ha : ∀ x ∈ a, isBlank x = true)
    (hb : ∀ x ∈ b, isBlank x = true) (ht : IsTest t) (m n : Number) :
    (∀ o, Expr.read o (a ++ (m.text ++ b)) =
      if m.hasSignedExponent then .other (.ofList m.text) else .literal (.ofList m.text)) ∧
    ∃ c, Component.parse (.ofList ('\x7b' :: (conditionalText t m.text n.text ++ ['\x7d']))) = .ok c ∧
      ∀ (resolver : Resolver) (session : Session), c.scan resolver session =
        if m.hasSignedExponent || n.hasSignedExponent then .error (.malformedConditional 1 1)
        else .ok (empty.addDirective
          (resolver.ofDirective (.ofList m.text ++ " " ++ .ofList n.text))) := by
  constructor
  · intro o
    exact m.read_around ha hb o
  · exact exists_scan ht m n

theorem isTest_t : IsTest ['t'] :=
  isTest_leaf (l := ⟨['t'], rfl, Expr.plain_singleton rfl (by decide) (by decide),
    by simp [parenthesized]⟩) rfl

theorem scan_number_branches_t :
    (∀ x ∈ [' ', '\x0a'], isBlank x = true) ∧
    Expr.read 0 " \n-1.5 \n".toList = .literal "-1.5" ∧ IsTest ['t'] ∧
    ∃ c, Component.parse "{t ? -1.5 : 0xf_fn}" = .ok c ∧
      ∀ (resolver : Resolver) (session : Session), c.scan resolver session =
        .ok (empty.addDirective (resolver.ofDirective "-1.5 0xf_fn")) := by
  let m : Number := ⟨true, .pointed ⟨['1'], .last rfl⟩ (some ⟨['5'], .last rfl⟩) none⟩
  let n : Number :=
    ⟨false, .based .hexadecimal false ⟨['f', '_', 'f'], .underscore rfl (.last rfl)⟩ true⟩
  have hblank : ∀ x ∈ [' ', '\x0a'], isBlank x = true := List.all_eq_true.1 rfl
  obtain ⟨hread, hscan⟩ := scan_number_branches hblank hblank isTest_t m n
  exact ⟨hblank, hread 0, isTest_t, hscan⟩

theorem exists_read_number_ne :
    ∃ m n : Number, m.text = "1e-5".toList ∧ n.text = "0".toList ∧
      Expr.read 0 m.text ≠ .literal (.ofList m.text) ∧
      ∃ c, Component.parse "{t ? 1e-5 : 0}" = .ok c ∧
        ∀ (resolver : Resolver) (session : Session),
          ¬ ∃ s, c.scan resolver session = .ok s := by
  let m : Number := ⟨false, .whole ⟨['1'], .last rfl⟩
    (some ⟨'e', .inl rfl, some '-', by simp [Toml.isSign], ⟨['5'], .last rfl⟩⟩)⟩
  let n : Number := ⟨false, .whole ⟨['0'], .last rfl⟩ none⟩
  refine ⟨m, n, rfl, rfl, ?_, ?_⟩
  · have hread := m.read_around (a := []) (b := []) (by simp) (by simp) 0
    rw [List.nil_append, List.append_nil] at hread
    rw [hread]
    exact Expr.noConfusion
  · obtain ⟨c, hparse, hscan⟩ := exists_scan isTest_t m n
    refine ⟨c, hparse, ?_⟩
    rintro resolver session ⟨s, hs⟩
    rw [hscan] at hs
    cases hs

end Scan

end ClassWeave

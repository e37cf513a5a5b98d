import ClassWeave.Proofs.Scan.Edits
import ClassWeave.Proofs.Scan.Success
import ClassWeave.Proofs.Text.Words
import ClassWeave.Utility.Table

/-!
The sheets that a scan collects. Each class text has one, and so has each directive and each
conditional. A conditional only asks for the literals at the ends of its branches, but the others are
branches of a conditional inside of it, so that all of them are asked for.
-/

namespace ClassWeave

open Markup Style Text

def Markup.Expr.text? : Expr → Option String
  | .literal text => some text
  | _ => none

def Markup.Place.directiveTexts : Place → List String
  | directive a => [a.name]
  | conditional _ _ consequent alternate => [consequent, alternate].filterMap Expr.text?
  | _ => []

def Markup.directiveWords (ps : List Place) : List String :=
  (ps.flatMap Place.directiveTexts).flatMap wordsOf

def Markup.Component.directiveWords (c : Component) : List String := Markup.directiveWords c.places

def Markup.Component.classWords (c : Component) : List String :=
  c.classTexts.flatMap fun part => wordsOf part.text

def Markup.Place.askedTexts : Place → List String
  | directive a => [a.name]
  | conditional start _ consequent alternate =>
    match branchLiteral start .consequent 1 consequent, branchLiteral start .alternate 1 alternate with
    | .ok whenTrue, .ok whenFalse => [whenTrue ++ " " ++ whenFalse]
    | _, _ => []
  | _ => []

def Markup.askedWords (ps : List Place) : List String :=
  (ps.flatMap Place.askedTexts).flatMap wordsOf

namespace Scan

variable (resolver : Resolver) {session : Session}

theorem eq_of_enter_element {s t : Scan} {tag : Tag} {children : List Node}
    (h : enter resolver session s (.element tag children) = .ok t) :
    ∃ names, t = { s with newTags := names } := by
  cases h
  split
  · rw [addTag]
    split
    · exact ⟨s.newTags, rfl⟩
    · exact ⟨_, rfl⟩
  · exact ⟨s.newTags, rfl⟩

theorem directives_addParts (options : Options) (parts : List ValuePart) (s : Scan) :
    (addParts resolver options parts s).directives = s.directives := by
  induction parts generalizing s with
  | nil => rfl
  | cons p parts ih =>
    cases p with
    | expression tag => exact ih s
    | text part =>
      refine (ih _).trans ?_
      simp only [addPart]
      split <;> rfl

theorem directives_enter {s t : Scan} {p : Place} (h : enter resolver session s p = .ok t) :
    t.directives = s.directives ++ p.askedTexts.map fun text => (resolver.ofDirective text).sheet := by
  cases p with
  | element tag children =>
    obtain ⟨names, rfl⟩ := eq_of_enter_element resolver h
    simp [Place.askedTexts]
  | classes a =>
    cases h
    simp [Place.askedTexts, directives_addParts]
  | directive a => cases h; rfl
  | style block => cases h; simp [Place.askedTexts]
  | conditional start test consequent alternate =>
    obtain ⟨whenTrue, htrue, h⟩ := exists_of_bind_ok h
    obtain ⟨whenFalse, hfalse, h⟩ := exists_of_bind_ok h
    cases h
    simp only [Place.askedTexts, htrue, hfalse]
    rfl

theorem utilities_addParts (options : Options) (parts : List ValuePart) (s : Scan) :
    (addParts resolver options parts s).utilities =
      s.utilities ++ ((parts.filterMap ValuePart.text?).filter TextPart.hasClasses).map fun part =>
        (resolutionOf resolver options part).sheet := by
  induction parts generalizing s with
  | nil => simp [addParts]
  | cons p parts ih =>
    cases p with
    | expression tag => exact ih s
    | text part =>
      have hcons : (ValuePart.text part :: parts).filterMap ValuePart.text? =
          [part] ++ parts.filterMap ValuePart.text? := rfl
      have hone : (addPart resolver options part s).utilities = s.utilities ++
          ([part].filter TextPart.hasClasses).map fun part =>
            (resolutionOf resolver options part).sheet := by
        by_cases hpart : trim part.text.toList = []
        · have hc : part.hasClasses = false := by simp [TextPart.hasClasses, hpart]
          simp [addPart, hpart, hc]
        · have hc : part.hasClasses = true := TextPart.hasClasses_iff.2 hpart
          simp [addPart, resolutionOf, hpart, hc]
      rw [hcons, List.filter_append, List.map_append, ← List.append_assoc, ← hone]
      exact ih _

theorem utilities_enter {s t : Scan} {p : Place} (h : enter resolver session s p = .ok t) :
    t.utilities = s.utilities ++ (p.classTexts.filter TextPart.hasClasses).map fun part =>
      (resolutionOf resolver session.options part).sheet := by
  cases p with
  | element tag children =>
    obtain ⟨names, rfl⟩ := eq_of_enter_element resolver h
    simp [Place.classTexts]
  | classes a => cases h; exact utilities_addParts _ _ _ _
  | directive a => cases h; simp [addDirective, Place.classTexts]
  | style block => cases h; simp [Place.classTexts]
  | conditional start test consequent alternate =>
    obtain ⟨whenTrue, _, h⟩ := exists_of_bind_ok h
    obtain ⟨whenFalse, _, h⟩ := exists_of_bind_ok h
    cases h
    simp [addDirective, Place.classTexts]

theorem sheets_foldlM {ps : List Place} {s t : Scan}
    (h : ps.foldlM (enter resolver session) s = .ok t) :
    t.directives = s.directives ++ (ps.flatMap Place.askedTexts).map (fun text =>
        (resolver.ofDirective text).sheet) ∧
      t.utilities = s.utilities ++
        ((ps.flatMap Place.classTexts).filter TextPart.hasClasses).map fun part =>
          (resolutionOf resolver session.options part).sheet := by
  induction ps generalizing s with
  | nil => cases h; simp
  | cons p ps ih =>
    rw [List.foldlM_cons] at h
    obtain ⟨u, hu, h⟩ := exists_of_bind_ok h
    obtain ⟨hd, hu'⟩ := ih h
    rw [hd, hu', directives_enter resolver hu, utilities_enter resolver hu]
    simp

theorem sheets_eq {c : Component} {s : Scan} (h : c.scan resolver session = .ok s) :
    s.directives = (c.places.flatMap Place.askedTexts).map (fun text =>
        (resolver.ofDirective text).sheet) ∧
      s.utilities = (c.classTexts.filter TextPart.hasClasses).map fun part =>
        (resolutionOf resolver session.options part).sheet := by
  rw [scan_eq_foldlM] at h
  simpa [empty, Component.classTexts] using sheets_foldlM resolver h

end Scan

namespace Markup

theorem text?_or_mem_of_branchLiteral {e : Expr} {offset depth : Nat} {branch : Branch}
    {text : String} (h : branchLiteral offset branch depth e = .ok text) :
    e.text? = some text ∨ text ∈ e.places.flatMap Place.directiveTexts := by
  induction e generalizing depth with
  | literal value =>
    cases h
    exact .inl rfl
  | other value => cases h
  | conditional start test consequent alternate _ ihc iha =>
    right
    rw [Expr.places, List.flatMap_cons, List.flatMap_append, List.flatMap_append]
    cases branch with
    | consequent =>
      rw [branchLiteral] at h
      split at h
      · cases h
      rcases ihc h with hc | hc
      · simp [Place.directiveTexts, hc]
      · simp [hc]
    | alternate =>
      rw [branchLiteral] at h
      split at h
      · cases h
      rcases iha h with ha | ha
      · simp [Place.directiveTexts, ha]
      · simp [ha]

theorem branchLiteral_of_text? {e : Expr} {text : String} (h : e.text? = some text)
    (offset depth : Nat) (branch : Branch) : branchLiteral offset branch depth e = .ok text := by
  cases e with
  | literal value => cases h; rfl
  | other value => cases h
  | conditional start test consequent alternate => cases h

theorem askedWords_append (ps qs : List Place) :
    askedWords (ps ++ qs) = askedWords ps ++ askedWords qs := by
  simp [askedWords]

theorem directiveWords_append (ps qs : List Place) :
    directiveWords (ps ++ qs) = directiveWords ps ++ directiveWords qs := by
  simp [directiveWords]

theorem mem_askedWords_conditional {start : Nat} {test consequent alternate : Expr}
    (h : (Place.conditional start test consequent alternate).Resolves) {w : String} :
    w ∈ askedWords [.conditional start test consequent alternate] ↔
      ∃ whenTrue whenFalse, branchLiteral start .consequent 1 consequent = .ok whenTrue ∧
        branchLiteral start .alternate 1 alternate = .ok whenFalse ∧
        (w ∈ wordsOf whenTrue ∨ w ∈ wordsOf whenFalse) := by
  obtain ⟨whenTrue, htrue⟩ := exists_of_isSome_toOption h.1
  obtain ⟨whenFalse, hfalse⟩ := exists_of_isSome_toOption h.2
  simp [askedWords, Place.askedTexts, htrue, hfalse, wordsOf_append_space]

theorem mem_directiveWords_conditional {start : Nat} {test consequent alternate : Expr}
    {w : String} :
    w ∈ directiveWords [.conditional start test consequent alternate] ↔
      ∃ text, (consequent.text? = some text ∨ alternate.text? = some text) ∧ w ∈ wordsOf text := by
  simp [directiveWords, Place.directiveTexts, List.mem_filterMap, eq_comm]

theorem mem_directiveWords_of_branchLiteral {e : Expr} {offset : Nat} {branch : Branch}
    {text w : String} (h : branchLiteral offset branch 1 e = .ok text) (hw : w ∈ wordsOf text) :
    e.text? = some text ∨ w ∈ directiveWords e.places :=
  (text?_or_mem_of_branchLiteral h).imp_right fun hmem => List.mem_flatMap.2 ⟨text, hmem, hw⟩

theorem mem_askedWords_of_text? {start : Nat} {test consequent alternate : Expr}
    (h : (Place.conditional start test consequent alternate).Resolves) {text w : String}
    (htext : consequent.text? = some text ∨ alternate.text? = some text) (hw : w ∈ wordsOf text) :
    w ∈ askedWords [.conditional start test consequent alternate] := by
  obtain ⟨whenTrue, htrue⟩ := exists_of_isSome_toOption h.1
  obtain ⟨whenFalse, hfalse⟩ := exists_of_isSome_toOption h.2
  rw [mem_askedWords_conditional h]
  rcases htext with htext | htext
  · exact ⟨text, whenFalse, branchLiteral_of_text? htext _ _ _, hfalse, .inl hw⟩
  · exact ⟨whenTrue, text, htrue, branchLiteral_of_text? htext _ _ _, .inr hw⟩

/-- The outer conditional asks for the ends of its branches only. What it leaves out are branches of
the conditionals inside of it. -/
theorem mem_askedWords_expr (e : Expr) (h : ∀ p ∈ e.places, p.Resolves) (w : String) :
    w ∈ askedWords e.places ↔ w ∈ directiveWords e.places := by
  induction e with
  | literal text => exact Iff.rfl
  | other text => exact Iff.rfl
  | conditional start test consequent alternate iht ihc iha =>
    obtain ⟨hp, hrest⟩ := List.forall_mem_cons.1 h
    obtain ⟨hrest, ha⟩ := List.forall_mem_append.1 hrest
    obtain ⟨ht, hc⟩ := List.forall_mem_append.1 hrest
    rw [Expr.places, ← List.singleton_append, askedWords_append, directiveWords_append,
      askedWords_append, directiveWords_append, askedWords_append, directiveWords_append]
    simp only [List.mem_append, iht ht, ihc hc, iha ha]
    constructor
    · rintro (hw | hw)
      · obtain ⟨whenTrue, whenFalse, htrue, hfalse, hw | hw⟩ := (mem_askedWords_conditional hp).1 hw
        · rcases mem_directiveWords_of_branchLiteral htrue hw with htext | hmem
          · exact .inl (mem_directiveWords_conditional.2 ⟨whenTrue, .inl htext, hw⟩)
          · exact .inr (.inl (.inr hmem))
        · rcases mem_directiveWords_of_branchLiteral hfalse hw with htext | hmem
          · exact .inl (mem_directiveWords_conditional.2 ⟨whenFalse, .inr htext, hw⟩)
          · exact .inr (.inr hmem)
      · exact .inr hw
    · rintro (hw | hw)
      · obtain ⟨text, htext, hw⟩ := mem_directiveWords_conditional.1 hw
        exact .inl (mem_askedWords_of_text? hp htext hw)
      · exact .inr hw

theorem hereditary_askedWords (w : String) : Hereditary fun ps =>
    (∀ p ∈ ps, p.Resolves) → (w ∈ askedWords ps ↔ w ∈ directiveWords ps) where
  nil _ := Iff.rfl
  append ps qs hps hqs h := by
    obtain ⟨h₁, h₂⟩ := List.forall_mem_append.1 h
    rw [askedWords_append, directiveWords_append, List.mem_append, List.mem_append, hps h₁, hqs h₂]
  expr e h := mem_askedWords_expr e h w
  single p hp _ := by
    cases p with
    | element | classes | directive | style => exact Iff.rfl
    | conditional => exact absurd trivial hp

theorem mem_askedWords_of_scan {resolver : Resolver} {session : Session} {c : Component} {s : Scan}
    (h : c.scan resolver session = .ok s) (w : String) :
    w ∈ askedWords c.places ↔ w ∈ c.directiveWords := by
  apply (hereditary_askedWords w).ofComponent c
  rw [Scan.scan_eq_foldlM] at h
  exact Scan.exists_foldlM_iff.1 ⟨s, h⟩

end Markup

end ClassWeave

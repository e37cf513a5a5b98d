import ClassWeave.Proofs.Markup.Building
import ClassWeave.Proofs.Scan.Basic
import ClassWeave.Proofs.Splice.Patched

namespace ClassWeave

open Markup Text

def Markup.TextPart.hasClasses (t : TextPart) : Bool := !(trim t.text.toList).isEmpty

theorem Markup.TextPart.hasClasses_iff {t : TextPart} :
    t.hasClasses = true ↔ trim t.text.toList ≠ [] := by
  simp [hasClasses]

namespace Scan

def resolutionOf (resolver : Resolver) (options : Options) (t : TextPart) : Resolution :=
  resolver.ofAttribute options (.ofList (trim t.text.toList))

def rewriteOf (resolver : Resolver) (options : Options) (t : TextPart) : Rewrite :=
  let cs := t.text.toList
  ⟨t, .ofList (leading cs ++ (resolutionOf resolver options t).replacement.toList ++ trailing cs)⟩

def rewritesOf (resolver : Resolver) (options : Options) (ts : List TextPart) : List Rewrite :=
  if options.mode = .replace then
    (ts.filter TextPart.hasClasses).map (rewriteOf resolver options)
  else []

def editsOf (resolver : Resolver) (options : Options) (ts : List TextPart) : List Edit :=
  (rewritesOf resolver options ts).map Rewrite.edit

variable (resolver : Resolver)

theorem editsOf_append (options : Options) (ts us : List TextPart) :
    editsOf resolver options (ts ++ us) =
      editsOf resolver options ts ++ editsOf resolver options us := by
  simp only [editsOf, rewritesOf]
  split <;> simp

theorem edits_addPart (options : Options) (t : TextPart) (s : Scan) :
    (addPart resolver options t s).edits = s.edits ++ editsOf resolver options [t] := by
  by_cases ht : trim t.text.toList = []
  · have hc : t.hasClasses = false := by simp [TextPart.hasClasses, ht]
    simp [addPart, editsOf, rewritesOf, ht, hc]
  · have hc : t.hasClasses = true := TextPart.hasClasses_iff.2 ht
    by_cases hm : options.mode = .replace
    · simp [addPart, editsOf, rewritesOf, rewriteOf, Rewrite.edit, replacementOf, resolutionOf,
        ht, hc, hm]
    · simp [addPart, editsOf, rewritesOf, ht, hm]

theorem edits_addParts (options : Options) (parts : List ValuePart) (s : Scan) :
    (addParts resolver options parts s).edits =
      s.edits ++ editsOf resolver options (parts.filterMap ValuePart.text?) := by
  induction parts generalizing s with
  | nil => simp [addParts, editsOf, rewritesOf]
  | cons p parts ih =>
    cases p with
    | expression tag => exact ih s
    | text t =>
      have hcons : (ValuePart.text t :: parts).filterMap ValuePart.text? =
          [t] ++ parts.filterMap ValuePart.text? := rfl
      rw [hcons, editsOf_append, ← List.append_assoc, ← edits_addPart]
      exact ih _

theorem edits_enter {session : Session} {s t : Scan} {p : Place}
    (h : enter resolver session s p = .ok t) :
    t.edits = s.edits ++ editsOf resolver session.options p.classTexts := by
  have hnil : editsOf resolver session.options [] = [] := by
    simp [editsOf, rewritesOf]
  cases p with
  | element tag children =>
    cases h
    have hn : (Place.element tag children).classTexts = [] := rfl
    rw [hn, hnil, List.append_nil, addTag]
    split
    · split <;> rfl
    · rfl
  | classes a =>
    cases h
    exact edits_addParts resolver _ _ _
  | directive a => cases h; simp [addDirective, Place.classTexts, hnil]
  | style block => cases h; simp [Place.classTexts, hnil]
  | conditional start test consequent alternate =>
    obtain ⟨whenTrue, _, h⟩ := exists_of_bind_ok h
    obtain ⟨whenFalse, _, h⟩ := exists_of_bind_ok h
    cases h
    simp [addDirective, Place.classTexts, hnil]

theorem edits_foldlM {session : Session} {ps : List Place} {s t : Scan}
    (h : ps.foldlM (enter resolver session) s = .ok t) :
    t.edits = s.edits ++ editsOf resolver session.options (ps.flatMap Place.classTexts) := by
  induction ps generalizing s with
  | nil => cases h; simp [editsOf, rewritesOf]
  | cons p ps ih =>
    rw [List.foldlM_cons] at h
    obtain ⟨u, hu, h⟩ := exists_of_bind_ok h
    rw [ih h, edits_enter resolver hu, List.flatMap_cons, editsOf_append, List.append_assoc]

theorem edits_eq {session : Session} {c : Component} {s : Scan}
    (h : c.scan resolver session = .ok s) :
    s.edits = editsOf resolver session.options c.classTexts := by
  rw [scan_eq_foldlM] at h
  exact edits_foldlM resolver h

end Scan

end ClassWeave

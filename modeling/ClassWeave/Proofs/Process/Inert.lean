import ClassWeave.Proofs.Process.Basic
import ClassWeave.Proofs.Scan.Basic
import ClassWeave.Proofs.Style.Inert

namespace ClassWeave

open Markup Style

structure Resolver.Inert (r : Resolver) (options : Options) : Prop where
  ofAttribute : ∀ classes, Sheet.Inert (r.ofAttribute options classes).sheet
  ofDirective : ∀ classes, Sheet.Inert (r.ofDirective classes).sheet
  baseSheet : ∀ tags includeGlobal, Sheet.Inert (r.baseSheet tags includeGlobal)

namespace Scan

structure Inert (s : Scan) : Prop where
  utility : ∀ sheet ∈ s.utilities, Sheet.Inert sheet
  directive : ∀ sheet ∈ s.directives, Sheet.Inert sheet

variable {resolver : Resolver} {session : Session} (h : resolver.Inert session.options)

theorem Inert.addTag {s : Scan} (hs : s.Inert) (name : String) : (s.addTag session name).Inert := by
  rw [Scan.addTag]
  split
  · exact hs
  · exact ⟨hs.utility, hs.directive⟩

theorem Inert.addDirective {s : Scan} (hs : s.Inert) {r : Resolution} (hr : Sheet.Inert r.sheet) :
    (s.addDirective r).Inert := by
  constructor
  · exact hs.utility
  · intro sheet hsheet
    rcases List.mem_append.1 hsheet with hsheet | hsheet
    · exact hs.directive sheet hsheet
    · exact List.mem_singleton.1 hsheet ▸ hr

include h

theorem Inert.addPart {s : Scan} (hs : s.Inert) (part : TextPart) :
    (s.addPart resolver session.options part).Inert := by
  rw [Scan.addPart]
  dsimp only
  split
  · exact hs
  · constructor
    · intro sheet hsheet
      rcases List.mem_append.1 hsheet with hsheet | hsheet
      · exact hs.utility sheet hsheet
      · exact List.mem_singleton.1 hsheet ▸ h.ofAttribute _
    · exact hs.directive

theorem Inert.addParts {s : Scan} (hs : s.Inert) (parts : List ValuePart) :
    (s.addParts resolver session.options parts).Inert := by
  induction parts generalizing s with
  | nil => exact hs
  | cons p parts ih =>
    cases p with
    | text part => exact ih (hs.addPart h part)
    | expression tag => exact ih hs

theorem Inert.enter {s t : Scan} (hs : s.Inert) {p : Place}
    (ht : enter resolver session s p = .ok t) : t.Inert := by
  cases p with
  | element tag children =>
    cases ht
    split
    · exact hs.addTag tag.name
    · exact hs
  | classes a =>
    cases ht
    exact hs.addParts h a.parts
  | directive a =>
    cases ht
    exact hs.addDirective (h.ofDirective _)
  | conditional start test consequent alternate =>
    obtain ⟨whenTrue, -, ht⟩ := exists_of_bind_ok ht
    obtain ⟨whenFalse, -, ht⟩ := exists_of_bind_ok ht
    cases ht
    exact hs.addDirective (h.ofDirective _)
  | style s =>
    cases ht
    exact hs

theorem Inert.foldlM {ps : List Place} {s t : Scan} (hs : s.Inert)
    (ht : ps.foldlM (Scan.enter resolver session) s = .ok t) : t.Inert := by
  induction ps generalizing s with
  | nil =>
    cases ht
    exact hs
  | cons p ps ih =>
    rw [List.foldlM_cons] at ht
    obtain ⟨u, hu, ht⟩ := exists_of_bind_ok ht
    exact ih (hs.enter h hu) ht

theorem inert_of_scan {c : Component} {s : Scan} (hs : c.scan resolver session = .ok s) :
    s.Inert := by
  rw [scan_eq_foldlM] at hs
  have hempty : empty.Inert := by
    constructor
    all_goals
      intro sheet hsheet
      cases hsheet
  exact hempty.foldlM h hs

end Scan

namespace Processor

theorem inert_assemble {mode : Mode} {preflight : Sheet} {utilities directives : List Sheet}
    (hp : preflight.Inert) (hu : ∀ s ∈ utilities, Sheet.Inert s)
    (hd : ∀ s ∈ directives, Sheet.Inert s) :
    Style.Inert (assemble mode preflight utilities directives).toList := by
  apply Sheet.Inert.text
  apply Sheet.Inert.sort
  apply Sheet.Inert.combine
  exact (hp.append (Sheet.inert_flatten hu)).append (Sheet.inert_flatten hd)

theorem inert_cssOf {p : Processor} {session : Session} (h : p.resolver.Inert session.options)
    {c : Component} {scan : Scan} (hscan : c.scan p.resolver session = .ok scan) (file : String) :
    Style.Inert (p.cssOf session file scan).toList := by
  have hs := Scan.inert_of_scan h hscan
  exact inert_assemble (h.baseSheet _ _) hs.utility hs.directive

end Processor

end ClassWeave

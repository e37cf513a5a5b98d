import ClassWeave.Proofs.Scan.Chains
import ClassWeave.Proofs.Scan.Sheets

namespace ClassWeave

open Markup Style Text

inductive Query
  | classText (part : TextPart)
  | inPlace (classes : String)

namespace Query

variable (resolver : Resolver) (options : Options)

def text : Query → String
  | classText part => .ofList (trim part.text.toList)
  | inPlace classes => classes

def answer (q : Query) : Resolution :=
  match q, options.mode with
  | classText _, .replace => resolver.compile q.text options.classStem
  | classText _, .resolveInPlace => resolver.interpret q.text
  | inPlace _, _ => resolver.interpret q.text

def ignored (q : Query) : List String :=
  (q.answer resolver options).ignored.filter fun token => (wordsOf q.text).contains token

def sheet (q : Query) : Sheet :=
  let found := (q.answer resolver options).sheet
  match q, options.mode with
  | classText _, .replace => found.withLayer .utility
  | classText _, .resolveInPlace => (found.withScope .deferred).withLayer .utility
  | inPlace _, _ => found.withLayer .directive

end Query

namespace Markup

def Expr.endText (branch : Branch) (e : Expr) : String := (e.chainEnd branch).text?.getD ""

def Place.inPlaceText? : Place → Option String
  | directive a => some a.name
  | conditional _ _ consequent alternate =>
    some (consequent.endText .consequent ++ " " ++ alternate.endText .alternate)
  | _ => none

def Place.queries (p : Place) : List Query :=
  (p.classTexts.filter TextPart.hasClasses).map .classText ++ p.inPlaceText?.toList.map .inPlace

def Component.queries (c : Component) : List Query := c.places.flatMap Place.queries

def Component.staticTexts (c : Component) : List TextPart :=
  c.classTexts.filter TextPart.hasClasses

def Component.inPlaceTexts (c : Component) : List String := c.places.filterMap Place.inPlaceText?

end Markup

def Scan.editOf (resolver : Resolver) (options : Options) (part : TextPart) : Edit :=
  let q := Query.classText part
  let classes := (q.answer resolver options).emitted.toList ++ q.ignored resolver options
  ⟨part.span, .ofList (leading part.text.toList ++ (" ".intercalate classes).toList ++
    trailing part.text.toList)⟩

section

variable (resolver : Resolver) (options : Options) (part : TextPart)

theorem Query.ignored_classText :
    (classText part).ignored resolver options =
      (Scan.resolutionOf resolver options part).ignored := by
  obtain ⟨stem, mode⟩ := options
  cases mode <;> rfl

theorem Query.sheet_classText :
    (classText part).sheet resolver options = (Scan.resolutionOf resolver options part).sheet := by
  obtain ⟨stem, mode⟩ := options
  cases mode <;> rfl

theorem Query.ignored_inPlace (classes : String) :
    (inPlace classes).ignored resolver options = (resolver.ofDirective classes).ignored := rfl

theorem Query.sheet_inPlace (classes : String) :
    (inPlace classes).sheet resolver options = (resolver.ofDirective classes).sheet := rfl

theorem Scan.edit_rewriteOf (h : options.mode = .replace) :
    (rewriteOf resolver options part).edit = editOf resolver options part := by
  obtain ⟨stem, mode⟩ := options
  cases h
  simp only [rewriteOf, Rewrite.edit, editOf, List.append_assoc]
  rfl

end

namespace Scan

variable (resolver : Resolver) {session : Session}

theorem ignored_addParts (options : Options) (parts : List ValuePart) (s : Scan) :
    (addParts resolver options parts s).ignored = s.ignored ++
      (((parts.filterMap ValuePart.text?).filter TextPart.hasClasses).map Query.classText).flatMap
        (Query.ignored resolver options) := by
  induction parts generalizing s with
  | nil => simp [addParts]
  | cons p parts ih =>
    cases p with
    | expression tag => exact ih s
    | text part =>
      have hcons : (ValuePart.text part :: parts).filterMap ValuePart.text? =
          [part] ++ parts.filterMap ValuePart.text? := rfl
      have hone : (addPart resolver options part s).ignored = s.ignored ++
          (([part].filter TextPart.hasClasses).map Query.classText).flatMap
            (Query.ignored resolver options) := by
        by_cases hpart : trim part.text.toList = []
        · have hc : part.hasClasses = false := by simp [TextPart.hasClasses, hpart]
          simp [addPart, hpart, hc]
        · have hc : part.hasClasses = true := TextPart.hasClasses_iff.2 hpart
          simp [addPart, Query.ignored_classText, resolutionOf, hpart, hc]
      rw [hcons, List.filter_append, List.map_append, List.flatMap_append, ← List.append_assoc,
        ← hone]
      exact ih _

theorem fault?_eq_none_of_enter {p : Place} {s t : Scan}
    (h : enter resolver session s p = .ok t) : p.fault? = none := by
  cases hfault : p.fault? with
  | none => rfl
  | some f =>
    rw [enter_of_fault hfault] at h
    cases h

theorem branchLiteral_eq_endText {branch : Branch} {start : Nat} {test consequent alternate : Expr}
    (h : (Expr.conditional start test consequent alternate).chainFault? branch = none) :
    branchLiteral start branch 1 (branch.select consequent alternate) =
      .ok ((branch.select consequent alternate).endText branch) := by
  obtain ⟨text, hend, hliteral⟩ := exists_branchLiteral h
  rw [Expr.chainEnd_conditional] at hend
  rw [hliteral, Expr.endText, hend]
  rfl

theorem branchLiterals_of_fault {start : Nat} {test consequent alternate : Expr}
    (h : (Place.conditional start test consequent alternate).fault? = none) :
    branchLiteral start .consequent 1 consequent = .ok (consequent.endText .consequent) ∧
      branchLiteral start .alternate 1 alternate = .ok (alternate.endText .alternate) := by
  rw [Place.fault?, Option.map_eq_none_iff, Option.or_eq_none_iff] at h
  exact ⟨branchLiteral_eq_endText h.1, branchLiteral_eq_endText h.2⟩

theorem askedTexts_of_fault {p : Place} (h : p.fault? = none) :
    p.askedTexts = p.inPlaceText?.toList := by
  cases p with
  | element | classes | directive | style => rfl
  | conditional start test consequent alternate =>
    obtain ⟨htrue, hfalse⟩ := branchLiterals_of_fault h
    simp only [Place.askedTexts, htrue, hfalse]
    rfl

theorem ignored_enter {s t : Scan} {p : Place} (h : enter resolver session s p = .ok t) :
    t.ignored = s.ignored ++ p.queries.flatMap (Query.ignored resolver session.options) := by
  have hfault := fault?_eq_none_of_enter resolver h
  cases p with
  | element tag children =>
    obtain ⟨names, rfl⟩ := eq_of_enter_element resolver h
    simp [Place.queries, Place.classTexts, Place.inPlaceText?]
  | classes a =>
    cases h
    rw [ignored_addParts]
    simp [Place.queries, Place.classTexts, Place.inPlaceText?]
  | directive a =>
    cases h
    simp [addDirective, Place.queries, Place.classTexts, Place.inPlaceText?, Query.ignored_inPlace]
  | style block =>
    cases h
    simp [Place.queries, Place.classTexts, Place.inPlaceText?]
  | conditional start test consequent alternate =>
    obtain ⟨htrue, hfalse⟩ := branchLiterals_of_fault hfault
    rw [enter, htrue, hfalse] at h
    cases h
    simp [addDirective, Place.queries, Place.classTexts, Place.inPlaceText?, Query.ignored_inPlace]

theorem ignored_foldlM {ps : List Place} {s t : Scan}
    (h : ps.foldlM (enter resolver session) s = .ok t) :
    t.ignored = s.ignored ++
      (ps.flatMap Place.queries).flatMap (Query.ignored resolver session.options) := by
  induction ps generalizing s with
  | nil => cases h; simp
  | cons p ps ih =>
    rw [List.foldlM_cons] at h
    obtain ⟨u, hu, h⟩ := exists_of_bind_ok h
    rw [ih h, ignored_enter resolver hu, List.flatMap_cons, List.flatMap_append, List.append_assoc]

theorem inPlaceTexts_eq {c : Component} (h : ∀ p ∈ c.places, p.fault? = none) :
    c.places.flatMap Place.askedTexts = c.inPlaceTexts := by
  rw [Component.inPlaceTexts, List.filterMap_eq_flatMap_toList]
  exact List.flatMap_congr fun p hp => askedTexts_of_fault (h p hp)

/-- What a scan collects: the new elements, one sheet for each class text that is not blank and one
for each directive and conditional, the tokens that the resolver ignores of what it is asked for, and
where classes are replaced, one edit beside each sheet of a class text. -/
theorem scan_collects {c : Component} {s : Scan} (h : c.scan resolver session = .ok s) :
    s.newTags = c.elementNames.eraseDups.filter (fun name => !session.hasTag name) ∧
      s.utilities = c.staticTexts.map (fun part =>
        (Query.classText part).sheet resolver session.options) ∧
      s.directives = c.inPlaceTexts.map (fun text =>
        (Query.inPlace text).sheet resolver session.options) ∧
      s.ignored = c.queries.flatMap (Query.ignored resolver session.options) ∧
      s.edits = if session.options.mode = .replace then
        c.staticTexts.map (editOf resolver session.options) else [] := by
  obtain ⟨hdirectives, hutilities⟩ := sheets_eq resolver h
  have hfold := h
  rw [scan_eq_foldlM] at hfold
  have hfault := exists_foldlM_iff_fault.1 ⟨s, hfold⟩
  refine ⟨newTags_eq resolver session h, ?_, ?_, ?_, ?_⟩
  · rw [hutilities]
    exact List.map_congr_left fun part _ => (Query.sheet_classText _ _ part).symm
  · rw [hdirectives, inPlaceTexts_eq hfault]
    exact List.map_congr_left fun text _ => (Query.sheet_inPlace _ _ text).symm
  · exact ignored_foldlM resolver hfold
  · rw [edits_eq resolver h, editsOf, rewritesOf]
    split
    · next hmode =>
      rw [List.map_map]
      exact List.map_congr_left fun part _ => edit_rewriteOf _ _ part hmode
    · rfl

def switching : Component :=
  ⟨[.element ⟨"p", .element, ⟨0, 59⟩, [.classes ⟨⟨3, 39⟩, [.text ⟨⟨10, 13⟩, " a "⟩,
      .expression ⟨⟨13, 38⟩, .conditional 14 (.other "x") (.literal "b")
        (.conditional 24 (.other "y") (.literal "c") (.literal "d"))⟩]⟩,
      .directive ⟨⟨40, 47⟩, "f", none⟩]⟩ [.element ⟨"p", .element, ⟨48, 55⟩, []⟩ []]], []⟩

def unknowing : Resolver :=
  ⟨fun text stem => ⟨some stem, "other" :: wordsOf text, []⟩, fun text => ⟨none, wordsOf text, []⟩,
    fun _ _ => []⟩

theorem scan_collects_switching :
    ∃ s, switching.scan unknowing (.start ⟨"w", .replace⟩) = .ok s ∧ s.newTags = ["p"] ∧
      s.ignored = ["a", "b", "d", "c", "d", "f"] ∧ s.utilities = [[]] ∧
      s.directives = [[], [], []] ∧ s.edits = [⟨⟨10, 13⟩, " w a "⟩] := by
  have h : switching.scan unknowing (.start ⟨"w", .replace⟩) =
      .ok ⟨[[]], [[], [], []], ["a", "b", "d", "c", "d", "f"], ["p"], [⟨⟨10, 13⟩, " w a "⟩]⟩ := by
    decide
  obtain ⟨htags, hutilities, hdirectives, hignored, hedits⟩ := scan_collects unknowing h
  exact ⟨_, h, htags.trans (by decide), hignored.trans (by decide), hutilities.trans (by decide),
    hdirectives.trans (by decide), hedits.trans (by decide)⟩

end Scan

end ClassWeave

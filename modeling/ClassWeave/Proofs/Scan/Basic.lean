import ClassWeave.Proofs.Markup.Places
import ClassWeave.Scan

namespace ClassWeave

open Markup

def Markup.Place.elementName? : Place → Option String
  | .element tag _ => if tag.kind = .element then some tag.name else none
  | _ => none

def Markup.Component.elementNames (c : Component) : List String :=
  c.places.filterMap Place.elementName?

namespace Scan

theorem run_forM_visit (resolver : Resolver) (session : Session) (ps : List Place) (s : Scan) :
    (forM ps (visit resolver session)).run s =
      (ps.foldlM (enter resolver session) s).map fun s => ((), s) := by
  induction ps generalizing s with
  | nil => rfl
  | cons p ps ih =>
    simp only [List.forM_cons, StateT.run_bind, List.foldlM_cons]
    cases h : enter resolver session s p with
    | error e => simp [visit, StateT.run, h, Except.map, bind, Except.bind]
    | ok t =>
      have hv : (visit resolver session p).run s = .ok ((), t) := by
        simp [visit, StateT.run, h, Except.map]
      rw [hv]
      exact ih t

theorem scan_eq_foldlM (c : Component) (resolver : Resolver) (session : Session) :
    c.scan resolver session = c.places.foldlM (enter resolver session) .empty := by
  rw [Component.scan, Component.walk_eq, run_forM_visit]
  cases c.places.foldlM (enter resolver session) .empty <;> rfl

def dropTags (known : String → Bool) (s : Scan) : Scan :=
  { s with newTags := s.newTags.filter fun tag => !known tag }

variable (resolver : Resolver) (session : Session)

theorem addTag_dropTags (name : String) (s : Scan) :
    addTag session name (s.dropTags session.hasTag) =
      (addTag (.start session.options) name s).dropTags session.hasTag := by
  have hstart : (Session.start session.options).hasTag name = false := rfl
  by_cases hk : session.hasTag name = true
  · by_cases hc : name ∈ s.newTags <;> simp [addTag, dropTags, hk, hstart, hc]
  · by_cases hc : name ∈ s.newTags <;> simp [addTag, dropTags, hk, hstart, hc]

theorem addParts_dropTags (options : Options) (known : String → Bool) (parts : List ValuePart)
    (s : Scan) :
    addParts resolver options parts (s.dropTags known) =
      (addParts resolver options parts s).dropTags known := by
  induction parts generalizing s with
  | nil => rfl
  | cons p parts ih =>
    cases p with
    | expression tag => exact ih s
    | text part =>
      have hp : addPart resolver options part (s.dropTags known) =
          (addPart resolver options part s).dropTags known := by
        simp only [addPart]
        split <;> rfl
      simp only [addParts, List.foldl_cons, hp]
      exact ih _

theorem enter_dropTags (s : Scan) (p : Place) :
    enter resolver session (s.dropTags session.hasTag) p =
      (enter resolver (.start session.options) s p).map (dropTags session.hasTag) := by
  cases p with
  | element tag children =>
    by_cases hk : tag.kind = .element <;> simp [enter, Except.map, hk, addTag_dropTags]
  | classes a => simp [enter, Except.map, addParts_dropTags, Session.start]
  | directive a => rfl
  | style block => rfl
  | conditional start test consequent alternate =>
    simp only [enter]
    cases branchLiteral start .consequent 1 consequent with
    | error e => rfl
    | ok whenTrue => cases branchLiteral start .alternate 1 alternate <;> rfl

theorem foldlM_dropTags (ps : List Place) (s : Scan) :
    ps.foldlM (enter resolver session) (s.dropTags session.hasTag) =
      (ps.foldlM (enter resolver (.start session.options)) s).map (dropTags session.hasTag) := by
  induction ps generalizing s with
  | nil => rfl
  | cons p ps ih =>
    rw [List.foldlM_cons, List.foldlM_cons, enter_dropTags]
    cases enter resolver (.start session.options) s p with
    | error e => rfl
    | ok t => exact ih t

theorem scan_eq_dropTags (c : Component) :
    c.scan resolver session =
      (c.scan resolver (.start session.options)).map (dropTags session.hasTag) := by
  rw [scan_eq_foldlM, scan_eq_foldlM, ← foldlM_dropTags]
  rfl

theorem nodup_eraseDups : (names : List String) → names.eraseDups.Nodup
  | [] => by simp
  | name :: names => by
    rw [List.eraseDups_cons, List.nodup_cons]
    refine ⟨?_, nodup_eraseDups _⟩
    simp [List.mem_eraseDups]
termination_by names => names.length
decreasing_by exact Nat.lt_succ_of_le (List.length_filter_le _ _)

theorem filter_eraseDups (p : String → Bool) :
    (names : List String) → names.eraseDups.filter p = (names.filter p).eraseDups
  | [] => by simp
  | name :: names => by
    have ih := filter_eraseDups p (names.filter fun n => !n == name)
    have hcomm : (names.filter fun n => !n == name).filter p =
        (names.filter p).filter fun n => !n == name := by
      rw [List.filter_filter, List.filter_filter]
      exact List.filter_congr fun n _ => Bool.and_comm _ _
    rw [hcomm] at ih
    by_cases h : p name = true
    · rw [List.eraseDups_cons, List.filter_cons_of_pos h, ih, List.filter_cons_of_pos h,
        List.eraseDups_cons]
    · have hf : (names.filter p).filter (fun n => !n == name) = names.filter p := by
        apply List.filter_eq_self.2
        intro n hn
        have : n ≠ name := fun hne => h (hne ▸ (List.mem_filter.1 hn).2)
        simpa using this
      rw [List.eraseDups_cons, List.filter_cons_of_neg h, ih, hf, List.filter_cons_of_neg h]
termination_by names => names.length
decreasing_by exact Nat.lt_succ_of_le (List.length_filter_le _ _)

def addName (names : List String) (name : String) : List String :=
  if name ∈ names then names else names ++ [name]

theorem foldl_addName (names acc : List String) :
    names.foldl addName acc = acc ++ (names.filter fun name => name ∉ acc).eraseDups := by
  induction names generalizing acc with
  | nil => simp
  | cons name names ih =>
    rw [List.foldl_cons, ih]
    by_cases h : name ∈ acc
    · simp [addName, h]
    · have hf : (names.filter fun n => n ∉ acc ++ [name]) =
          (names.filter fun n => n ∉ acc).filter fun n => !n == name := by
        rw [List.filter_filter]
        apply List.filter_congr
        intro n _
        by_cases hn : n = name <;> simp [hn]
      rw [addName, if_neg h, hf, List.filter_cons_of_pos (by simp [h]), List.eraseDups_cons,
        List.append_assoc, List.singleton_append]

theorem newTags_addParts (options : Options) (parts : List ValuePart) (s : Scan) :
    (addParts resolver options parts s).newTags = s.newTags := by
  induction parts generalizing s with
  | nil => rfl
  | cons p parts ih =>
    cases p with
    | expression tag => exact ih s
    | text part =>
      refine (ih _).trans ?_
      simp only [addPart]
      split <;> rfl

theorem newTags_enter {options : Options} {s t : Scan} {p : Place}
    (h : enter resolver (.start options) s p = .ok t) :
    t.newTags = p.elementName?.toList.foldl addName s.newTags := by
  cases p with
  | element tag children =>
    cases h
    by_cases hk : tag.kind = .element
    · by_cases hc : tag.name ∈ s.newTags <;>
        simp [Place.elementName?, hk, addTag, addName, hc, Session.hasTag, Session.start,
          Assoc.contains, Assoc.find?]
    · simp [Place.elementName?, hk]
  | classes a => cases h; exact newTags_addParts _ _ _ _
  | directive a => cases h; rfl
  | style block => cases h; rfl
  | conditional start test consequent alternate =>
    obtain ⟨whenTrue, _, h⟩ := exists_of_bind_ok h
    obtain ⟨whenFalse, _, h⟩ := exists_of_bind_ok h
    cases h
    rfl

theorem newTags_foldlM {options : Options} {ps : List Place} {s t : Scan}
    (h : ps.foldlM (enter resolver (.start options)) s = .ok t) :
    t.newTags = (ps.filterMap Place.elementName?).foldl addName s.newTags := by
  induction ps generalizing s with
  | nil => cases h; rfl
  | cons p ps ih =>
    rw [List.foldlM_cons] at h
    obtain ⟨u, hu, h⟩ := exists_of_bind_ok h
    rw [ih h, newTags_enter resolver hu, List.filterMap_cons]
    cases p.elementName? <;> rfl

theorem newTags_eq {c : Component} {s : Scan} (h : c.scan resolver session = .ok s) :
    s.newTags = c.elementNames.eraseDups.filter fun tag => !session.hasTag tag := by
  rw [scan_eq_dropTags] at h
  obtain ⟨t, ht, rfl⟩ := exists_of_map_ok h
  rw [scan_eq_foldlM] at ht
  have hn := newTags_foldlM resolver ht
  have hf : (c.elementNames.filter fun name => name ∉ ([] : List String)) = c.elementNames :=
    List.filter_eq_self.2 (by simp)
  rw [foldl_addName, empty, ← Component.elementNames, hf, List.nil_append] at hn
  rw [dropTags, hn]

end Scan

end ClassWeave

import ClassWeave.Proofs.Assoc
import ClassWeave.Proofs.Process.Basic
import ClassWeave.Proofs.Scan.Basic
import Mathlib.Data.List.Nodup

namespace ClassWeave

open Markup

structure Call where
  processor : Processor
  file : String
  source : String

structure Success where
  file : String
  component : Component

namespace Call

def run (c : Call) (s : Session) : Except Failure (Processed × Session) :=
  c.processor.process s c.file c.source

def success? (c : Call) (s : Session) : Option Success :=
  match c.run s, c.processor.read c.source with
  | .ok _, .ok component => some ⟨c.file, component⟩
  | _, _ => none

end Call

namespace Session

def step (s : Session) (c : Call) : Session :=
  match c.run s with
  | .ok (_, t) => t
  | .error _ => s

def after (s : Session) (calls : List Call) : Session := calls.foldl step s

def history (s : Session) : List Call → List Success
  | [] => []
  | c :: calls => (c.success? s).toList ++ (s.step c).history calls

theorem step_cases (s : Session) (c : Call) :
    (s.step c = s ∧ c.success? s = none ∧ ∃ e, c.run s = .error e) ∨
      ∃ component, c.success? s = some ⟨c.file, component⟩ ∧
        s.step c = s.commit c.file
          (component.elementNames.eraseDups.filter fun tag => !s.hasTag tag) := by
  cases h : c.run s with
  | error e => exact .inl ⟨by simp [step, h], by simp [Call.success?, h], e, rfl⟩
  | ok r =>
    obtain ⟨component, scan, code, hread, hscan, -, -, ht⟩ := Processor.process_eq_ok_iff.1 h
    refine .inr ⟨component, by simp [Call.success?, h, hread], ?_⟩
    rw [← Scan.newTags_eq _ _ hscan, ← ht]
    simp [step, h]

end Session

def FileState.ofCount : Nat → FileState
  | 0 => .unseen
  | 1 => .seenOnce
  | _ => .seenAgain

structure Remembers (s : Session) (h : List Success) : Prop where
  files : s.seenFiles = (h.map Success.file).eraseDups
  count : ∀ file, (s.files.find? file).getD 0 = (h.map Success.file).count file
  total : s.files.total = h.length
  tags : s.tags.keys = (h.flatMap fun x => x.component.elementNames).eraseDups
  origin : ∀ tag, s.tagOrigin tag =
    (h.find? fun x => x.component.elementNames.contains tag).map Success.file

namespace Session

theorem remembers_start (options : Options) : Remembers (start options) [] :=
  ⟨rfl, fun _ => rfl, rfl, rfl, fun _ => rfl⟩

theorem hasTag_iff (s : Session) (tag : String) : s.hasTag tag = true ↔ tag ∈ s.tags.keys :=
  Assoc.contains_iff s.tags tag

theorem tags_commit (s : Session) (file : String) (names : List String) :
    (s.commit file (names.eraseDups.filter fun tag => !s.hasTag tag)).tags =
      s.tags ++ (names.eraseDups.filter fun tag => !s.hasTag tag).map fun tag => (tag, file) := by
  apply Assoc.foldl_putNew
  · exact (Scan.nodup_eraseDups _).filter _
  · intro tag htag hk
    have := (s.hasTag_iff tag).2 hk
    simp [this] at htag

theorem mem_seenFiles_iff {s : Session} {h : List Success} (hs : Remembers s h) (file : String) :
    file ∈ s.files.keys ↔ file ∈ h.map Success.file := by
  have hf : s.files.keys = (h.map Success.file).eraseDups := hs.files
  rw [hf, List.mem_eraseDups]

theorem remembers_commit {s : Session} {h : List Success} (hs : Remembers s h) (x : Success) :
    Remembers (s.commit x.file (x.component.elementNames.eraseDups.filter fun tag =>
      !s.hasTag tag)) (h ++ [x]) where
  files := by
    rw [List.map_append, List.eraseDups_append, ← hs.files]
    by_cases hf : x.file ∈ s.files.keys
    · have hm := (mem_seenFiles_iff hs x.file).1 hf
      have hr : [x.file].removeAll (h.map Success.file) = [] := by
        simpa [List.removeAll] using hm
      simp only [List.map_cons, List.map_nil, hr, List.eraseDups_nil, List.append_nil]
      exact Assoc.keys_put_of_mem hf _
    · have hm := mt (mem_seenFiles_iff hs x.file).2 hf
      have hr : [x.file].removeAll (h.map Success.file) = [x.file] := by
        simpa [List.removeAll] using hm
      simp [hr, seenFiles, commit, Assoc.put_of_not_mem hf, Assoc.keys, List.eraseDups_cons]
  count file := by
    have hc := hs.count file
    rw [commit, Assoc.find?_put, List.map_append, List.count_append]
    by_cases hf : file = x.file
    · subst hf
      simp [hs.count]
    · simp [hf, Ne.symm hf, hc]
  total := by
    have ht := Assoc.total_put s.files x.file
    simp [commit, ht, hs.total]
  tags := by
    have hp : (fun tag => !s.hasTag tag) =
        fun tag => !(h.flatMap fun x => x.component.elementNames).elem tag := by
      funext tag
      have := s.hasTag_iff tag
      rw [hs.tags, List.mem_eraseDups, ← List.elem_iff] at this
      rw [Bool.eq_iff_iff.2 this]
    rw [tags_commit, List.flatMap_append, List.eraseDups_append, ← hs.tags, Scan.filter_eraseDups,
      List.removeAll, hp]
    simp [Assoc.keys, Function.comp_def]
  origin tag := by
    have ho := hs.origin tag
    rw [tagOrigin] at ho
    rw [tagOrigin, tags_commit, Assoc.find?_append, Assoc.find?_map_const, List.find?_append, ho]
    cases hf : h.find? fun x => x.component.elementNames.contains tag with
    | some y => rfl
    | none =>
      have hn : s.hasTag tag = false := by
        rw [hasTag, Assoc.contains, ho, hf]
        rfl
      by_cases hx : tag ∈ x.component.elementNames <;> simp [hn, hx]

theorem remembers_step {s : Session} {h : List Success} (hs : Remembers s h) (c : Call) :
    Remembers (s.step c) (h ++ (c.success? s).toList) := by
  rcases s.step_cases c with ⟨hstep, hnone, -⟩ | ⟨component, hsome, hstep⟩
  · simpa [hstep, hnone] using hs
  · rw [hstep, hsome]
    exact remembers_commit hs ⟨c.file, component⟩

theorem remembers_after {s : Session} {h : List Success} (hs : Remembers s h)
    (calls : List Call) : Remembers (s.after calls) (h ++ s.history calls) := by
  induction calls generalizing s h with
  | nil => simpa [after, history] using hs
  | cons c calls ih =>
    have := ih (remembers_step hs c)
    rwa [List.append_assoc] at this

theorem includesBaseline_iff {s : Session} {h : List Success} (hs : Remembers s h)
    (file : String) :
    s.includesBaseline file = true ↔ h = [] ∨ (h.map Success.file).head? = some file := by
  have hf := hs.files
  cases h with
  | nil =>
    have : s.files = [] := by simpa [seenFiles, Assoc.keys] using hf
    simp [includesBaseline, this]
  | cons x h =>
    rw [List.map_cons, List.eraseDups_cons] at hf
    have hne : s.files ≠ [] := fun he => by simp [seenFiles, he, Assoc.keys] at hf
    simp [includesBaseline, hf, hne]

theorem options_after (s : Session) (calls : List Call) : (s.after calls).options = s.options := by
  induction calls generalizing s with
  | nil => rfl
  | cons c calls ih =>
    refine (ih (s.step c)).trans ?_
    rcases s.step_cases c with ⟨hstep, -⟩ | ⟨component, -, hstep⟩ <;> rw [hstep]
    rfl

/-- After any run a session is its history and nothing else: files count their successes in order of
the first, an element belongs to the first success that has it, and the base styles to the first
file. A call that fails leaves no trace. -/
theorem after_start_eq_history (options : Options) (calls : List Call) :
    let s := (start options).after calls
    let h := (start options).history calls
    let files := h.map Success.file
    s.options = options ∧
    s.seenFiles = files.eraseDups ∧
    (∀ file, (s.files.find? file).getD 0 = files.count file) ∧
    (∀ file, s.fileState file = .ofCount (files.count file)) ∧
    (∀ file, s.hasSeen file = true ↔ file ∈ files) ∧
    (∀ tag, s.tagOrigin tag =
      (h.find? fun x => x.component.elementNames.contains tag).map Success.file) ∧
    (∀ file, s.includesBaseline file = true ↔ h = [] ∨ files.head? = some file) ∧
    s.close = ⟨files.eraseDups, h.length,
      (h.flatMap fun x => x.component.elementNames).eraseDups.length⟩ ∧
    ∀ c e, c.run s = .error e → s.step c = s := by
  intro s h files
  have hs : Remembers s h := remembers_after (remembers_start options) calls
  refine ⟨options_after _ calls, hs.files, hs.count, ?_, ?_, hs.origin,
    includesBaseline_iff hs, ?_, ?_⟩
  · intro file
    rw [fileState, hs.count]
    rcases files.count file with _ | _ | n <;> rfl
  · intro file
    exact (Assoc.contains_iff s.files file).trans (mem_seenFiles_iff hs file)
  · have ht : s.tags.length = s.tags.keys.length := by simp [Assoc.keys]
    rw [close, hs.files, hs.total, ht, hs.tags]
  · intro c e he
    rw [step, he]

end Session

end ClassWeave

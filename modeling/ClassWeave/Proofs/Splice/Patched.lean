import Mathlib.Data.List.Chain
import ClassWeave.Proofs.Text.Stands
import ClassWeave.Splice

namespace ClassWeave

open Text Markup

structure Rewrite where
  part : TextPart
  text : String
deriving DecidableEq, Repr

def Rewrite.edit (r : Rewrite) : Edit := ⟨r.part.span, r.text⟩

/-- `Patched n cs rewrites inserts out`: a text `cs` at byte `n` becomes `out`. Characters are kept in
order; a part is rewritten where its span lies, and only if the text has it there. -/
inductive Patched : Nat → List Char → List Rewrite → List Insert → List Char → Prop
  | nil {n} : Patched n [] [] [] []
  | keep {n c cs rewrites inserts out} (h : Patched (n + c.utf8Size) cs rewrites inserts out) :
      Patched n (c :: cs) rewrites inserts (c :: out)
  | rewrite {n old new cs rewrites inserts out} (hne : old ≠ [])
      (h : Patched (n + byteLength old) cs rewrites inserts out) :
      Patched n (old ++ cs) (⟨⟨⟨n, n + byteLength old⟩, .ofList old⟩, .ofList new⟩ :: rewrites)
        inserts (new ++ out)
  | insert {n new cs rewrites inserts out} (h : Patched n cs rewrites inserts out) :
      Patched n cs rewrites (⟨n, .ofList new⟩ :: inserts) (new ++ out)

namespace Patched

variable {n : Nat} {cs out : List Char} {rewrites : List Rewrite} {inserts : List Insert}

theorem append {ds dout : List Char} {rewrites' : List Rewrite} {inserts' : List Insert}
    (h : Patched n cs rewrites inserts out)
    (k : Patched (n + byteLength cs) ds rewrites' inserts' dout) :
    Patched n (cs ++ ds) (rewrites ++ rewrites') (inserts ++ inserts') (out ++ dout) := by
  induction h with
  | nil => exact k
  | keep _ ih =>
    apply keep
    apply ih
    rwa [byteLength_cons, ← Nat.add_assoc] at k
  | rewrite hne _ ih =>
    rw [List.append_assoc, List.append_assoc]
    apply rewrite hne
    apply ih
    rwa [byteLength_append, ← Nat.add_assoc] at k
  | insert _ ih =>
    rw [List.append_assoc]
    exact insert (ih k)

theorem refl (n : Nat) (cs : List Char) : Patched n cs [] [] cs := by
  induction cs generalizing n with
  | nil => exact nil
  | cons c cs ih => exact keep (ih _)

theorem whole (n : Nat) {old : List Char} (hne : old ≠ []) (new : List Char) :
    Patched n old [⟨⟨⟨n, n + byteLength old⟩, .ofList old⟩, .ofList new⟩] [] new := by
  have h : Patched n (old ++ []) _ [] (new ++ []) := rewrite hne nil
  rwa [List.append_nil, List.append_nil] at h

theorem prepend (w : List Char) (h : Patched (n + byteLength w) cs rewrites inserts out) :
    Patched n (w ++ cs) rewrites inserts (w ++ out) :=
  (refl n w).append h

theorem concat (w : List Char) (h : Patched n cs rewrites inserts out) :
    Patched n (cs ++ w) rewrites inserts (out ++ w) := by
  simpa using h.append (refl _ w)

theorem of_unchanged (h : Patched n cs rewrites inserts out)
    (hsame : ∀ r ∈ rewrites, r.text = r.part.text) : Patched n cs [] inserts out := by
  induction h with
  | nil => exact nil
  | keep _ ih => exact keep (ih hsame)
  | @rewrite n old new cs rewrites inserts out hne _ ih =>
    have hnew : new = old := by
      have := congrArg String.toList (hsame _ List.mem_cons_self)
      simpa using this
    subst hnew
    exact (ih fun r hr => hsame r (List.mem_cons_of_mem _ hr)).prepend new
  | insert _ ih => exact insert (ih hsame)

theorem start_le (h : Patched n cs rewrites inserts out) : ∀ r ∈ rewrites, n ≤ r.part.span.start := by
  induction h with
  | nil => simp
  | keep _ ih => exact fun r hr => Nat.le_trans (Nat.le_add_right _ _) (ih r hr)
  | rewrite _ _ ih =>
    intro r hr
    rcases List.mem_cons.1 hr with rfl | hr
    · exact Nat.le_refl _
    · exact Nat.le_trans (Nat.le_add_right _ _) (ih r hr)
  | insert _ ih => exact ih

theorem offset_le (h : Patched n cs rewrites inserts out) : ∀ i ∈ inserts, n ≤ i.offset := by
  induction h with
  | nil => simp
  | keep _ ih => exact fun i hi => Nat.le_trans (Nat.le_add_right _ _) (ih i hi)
  | rewrite _ _ ih => exact fun i hi => Nat.le_trans (Nat.le_add_right _ _) (ih i hi)
  | insert _ ih =>
    intro i hi
    rcases List.mem_cons.1 hi with rfl | hi
    · exact Nat.le_refl _
    · exact ih i hi

theorem pairwise_rewrites (h : Patched n cs rewrites inserts out) :
    rewrites.Pairwise fun a b => a.part.span.stop ≤ b.part.span.start := by
  induction h with
  | nil => exact .nil
  | keep _ ih => exact ih
  | rewrite _ h ih => exact .cons h.start_le ih
  | insert _ ih => exact ih

theorem pairwise_inserts (h : Patched n cs rewrites inserts out) :
    inserts.Pairwise fun a b => a.offset ≤ b.offset := by
  induction h with
  | nil => exact .nil
  | keep _ ih => exact ih
  | rewrite _ _ ih => exact ih
  | insert h ih => exact .cons h.offset_le ih

def Cuts (n : Nat) (cs : List Char) (m : Nat) : Prop := ∃ a b, cs = a ++ b ∧ m = n + byteLength a

theorem Cuts.self (n : Nat) (cs : List Char) : Cuts n cs n := ⟨[], cs, rfl, rfl⟩

theorem Cuts.append_left {m : Nat} {ds : List Char} (w : List Char)
    (h : Cuts (n + byteLength w) ds m) : Cuts n (w ++ ds) m := by
  obtain ⟨a, b, rfl, rfl⟩ := h
  exact ⟨w ++ a, b, (List.append_assoc _ _ _).symm, by rw [byteLength_append, Nat.add_assoc]⟩

theorem cuts_rewrites (h : Patched n cs rewrites inserts out) :
    ∀ r ∈ rewrites, Cuts n cs r.part.span.start ∧ Cuts n cs r.part.span.stop ∧
      r.part.span.start < r.part.span.stop := by
  induction h with
  | nil => simp
  | @keep n c cs _ _ _ _ ih =>
    intro r hr
    obtain ⟨h₁, h₂, h₃⟩ := ih r hr
    exact ⟨h₁.append_left [c], h₂.append_left [c], h₃⟩
  | @rewrite n old _ cs _ _ _ hne _ ih =>
    intro r hr
    rcases List.mem_cons.1 hr with rfl | hr
    · exact ⟨.self _ _, (Cuts.self _ cs).append_left old,
        Nat.lt_add_of_pos_right (byteLength_pos hne)⟩
    · obtain ⟨h₁, h₂, h₃⟩ := ih r hr
      exact ⟨h₁.append_left old, h₂.append_left old, h₃⟩
  | insert _ ih => exact ih

theorem cuts_inserts (h : Patched n cs rewrites inserts out) : ∀ i ∈ inserts, Cuts n cs i.offset := by
  induction h with
  | nil => simp
  | @keep n c cs _ _ _ _ ih => exact fun i hi => (ih i hi).append_left [c]
  | @rewrite n old _ _ _ _ _ _ _ ih => exact fun i hi => (ih i hi).append_left old
  | insert _ ih =>
    intro i hi
    rcases List.mem_cons.1 hi with rfl | hi
    · exact .self _ _
    · exact ih i hi

theorem outside_rewrites (h : Patched n cs rewrites inserts out) :
    ∀ r ∈ rewrites, ∀ i ∈ inserts, i.offset ≤ r.part.span.start ∨ r.part.span.stop ≤ i.offset := by
  induction h with
  | nil => simp
  | keep _ ih => exact ih
  | rewrite _ h ih =>
    intro r hr i hi
    rcases List.mem_cons.1 hr with rfl | hr
    · exact .inr (h.offset_le i hi)
    · exact ih r hr i hi
  | insert h ih =>
    intro r hr i hi
    rcases List.mem_cons.1 hi with rfl | hi
    · exact .inl (h.start_le r hr)
    · exact ih r hr i hi

end Patched

namespace Splice

theorem takeBytes_zero (cs : List Char) : takeBytes 0 cs = [] := by
  cases cs with
  | nil => rfl
  | cons c cs => simp [takeBytes, Nat.ne_of_gt c.utf8Size_pos]

theorem dropBytes_zero (cs : List Char) : dropBytes 0 cs = cs := by
  cases cs with
  | nil => rfl
  | cons c cs => simp [dropBytes, Nat.ne_of_gt c.utf8Size_pos]

theorem dropBytes_append (a b : List Char) : dropBytes (byteLength a) (a ++ b) = b := by
  induction a with
  | nil => exact dropBytes_zero b
  | cons c a ih => simpa [dropBytes] using ih

theorem takeBytes_cons {n m : Nat} {c : Char} (cs : List Char) (h : n + c.utf8Size ≤ m) :
    takeBytes (m - n) (c :: cs) = c :: takeBytes (m - (n + c.utf8Size)) cs := by
  rw [takeBytes, if_pos (by omega), Nat.sub_sub]

theorem dropBytes_cons {n m : Nat} {c : Char} (cs : List Char) (h : n + c.utf8Size ≤ m) :
    dropBytes (m - n) (c :: cs) = dropBytes (m - (n + c.utf8Size)) cs := by
  rw [dropBytes, if_pos (by omega), Nat.sub_sub]

theorem isBoundary_of_cuts {cs : List Char} {m : Nat} (h : Patched.Cuts 0 cs m) :
    isBoundary m cs = true := by
  obtain ⟨a, b, rfl, rfl⟩ := h
  rw [Nat.zero_add]
  exact isBoundary_append a b

theorem render_cons {n : Nat} {c : Char} (cs : List Char) {edits : List Edit}
    {inserts : List Insert}
    (he : ∀ e ∈ edits, n + c.utf8Size ≤ e.span.start ∧ e.span.start ≤ e.span.stop)
    (hi : ∀ i ∈ inserts, n + c.utf8Size ≤ i.offset) :
    render n (c :: cs) edits inserts = c :: render (n + c.utf8Size) cs edits inserts := by
  cases edits with
  | nil =>
    cases inserts with
    | nil => simp [render]
    | cons i inserts =>
      have h := hi i (by simp)
      simp [render, takeBytes_cons cs h, dropBytes_cons cs h]
  | cons e edits =>
    obtain ⟨h₁, h₂⟩ := he e (by simp)
    cases inserts with
    | nil =>
      simp [render, takeBytes_cons cs h₁, dropBytes_cons cs (Nat.le_trans h₁ h₂)]
    | cons i inserts =>
      have h := hi i (by simp)
      by_cases hle : i.offset ≤ e.span.start
      · simp [render, hle, takeBytes_cons cs h, dropBytes_cons cs h]
      · simp [render, hle, takeBytes_cons cs h₁, dropBytes_cons cs (Nat.le_trans h₁ h₂)]

theorem render_of_patched {n : Nat} {cs out : List Char} {rewrites : List Rewrite}
    {inserts : List Insert} (h : Patched n cs rewrites inserts out) :
    render n cs (rewrites.map Rewrite.edit) inserts = out := by
  induction h with
  | nil => simp [render]
  | keep h ih =>
    rw [render_cons, ih]
    · intro e he
      obtain ⟨r, hr, rfl⟩ := List.mem_map.1 he
      exact ⟨h.start_le r hr, Nat.le_of_lt (h.cuts_rewrites r hr).2.2⟩
    · exact h.offset_le
  | @rewrite n old new cs rewrites inserts out hne h ih =>
    have hpos := byteLength_pos hne
    cases inserts with
    | nil =>
      rw [List.map_cons, render]
      simp [Rewrite.edit, takeBytes_zero, dropBytes_append, ih]
    | cons i inserts =>
      have hi := h.offset_le i (by simp)
      have hlt : ¬ i.offset ≤ n := by omega
      rw [List.map_cons, render]
      simp [Rewrite.edit, hlt, takeBytes_zero, dropBytes_append, ih]
  | @insert n new cs rewrites inserts out h ih =>
    cases rewrites with
    | nil =>
      rw [List.map_nil, render]
      simpa [takeBytes_zero, dropBytes_zero] using ih
    | cons r rewrites =>
      have hr := h.start_le r (by simp)
      rw [List.map_cons, render, if_pos (by exact hr)]
      simpa [takeBytes_zero, dropBytes_zero] using ih

theorem patched_unique {n : Nat} {cs out out' : List Char} {rewrites : List Rewrite}
    {inserts : List Insert} (h : Patched n cs rewrites inserts out)
    (k : Patched n cs rewrites inserts out') : out = out' :=
  (render_of_patched h).symm.trans (render_of_patched k)

theorem overlap?_eq_none_iff (edits : List Edit) :
    overlap? edits = none ↔ edits.IsChain fun a b => a.span.stop ≤ b.span.start := by
  fun_induction overlap? edits with
  | case1 a b edits hlt => simp [Nat.not_le.2 hlt]
  | case2 a b edits hle ih => simp [Nat.not_lt.1 hle, ih]
  | case3 edits hshort =>
    match edits with
    | [] => simp
    | [a] => simp
    | a :: b :: edits => exact absurd rfl (hshort a b edits)

theorem insideEdit?_eq_none_iff (edits : List Edit) (inserts : List Insert) :
    insideEdit? edits inserts = none ↔
      ∀ e ∈ edits, ∀ i ∈ inserts, i.offset ≤ e.span.start ∨ e.span.stop ≤ i.offset := by
  have hin (e : Edit) (i : Insert) : ¬ (e.span.start < i.offset && i.offset < e.span.stop) = true ↔
      i.offset ≤ e.span.start ∨ e.span.stop ≤ i.offset := by
    simp only [Bool.and_eq_true, decide_eq_true_eq]
    omega
  simp only [insideEdit?, List.findSome?_eq_none_iff, Option.map_eq_none_iff, List.find?_eq_none,
    hin]
  exact ⟨fun h e he i hi => h i hi e he, fun h i hi e he => h e he i hi⟩

theorem badOffset?_eq_none_iff (s : Splice) : s.badOffset? = none ↔
    (∀ e ∈ s.edits, isBoundary e.span.start s.source = true ∧
      isBoundary e.span.stop s.source = true ∧ e.span.start ≤ e.span.stop) ∧
    ∀ i ∈ s.inserts, isBoundary i.offset s.source = true := by
  have houtside (n : Nat) :
      (if isBoundary n s.source then none else some n) = none ↔ isBoundary n s.source = true := by
    cases isBoundary n s.source <;> simp
  simp only [badOffset?, Option.or_eq_none_iff, List.findSome?_eq_none_iff, houtside,
    ite_eq_right_iff, reduceCtorEq, imp_false, Nat.not_lt]

theorem finish_of_patched {cs out : List Char} {rewrites : List Rewrite} {inserts : List Insert}
    (h : Patched 0 cs rewrites inserts out) (appended : Option String) :
    finish ⟨cs, rewrites.map Rewrite.edit, inserts, appended⟩ =
      .ok (.ofList (match appended with
        | some text => trimEnd out ++ text.toList
        | none => out)) := by
  have hbad : badOffset? ⟨cs, rewrites.map Rewrite.edit, inserts, appended⟩ = none := by
    refine (badOffset?_eq_none_iff _).2 ⟨?_, ?_⟩
    · intro e he
      obtain ⟨r, hr, rfl⟩ := List.mem_map.1 he
      obtain ⟨h₁, h₂, h₃⟩ := h.cuts_rewrites r hr
      exact ⟨isBoundary_of_cuts h₁, isBoundary_of_cuts h₂, Nat.le_of_lt h₃⟩
    · exact fun i hi => isBoundary_of_cuts (h.cuts_inserts i hi)
  have hpair : (rewrites.map Rewrite.edit).Pairwise fun a b => a.span.stop ≤ b.span.start :=
    List.pairwise_map.2 h.pairwise_rewrites
  have hedits : sortedEdits ⟨cs, rewrites.map Rewrite.edit, inserts, appended⟩ =
      rewrites.map Rewrite.edit := by
    apply List.mergeSort_of_pairwise
    apply List.pairwise_map.2
    apply h.pairwise_rewrites.imp_of_mem
    intro a b ha _ hab
    exact decide_eq_true (Nat.le_trans (Nat.le_of_lt (h.cuts_rewrites a ha).2.2) hab)
  have hinserts : sortedInserts ⟨cs, rewrites.map Rewrite.edit, inserts, appended⟩ = inserts := by
    apply List.mergeSort_of_pairwise
    exact h.pairwise_inserts.imp decide_eq_true
  have hinside : insideEdit? (rewrites.map Rewrite.edit) inserts = none := by
    refine (insideEdit?_eq_none_iff _ _).2 ?_
    intro e he i hi
    obtain ⟨r, hr, rfl⟩ := List.mem_map.1 he
    exact h.outside_rewrites r hr i hi
  rw [finish, hbad]
  dsimp only
  rw [hedits, hinserts, (overlap?_eq_none_iff _).2 hpair.isChain, hinside, render_of_patched h]
  cases appended <;> rfl

end Splice

end ClassWeave

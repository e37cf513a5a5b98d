import ClassWeave.Proofs.Splice.Ordered

namespace ClassWeave.Slicing

open Text

def keepTo (src : List Char) (cursor stop : Nat) (text : String)
    (left : Except Halt (List Char)) : Except Halt (List Char) := do
  let kept ← cutOut src cursor stop
  return kept ++ text.toList ++ (← left)

def render (src : List Char) (cursor : Nat) :
    List Edit → List Insert → Except Halt (List Char)
  | [], [] => cutFrom src cursor
  | [], i :: is => keepTo src cursor i.offset i.text (render src i.offset [] is)
  | e :: es, [] =>
    keepTo src cursor e.span.start e.replacement (render src e.span.stop es [])
  | e :: es, i :: is =>
    if i.offset ≤ e.span.start then
      keepTo src cursor i.offset i.text (render src i.offset (e :: es) is)
    else keepTo src cursor e.span.start e.replacement (render src e.span.stop es (i :: is))
termination_by es is => es.length + is.length

def finish (s : Splice) : Except Halt String :=
  match s.badOffset? with
  | some n => .error (.failure (.outOfBounds n (byteLength s.source)))
  | none =>
    match (Splice.overlap? s.sortedEdits).or (Splice.insideEdit? s.sortedEdits s.inserts) with
    | some (first, second) => .error (.failure (.overlap first second))
    | none => do
      let out ← render s.source 0 s.sortedEdits s.sortedInserts
      match s.appended with
      | some text => return .ofList ((← cutTo out (byteLength (trimEnd out))) ++ text.toList)
      | none => return .ofList out

theorem keepTo_append {before w r out : List Char} {n : Nat} (hn : n = byteLength before)
    (text : String) :
    keepTo (before ++ (w ++ r)) n (n + byteLength w) text (.ok out) =
      .ok (w ++ (text.toList ++ out)) := by
  rw [keepTo, hn, cutOut_append, ← List.append_assoc w]
  rfl

theorem render_of_ordered {n : Nat} {cs : List Char} {edits : List Edit} {inserts : List Insert}
    (h : Ordered n cs edits inserts) (before : List Char) (hn : n = byteLength before) :
    render (before ++ cs) n edits inserts = .ok (Splice.render n cs edits inserts) := by
  induction h generalizing before with
  | nil => rw [render, Splice.render, hn, cutFrom_append]
  | @insert n w r edits i inserts hoffset hedits _ _ ih =>
    have hrest := ih (before ++ w) (by rw [byteLength_append, ← hn, hoffset])
    rw [List.append_assoc] at hrest
    have hstep : render (before ++ (w ++ r)) n edits (i :: inserts) =
        keepTo (before ++ (w ++ r)) n i.offset i.text
          (render (before ++ (w ++ r)) i.offset edits inserts) := by
      cases edits with
      | nil => rw [render]
      | cons e edits => rw [render, if_pos (hedits e List.mem_cons_self)]
    rw [hstep, hrest, Splice.render_insert hoffset hedits, hoffset, keepTo_append hn]
  | @edit n w v r e edits inserts hstart hstop _ hinserts _ ih =>
    have hfirst := fun i hi => (hinserts i hi).1
    have hrest := ih (before ++ w ++ v)
      (by rw [byteLength_append, byteLength_append, ← hn, hstop, hstart])
    rw [List.append_assoc, List.append_assoc] at hrest
    have hstep : render (before ++ (w ++ (v ++ r))) n (e :: edits) inserts =
        keepTo (before ++ (w ++ (v ++ r))) n e.span.start e.replacement
          (render (before ++ (w ++ (v ++ r))) e.span.stop edits inserts) := by
      cases inserts with
      | nil => rw [render]
      | cons i inserts => rw [render, if_neg (Nat.not_le.2 (hfirst i List.mem_cons_self))]
    rw [hstep, hrest, Splice.render_edit hstart hstop hfirst, hstart, keepTo_append hn]

theorem finish_eq (s : Splice) : finish s = s.finish.mapError Halt.failure := by
  rw [finish, Splice.finish]
  cases hbad : s.badOffset? with
  | some n => rfl
  | none =>
    dsimp only
    cases hover : (Splice.overlap? s.sortedEdits).or
        (Splice.insideEdit? s.sortedEdits s.inserts) with
    | some spans => rfl
    | none =>
      have hfits := Splice.fits (Splice.badOffset?_eq_none.1 hbad) (Splice.overlaps_eq_none.1 hover)
      have hrender := render_of_ordered hfits.ordered [] rfl
      rw [List.nil_append] at hrender
      dsimp only
      rw [hrender, ok_bind]
      cases s.appended with
      | none => rfl
      | some text =>
        generalize Splice.render 0 s.source s.sortedEdits s.sortedInserts = out
        have htrim := cutTo_append (trimEnd out) (trailing out)
        rw [trimEnd_append_trailing] at htrim
        dsimp only
        rw [htrim]
        rfl

/-- The changes of a queue are made without a refused cut, and just if they are in bounds and apart.
Otherwise an offset out of bounds is reported before an overlap. -/
theorem finish_queue (source : String) (changes : List Change) :
    let s := Splice.queue source changes
    s = ⟨source.toList, changes.filterMap Change.edit?, changes.filterMap Change.insert?,
      (changes.filterMap Change.appended?).getLast?⟩ ∧
    finish s = s.finish.mapError Halt.failure ∧
    (∀ out, s.finish = .ok out ↔ s.InBounds ∧ s.Apart ∧ out.toList = s.output) ∧
    ((∃ n, s.finish = .error (.outOfBounds n (byteLength s.source))) ↔ ¬ s.InBounds) ∧
    ((∃ first second, s.finish = .error (.overlap first second)) ↔ s.InBounds ∧ ¬ s.Apart) := by
  intro s
  refine ⟨Splice.queue_eq source changes, finish_eq s, ?_⟩
  by_cases hbounds : s.InBounds
  · by_cases hapart : s.Apart
    · have hout (out : String) : .ofList s.output = out ↔ out.toList = s.output := by
        constructor
        · rintro rfl
          exact String.toList_ofList
        · intro h
          rw [← h, String.ofList_toList]
      simp [Splice.finish_of_apart hbounds hapart, hbounds, hapart, hout]
    · obtain ⟨first, second, h⟩ := Splice.finish_of_not_apart hbounds hapart
      simp [h, hbounds, hapart]
  · obtain ⟨n, h⟩ := Splice.finish_of_not_inBounds hbounds
    simp [h, hbounds]

end ClassWeave.Slicing

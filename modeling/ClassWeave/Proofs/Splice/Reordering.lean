import ClassWeave.Proofs.Splice.Ordered

namespace ClassWeave

open Text

inductive Failure.Kind
  | parse
  | wideBinding
  | malformedConditional
  | overlap
  | outOfBounds
deriving DecidableEq, Repr

def Failure.kind : Failure → Kind
  | parse .. => .parse
  | wideBinding _ => .wideBinding
  | malformedConditional .. => .malformedConditional
  | overlap .. => .overlap
  | outOfBounds .. => .outOfBounds

def Edit.Beside (a b : Edit) : Prop := a.span.stop ≤ b.span.start ∨ b.span.stop ≤ a.span.start

theorem Edit.Beside.symm {a b : Edit} (h : a.Beside b) : b.Beside a := Or.symm h

namespace Splice

/-- The same changes in another order, in which inserts at one offset keep theirs. -/
structure Reorders (s s' : Splice) : Prop where
  source : s'.source = s.source
  edits : s'.edits.Perm s.edits
  inserts : s'.inserts.Perm s.inserts
  stable : ∀ n, (s'.inserts.filter fun i => i.offset == n) = s.inserts.filter fun i => i.offset == n
  appended : s'.appended = s.appended

def EditsReplace (s : Splice) : Prop := ∀ e ∈ s.edits, e.span.start ≠ e.span.stop

variable {s s' : Splice}

/-- Sorting by the starts alone puts edits that lie beside each other in the order of their places. -/
theorem pairwise_sortedEdits (hbounds : s.InBounds) (hreplace : s.EditsReplace)
    (h : s.edits.Pairwise Edit.Beside) :
    s.sortedEdits.Pairwise fun a b => a.span.stop ≤ b.span.start := by
  have hperm := s.stableOrder_sortedEdits.perm
  have hbeside := (hperm.pairwise_iff Edit.Beside.symm).2 h
  refine List.Pairwise.imp_of_mem ?_ (hbeside.and s.stableOrder_sortedEdits.sorted)
  rintro a b - hb ⟨hab | hba, hstart⟩
  · exact hab
  · have hmem := hperm.mem_iff.1 hb
    have hle := (hbounds.spans b hmem).2.2
    have hne := hreplace b hmem
    omega

theorem apart_iff_beside (hbounds : s.InBounds) (hreplace : s.EditsReplace) :
    s.Apart ↔ s.edits.Pairwise Edit.Beside ∧
      ∀ e ∈ s.edits, ∀ i ∈ s.inserts, i.offset ≤ e.span.start ∨ e.span.stop ≤ i.offset := by
  constructor
  · intro h
    have hpairwise : s.sortedEdits.Pairwise Edit.Beside := (fits hbounds h).apart.imp .inl
    exact ⟨(s.stableOrder_sortedEdits.perm.pairwise_iff Edit.Beside.symm).1 hpairwise, h.outside⟩
  · rintro ⟨hbeside, houtside⟩
    have hchain := (pairwise_sortedEdits hbounds hreplace hbeside).isChain
    exact ⟨⟨s.sortedEdits, s.stableOrder_sortedEdits, hchain⟩, houtside⟩

namespace Reorders

variable (h : s.Reorders s')

include h

theorem inBounds_iff : s'.InBounds ↔ s.InBounds := by
  constructor
  · rintro ⟨hspans, hoffsets⟩
    rw [h.source] at hspans hoffsets
    exact ⟨fun e he => hspans e (h.edits.mem_iff.2 he),
      fun i hi => hoffsets i (h.inserts.mem_iff.2 hi)⟩
  · rintro ⟨hspans, hoffsets⟩
    rw [← h.source] at hspans hoffsets
    exact ⟨fun e he => hspans e (h.edits.mem_iff.1 he),
      fun i hi => hoffsets i (h.inserts.mem_iff.1 hi)⟩

theorem editsReplace (hreplace : s.EditsReplace) : s'.EditsReplace :=
  fun e he => hreplace e (h.edits.mem_iff.1 he)

variable (hbounds : s.InBounds) (hreplace : s.EditsReplace)

include hbounds hreplace

theorem apart_iff : s'.Apart ↔ s.Apart := by
  rw [apart_iff_beside hbounds hreplace,
    apart_iff_beside (h.inBounds_iff.2 hbounds) (h.editsReplace hreplace)]
  simp only [h.edits.pairwise_iff Edit.Beside.symm, h.edits.mem_iff, h.inserts.mem_iff]

theorem sortedEdits_eq (hapart : s.Apart) : s'.sortedEdits = s.sortedEdits := by
  have hperm : s'.sortedEdits.Perm s.sortedEdits :=
    s'.stableOrder_sortedEdits.perm.trans (h.edits.trans s.stableOrder_sortedEdits.perm.symm)
  have hapart' := (h.apart_iff hbounds hreplace).2 hapart
  have hbounds' := h.inBounds_iff.2 hbounds
  refine hperm.eq_of_pairwise ?_ (fits hbounds' hapart').apart (fits hbounds hapart).apart
  -- Of two edits that replace something only one can end before the other one starts.
  intro a b ha hb hab hba
  have hmem := s.stableOrder_sortedEdits.perm.mem_iff.1 hb
  have hle := (hbounds.spans b hmem).2.2
  have hne := hreplace b hmem
  have hle' := (hbounds'.spans a (s'.stableOrder_sortedEdits.perm.mem_iff.1 ha)).2.2
  omega

theorem output_eq (hapart : s.Apart) : s'.output = s.output := by
  have hwritten : written s'.edits s'.inserts 0 s'.source = written s.edits s.inserts 0 s.source := by
    rw [← written_sorted, ← written_sorted, h.sortedEdits_eq hbounds hreplace hapart, h.source]
    apply written_congr
    intro m _
    rw [writtenAt, writtenAt, s'.stableOrder_sortedInserts.stable,
      s.stableOrder_sortedInserts.stable, h.stable]
    exact ⟨rfl, Iff.rfl⟩
  rw [output, output, hwritten, h.appended]

end Reorders

/-- Changes can be queued in any order, if each edit replaces something and inserts at one offset
keep their order: all are made with the same outcome, or refused for the same kind of reason. -/
theorem finish_reorders (h : s.Reorders s') (hreplace : s.EditsReplace) :
    s'.finish.mapError Failure.kind = s.finish.mapError Failure.kind := by
  by_cases hbounds : s.InBounds
  · have hbounds' := h.inBounds_iff.2 hbounds
    by_cases hapart : s.Apart
    · have hapart' := (h.apart_iff hbounds hreplace).2 hapart
      rw [finish_of_apart hbounds hapart, finish_of_apart hbounds' hapart',
        h.output_eq hbounds hreplace hapart]
    · obtain ⟨first, second, hfinish⟩ := finish_of_not_apart hbounds hapart
      obtain ⟨first', second', hfinish'⟩ := finish_of_not_apart hbounds'
        fun hapart' => hapart ((h.apart_iff hbounds hreplace).1 hapart')
      rw [hfinish, hfinish']
      rfl
  · obtain ⟨n, hfinish⟩ := finish_of_not_inBounds hbounds
    obtain ⟨n', hfinish'⟩ := finish_of_not_inBounds fun hbounds' => hbounds (h.inBounds_iff.1 hbounds')
    rw [hfinish, hfinish']
    rfl

theorem finish_reorders_letters :
    let s : Splice := ⟨"abcdef".toList, [⟨⟨1, 2⟩, "B"⟩, ⟨⟨4, 6⟩, "E"⟩],
      [⟨1, "<"⟩, ⟨1, "["⟩, ⟨4, "-"⟩], some "!"⟩
    let s' : Splice := ⟨"abcdef".toList, [⟨⟨4, 6⟩, "E"⟩, ⟨⟨1, 2⟩, "B"⟩],
      [⟨4, "-"⟩, ⟨1, "<"⟩, ⟨1, "["⟩], some "!"⟩
    s.Reorders s' ∧ s.EditsReplace ∧
      s'.finish.mapError Failure.kind = s.finish.mapError Failure.kind := by
  intro s s'
  have h : s.Reorders s' := by
    refine ⟨rfl, by decide, by decide, fun n => ?_, rfl⟩
    by_cases hn : 4 = n
    · subst hn
      rfl
    · simp [s, s', List.filter_cons, hn]
  have hreplace : s.EditsReplace := by simp [EditsReplace, s]
  exact ⟨h, hreplace, finish_reorders h hreplace⟩

example :
    (finish ⟨"ab".toList, [⟨⟨0, 0⟩, "x"⟩, ⟨⟨0, 1⟩, "y"⟩], [], none⟩).toOption = some "xyb" ∧
      (finish ⟨"ab".toList, [⟨⟨0, 1⟩, "y"⟩, ⟨⟨0, 0⟩, "x"⟩], [], none⟩).toOption = none := by
  constructor <;> cbv

end Splice

end ClassWeave

import ClassWeave.Failure
import ClassWeave.Text.Cursor

namespace ClassWeave

namespace Text

theorem byteLength_pos {w : List Char} (hw : w ≠ []) : 0 < byteLength w := by
  cases w with
  | nil => exact absurd rfl hw
  | cons c w => exact Nat.lt_of_lt_of_le c.utf8Size_pos (Nat.le_add_right _ _)

theorem isBoundary_append (a b : List Char) : isBoundary (byteLength a) (a ++ b) = true := by
  induction a with
  | nil => cases b <;> rfl
  | cons c a ih =>
    have hc := c.utf8Size_pos
    obtain ⟨k, hk⟩ : ∃ k, byteLength (c :: a) = k + 1 := ⟨byteLength (c :: a) - 1, by simp; omega⟩
    have hle : c.utf8Size ≤ k + 1 := by simp at hk; omega
    have hsub : k + 1 - c.utf8Size = byteLength a := by simp at hk; omega
    rw [isBoundary] at ih
    rw [isBoundary, hk, List.cons_append, cutAt, if_pos hle, hsub, Option.isSome_map, ih]

theorem eq_of_byteLength_eq {a b c d : List Char} (h : a ++ b = c ++ d)
    (hlen : byteLength a = byteLength c) : a = c := by
  induction a generalizing c with
  | nil =>
    cases c with
    | nil => rfl
    | cons x c =>
      have := byteLength_pos (List.cons_ne_nil x c)
      simp only [byteLength_nil] at hlen
      omega
  | cons x a ih =>
    cases c with
    | nil =>
      have := byteLength_pos (List.cons_ne_nil x a)
      simp only [byteLength_nil] at hlen
      omega
    | cons y c =>
      obtain ⟨rfl, htail⟩ := List.cons.inj h
      simp only [byteLength_cons] at hlen
      rw [ih htail (by omega)]

def Stands (cs : List Char) (o : Nat) (w : List Char) : Prop :=
  ∃ before after, cs = before ++ (w ++ after) ∧ byteLength before = o

namespace Stands

variable {cs v w : List Char} {o p : Nat}

theorem whole (cs : List Char) : Stands cs 0 cs := ⟨[], [], by simp, rfl⟩

theorem left (h : Stands cs o (v ++ w)) : Stands cs o v := by
  obtain ⟨before, after, rfl, rfl⟩ := h
  exact ⟨before, w ++ after, by simp, rfl⟩

theorem right (h : Stands cs o (v ++ w)) : Stands cs (o + byteLength v) w := by
  obtain ⟨before, after, rfl, rfl⟩ := h
  exact ⟨before ++ v, after, by simp, by simp⟩

theorem tail {x : Char} (h : Stands cs o (x :: w)) : Stands cs (o + x.utf8Size) w :=
  right (v := [x]) h

theorem start (h : Stands cs o w) : Stands cs o [] := left (v := []) (w := w) h

theorem stop (h : Stands cs o w) : Stands cs (o + byteLength w) [] := by
  apply right
  rwa [List.append_nil]

theorem isBoundary (h : Stands cs o w) : isBoundary o cs = true := by
  obtain ⟨before, after, rfl, rfl⟩ := h
  exact isBoundary_append _ _

theorem le_byteLength (h : Stands cs o w) : o + byteLength w ≤ byteLength cs := by
  obtain ⟨before, after, rfl, rfl⟩ := h
  simp only [byteLength_append]
  omega

theorem append (h : Stands cs o v) (k : Stands cs (o + byteLength v) w) :
    Stands cs o (v ++ w) := by
  obtain ⟨a, b, rfl, rfl⟩ := h
  obtain ⟨c, d, heq, hlen⟩ := k
  have hc : a ++ v = c := by
    apply eq_of_byteLength_eq (b := b) (d := w ++ d)
    · rwa [List.append_assoc]
    · rw [byteLength_append, hlen]
  subst hc
  exact ⟨a, d, by rw [heq]; simp, rfl⟩

theorem trim (h : Stands cs o w) : Stands cs (o + byteLength (leading w)) (trim w) ∧
    o + byteLength (leading w) + byteLength (Text.trim w) ≤ o + byteLength w := by
  have hw := leading_append_trim_append w
  constructor
  · rw [← hw] at h
    exact h.right.left
  · have hlen := congrArg byteLength hw
    simp only [byteLength_append] at hlen
    omega

theorem exists_between (h : Stands cs o []) (k : Stands cs p []) (hle : o ≤ p) :
    ∃ w, Stands cs o w ∧ p = o + byteLength w := by
  obtain ⟨a, b, rfl, rfl⟩ := h
  obtain ⟨c, d, heq, rfl⟩ := k
  rw [List.nil_append, List.nil_append] at heq
  rcases List.append_eq_append_iff.1 heq with ⟨w, rfl, rfl⟩ | ⟨w, rfl, rfl⟩
  · exact ⟨w, ⟨a, d, by simp, rfl⟩, by simp⟩
  · have hlen : byteLength (c ++ w) = byteLength c := by
      simp only [byteLength_append] at hle ⊢
      omega
    refine ⟨[], ⟨c ++ w, b, by simp, rfl⟩, ?_⟩
    rw [hlen]
    rfl

end Stands

theorem Cursor.stands_of_reads {cs w : List Char} {c d : Cursor} (h : Stands cs c.offset c.rest)
    (hr : c.Reads w d) : Stands cs d.offset d.rest := by
  rw [hr.rest_eq] at h
  rw [hr.offset_eq]
  exact h.right

end Text

open Text

namespace Span

def Covers (cs : List Char) (s : Span) (w : List Char) : Prop :=
  Stands cs s.start w ∧ s.stop = s.start + byteLength w

structure Proper (cs : List Char) (s : Span) : Prop where
  start : isBoundary s.start cs = true
  stop : isBoundary s.stop cs = true
  lt : s.start < s.stop
  le : s.stop ≤ byteLength cs

theorem Covers.proper {cs w : List Char} {s : Span} (h : s.Covers cs w) (hw : w ≠ []) :
    s.Proper cs := by
  obtain ⟨hstands, hstop⟩ := h
  have hpos := byteLength_pos hw
  constructor
  · exact hstands.isBoundary
  · rw [hstop]
    exact hstands.stop.isBoundary
  · omega
  · rw [hstop]
    exact hstands.le_byteLength

def InOrder (hi : Nat) : Nat → List Span → Prop
  | lo, [] => lo ≤ hi
  | lo, s :: ss => lo ≤ s.start ∧ s.start ≤ s.stop ∧ InOrder hi s.stop ss

namespace InOrder

variable {lo lo' hi hi' : Nat} {ss ts : List Span}

theorem le (h : InOrder hi lo ss) : lo ≤ hi := by
  induction ss generalizing lo with
  | nil => exact h
  | cons s ss ih =>
    obtain ⟨hlo, hs, hss⟩ := h
    have := ih hss
    omega

theorem mono (h : InOrder hi lo ss) (hlo : lo' ≤ lo) (hhi : hi ≤ hi') : InOrder hi' lo' ss := by
  induction ss generalizing lo lo' with
  | nil =>
    change lo ≤ hi at h
    change lo' ≤ hi'
    omega
  | cons s ss ih => exact ⟨Nat.le_trans hlo h.1, h.2.1, ih h.2.2 (Nat.le_refl _)⟩

theorem append {mid : Nat} (hs : InOrder mid lo ss) (ht : InOrder hi mid ts) :
    InOrder hi lo (ss ++ ts) := by
  induction ss generalizing lo with
  | nil => exact ht.mono hs (Nat.le_refl _)
  | cons s ss ih => exact ⟨hs.1, hs.2.1, ih hs.2.2⟩

theorem bounds (h : InOrder hi lo ss) {s : Span} (hs : s ∈ ss) :
    lo ≤ s.start ∧ s.start ≤ s.stop ∧ s.stop ≤ hi := by
  induction ss generalizing lo with
  | nil => cases hs
  | cons t ss ih =>
    obtain ⟨hlo, ht, hss⟩ := h
    rcases List.mem_cons.1 hs with rfl | hs
    · exact ⟨hlo, ht, hss.le⟩
    · obtain ⟨hstart, hstop, hhi⟩ := ih hss hs
      refine ⟨?_, hstop, hhi⟩
      omega

end InOrder

end Span

end ClassWeave

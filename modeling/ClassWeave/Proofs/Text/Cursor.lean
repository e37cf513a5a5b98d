import ClassWeave.Text.Cursor
import ClassWeave.Text.Nesting

namespace ClassWeave.Text

theorem takeWhile_append_eq {p : Char → Bool} {w r : List Char} (hw : ∀ x ∈ w, p x = true)
    (hr : ∀ x, r.head? = some x → p x = false) : (w ++ r).takeWhile p = w := by
  rw [List.takeWhile_append_of_pos hw]
  cases r with
  | nil => simp
  | cons x r => simp [hr x rfl]

theorem dropWhile_append_eq {p : Char → Bool} {w r : List Char} (hw : ∀ x ∈ w, p x = true)
    (hr : ∀ x, r.head? = some x → p x = false) : (w ++ r).dropWhile p = r := by
  rw [List.dropWhile_append_of_pos hw]
  cases r with
  | nil => simp
  | cons x r => simp [hr x rfl]

theorem head?_dropWhile {p : Char → Bool} {cs : List Char} {x : Char}
    (h : (cs.dropWhile p).head? = some x) : p x = false := by
  have := List.head?_dropWhile_not p cs
  rwa [h] at this

namespace Cursor

theorem advance_append (o : Nat) (w r : List Char) :
    (Cursor.mk o (w ++ r)).advance w.length = ⟨o + byteLength w, r⟩ := by
  simp [advance]

theorem word_append {p : Char → Bool} {w r : List Char} (o : Nat) (hw : ∀ x ∈ w, p x = true)
    (hr : ∀ x, r.head? = some x → p x = false) : (Cursor.mk o (w ++ r)).word p = w :=
  takeWhile_append_eq hw hr

theorem skip_append {p : Char → Bool} {w r : List Char} (o : Nat) (hw : ∀ x ∈ w, p x = true)
    (hr : ∀ x, r.head? = some x → p x = false) :
    (Cursor.mk o (w ++ r)).skip p = ⟨o + byteLength w, r⟩ := by
  rw [skip, takeWhile_append_eq hw hr, dropWhile_append_eq hw hr]

end Cursor

theorem length_le_of_splitBefore {needle cs a b : List Char}
    (h : splitBefore needle cs = some (a, b)) : needle.length ≤ cs.length := by
  obtain ⟨rfl, hb⟩ := splitBefore_append h
  have := (List.isPrefixOf_iff_prefix.1 hb).length_le
  simp only [List.length_append]
  omega

theorem splitBefore_append_right {needle cs a b : List Char}
    (h : splitBefore needle cs = some (a, b)) (r : List Char) :
    splitBefore needle (cs ++ r) = some (a, b ++ r) := by
  induction cs generalizing a with
  | nil =>
    cases needle with
    | nil =>
      cases h
      cases r <;> simp [splitBefore]
    | cons x needle => simp [splitBefore] at h
  | cons c cs ih =>
    rw [splitBefore] at h
    rw [List.cons_append, splitBefore]
    split at h
    · next hp =>
      cases h
      have hp' : needle.isPrefixOf (c :: (cs ++ r)) = true := by
        rw [List.isPrefixOf_iff_prefix] at hp ⊢
        exact hp.trans (List.prefix_append (c :: cs) r)
      rw [if_pos hp']
      rfl
    · next hp =>
      obtain ⟨⟨a', b'⟩, hs, hq⟩ := Option.map_eq_some_iff.1 h
      cases hq
      have hp' : ¬ needle.isPrefixOf (c :: (cs ++ r)) = true := by
        intro hp'
        apply hp
        rw [List.isPrefixOf_iff_prefix] at hp' ⊢
        apply List.prefix_of_prefix_length_le hp' (List.prefix_append (c :: cs) r)
        have := length_le_of_splitBefore hs
        simp only [List.length_cons]
        omega
      rw [if_neg hp', ih hs]
      rfl

def Precedes (needle w : List Char) : Prop :=
  splitBefore needle (w ++ needle) = some (w, needle)

theorem Precedes.splitBefore_eq {needle w : List Char} (h : Precedes needle w) (r : List Char) :
    splitBefore needle (w ++ (needle ++ r)) = some (w, needle ++ r) := by
  rw [← List.append_assoc]
  exact splitBefore_append_right h r

theorem precedes_of_splitBefore {needle cs a b : List Char}
    (h : splitBefore needle cs = some (a, b)) : ∃ r, b = needle ++ r ∧ Precedes needle a := by
  obtain ⟨rfl, hb⟩ := splitBefore_append h
  obtain ⟨r, rfl⟩ := List.isPrefixOf_iff_prefix.1 hb
  refine ⟨r, rfl, ?_⟩
  clear hb
  induction a with
  | nil =>
    cases needle with
    | nil => rfl
    | cons x needle =>
      have hp : (x :: needle).isPrefixOf (x :: needle) = true :=
        List.isPrefixOf_iff_prefix.2 (List.prefix_refl _)
      simp [Precedes, splitBefore, hp]
  | cons c a ih =>
    rw [List.cons_append, splitBefore] at h
    split at h
    · cases h
    · next hp =>
      obtain ⟨⟨a', b'⟩, hs, hq⟩ := Option.map_eq_some_iff.1 h
      cases hq
      have hp' : ¬ needle.isPrefixOf (c :: (a' ++ needle)) = true := by
        intro hp'
        apply hp
        rw [List.isPrefixOf_iff_prefix] at hp' ⊢
        exact hp'.trans ⟨r, by simp⟩
      have := ih hs
      rw [Precedes] at this
      rw [Precedes, List.cons_append, splitBefore, if_neg hp', this]
      rfl

theorem Precedes.append_left {x : Char} {needle w v : List Char} (hv : x ∉ v)
    (h : Precedes (x :: needle) w) : Precedes (x :: needle) (v ++ w) := by
  induction v with
  | nil => exact h
  | cons c v ih =>
    obtain ⟨hc, hv⟩ := not_or.1 (mt List.mem_cons.2 hv)
    have hp : ¬ (x :: needle).isPrefixOf (c :: (v ++ w ++ x :: needle)) = true := by
      simp [List.isPrefixOf, hc]
    have := ih hv
    rw [Precedes] at this
    rw [Precedes, List.cons_append, List.cons_append, splitBefore, if_neg hp, this]
    rfl

theorem precedes_nil (x : Char) (needle : List Char) : Precedes (x :: needle) [] := by
  have hp : (x :: needle).isPrefixOf (x :: needle) = true :=
    List.isPrefixOf_iff_prefix.2 (List.prefix_refl _)
  simp [Precedes, splitBefore, hp]

theorem Cursor.seek_append {needle w : List Char} (h : Precedes needle w) (o : Nat)
    (r : List Char) :
    (Cursor.mk o (w ++ (needle ++ r))).seek needle =
      some (w, ⟨o + byteLength w, needle ++ r⟩) := by
  rw [seek, h.splitBefore_eq]
  rfl

theorem Cursor.precedes_of_seek {c d : Cursor} {needle w : List Char}
    (h : c.seek needle = some (w, d)) : Precedes needle w := by
  obtain ⟨⟨a, b⟩, hp, hq⟩ := Option.map_eq_some_iff.1 h
  cases hq
  exact (precedes_of_splitBefore hp).choose_spec.2

def Balanced (inner : List Char) : Prop :=
  splitBraces .top (inner ++ ['\x7d']) = some (inner, [])

theorem splitBraces_append_right {n : Nesting} {a b : List Char}
    (h : splitBraces n (a ++ '\x7d' :: b) = some (a, b)) (r : List Char) :
    splitBraces n (a ++ '\x7d' :: r) = some (a, r) := by
  induction a generalizing n with
  | nil =>
    rw [List.nil_append, splitBraces] at h ⊢
    split at h
    · next hn => rw [if_pos hn]
    · obtain ⟨p, -, hq⟩ := Option.map_eq_some_iff.1 h
      cases hq
  | cons c a ih =>
    rw [List.cons_append, splitBraces] at h ⊢
    split at h
    · cases h
    · next hn =>
      obtain ⟨⟨a', b'⟩, hs, hq⟩ := Option.map_eq_some_iff.1 h
      cases hq
      rw [if_neg hn, ih hs]
      rfl

theorem Balanced.splitBraces_eq {inner : List Char} (h : Balanced inner) (r : List Char) :
    splitBraces .top (inner ++ '\x7d' :: r) = some (inner, r) :=
  splitBraces_append_right h r

theorem balanced_of_splitBraces {cs a b : List Char} (h : splitBraces .top cs = some (a, b)) :
    Balanced a := by
  have hcs := splitBraces_append h
  subst hcs
  exact splitBraces_append_right h []

end ClassWeave.Text

import ClassWeave.Text.Blank
import ClassWeave.Text.Bytes

/-!
A cursor is the rest of a text together with the byte offset at which it begins. Every reader takes
a cursor to a later one, and `Reads` says which characters lie between the two.
-/

namespace ClassWeave.Text

structure Cursor where
  offset : Nat
  rest : List Char

def splitBefore (needle : List Char) : List Char → Option (List Char × List Char)
  | [] => if needle.isEmpty then some ([], []) else none
  | c :: cs =>
    if needle.isPrefixOf (c :: cs) then some ([], c :: cs)
    else (splitBefore needle cs).map fun p => (c :: p.1, p.2)

namespace Cursor

def ofText (cs : List Char) : Cursor := ⟨0, cs⟩

def advance (c : Cursor) (n : Nat) : Cursor :=
  ⟨c.offset + byteLength (c.rest.take n), c.rest.drop n⟩

def word (c : Cursor) (p : Char → Bool) : List Char := c.rest.takeWhile p

def skip (c : Cursor) (p : Char → Bool) : Cursor :=
  ⟨c.offset + byteLength (c.rest.takeWhile p), c.rest.dropWhile p⟩

def skipBlanks (c : Cursor) : Cursor := c.skip isBlank

def seek (c : Cursor) (needle : List Char) : Option (List Char × Cursor) :=
  (splitBefore needle c.rest).map fun p => (p.1, ⟨c.offset + byteLength p.1, p.2⟩)

def startsWith (c : Cursor) (w : String) : Bool := w.toList.isPrefixOf c.rest

structure Reads (c : Cursor) (w : List Char) (d : Cursor) : Prop where
  rest_eq : c.rest = w ++ d.rest
  offset_eq : d.offset = c.offset + byteLength w

theorem Reads.refl (c : Cursor) : c.Reads [] c := ⟨rfl, rfl⟩

theorem Reads.trans {c d e : Cursor} {v w : List Char} (h : c.Reads v d) (k : d.Reads w e) :
    c.Reads (v ++ w) e :=
  ⟨by rw [h.rest_eq, k.rest_eq, List.append_assoc],
    by rw [k.offset_eq, h.offset_eq, byteLength_append, Nat.add_assoc]⟩

instance : LE Cursor := ⟨fun c d => ∃ w, c.Reads w d⟩

instance : LT Cursor := ⟨fun c d => ∃ x w, c.Reads (x :: w) d⟩

theorem Reads.length_eq {c d : Cursor} {w : List Char} (h : c.Reads w d) :
    c.rest.length = w.length + d.rest.length := by
  rw [h.rest_eq, List.length_append]

theorem reads_advance (c : Cursor) (n : Nat) : c.Reads (c.rest.take n) (c.advance n) :=
  ⟨(List.take_append_drop n c.rest).symm, rfl⟩

theorem reads_skip (c : Cursor) (p : Char → Bool) : c.Reads (c.word p) (c.skip p) :=
  ⟨List.takeWhile_append_dropWhile.symm, rfl⟩

theorem le_refl (c : Cursor) : c ≤ c := ⟨[], .refl c⟩

theorem le_of_lt {c d : Cursor} : c < d → c ≤ d := fun ⟨x, w, h⟩ => ⟨x :: w, h⟩

theorem le_trans {c d e : Cursor} : c ≤ d → d ≤ e → c ≤ e :=
  fun ⟨_, h⟩ ⟨_, k⟩ => ⟨_, h.trans k⟩

theorem lt_of_lt_of_le {c d e : Cursor} : c < d → d ≤ e → c < e :=
  fun ⟨x, w, h⟩ ⟨v, k⟩ => ⟨x, w ++ v, h.trans k⟩

theorem lt_of_le_of_lt {c d e : Cursor} : c ≤ d → d < e → c < e
  | ⟨[], h⟩, ⟨x, v, k⟩ => ⟨x, v, h.trans k⟩
  | ⟨y :: w, h⟩, ⟨x, v, k⟩ => ⟨y, w ++ x :: v, h.trans k⟩

theorem length_lt {c d : Cursor} : c < d → d.rest.length < c.rest.length := fun ⟨x, w, h⟩ => by
  have := h.length_eq
  rw [List.length_cons] at this
  omega

theorem le_advance (c : Cursor) (n : Nat) : c ≤ c.advance n := ⟨_, c.reads_advance n⟩

theorem le_skip (c : Cursor) (p : Char → Bool) : c ≤ c.skip p := ⟨_, c.reads_skip p⟩

theorem lt_advance {c : Cursor} {x : Char} {cs : List Char} (h : c.rest = x :: cs) {n : Nat}
    (hn : 0 < n) : c < c.advance n := by
  obtain ⟨m, rfl⟩ := Nat.exists_eq_succ_of_ne_zero (Nat.ne_of_gt hn)
  refine ⟨x, cs.take m, ?_⟩
  have := c.reads_advance (m + 1)
  rwa [h, List.take_succ_cons] at this

theorem lt_skip {c : Cursor} {x : Char} {cs : List Char} {p : Char → Bool}
    (h : c.rest = x :: cs) (hx : p x = true) : c < c.skip p := by
  refine ⟨x, cs.takeWhile p, ?_⟩
  have := c.reads_skip p
  rwa [word, h, List.takeWhile_cons_of_pos hx] at this

theorem not_of_skip {c : Cursor} {x : Char} {cs : List Char} {p : Char → Bool}
    (h : (c.skip p).rest = x :: cs) : p x = false := by
  have := List.head?_dropWhile_not p c.rest
  rw [show c.rest.dropWhile p = x :: cs from h] at this
  exact this

theorem skip_eq_self {c : Cursor} {x : Char} {cs : List Char} {p : Char → Bool}
    (h : c.rest = x :: cs) (hx : p x = false) : c.skip p = c := by
  cases c
  subst h
  simp [skip, hx]

end Cursor

theorem splitBefore_append {needle cs a b : List Char} (h : splitBefore needle cs = some (a, b)) :
    cs = a ++ b ∧ needle.isPrefixOf b = true := by
  induction cs generalizing a with
  | nil =>
    rw [splitBefore] at h
    split at h
    · simp only [Option.some.injEq, Prod.mk.injEq] at h
      obtain ⟨rfl, rfl⟩ := h
      simp_all
    · simp at h
  | cons c cs ih =>
    rw [splitBefore] at h
    split at h
    · simp only [Option.some.injEq, Prod.mk.injEq] at h
      obtain ⟨rfl, rfl⟩ := h
      simp_all
    · obtain ⟨⟨a', b'⟩, hp, hq⟩ := Option.map_eq_some_iff.1 h
      obtain ⟨rfl, rfl⟩ := Prod.mk.inj hq
      obtain ⟨rfl, hb⟩ := ih hp
      exact ⟨rfl, hb⟩

theorem Cursor.reads_seek {c d : Cursor} {needle w : List Char}
    (h : c.seek needle = some (w, d)) : c.Reads w d := by
  obtain ⟨⟨a, b⟩, hp, hq⟩ := Option.map_eq_some_iff.1 h
  obtain ⟨rfl, rfl⟩ := Prod.mk.inj hq
  exact ⟨(splitBefore_append hp).1, rfl⟩

theorem Cursor.isPrefixOf_of_seek {c d : Cursor} {needle w : List Char}
    (h : c.seek needle = some (w, d)) : needle.isPrefixOf d.rest = true := by
  obtain ⟨⟨a, b⟩, hp, hq⟩ := Option.map_eq_some_iff.1 h
  obtain ⟨rfl, rfl⟩ := Prod.mk.inj hq
  exact (splitBefore_append hp).2

end ClassWeave.Text

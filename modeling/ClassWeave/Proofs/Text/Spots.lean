import ClassWeave.Text.Nesting

namespace ClassWeave.Text

theorem Nesting.next_of_isOrdinary {c : Char} (h : isOrdinary c = true) (n : Nesting)
    (hn : n = .top) : n.next .all c = n := by
  subst hn
  simp only [isOrdinary, Bool.and_eq_true, Bool.not_eq_eq_eq_not, Bool.not_true] at h
  obtain ⟨⟨hquote, hopens⟩, hcloses⟩ := h
  simp [Nesting.next, Nesting.top, hquote, hopens, hcloses, Quoting.next]

def Spot.within (before : List Char) (s : Spot) : Spot := { s with before := s.before ++ before }

theorem Spot.offset_within (before : List Char) (s : Spot) :
    (s.within before).offset = s.offset + byteLength before := byteLength_append _ _

theorem Spot.byteLength_left (s : Spot) : byteLength s.left = s.offset := byteLength_reverse _

theorem spotsFrom_append (before more : List Char) (n : Nesting) (cs : List Char) :
    spotsFrom (before ++ more) n cs = (spotsFrom before n cs).map (Spot.within more) := by
  induction cs generalizing before n with
  | nil => rfl
  | cons c cs ih =>
    have hrest := ih (c :: before) (n.next .all c)
    rw [List.cons_append] at hrest
    rw [spotsFrom, spotsFrom, hrest]
    split
    · rfl
    · rfl

theorem spotsFrom_of_split {before cs : List Char} {n : Nesting} {ss ts : List Spot} {s : Spot}
    (h : spotsFrom before n cs = ss ++ s :: ts) :
    ts = spotsFrom (s.char :: s.before) .top s.after := by
  induction cs generalizing before n ss with
  | nil => simp [spotsFrom] at h
  | cons c cs ih =>
    rw [spotsFrom] at h
    split at h
    · next hc =>
      cases ss with
      | nil =>
        obtain ⟨rfl, rfl⟩ := List.cons.inj h
        rw [Nesting.next_of_isOrdinary hc.2 n hc.1, hc.1]
      | cons s' ss => exact ih (List.cons.inj h).2
    · exact ih h

theorem topLevel_of_split {cs : List Char} {ss ts : List Spot} {s : Spot}
    (h : topLevel cs = ss ++ s :: ts) :
    ts = (topLevel s.after).map (Spot.within (s.char :: s.before)) := by
  rw [spotsFrom_of_split h, topLevel, ← spotsFrom_append]
  rfl

end ClassWeave.Text

import ClassWeave.Proofs.Text.Words
import ClassWeave.Style.Declaration

namespace ClassWeave.Style

open Text

namespace SplitState

def run (s : SplitState) (cs : List Char) : SplitState := cs.foldl next s

theorem run_append (s : SplitState) (v w : List Char) : s.run (v ++ w) = (s.run v).run w :=
  List.foldl_append

theorem next_eq_self {s : SplitState} {c : Char} (hescaped : s.escaped = false)
    (hquote : s.quote ≠ some c) (h : isDelimiter c = false) : s.next c = s := by
  obtain ⟨escaped, quote, depth⟩ := s
  simp only [isDelimiter, Bool.or_eq_false_iff, beq_eq_false_iff_ne] at h
  cases quote with
  | none => simp_all [next]
  | some q =>
    have hne : c ≠ q := fun he => hquote (congrArg some he.symm)
    simp_all [next]

theorem next_start_of_not_isDelimiter {c : Char} (h : isDelimiter c = false) :
    start.next c = start := next_eq_self rfl nofun h

end SplitState

theorem splitFrom_ne_nil (separator : Char) (s : SplitState) (cs : List Char) :
    splitFrom separator s cs ≠ [] := by
  induction cs generalizing s with
  | nil => simp [splitFrom]
  | cons c cs ih =>
    rw [splitFrom]
    split
    · simp
    · exact List.modifyHead_eq_nil_iff.not.2 (ih _)

theorem exists_splitFrom (separator : Char) (s : SplitState) (cs : List Char) :
    ∃ p ps, splitFrom separator s cs = p :: ps :=
  List.exists_cons_of_ne_nil (splitFrom_ne_nil separator s cs)

theorem intercalate_splitFrom (separator : Char) (s : SplitState) (cs : List Char) :
    [separator].intercalate (splitFrom separator s cs) = cs := by
  induction cs generalizing s with
  | nil => rfl
  | cons c cs ih =>
    rw [splitFrom]
    split
    · next h =>
      rw [List.intercalate_cons_of_ne_nil (splitFrom_ne_nil _ _ _), ih, h.2.1]
      rfl
    · have hrest := ih (s.next c)
      obtain ⟨w, ws, hw⟩ := exists_splitFrom separator (s.next c) cs
      rw [hw] at hrest ⊢
      rw [List.modifyHead_cons]
      cases ws with
      | nil =>
        rw [List.intercalate_singleton] at hrest ⊢
        rw [hrest]
      | cons v ws =>
        rw [List.intercalate_cons_cons] at hrest ⊢
        rw [List.cons_append, List.cons_append, hrest]

theorem splitFrom_part {separator : Char} {s : SplitState} {cs p : List Char}
    {ps : List (List Char)} (h : splitFrom separator s cs = p :: ps) :
    splitFrom separator s p = [p] ∧ ∀ q ∈ ps, splitTopLevel separator q = [q] := by
  induction cs generalizing s p ps with
  | nil =>
    cases h
    exact ⟨rfl, by simp⟩
  | cons c cs ih =>
    rw [splitFrom] at h
    split at h
    · cases h
      refine ⟨rfl, ?_⟩
      obtain ⟨q, qs, hq⟩ := exists_splitFrom separator .start cs
      obtain ⟨hfirst, hrest⟩ := ih hq
      rw [hq, List.forall_mem_cons]
      exact ⟨hfirst, hrest⟩
    · next hcut =>
      obtain ⟨q, qs, hq⟩ := exists_splitFrom separator (s.next c) cs
      rw [hq, List.modifyHead_cons] at h
      cases h
      obtain ⟨hfirst, hrest⟩ := ih hq
      refine ⟨?_, hrest⟩
      rw [splitFrom, if_neg hcut, hfirst, List.modifyHead_cons]

theorem splitTopLevel_of_mem {separator : Char} {cs p : List Char}
    (h : p ∈ splitTopLevel separator cs) : splitTopLevel separator p = [p] := by
  obtain ⟨q, qs, hq⟩ := exists_splitFrom separator .start cs
  obtain ⟨hfirst, hrest⟩ := splitFrom_part hq
  rw [splitTopLevel, hq, List.mem_cons] at h
  rcases h with rfl | h
  · exact hfirst
  · exact hrest p h

/-- Has no separator outside of quotes and brackets, if read from `s`. -/
def Uncut (separator : Char) (s : SplitState) (cs : List Char) : Prop :=
  ∀ a b, cs = a ++ separator :: b → s.run a ≠ .start

/-- Leaves no quote and no bracket open and no backslash pending, and has no separator outside of
quotes and brackets. -/
structure Closed (separator : Char) (cs : List Char) : Prop where
  whole : SplitState.start.run cs = .start
  uncut : Uncut separator .start cs

theorem Uncut.of_cons {separator c : Char} {s : SplitState} {cs : List Char}
    (h : Uncut separator s (c :: cs)) : Uncut separator (s.next c) cs := by
  rintro a b rfl
  exact h (c :: a) b rfl

theorem splitFrom_append {separator : Char} {s : SplitState} {v : List Char}
    (h : Uncut separator s v) (w : List Char) :
    splitFrom separator s (v ++ w) = (splitFrom separator (s.run v) w).modifyHead (v ++ ·) := by
  induction v generalizing s with
  | nil => exact (congrFun List.modifyHead_id _).symm
  | cons c v ih =>
    have hcut : ¬ (s = .start ∧ c = separator ∧ isDelimiter c = false) := by
      rintro ⟨rfl, rfl, -⟩
      exact h [] v rfl rfl
    rw [List.cons_append, splitFrom, if_neg hcut, ih h.of_cons, List.modifyHead_modifyHead]
    rfl

theorem splitFrom_append_separator {separator : Char} (hseparator : isDelimiter separator = false)
    {s : SplitState} {v : List Char} (h : s.run v = .start) (w : List Char) :
    splitFrom separator s (v ++ separator :: w) =
      splitFrom separator s v ++ splitTopLevel separator w := by
  induction v generalizing s with
  | nil =>
    change s = .start at h
    subst h
    simp [splitFrom, hseparator, splitTopLevel]
  | cons c v ih =>
    rw [List.cons_append, splitFrom, splitFrom]
    split
    · next hcut =>
      obtain ⟨rfl, rfl, -⟩ := hcut
      have hnext : SplitState.start.run v = .start := by
        rwa [SplitState.run, List.foldl_cons, SplitState.next_start_of_not_isDelimiter hseparator]
          at h
      rw [ih hnext, List.cons_append]
    · obtain ⟨q, qs, hq⟩ := exists_splitFrom separator (s.next c) v
      rw [ih h, hq, List.cons_append, List.modifyHead_cons, List.modifyHead_cons, List.cons_append]

theorem Uncut.iff {separator : Char} (hseparator : isDelimiter separator = false) {v : List Char} :
    Uncut separator .start v ↔ splitTopLevel separator v = [v] := by
  constructor
  · intro h
    have hparts := splitFrom_append h []
    rw [List.append_nil] at hparts
    simpa [splitTopLevel, splitFrom] using hparts
  · rintro hparts a b rfl ha
    rw [splitTopLevel, splitFrom_append_separator hseparator ha] at hparts
    obtain ⟨p, ps, hp⟩ := exists_splitFrom separator .start a
    obtain ⟨q, qs, hq⟩ := exists_splitFrom separator .start b
    rw [hp, splitTopLevel, hq] at hparts
    simp at hparts

theorem Uncut.append {separator : Char} {s : SplitState} {v w : List Char}
    (hv : Uncut separator s v) (hw : Uncut separator (s.run v) w) : Uncut separator s (v ++ w) := by
  intro a b hab
  rcases List.append_eq_append_iff.1 hab with ⟨c, rfl, hc⟩ | ⟨c, rfl, hc⟩
  · rw [SplitState.run_append]
    exact hw c b hc
  · cases c with
    | nil =>
      have ha := hw [] b hc.symm
      rwa [List.append_nil] at ha
    | cons x c =>
      cases hc
      exact hv a c rfl

theorem Uncut.of_not_mem {separator : Char} {v : List Char} (h : separator ∉ v) (s : SplitState) :
    Uncut separator s v := by
  rintro a b rfl
  exact absurd (by simp) h

namespace Closed

variable {separator : Char} {v w : List Char}

theorem splitTopLevel_append (h : Closed separator v) (w : List Char) :
    splitTopLevel separator (v ++ w) = (splitTopLevel separator w).modifyHead (v ++ ·) := by
  rw [splitTopLevel, splitFrom_append h.uncut, h.whole, splitTopLevel]

theorem iff (hseparator : isDelimiter separator = false) :
    Closed separator v ↔ SplitState.start.run v = .start ∧ splitTopLevel separator v = [v] := by
  rw [← Uncut.iff hseparator]
  constructor
  · exact fun h => ⟨h.whole, h.uncut⟩
  · exact fun h => ⟨h.1, h.2⟩

theorem nil : Closed separator [] := ⟨rfl, by simp [Uncut]⟩

theorem append (hv : Closed separator v) (hw : Closed separator w) : Closed separator (v ++ w) := by
  constructor
  · rw [SplitState.run_append, hv.whole, hw.whole]
  · apply hv.uncut.append
    rw [hv.whole]
    exact hw.uncut

theorem singleton {x : Char} (hx : isDelimiter x = false) (hne : x ≠ separator) :
    Closed separator [x] := by
  constructor
  · exact SplitState.next_start_of_not_isDelimiter hx
  · apply Uncut.of_not_mem
    rw [List.mem_singleton]
    exact Ne.symm hne

theorem of_not_isDelimiter (h : ∀ x ∈ v, isDelimiter x = false) (hv : separator ∉ v) :
    Closed separator v := by
  induction v with
  | nil => exact .nil
  | cons x v ih =>
    rw [List.forall_mem_cons] at h
    rw [List.mem_cons, not_or] at hv
    exact (singleton h.1 (Ne.symm hv.1)).append (ih h.2 hv.2)

end Closed

theorem isDelimiter_of_isBlank {x : Char} (h : isBlank x = true) : isDelimiter x = false := by
  by_contra hx
  simp only [isDelimiter, Bool.not_eq_false, Bool.or_eq_true, beq_iff_eq] at hx
  rcases hx with (((((rfl | rfl) | rfl) | rfl) | rfl) | rfl) | rfl
  all_goals exact absurd h (by decide)

theorem closed_of_blanks {separator : Char} (hseparator : isBlank separator = false)
    {w : List Char} (hw : ∀ x ∈ w, isBlank x = true) : Closed separator w := by
  apply Closed.of_not_isDelimiter fun x hx => isDelimiter_of_isBlank (hw x hx)
  intro hmem
  rw [hw separator hmem] at hseparator
  cases hseparator

namespace Declaration

/-- That a declaration can be told from its text: both sides have text and no blanks around it, the
colon between them is the first one, and all that is opened is closed. -/
structure Printable (d : Declaration) : Prop where
  property : d.property.toList ≠ [] ∧ trim d.property.toList = d.property.toList
  value : d.value.toList ≠ [] ∧ trim d.value.toList = d.value.toList
  colon : ':' ∉ d.property.toList
  closed : Closed ';' (d.property.toList ++ ([':', ' '] ++ d.value.toList))

theorem printable_of_closed {d : Declaration}
    (hproperty : d.property.toList ≠ [] ∧ trim d.property.toList = d.property.toList)
    (hvalue : d.value.toList ≠ [] ∧ trim d.value.toList = d.value.toList)
    (hcolon : ':' ∉ d.property.toList) (hp : Closed ';' d.property.toList)
    (hv : Closed ';' d.value.toList) : d.Printable where
  property := hproperty
  value := hvalue
  colon := hcolon
  closed := hp.append ((Closed.of_not_isDelimiter (by simp [isDelimiter]) (by decide)).append hv)

theorem ofEntry_around {d : Declaration} (h : d.Printable) {w : List Char}
    (hw : ∀ x ∈ w, isBlank x = true) :
    ofEntry (w ++ (d.property.toList ++ ([':', ' '] ++ d.value.toList))) = some d := by
  have hcolon : ∀ x ∈ w ++ d.property.toList, (x != ':') = true := by
    intro x hx
    rw [bne_iff_ne]
    rintro rfl
    rcases List.mem_append.1 hx with hx | hx
    · exact absurd (hw ':' hx) (by decide)
    · exact h.colon hx
  have htext : w ++ (d.property.toList ++ ([':', ' '] ++ d.value.toList)) =
      (w ++ d.property.toList) ++ ':' :: ' ' :: d.value.toList := by simp
  have hproperty : trim (w ++ d.property.toList) = d.property.toList := by
    rw [trim_blanks_append hw, h.property.2]
  have hvalue : trim (' ' :: d.value.toList) = d.value.toList := by
    rw [← List.singleton_append, trim_blanks_append (List.forall_mem_singleton.2 rfl), h.value.2]
  rw [ofEntry, htext, List.takeWhile_append_of_pos hcolon, List.dropWhile_append_of_pos hcolon]
  simp [hproperty, hvalue, h.property.1, h.value.1]

theorem ofEntry_of_blanks {w : List Char} (hw : ∀ x ∈ w, isBlank x = true) : ofEntry w = none := by
  have hcolon : ∀ x ∈ w, (x != ':') = true := by
    intro x hx
    rw [bne_iff_ne]
    rintro rfl
    exact absurd (hw ':' hx) (by decide)
  have hproperty : trim (w.takeWhile (· != ':')) = [] := by
    rw [List.takeWhile_eq_self_iff.2 hcolon, ← List.append_nil w, trim_blanks_append hw]
    rfl
  rw [ofEntry, hproperty]
  rfl

def joined : List (Declaration × List Char) → List Char
  | [] => []
  | (d, w) :: es => d.text.toList ++ (w ++ joined es)

theorem joined_cons (d : Declaration) (w : List Char) (es : List (Declaration × List Char)) :
    joined ((d, w) :: es) =
      (d.property.toList ++ ([':', ' '] ++ d.value.toList)) ++ ';' :: (w ++ joined es) := by
  simp [joined, text, String.toList_append]

theorem splitTopLevel_separator (cs : List Char) :
    splitTopLevel ';' (';' :: cs) = [] :: splitTopLevel ';' cs := rfl

theorem filterMap_ofEntry_joined {w : List Char} (hw : ∀ x ∈ w, isBlank x = true)
    {es : List (Declaration × List Char)}
    (hes : ∀ e ∈ es, e.1.Printable ∧ ∀ x ∈ e.2, isBlank x = true) :
    (splitTopLevel ';' (w ++ joined es)).filterMap ofEntry = es.map Prod.fst := by
  induction es generalizing w with
  | nil =>
    rw [(closed_of_blanks rfl hw).splitTopLevel_append]
    simp [joined, splitTopLevel, splitFrom, ofEntry_of_blanks hw]
  | cons e es ih =>
    rw [List.forall_mem_cons] at hes
    obtain ⟨⟨hd, hblanks⟩, hes⟩ := hes
    have hclosed := (closed_of_blanks rfl hw).append hd.closed
    rw [joined_cons, ← List.append_assoc, hclosed.splitTopLevel_append, splitTopLevel_separator,
      List.modifyHead_cons, List.append_nil, List.filterMap_cons_some (ofEntry_around hd hw),
      ih hblanks hes, List.map_cons]

/-- Declarations that are printed one after another, with blanks between them, are read back. And
splitting takes a text apart without loss: with the separator between them its parts give the text
again, and none of them is split any further. -/
theorem parseList_joined :
    (∀ es : List (Declaration × List Char),
      (∀ e ∈ es, e.1.Printable ∧ ∀ x ∈ e.2, isBlank x = true) →
        parseList (.ofList (joined es)) = es.map Prod.fst) ∧
      ∀ (separator : Char) (cs : List Char),
        [separator].intercalate (splitTopLevel separator cs) = cs ∧
          ∀ p ∈ splitTopLevel separator cs, splitTopLevel separator p = [p] := by
  constructor
  · intro es hes
    rw [parseList, String.toList_ofList]
    exact filterMap_ofEntry_joined (w := []) (by simp) hes
  · intro separator cs
    exact ⟨intercalate_splitFrom separator .start cs, fun p hp => splitTopLevel_of_mem hp⟩

def fontFace : List (Declaration × List Char) :=
  [(⟨"src", "url(a;b)"⟩, ['\x0a']), (⟨"content", "';'"⟩, [])]

theorem printable_fontFace : ∀ e ∈ fontFace, e.1.Printable ∧ ∀ x ∈ e.2, isBlank x = true := by
  have hclosed {v : String} (hwhole : SplitState.start.run v.toList = .start)
      (hparts : splitTopLevel ';' v.toList = [v.toList]) : Closed ';' v.toList :=
    (Closed.iff (by decide)).2 ⟨hwhole, hparts⟩
  have hsrc : Printable ⟨"src", "url(a;b)"⟩ :=
    printable_of_closed (by decide) (by decide) (by decide) (hclosed (by decide) (by decide))
      (hclosed (by decide) (by decide))
  have hcontent : Printable ⟨"content", "';'"⟩ :=
    printable_of_closed (by decide) (by decide) (by decide) (hclosed (by decide) (by decide))
      (hclosed (by decide) (by decide))
  intro e he
  rcases List.mem_pair.1 he with rfl | rfl
  · exact ⟨hsrc, List.all_eq_true.1 rfl⟩
  · exact ⟨hcontent, List.all_eq_true.1 rfl⟩

theorem parseList_joined_fontFace :
    (∀ e ∈ fontFace, e.1.Printable ∧ ∀ x ∈ e.2, isBlank x = true) ∧
      parseList "src: url(a;b);\ncontent: ';';" = [⟨"src", "url(a;b)"⟩, ⟨"content", "';'"⟩] := by
  have hread := parseList_joined.1 fontFace printable_fontFace
  have htext : String.ofList (joined fontFace) = "src: url(a;b);\ncontent: ';';" := by decide
  rw [htext] at hread
  exact ⟨printable_fontFace, hread⟩

end Declaration

end ClassWeave.Style

import ClassWeave.Proofs.Markup.Matched
import ClassWeave.Proofs.Markup.Printing
import ClassWeave.Proofs.Markup.Ternary

namespace ClassWeave.Markup

open Text Canonical

theorem Canonical.Closed.append {v w : List Char} (hv : Closed v) (hw : Closed w) :
    Closed (v ++ w) := by
  induction hv with
  | nil => exact hw
  | cons hquote hopen hclose _ ih => exact .cons hquote hopen hclose ih
  | @quoted quote hquote u v hu _ ih =>
    have := Closed.quoted hquote hu ih
    simpa using this
  | @braced u v hu _ _ ih =>
    have := Closed.braced hu ih
    simpa using this

namespace Matched

variable {allowed : Char → Prop} {v w : List Char}

theorem of_ordinary (h : ∀ x ∈ w, isOrdinary x = true) : Matched allowed w := by
  induction w with
  | nil => exact nil
  | cons x w ih => exact cons (h x (by simp)) (ih fun y hy => h y (List.mem_cons_of_mem _ hy))

theorem tail_of_ordinary {x : Char} (hx : isOrdinary x = true) (h : Matched allowed (x :: w)) :
    Matched allowed w := by
  cases h with
  | cons _ h => exact h
  | quoted hquote _ _ _ => simp [isOrdinary, hquote] at hx
  | bracketed hpair _ _ =>
    rcases closerOf?_cases hpair with ⟨rfl, -⟩ | ⟨rfl, -⟩ | ⟨rfl, -⟩ <;> cases hx

theorem closed (h : Matched allowed w) : Closed w := by
  induction h with
  | nil => exact .nil
  | @cons x hx w _ ih =>
    simp only [isOrdinary, Brackets.all, Bool.and_eq_true, Bool.not_eq_true', Bool.or_eq_false_iff,
      beq_eq_false_iff_ne] at hx
    obtain ⟨⟨hquote, -, hopen⟩, -, hclose⟩ := hx
    exact .cons hquote hopen hclose ih
  | quoted hquote hv _ _ ih => exact .quoted hquote hv ih
  | bracketed hpair _ _ ihv ihw =>
    rcases closerOf?_cases hpair with ⟨rfl, rfl⟩ | ⟨rfl, rfl⟩ | ⟨rfl, rfl⟩
    · exact .cons rfl (by decide) (by decide) (ihv.append (.cons rfl (by decide) (by decide) ihw))
    · exact .cons rfl (by decide) (by decide) (ihv.append (.cons rfl (by decide) (by decide) ihw))
    · exact .braced ihv ihw

end Matched

theorem not_isOrdinary_of_isQuote {x : Char} (h : isQuote x = true) : isOrdinary x = false := by
  simp [isOrdinary, h]

theorem not_isOrdinary_of_closerOf? {x y : Char} (h : closerOf? x = some y) :
    isOrdinary x = false := by
  rcases closerOf?_cases h with ⟨rfl, -⟩ | ⟨rfl, -⟩ | ⟨rfl, -⟩ <;> rfl

theorem spotsFrom_of_not_ordinary {x : Char} (hx : isOrdinary x = false) (before w : List Char) :
    spotsFrom before .top (x :: w) = spotsFrom (x :: before) (Nesting.top.next .all x) w := by
  rw [spotsFrom, if_neg (by simp [hx])]

theorem spotsFrom_top_quoted {quote : Char} (hquote : isQuote quote = true) {v : List Char}
    (hv : Quoted quote v) (before w : List Char) :
    spotsFrom before .top (quote :: (v ++ quote :: w)) =
      spotsFrom ((quote :: (v ++ [quote])).reverse ++ before) .top w := by
  rw [spotsFrom_of_not_ordinary (not_isOrdinary_of_isQuote hquote), Nesting.top,
    next_quote hquote, spotsFrom_append_right, spotsFrom_quoted hv, run_quoted hv,
    spotsFrom_cons_of_ne_top (by simp [Nesting.top]), next_inside_quote hquote]
  simp

theorem spotsFrom_top_bracketed {allowed : Char → Prop} {x y : Char}
    (hpair : closerOf? x = some y) {v : List Char} (hv : Matched allowed v)
    (before w : List Char) :
    spotsFrom before .top (x :: (v ++ y :: w)) =
      spotsFrom ((x :: (v ++ [y])).reverse ++ before) .top w := by
  rw [spotsFrom_of_not_ordinary (not_isOrdinary_of_closerOf? hpair), Nesting.top,
    next_opener hpair, spotsFrom_append_right, hv.spotsFrom_eq_nil 0, hv.run_eq,
    spotsFrom_cons_of_ne_top (by simp [Nesting.top]), next_closer hpair]
  simp

namespace Matched

variable {allowed : Char → Prop} {w : List Char}

theorem exists_of_mem_spotsFrom (h : Matched allowed w) {before : List Char} {s : Spot}
    (hs : s ∈ spotsFrom before .top w) :
    ∃ u, Matched allowed u ∧ s.before = u.reverse ++ before := by
  induction h generalizing before with
  | nil => cases hs
  | @cons x hx w _ ih =>
    rw [Expr.spotsFrom_ordinary hx] at hs
    rcases List.mem_cons.1 hs with rfl | hs
    · exact ⟨[], nil, rfl⟩
    · obtain ⟨u, hu, hbefore⟩ := ih hs
      exact ⟨x :: u, cons hx hu, by simp [hbefore]⟩
  | @quoted quote hquote v w hv hallowed _ ih =>
    rw [spotsFrom_top_quoted hquote hv] at hs
    obtain ⟨u, hu, hbefore⟩ := ih hs
    exact ⟨quote :: (v ++ quote :: u), quoted hquote hv hallowed hu, by simp [hbefore]⟩
  | @bracketed x y hpair v w hv _ _ ih =>
    rw [spotsFrom_top_bracketed hpair hv] at hs
    obtain ⟨u, hu, hbefore⟩ := ih hs
    exact ⟨x :: (v ++ y :: u), bracketed hpair hv hu, by simp [hbefore]⟩

theorem matched_left (h : Matched allowed w) {s : Spot} (hs : s ∈ topLevel w) :
    Matched allowed s.left := by
  obtain ⟨u, hu, hbefore⟩ := h.exists_of_mem_spotsFrom hs
  rw [Spot.left, hbefore, List.append_nil, List.reverse_reverse]
  exact hu

theorem topLevel_append (h : Matched allowed w) (more : List Char) :
    topLevel (w ++ more) =
      (topLevel w).map (Spot.followedBy more) ++ spotsFrom w.reverse .top more := by
  have hrun : Nesting.top.run .all w = .top := h.run_eq 0
  rw [topLevel, spotsFrom_append_right, hrun, List.append_nil]
  rfl

end Matched

/-- With a blank on each side the text has the word, between two blanks, at no place outside of
quotes and brackets. -/
def Lacks (word cs : List Char) : Prop :=
  ∀ u x y v, ' ' :: (cs ++ [' ']) = u ++ x :: (word ++ y :: v) → isBlank x = true →
    isBlank y = true → ¬ Matched (fun _ => True) u

/-- Has no equals sign outside of quotes and brackets. -/
def Unassigned (cs : List Char) : Prop :=
  ∀ u v, cs = u ++ '=' :: v → ¬ Matched (fun _ => True) u

theorem exists_of_beginsWord {word cs : List Char} (h : beginsWord word cs = true) :
    ∃ y v, cs = word ++ y :: v ∧ isBlank y = true := by
  rw [beginsWord, Bool.and_eq_true] at h
  obtain ⟨hword, hblank⟩ := h
  obtain ⟨r, rfl⟩ := List.isPrefixOf_iff_prefix.1 hword
  rw [List.drop_left] at hblank
  cases r with
  | nil => cases hblank
  | cons y v => exact ⟨y, v, rfl, hblank⟩

theorem beginsWord_append {word : List Char} {y : Char} (hy : isBlank y = true) (v : List Char) :
    beginsWord word (word ++ y :: v) = true := by
  rw [beginsWord, List.drop_left, Bool.and_eq_true]
  exact ⟨List.isPrefixOf_iff_prefix.2 (List.prefix_append _ _), hy⟩

theorem find?_word {word cs : List Char} (hword : ' ' ∉ word)
    (hcs : Matched (fun _ => True) cs) (hlacks : Lacks word cs) (binding : List Char) :
    (topLevel (' ' :: (cs ++ ' ' :: (word ++ ' ' :: binding)))).find?
        (fun s => isBlank s.char && beginsWord word s.after) =
      some ⟨(' ' :: cs).reverse, ' ', word ++ ' ' :: binding⟩ := by
  have hleft : Matched (fun _ => True) (' ' :: cs) := .cons rfl hcs
  let more := ' ' :: (word ++ ' ' :: binding)
  have hnone : ((topLevel (' ' :: cs)).map (Spot.followedBy more)).find?
      (fun s => isBlank s.char && beginsWord word s.after) = none := by
    rw [List.find?_eq_none]
    intro s' hs' hfound
    obtain ⟨s, hs, rfl⟩ := List.mem_map.1 hs'
    obtain ⟨hblank, hbegins⟩ := Bool.and_eq_true _ _ ▸ hfound
    obtain ⟨y, v, hv, hy⟩ := exists_of_beginsWord hbegins
    obtain ⟨t, ht, hrest⟩ := exists_append_of_mark hword hv.symm
    -- The blank behind the word is in the text, or it is the one that follows the text.
    obtain ⟨v', hv'⟩ : ∃ v', t ++ [' '] = y :: v' := by
      cases t with
      | nil =>
        cases hrest
        exact ⟨[], rfl⟩
      | cons z t =>
        cases hrest
        exact ⟨t ++ [' '], rfl⟩
    have htext : ' ' :: (cs ++ [' ']) = s.left ++ s.char :: (word ++ y :: v') := by
      rw [← List.cons_append, ← text_of_mem_topLevel hs, Spot.text, ht, ← hv']
      simp
    exact hlacks _ _ _ _ htext hblank hy (hleft.matched_left hs)
  rw [← List.cons_append, hleft.topLevel_append, List.find?_append, hnone,
    Expr.spotsFrom_ordinary rfl, List.find?_cons_of_pos]
  · rfl
  · exact beginsWord_append rfl binding

theorem findAssignment_append {o : Nat} {ss : List Spot}
    (h : ∀ s ∈ ss, s.char.utf8Size = 1 ∧ s.char ≠ '=') (ts : List Spot) :
    findAssignment o (ss ++ ts) = findAssignment o ts := by
  induction ss with
  | nil => rfl
  | cons s ss ih =>
    obtain ⟨hsize, hne⟩ := h s List.mem_cons_self
    rw [List.cons_append, findAssignment, if_neg (by simp [hsize]),
      if_neg (by simp [isAssignment, hne])]
    exact ih fun t ht => h t (List.mem_cons_of_mem _ ht)

theorem findAssignment_name {name : List Char} (hname : Matched (fun _ => True) name)
    (hsize : ∀ x ∈ name, x.utf8Size = 1) (hfree : Unassigned name) (o : Nat) (cs : List Char) :
    findAssignment o (topLevel (' ' :: (name ++ ' ' :: '=' :: ' ' :: cs))) =
      .ok (some ⟨(' ' :: (name ++ [' '])).reverse, '=', ' ' :: cs⟩) := by
  have hspace : Matched (fun _ => True) [' '] := .cons rfl .nil
  have hleft : Matched (fun _ => True) (' ' :: (name ++ [' '])) := .cons rfl (hname.append hspace)
  have htext : ' ' :: (name ++ ' ' :: '=' :: ' ' :: cs) =
      (' ' :: (name ++ [' '])) ++ '=' :: ' ' :: cs := by simp
  rw [htext, hleft.topLevel_append, findAssignment_append, Expr.spotsFrom_ordinary rfl,
    findAssignment, if_neg (fun h => h rfl), if_pos (by simp [isAssignment])]
  intro s' hs'
  obtain ⟨s, hs, rfl⟩ := List.mem_map.1 hs'
  have hspot := text_of_mem_topLevel hs
  rw [Spot.text] at hspot
  change s.char.utf8Size = 1 ∧ s.char ≠ '='
  constructor
  · have hmem : s.char ∈ ' ' :: (name ++ [' ']) := by
      rw [← hspot]
      simp
    simp only [List.mem_cons, List.mem_append, List.not_mem_nil, or_false] at hmem
    rcases hmem with h | h | h
    · rw [h]
      rfl
    · exact hsize _ h
    · rw [h]
      rfl
  · intro heq
    rw [heq] at hspot
    have hmatched := hleft.matched_left hs
    cases hl : s.left with
    | nil =>
      rw [hl] at hspot
      cases hspot
    | cons x u =>
      rw [hl] at hspot hmatched
      obtain rfl : x = ' ' := (List.cons.inj hspot).1
      have htail : u ++ '=' :: s.after = name ++ [' '] := (List.cons.inj hspot).2
      rcases List.eq_nil_or_concat' s.after with hafter | ⟨v, y, hafter⟩
      · rw [hafter] at htail
        have := congrArg List.getLast? htail
        simp at this
      · rw [hafter, ← List.cons_append, ← List.append_assoc] at htail
        obtain ⟨hu, -⟩ := List.append_inj' htail rfl
        exact hfree u v hu.symm (hmatched.tail_of_ordinary rfl)

theorem Expr.read_space (o : Nat) (cs : List Char) : read o (' ' :: cs) = read (o + 1) cs := by
  have hblank : ∀ x ∈ [' '], isBlank x = true := by simp [isBlank, blankRanges]
  apply read_congr
  · exact trim_blanks_append hblank cs
  · intro
    have hleading : leading (' ' :: cs) = ' ' :: leading cs := leading_blanks_append hblank cs
    rw [hleading]
    simp [Char.utf8Size]
    omega

section ReadOperand

variable {sigil : Char} {keyword : String} {cs : List Char}

theorem readOperand_of_text {body : Cursor} {o : Nat}
    (h : (operand sigil keyword).text body = .ok (some ⟨o, ' ' :: cs⟩))
    (hcs : isBlankText cs = false) :
    readOperand sigil keyword body = .ok (some (.read (o + 1) cs)) := by
  have hblank : isBlankText (' ' :: cs) = false := by
    rw [isBlankText] at hcs ⊢
    rw [List.all_cons, hcs, Bool.and_false]
  rw [readOperand, h]
  simp only [bind, Except.bind, hblank, Bool.false_eq_true, if_false, Expr.read_space]
  rfl

theorem readOperand_whole (h : operand sigil keyword = .whole) (hcs : isBlankText cs = false)
    (o : Nat) : readOperand sigil keyword ⟨o, ' ' :: cs⟩ = .ok (some (.read (o + 1) cs)) :=
  readOperand_of_text (by rw [h]; rfl) hcs

theorem readOperand_beforeWord {word : String} (h : operand sigil keyword = .beforeWord word)
    (hword : ' ' ∉ word.toList) (hmatched : Matched (fun _ => True) cs)
    (hlacks : Lacks word.toList cs) (hcs : isBlankText cs = false) (o : Nat) (binding : List Char) :
    readOperand sigil keyword ⟨o, ' ' :: (cs ++ ' ' :: (word.toList ++ ' ' :: binding))⟩ =
      .ok (some (.read (o + 1) cs)) := by
  apply readOperand_of_text ?_ hcs
  rw [h, Operand.text, find?_word hword hmatched hlacks]
  simp [Spot.left]

theorem readOperand_afterAssignment (h : operand sigil keyword = .afterAssignment)
    {name : List Char} (hname : Matched (fun _ => True) name)
    (hsize : ∀ x ∈ name, x.utf8Size = 1) (hfree : Unassigned name) (hcs : isBlankText cs = false)
    (o : Nat) :
    readOperand sigil keyword ⟨o, ' ' :: (name ++ ' ' :: '=' :: ' ' :: cs)⟩ =
      .ok (some (.read (o + byteLength name + 4) cs)) := by
  have hoffset : o + byteLength name + 3 =
      o + (Spot.mk (' ' :: (name ++ [' '])).reverse '=' (' ' :: cs)).offset + 1 := by
    simp [Spot.offset, Char.utf8Size]
    omega
  apply readOperand_of_text ?_ hcs
  rw [h, Operand.text, findAssignment_name hname hsize hfree, hoffset]
  rfl

end ReadOperand

end ClassWeave.Markup

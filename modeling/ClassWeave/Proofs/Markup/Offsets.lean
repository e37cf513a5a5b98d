import ClassWeave.Proofs.Markup.Layout
import ClassWeave.Proofs.Markup.Unplaced

namespace ClassWeave.Markup

open Text

namespace Expr

theorem read_of_unwrap {cs inner : List Char} (h : unwrap? (trim cs) = some inner) (o : Nat) :
    read o cs = read (o + byteLength (leading cs) + 1) inner := by
  rw [read]
  split
  · next h' =>
    rw [h] at h'
    cases h'
    rfl
  · next h' =>
    rw [h] at h'
    cases h'

theorem read_of_ternary {cs : List Char} {t : Ternary} (h : unwrap? (trim cs) = none)
    (ht : ternary? (trim cs) = some t) (o : Nat) :
    read o cs =
      let start := o + byteLength (leading cs)
      let consequentStart := start + byteLength t.test + 1
      .conditional start (read start t.test) (read consequentStart t.consequent)
        (read (consequentStart + byteLength t.consequent + 1) t.alternate) := by
  rw [read]
  split
  · next h' =>
    rw [h] at h'
    cases h'
  · split
    · next ht' =>
      rw [ht] at ht'
      cases ht'
      rfl
    · next ht' =>
      rw [ht] at ht'
      cases ht'

theorem read_of_none {cs : List Char} (h : unwrap? (trim cs) = none)
    (ht : ternary? (trim cs) = none) (o : Nat) :
    read o cs =
      match literal? (trim cs) with
      | some value => .literal (.ofList value)
      | none => .other (.ofList (trim cs)) := by
  rw [read]
  split
  · next h' =>
    rw [h] at h'
    cases h'
  · split
    · next ht' =>
      rw [ht] at ht'
      cases ht'
    · rfl

theorem unplaced_read (o o' : Nat) (cs : List Char) :
    (read o cs).unplaced = (read o' cs).unplaced := by
  fun_induction read o cs generalizing o' with
  | case1 o cs start inner h ih => rw [read_of_unwrap h o', ih]
  | case2 o cs start h t ht consequentStart iht ihc iha =>
    rw [read_of_ternary h ht o']
    simp only [unplaced]
    rw [iht, ihc, iha]
  | case3 o cs h ht value hl | case4 o cs h ht hl => rw [read_of_none h ht o', hl]

end Expr

theorem findAssignment_eq_ok {o : Nat} {ss : List Spot} {r : Option Spot}
    (h : findAssignment o ss = .ok r) (o' : Nat) : findAssignment o' ss = .ok r := by
  induction ss with
  | nil => exact h
  | cons s ss ih =>
    rw [findAssignment] at h ⊢
    split at h
    · cases h
    · next hs =>
      rw [if_neg hs]
      split at h
      · next ha => rwa [if_pos ha]
      · next ha => rw [if_neg ha, ih h]

theorem Operand.exists_text {operand : Operand} {body body' : Cursor} {r : Option Cursor}
    (hrest : body'.rest = body.rest) (h : operand.text body = .ok r) :
    ∃ r', operand.text body' = .ok r' ∧ r'.map Cursor.rest = r.map Cursor.rest := by
  cases operand with
  | whole =>
    cases h
    exact ⟨_, rfl, by simp [hrest]⟩
  | absent =>
    cases h
    exact ⟨_, rfl, rfl⟩
  | beforeWord word =>
    rw [Operand.text] at h
    rw [Operand.text, hrest]
    split at h
    · cases h
      exact ⟨_, rfl, rfl⟩
    · cases h
      exact ⟨_, rfl, by simp [hrest]⟩
  | afterAssignment =>
    obtain ⟨found, hf, h⟩ := exists_of_bind_ok h
    have hf' := findAssignment_eq_ok hf body'.offset
    rw [Operand.text, hrest, hf']
    cases found with
    | none =>
      cases h
      exact ⟨_, rfl, rfl⟩
    | some s =>
      cases h
      exact ⟨_, rfl, rfl⟩

theorem exists_readOperand {sigil : Char} {keyword : String} {body body' : Cursor}
    {e : Option Expr} (hrest : body'.rest = body.rest)
    (h : readOperand sigil keyword body = .ok e) :
    ∃ e', readOperand sigil keyword body' = .ok e' ∧
      e'.map Expr.unplaced = e.map Expr.unplaced := by
  obtain ⟨text, ht, h⟩ := exists_of_bind_ok h
  obtain ⟨text', ht', htext⟩ := Operand.exists_text hrest ht
  rw [readOperand, ht']
  cases text with
  | none =>
    cases text' with
    | some t' => cases htext
    | none =>
      cases h
      exact ⟨none, rfl, rfl⟩
  | some t =>
    cases text' with
    | none => cases htext
    | some t' =>
      have hr : t'.rest = t.rest := Option.some.inj htext
      cases h
      refine ⟨_, rfl, ?_⟩
      rw [hr]
      split
      · rfl
      · exact congrArg some (Expr.unplaced_read _ _ _)

theorem map_rest_chainedIf? {c c' : Cursor} (hrest : c'.rest = c.rest) :
    (chainedIf? c').map Cursor.rest = (chainedIf? c).map Cursor.rest := by
  have hskip : c'.skipBlanks.rest = c.skipBlanks.rest := congrArg (List.dropWhile isBlank) hrest
  rw [chainedIf?, chainedIf?]
  rw [hskip, hrest]
  by_cases h : c.rest.head?.any isBlank = true ∧ beginsWord "if".toList c.skipBlanks.rest = true
  · rw [if_pos h, if_pos h]
    exact congrArg (fun cs => some (cs.drop 2)) hskip
  · rw [if_neg h, if_neg h]

theorem exists_readBlock {c c' : Cursor} {r : String × Option Expr} (hrest : c'.rest = c.rest)
    (h : readBlock c = .ok r) :
    ∃ e, readBlock c' = .ok (r.1, e) ∧ e.map Expr.unplaced = r.2.map Expr.unplaced := by
  have hword : (c'.advance 1).word Char.isAlpha = (c.advance 1).word Char.isAlpha := by
    simp only [Cursor.word, Cursor.advance, hrest]
  have hbody : ((c'.advance 1).skip Char.isAlpha).rest = ((c.advance 1).skip Char.isAlpha).rest := by
    simp only [Cursor.skip, Cursor.advance, hrest]
  rw [readBlock] at h ⊢
  rw [hrest, hword]
  -- The operand is read where an `else` goes on with an `if`, or right after the keyword.
  have hreturn {keyword : String} {d d' : Cursor} (hd : d'.rest = d.rest)
      (h : (do return (keyword, ← readOperand (c.rest.headD '/') keyword d)) = Except.ok r) :
      ∃ e, (do return (keyword, ← readOperand (c.rest.headD '/') keyword d')) =
        (Except.ok (r.1, e) : Except Failure _) ∧ e.map Expr.unplaced = r.2.map Expr.unplaced := by
    obtain ⟨e, he, h⟩ := exists_of_bind_ok h
    cases h
    obtain ⟨e', he', hunplaced⟩ := exists_readOperand hd he
    exact ⟨e', by rw [he']; rfl, hunplaced⟩
  have hchained := map_rest_chainedIf? hbody
  by_cases helse : c.rest.headD '/' = ':' ∧
      String.ofList ((c.advance 1).word Char.isAlpha) = "else"
  · rw [if_pos helse] at h ⊢
    cases hc : chainedIf? ((c.advance 1).skip Char.isAlpha) with
    | none =>
      rw [hc, Option.map_none, Option.map_eq_none_iff] at hchained
      rw [hc] at h
      rw [hchained]
      exact hreturn hbody h
    | some d =>
      rw [hc, Option.map_some, Option.map_eq_some_iff] at hchained
      obtain ⟨d', hd', hd⟩ := hchained
      rw [hc] at h
      rw [hd']
      exact hreturn hd h
  · rw [if_neg helse] at h ⊢
    exact hreturn hbody h

def Mustache.unplaced : Mustache → Mustache
  | expression tag => expression tag.unplaced
  | block tag => block tag.unplaced
  | closing => closing

theorem Mustache.exists_ofInner {o : Nat} {inner : List Char} {m : Mustache}
    (h : Mustache.ofInner o inner = .ok m) (o' : Nat) :
    ∃ m', Mustache.ofInner o' inner = .ok m' ∧ m'.unplaced = m.unplaced := by
  have hskip (n : Nat) : (Cursor.mk (n + 1) inner).skipBlanks.rest = trimStart inner := rfl
  rw [Mustache.ofInner] at h ⊢
  rw [hskip] at h ⊢
  split at h
  · next hsigil =>
    rw [if_pos hsigil]
    split at h
    · next hslash =>
      cases h
      exact ⟨_, if_pos hslash, rfl⟩
    · next hslash =>
      rw [if_neg hslash]
      obtain ⟨r, hr, rfl⟩ := exists_of_map_ok h
      have hrest : (Cursor.mk (o' + 1) inner).skipBlanks.rest =
          (Cursor.mk (o + 1) inner).skipBlanks.rest := rfl
      obtain ⟨e, he, hunplaced⟩ := exists_readBlock hrest hr
      rw [he]
      refine ⟨_, rfl, ?_⟩
      simp only [Mustache.unplaced, BlockTag.unplaced, hunplaced]
  · next hsigil =>
    cases h
    refine ⟨_, if_neg hsigil, ?_⟩
    simp only [Mustache.unplaced, ExpressionTag.unplaced]
    rw [Expr.unplaced_read]

end ClassWeave.Markup

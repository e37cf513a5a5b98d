import ClassWeave.Proofs.Markup.Offsets
import ClassWeave.Proofs.Markup.Reading
import ClassWeave.Proofs.Markup.Revision

namespace ClassWeave.Markup

open Text

def onString (g : List Char → List Char) (s : String) : String := .ofList (g s.toList)

theorem Mustache.parts_unplaced {m m' : Mustache} (h : m'.unplaced = m.unplaced)
    (f f' : String → String) :
    m'.part?.toList.map (ValuePart.unplaced f') = m.part?.toList.map (ValuePart.unplaced f) := by
  cases m <;> cases m' <;> simp [Mustache.unplaced] at h
  · simpa [Mustache.part?, ValuePart.unplaced] using h
  · rfl
  · rfl

theorem Mustache.tokens_unplaced {m m' : Mustache} (h : m'.unplaced = m.unplaced)
    (f f' : String → String) :
    m'.token?.toList.map (Token.unplaced f') = m.token?.toList.map (Token.unplaced f) := by
  cases m <;> cases m' <;> simp [Mustache.unplaced] at h
  · simpa [Mustache.token?, Token.unplaced] using h
  · simpa [Mustache.token?, Token.unplaced] using h
  · rfl

section

variable {g : List Char → List Char} (hg : ∀ w, g w = [] ↔ w = [])

include hg

theorem textParts_unplaced (o o' : Nat) (w : List Char) :
    (textParts o' (g w)).map (ValuePart.unplaced id) =
      (textParts o w).map (ValuePart.unplaced (onString g)) := by
  by_cases hw : w = []
  · simp [textParts, hw, (hg []).2 rfl]
  · have hgw : g w ≠ [] := fun h => hw ((hg w).1 h)
    simp [textParts, hw, hgw, ValuePart.unplaced, TextPart.unplaced, onString]

theorem exists_quotedParts {last : List Char} {runs : List Run} {o : Nat} {ps : List ValuePart}
    (h : quotedParts last o runs = .ok ps) (o' : Nat) :
    ∃ ps', quotedParts (g last) o' (runs.map fun run => (g run.1, run.2)) = .ok ps' ∧
      ps'.map (ValuePart.unplaced id) = ps.map (ValuePart.unplaced (onString g)) := by
  induction runs generalizing o o' ps with
  | nil =>
    cases h
    exact ⟨_, rfl, textParts_unplaced hg o o' last⟩
  | cons run runs ih =>
    obtain ⟨w, inner⟩ := run
    obtain ⟨m, hm, h⟩ := exists_of_bind_ok h
    obtain ⟨more, hmore, h⟩ := exists_of_bind_ok h
    cases h
    obtain ⟨m', hm', hunplaced⟩ := Mustache.exists_ofInner hm (o' + byteLength (g w))
    obtain ⟨more', hmore', hrest⟩ := ih hmore
      (o' + byteLength (g w) + (byteLength inner + 2))
    refine ⟨textParts o' (g w) ++ m'.part?.toList ++ more', ?_, ?_⟩
    · rw [List.map_cons, quotedParts, hm']
      change (quotedParts _ _ _ >>= _) = _
      rw [hmore']
      rfl
    · simp only [List.map_append, textParts_unplaced hg o o' w, hrest,
        Mustache.parts_unplaced hunplaced (onString g) id]

theorem ValueLayout.exists_parts {v : ValueLayout} {o : Nat} {ps : List ValuePart}
    (h : v.parts o = .ok ps) (o' : Nat) :
    ∃ ps', (v.mapTexts g).parts o' = .ok ps' ∧
      ps'.map (ValuePart.unplaced id) = ps.map (ValuePart.unplaced (onString g)) := by
  cases v with
  | quoted quote runs last => exact exists_quotedParts hg h _
  | braced inner =>
    obtain ⟨m, hm, rfl⟩ := exists_of_map_ok h
    obtain ⟨m', hm', hunplaced⟩ := Mustache.exists_ofInner hm o'
    exact ⟨_, congrArg (Except.map _) hm', Mustache.parts_unplaced hunplaced _ _⟩
  | bare w =>
    cases h
    refine ⟨_, rfl, ?_⟩
    simp [ValuePart.unplaced, TextPart.unplaced, onString]

end

theorem onString_id : onString id = id := by
  funext s
  exact String.ofList_toList

theorem ValueLayout.mapTexts_id (v : ValueLayout) : v.mapTexts id = v := by
  cases v <;> simp [ValueLayout.mapTexts]

theorem expression?_unplaced (f : String → String) (ps : List ValuePart) :
    (ps.map (ValuePart.unplaced f)).findSome? ValuePart.expression? =
      (ps.findSome? ValuePart.expression?).map ExpressionTag.unplaced := by
  induction ps with
  | nil => rfl
  | cons p ps ih =>
    cases p with
    | text part => exact ih
    | expression tag => rfl

theorem Attribute.unplaced_ofValue_classes (f : String → String) (span : Span)
    (ps : List ValuePart) :
    (Attribute.ofValue span "class".toList ps).unplaced f =
      .classes ⟨nowhere, ps.map (ValuePart.unplaced f)⟩ := by
  rw [Attribute.ofValue, if_pos rfl]
  rfl

theorem Attribute.unplaced_ofValue {name : List Char} (hname : name ≠ "class".toList)
    (f : String → String) (span : Span) (ps : List ValuePart) :
    (Attribute.ofValue span name ps).unplaced f =
      .ofValue nowhere name (ps.map (ValuePart.unplaced id)) := by
  rw [Attribute.ofValue, if_neg hname, Attribute.ofValue, if_neg hname]
  split
  · rw [Attribute.unplaced, expression?_unplaced]
  · rfl

def Revision.none : Revision := ⟨fun _ => false, id, [], rfl⟩

variable {r : Revision}

theorem AttributeLayout.exists_attribute (hr : ∀ w, r.apply w = [] ↔ w = [])
    {a : AttributeLayout} {o : Nat} {b : Attribute} (h : a.attribute o = .ok b) (o' : Nat) :
    ∃ b', (a.revise r).attribute o' = .ok b' ∧
      b'.unplaced id = b.unplaced (onString r.apply) := by
  cases a with
  | braced inner =>
    obtain ⟨m, hm, rfl⟩ := exists_of_map_ok h
    obtain ⟨m', hm', hunplaced⟩ := Mustache.exists_ofInner hm o'
    refine ⟨_, congrArg (Except.map _) hm', ?_⟩
    simp only [Attribute.unplaced, Mustache.parts_unplaced hunplaced id id]
  | single name =>
    cases h
    refine ⟨_, rfl, ?_⟩
    by_cases hname : name = "class".toList
    · rw [hname, Attribute.unplaced_ofValue_classes, Attribute.unplaced_ofValue_classes]
      rfl
    · rw [Attribute.unplaced_ofValue hname, Attribute.unplaced_ofValue hname]
  | valued name before after v =>
    obtain ⟨ps, hps, rfl⟩ := exists_of_map_ok h
    have hid : ∀ w : List Char, id w = [] ↔ w = [] := fun _ => Iff.rfl
    by_cases hname : name = "class".toList
    · obtain ⟨ps', hps', hunplaced⟩ := ValueLayout.exists_parts hr hps
        (o' + byteLength name + byteLength before + 1 + byteLength after)
      rw [AttributeLayout.revise, if_pos hname, AttributeLayout.attribute, hps']
      refine ⟨_, rfl, ?_⟩
      rw [hname, Attribute.unplaced_ofValue_classes, Attribute.unplaced_ofValue_classes, hunplaced]
    · obtain ⟨ps', hps', hunplaced⟩ := ValueLayout.exists_parts hid hps
        (o' + byteLength name + byteLength before + 1 + byteLength after)
      rw [ValueLayout.mapTexts_id] at hps'
      rw [onString_id] at hunplaced
      rw [AttributeLayout.revise, if_neg hname, AttributeLayout.attribute, hps']
      refine ⟨_, rfl, ?_⟩
      rw [Attribute.unplaced_ofValue hname, Attribute.unplaced_ofValue hname, hunplaced]

theorem TagLayout.exists_attributes (hr : ∀ w, r.apply w = [] ↔ w = []) {tag : TagLayout}
    {o : Nat} {as : List Attribute} (h : tag.attributes o = .ok as) (o' : Nat) :
    ∃ as', (tag.revise r).attributes o' = .ok as' ∧
      as'.map (Attribute.unplaced id) = as.map (Attribute.unplaced (onString r.apply)) := by
  induction tag generalizing o o' as with
  | stop gap closed =>
    cases h
    exact ⟨[], rfl, rfl⟩
  | slash gap rest ih => exact ih h _
  | item gap a rest ih =>
    obtain ⟨b, hb, h⟩ := exists_of_bind_ok h
    obtain ⟨bs, hbs, h⟩ := exists_of_bind_ok h
    cases h
    obtain ⟨b', hb', hunplaced⟩ := AttributeLayout.exists_attribute hr hb (o' + byteLength gap)
    obtain ⟨bs', hbs', hrest⟩ := ih hbs (o' + byteLength gap + byteLength (a.revise r).text)
    refine ⟨b' :: bs', ?_, by simp [hunplaced, hrest]⟩
    rw [TagLayout.revise, TagLayout.attributes, hb']
    change (TagLayout.attributes _ _ >>= _) = _
    rw [hbs']
    rfl

theorem TagLayout.revise_none (tag : TagLayout) : tag.revise .none = tag := by
  have happly : Revision.none.apply = id := by
    funext w
    simp [Revision.apply, Revision.none]
  induction tag with
  | stop gap closed => rfl
  | slash gap rest ih => rw [TagLayout.revise, ih]
  | item gap a rest ih =>
    rw [TagLayout.revise, ih]
    cases a with
    | braced inner | single name => rfl
    | valued name before after v => simp [AttributeLayout.revise, happly, ValueLayout.mapTexts_id]

theorem TagLayout.exists_attributes_of_ok {tag : TagLayout} {o : Nat} {as : List Attribute}
    (h : tag.attributes o = .ok as) (o' : Nat) : ∃ as', tag.attributes o' = .ok as' := by
  have hnone : ∀ w, Revision.none.apply w = [] ↔ w = [] := by
    simp [Revision.apply, Revision.none]
  obtain ⟨as', has', -⟩ := TagLayout.exists_attributes hnone h o'
  rw [tag.revise_none] at has'
  exact ⟨as', has'⟩

theorem TagLayout.closed_revise (tag : TagLayout) : (tag.revise r).closed = tag.closed := by
  induction tag with
  | stop gap closed => rfl
  | slash gap rest ih => exact ih
  | item gap a rest ih => exact ih

theorem Layout.exists_token (hr : ∀ w, r.apply w = [] ↔ w = []) {l : Layout} {o : Nat}
    {t : Option Token} (h : l.token o = .ok t) (names : List String) (o' : Nat) :
    ∃ t', (l.revise r names).token o' = .ok t' ∧
      t'.toList.map (Token.unplaced id) = t.toList.map (Token.unplaced (onString r.apply)) := by
  cases l with
  | comment body | closing body | plain w =>
    cases h
    exact ⟨_, rfl, rfl⟩
  | mustache inner =>
    obtain ⟨m, hm, rfl⟩ := exists_of_map_ok h
    obtain ⟨m', hm', hunplaced⟩ := Mustache.exists_ofInner hm o'
    exact ⟨_, congrArg (Except.map _) hm', Mustache.tokens_unplaced hunplaced _ _⟩
  | opening name tag =>
    obtain ⟨as, has, rfl⟩ := exists_of_map_ok h
    obtain ⟨as', has', hunplaced⟩ := TagLayout.exists_attributes hr has (o' + 1 + byteLength name)
    refine ⟨_, congrArg (Except.map _) has', ?_⟩
    simp only [Option.toList_some, List.map_cons, List.map_nil, Token.unplaced, Tag.unplaced,
      hunplaced, TagLayout.isLeaf, TagLayout.closed_revise]
  | content name tag body tail =>
    obtain ⟨as, has, rfl⟩ := exists_of_map_ok h
    obtain ⟨as', has'⟩ := TagLayout.exists_attributes_of_ok has (o' + 1 + byteLength name)
    refine ⟨_, congrArg (Except.map _) has', ?_⟩
    dsimp only
    split <;> rfl

theorem exists_tokensOf (hr : ∀ w, r.apply w = [] ↔ w = []) {ls : List Layout} {o : Nat}
    {ts : List Token} (h : tokensOf o ls = .ok ts) (names : List String) (o' : Nat) :
    ∃ ts', tokensOf o' (reviseAll r names ls) = .ok ts' ∧
      ts'.map (Token.unplaced id) = ts.map (Token.unplaced (onString r.apply)) := by
  induction ls generalizing o o' ts names with
  | nil =>
    cases h
    exact ⟨[], rfl, rfl⟩
  | cons l ls ih =>
    obtain ⟨t, ht, h⟩ := exists_of_bind_ok h
    obtain ⟨ts, hts, h⟩ := exists_of_bind_ok h
    cases h
    obtain ⟨t', ht', hunplaced⟩ := Layout.exists_token hr ht names o'
    obtain ⟨ts', hts', hrest⟩ := ih hts (l.nest names)
      (o' + byteLength (l.revise r names).text)
    refine ⟨t'.toList ++ ts', ?_, by rw [List.map_append, List.map_append, hunplaced, hrest]⟩
    rw [reviseAll, tokensOf, ht']
    change (tokensOf _ _ >>= _) = _
    rw [hts']
    rfl

end ClassWeave.Markup

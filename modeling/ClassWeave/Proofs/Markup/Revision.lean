import ClassWeave.Proofs.Markup.Building
import ClassWeave.Proofs.Markup.Layout
import ClassWeave.Proofs.Splice.Patched

namespace ClassWeave.Markup

open Text

/-- Class texts that it touches are rewritten; `inserted` goes into the styles. -/
structure Revision where
  touches : List Char → Bool
  rewrite : List Char → List Char
  inserted : List Char
  touches_nil : touches [] = false

namespace Revision

variable (r : Revision)

def apply (w : List Char) : List Char := if r.touches w then r.rewrite w else w

def rewrites (ts : List TextPart) : List Rewrite :=
  (ts.filter fun t => r.touches t.text.toList).map fun t => ⟨t, .ofList (r.rewrite t.text.toList)⟩

def insert (s : StyleBlock) : Insert := ⟨s.content.start, .ofList r.inserted⟩

theorem apply_nil : r.apply [] = [] := by simp [apply, r.touches_nil]

theorem rewrites_append (ts us : List TextPart) :
    r.rewrites (ts ++ us) = r.rewrites ts ++ r.rewrites us := by
  simp [rewrites]

end Revision

def ValueLayout.mapTexts (g : List Char → List Char) : ValueLayout → ValueLayout
  | quoted quote runs last => quoted quote (runs.map fun run => (g run.1, run.2)) (g last)
  | braced inner => braced inner
  | bare w => bare (g w)

def AttributeLayout.revise (r : Revision) : AttributeLayout → AttributeLayout
  | valued name before after value =>
    valued name before after (if name = "class".toList then value.mapTexts r.apply else value)
  | a => a

def TagLayout.revise (r : Revision) : TagLayout → TagLayout
  | stop gap closed => stop gap closed
  | slash gap rest => slash gap (rest.revise r)
  | item gap a rest => item gap (a.revise r) (rest.revise r)

def Layout.nest (names : List String) : Layout → List String
  | closing body => (Token.closing (.ofList (trim body)) 0).nest names
  | opening name tag => if tag.isLeaf name then names else .ofList name :: names
  | _ => names

def Layout.revise (r : Revision) (names : List String) : Layout → Layout
  | opening name tag => opening name (tag.revise r)
  | content name tag body tail =>
    content name tag (if String.ofList name = "style" ∧ names = [] then r.inserted ++ body else body)
      tail
  | l => l

def reviseAll (r : Revision) (names : List String) : List Layout → List Layout
  | [] => []
  | l :: ls => l.revise r names :: reviseAll r (l.nest names) ls

section Patched

variable (r : Revision)

theorem patched_text (o : Nat) (w : List Char) :
    Patched o w (r.rewrites [⟨⟨o, o + byteLength w⟩, .ofList w⟩]) [] (r.apply w) := by
  rw [Revision.rewrites, Revision.apply]
  by_cases ht : r.touches w = true
  · have hw : w ≠ [] := by
      rintro rfl
      simp [r.touches_nil] at ht
    simpa [ht] using Patched.whole o hw (r.rewrite w)
  · simpa [ht] using Patched.refl o w

theorem patched_textParts (o : Nat) (w : List Char) :
    Patched o w (r.rewrites ((textParts o w).filterMap ValuePart.text?)) [] (r.apply w) := by
  by_cases hw : w = []
  · subst hw
    rw [r.apply_nil]
    exact .nil
  · simpa [textParts, hw, ValuePart.text?] using patched_text r o w

theorem patched_braced {o : Nat} {inner cs out : List Char} {rewrites : List Rewrite}
    {inserts : List Insert}
    (h : Patched (o + (byteLength inner + 2)) cs rewrites inserts out) :
    Patched o ('\x7b' :: (inner ++ '\x7d' :: cs)) rewrites inserts
      ('\x7b' :: (inner ++ '\x7d' :: out)) := by
  have hlen : o + byteLength ('\x7b' :: (inner ++ ['\x7d'])) = o + (byteLength inner + 2) := by
    rw [byteLength_braced]
  have := Patched.prepend ('\x7b' :: (inner ++ ['\x7d'])) (hlen ▸ h)
  simpa using this

theorem Mustache.text?_part? (m : Mustache) : m.part?.toList.filterMap ValuePart.text? = [] := by
  cases m <;> rfl

theorem patched_quoted {quote : Char} {last : List Char} {runs : List Run} {o : Nat}
    {ps : List ValuePart} (h : quotedParts last o runs = .ok ps) :
    Patched o (quotedText quote last runs) (r.rewrites (ps.filterMap ValuePart.text?)) []
      (quotedText quote (r.apply last) (runs.map fun run => (r.apply run.1, run.2))) := by
  induction runs generalizing o ps with
  | nil =>
    cases h
    exact (patched_textParts r o last).concat [quote]
  | cons run runs ih =>
    obtain ⟨w, inner⟩ := run
    obtain ⟨m, -, h⟩ := exists_of_bind_ok h
    obtain ⟨more, hmore, h⟩ := exists_of_bind_ok h
    cases h
    have := (patched_textParts r o w).append (patched_braced (ih hmore))
    simpa [Mustache.text?_part?, r.rewrites_append, quotedText] using this

theorem ValueLayout.patched {v : ValueLayout} {o : Nat} {ps : List ValuePart}
    (h : v.parts o = .ok ps) :
    Patched o v.text (r.rewrites (ps.filterMap ValuePart.text?)) [] (v.mapTexts r.apply).text := by
  cases v with
  | quoted quote runs last =>
    have hquoted : Patched (o + byteLength [quote]) (quotedText quote last runs) _ _ _ :=
      patched_quoted r h
    exact hquoted.prepend [quote]
  | braced inner =>
    obtain ⟨m, -, rfl⟩ := exists_of_map_ok h
    rw [m.text?_part?]
    exact .refl _ _
  | bare w =>
    cases h
    exact patched_text r o w

theorem Attribute.classTexts_ofValue (span : Span) (name : List Char) (ps : List ValuePart) :
    (Attribute.ofValue span name ps).classTexts =
      if name = "class".toList then ps.filterMap ValuePart.text? else [] := by
  rw [Attribute.ofValue]
  split
  · rfl
  · split <;> rfl

theorem AttributeLayout.patched {a : AttributeLayout} {o : Nat} {b : Attribute}
    (h : a.attribute o = .ok b) :
    Patched o a.text (r.rewrites b.classTexts) [] (a.revise r).text := by
  cases a with
  | braced inner =>
    obtain ⟨m, -, rfl⟩ := exists_of_map_ok h
    exact .refl _ _
  | single name =>
    cases h
    rw [Attribute.classTexts_ofValue]
    split <;> exact .refl _ _
  | valued name before after v =>
    obtain ⟨ps, hps, rfl⟩ := exists_of_map_ok h
    rw [Attribute.classTexts_ofValue]
    by_cases hname : name = "class".toList
    · have hlen : o + byteLength (name ++ (before ++ '=' :: after)) =
          o + byteLength name + byteLength before + 1 + byteLength after := by
        simp [Char.utf8Size]
        omega
      have := (hlen ▸ ValueLayout.patched r hps).prepend (name ++ (before ++ '=' :: after))
      simpa [hname, AttributeLayout.text, AttributeLayout.revise] using this
    · rw [AttributeLayout.revise, if_neg hname, if_neg hname]
      exact .refl _ _

theorem TagLayout.patched {tag : TagLayout} {o : Nat} {as : List Attribute}
    (h : tag.attributes o = .ok as) :
    Patched o tag.text (r.rewrites (as.flatMap Attribute.classTexts)) [] (tag.revise r).text := by
  induction tag generalizing o as with
  | stop gap closed =>
    cases h
    exact .refl _ _
  | slash gap rest ih =>
    have hlen : o + byteLength (gap ++ ['/']) = o + byteLength gap + 1 := by
      simp [Char.utf8Size, Nat.add_assoc]
    have := (hlen ▸ ih h).prepend (gap ++ ['/'])
    simpa [TagLayout.text, TagLayout.revise] using this
  | item gap a rest ih =>
    obtain ⟨b, hb, h⟩ := exists_of_bind_ok h
    obtain ⟨bs, hbs, h⟩ := exists_of_bind_ok h
    cases h
    have := ((AttributeLayout.patched r hb).append (ih hbs)).prepend gap
    simpa [TagLayout.text, TagLayout.revise, r.rewrites_append] using this

theorem Mustache.classTexts_token? (m : Mustache) :
    m.token?.toList.flatMap Token.classTexts = [] := by
  cases m <;> rfl

theorem Mustache.topStyles_token? (m : Mustache) (names : List String) :
    m.token?.toList.flatMap (Token.topStyles names) = [] := by
  cases m <;> rfl

theorem Layout.patched {l : Layout} {o : Nat} {t : Option Token} (names : List String)
    (h : l.token o = .ok t) :
    Patched o l.text (r.rewrites (t.toList.flatMap Token.classTexts))
      ((t.toList.flatMap (Token.topStyles names)).map r.insert) (l.revise r names).text := by
  cases l with
  | comment body | closing body | plain w =>
    cases h
    exact .refl _ _
  | mustache inner =>
    obtain ⟨m, -, rfl⟩ := exists_of_map_ok h
    rw [m.classTexts_token?, m.topStyles_token?]
    exact .refl _ _
  | opening name tag =>
    obtain ⟨as, has, rfl⟩ := exists_of_map_ok h
    have hlen : o + byteLength ('<' :: name) = o + 1 + byteLength name := by
      simp [Char.utf8Size, Nat.add_assoc]
    have := (hlen ▸ TagLayout.patched r has).prepend ('<' :: name)
    simpa [Layout.text, Layout.revise, Token.classTexts, Tag.classTexts, Token.topStyles] using this
  | content name tag body tail =>
    obtain ⟨as, -, rfl⟩ := exists_of_map_ok h
    by_cases hname : String.ofList name = "style"
    · by_cases hnames : names = []
      · have hlen : o + byteLength ('<' :: (name ++ tag.text)) =
            o + 1 + byteLength name + byteLength tag.text := by
          simp [Char.utf8Size, Nat.add_assoc]
        have hrest : Patched (o + byteLength ('<' :: (name ++ tag.text)))
            (body ++ '<' :: '/' :: (name ++ (tail ++ ['>']))) [] [⟨_, .ofList r.inserted⟩] _ :=
          .insert (.refl _ _)
        have := hrest.prepend ('<' :: (name ++ tag.text))
        rw [hlen] at this
        simpa [Layout.text, Layout.revise, Token.classTexts, Token.topStyles, Revision.rewrites,
          Revision.insert, hname, hnames] using this
      · simpa [Layout.revise, Token.classTexts, Token.topStyles, Revision.rewrites, hname, hnames]
          using Patched.refl _ _
    · simpa [Layout.revise, Revision.rewrites, hname] using Patched.refl _ _

theorem Layout.nest_eq {l : Layout} {o : Nat} {t : Option Token} (names : List String)
    (h : l.token o = .ok t) : l.nest names = t.elim names (Token.nest names) := by
  cases l with
  | comment body | closing body | plain w =>
    cases h
    rfl
  | mustache inner =>
    obtain ⟨m, -, rfl⟩ := exists_of_map_ok h
    cases m <;> rfl
  | opening name tag =>
    obtain ⟨as, -, rfl⟩ := exists_of_map_ok h
    rfl
  | content name tag body tail =>
    obtain ⟨as, -, rfl⟩ := exists_of_map_ok h
    split <;> rfl

theorem topStyles_toList_append (names : List String) (t : Option Token) (ts : List Token) :
    topStyles names (t.toList ++ ts) =
      t.toList.flatMap (Token.topStyles names) ++ topStyles (t.elim names (Token.nest names)) ts := by
  cases t with
  | none => rfl
  | some t => simp [topStyles]

/-- The text of a revised layout is the text of that layout with just the changes that its tokens
ask for. -/
theorem patched_textOf {ls : List Layout} {o : Nat} {ts : List Token} (names : List String)
    (h : tokensOf o ls = .ok ts) :
    Patched o (textOf ls) (r.rewrites (ts.flatMap Token.classTexts))
      ((topStyles names ts).map r.insert) (textOf (reviseAll r names ls)) := by
  induction ls generalizing o ts names with
  | nil =>
    cases h
    exact .nil
  | cons l ls ih =>
    obtain ⟨t, ht, h⟩ := exists_of_bind_ok h
    obtain ⟨ts, hts, h⟩ := exists_of_bind_ok h
    cases h
    rw [reviseAll, topStyles_toList_append, List.flatMap_append, r.rewrites_append, List.map_append,
      ← Layout.nest_eq names ht]
    exact (Layout.patched r names ht).append (ih _ hts)

end Patched

end ClassWeave.Markup

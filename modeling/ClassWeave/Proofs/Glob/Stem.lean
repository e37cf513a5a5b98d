import ClassWeave.Failure
import ClassWeave.Proofs.Glob.Plain

/-!
What a pattern says before its first star, question mark, class or choice has to stand at the front
of every text that it matches. This holds of the names before a slash, and of that slash: a `**`
behind it may take its place, but takes a slash itself.
-/

namespace ClassWeave

namespace Text

theorem utf8EncodeChar_append_inj {c d : Char} {s t : List UInt8}
    (h : String.utf8EncodeChar c ++ s = String.utf8EncodeChar d ++ t) : c = d ∧ s = t := by
  have hdecode (c : Char) (s : List UInt8) :
      (String.utf8EncodeChar c ++ s).toByteArray.utf8DecodeChar? 0 = some c := by
    rw [List.toByteArray_append]
    exact ByteArray.utf8DecodeChar?_utf8EncodeChar_append
  have hc := hdecode c s
  rw [h, hdecode d t, Option.some.injEq] at hc
  subst hc
  exact ⟨rfl, List.append_cancel_left h⟩

theorem isPrefix_of_utf8 {v w : List Char} (h : utf8 v <+: utf8 w) : v <+: w := by
  induction v generalizing w with
  | nil => exact List.nil_prefix
  | cons c v ih =>
    obtain ⟨s, hs⟩ := h
    rw [utf8, List.flatMap_cons, List.append_assoc] at hs
    cases w with
    | nil =>
      have hlen := congrArg List.length hs
      have hpos := c.utf8Size_pos
      simp at hlen
      omega
    | cons d w =>
      rw [utf8, List.flatMap_cons] at hs
      obtain ⟨rfl, htail⟩ := utf8EncodeChar_append_inj hs
      exact List.cons_prefix_cons.2 ⟨rfl, ih ⟨s, htail⟩⟩

end Text

namespace Glob

open Text

def Spells (g : Glob) (w : List UInt8) : Prop := ∀ s r, r ∈ g.rests true s → s = w ++ r

def Begins (g : Glob) (w : List UInt8) : Prop :=
  ∀ s r, r ∈ g.rests true s → ∃ m, s = w ++ (m ++ r)

theorem exists_of_mem_append {a b : Glob} {s r : List UInt8}
    (h : r ∈ (append a b).rests true s) : ∃ t ∈ a.rests true s, r ∈ b.rests true t := by
  rwa [rests, List.mem_eraseDups, List.mem_flatMap] at h

section

variable {a b : Glob} {v w : List UInt8}

theorem spells_empty : Spells .empty [] := by
  intro s r h
  exact (List.mem_singleton.1 h).symm

theorem spells_literal (c : Char) : Spells (.literal c) (utf8 [c]) := by
  intro s r h
  have hc : utf8 [c] = String.utf8EncodeChar c := List.append_nil _
  rw [rests] at h
  split at h
  · next hprefix =>
    obtain ⟨t, rfl⟩ := hprefix
    rw [List.drop_left, List.mem_singleton] at h
    rw [h, hc]
  · cases h

theorem Spells.append (ha : a.Spells v) (hb : b.Spells w) : (Glob.append a b).Spells (v ++ w) := by
  intro s r h
  obtain ⟨t, ht, hr⟩ := exists_of_mem_append h
  rw [ha s t ht, hb t r hr, List.append_assoc]

theorem Spells.append_begins (ha : a.Spells v) (hb : b.Begins w) :
    (Glob.append a b).Begins (v ++ w) := by
  intro s r h
  obtain ⟨t, ht, hr⟩ := exists_of_mem_append h
  obtain ⟨m, rfl⟩ := hb t r hr
  exact ⟨m, by rw [ha s _ ht, List.append_assoc]⟩

theorem Begins.append (ha : a.Begins w) (b : Glob) : (Glob.append a b).Begins w := by
  intro s r h
  obtain ⟨t, ht, hr⟩ := exists_of_mem_append h
  obtain ⟨m, rfl⟩ := ha s t ht
  obtain ⟨n, rfl⟩ := suffix_of_mem_rests hr
  exact ⟨m ++ n, by rw [List.append_assoc]⟩

theorem Spells.begins (h : a.Spells w) : a.Begins w := by
  intro s r hr
  exact ⟨[], h s r hr⟩

theorem exists_tail_of_mem_rests {g : Glob} (hg : g = .innerPath ∨ g = .trailingPath)
    {s r : List UInt8} (h : r ∈ g.rests true s) : ∃ bs, s = slash :: bs ∧ r <:+ bs := by
  cases s with
  | nil => rcases hg with rfl | rfl <;> cases h
  | cons b bs =>
    by_cases hb : b = slash
    · refine ⟨bs, by rw [hb], ?_⟩
      rcases hg with rfl | rfl
      · rw [rests, if_pos hb] at h
        rcases List.mem_cons.1 h with rfl | h
        · exact List.suffix_refl _
        · exact suffix_of_mem_restsAfterSlash h
      · rw [rests, if_pos hb] at h
        exact suffix_of_mem_restsWhile h
    · rcases hg with rfl | rfl
      all_goals
        rw [rests, if_neg hb] at h
        cases h

theorem begins_slash {g : Glob} (hg : g = .innerPath ∨ g = .trailingPath) : g.Begins [slash] := by
  intro s r h
  obtain ⟨bs, rfl, m, rfl⟩ := exists_tail_of_mem_rests hg h
  exact ⟨m, rfl⟩

end

/-- Begins with `w`, the slash at whose end may be all of the last part. -/
def Stem (w : List UInt8) (g : Glob) : Prop :=
  ∃ a x, g = append a x ∧
    (a.Begins w ∨ ∃ v, w = v ++ [slash] ∧ a.Spells v ∧ x.Begins [slash])

namespace Stem

variable {w : List UInt8} {g : Glob}

theorem begins (h : Stem w g) : g.Begins w := by
  obtain ⟨a, x, rfl, ha | ⟨v, rfl, ha, hx⟩⟩ := h
  · exact ha.append x
  · exact ha.append_begins hx

theorem append (h : Stem w g) (x : Glob) : Stem w (.append g x) := ⟨g, x, rfl, .inl h.begins⟩

theorem joinPath (h : Stem w g) {j : Glob} (hj : j = .innerPath ∨ j = .trailingPath) :
    Stem w (Reading.joinPath j g) := by
  obtain ⟨a, x, rfl, hax⟩ := h
  have hreplaced : Stem w (.append a j) := by
    refine ⟨a, j, rfl, ?_⟩
    rcases hax with ha | ⟨v, hw, ha, -⟩
    · exact .inl ha
    · exact .inr ⟨v, hw, ha, begins_slash hj⟩
  rw [Reading.joinPath.eq_def]
  split
  · next heq => exact heq ▸ ⟨a, x, rfl, hax⟩
  · next heq => exact heq ▸ ⟨a, x, rfl, hax⟩
  · next heq =>
    cases heq
    exact hreplaced
  · next hne => exact absurd rfl (hne a x)

end Stem

/-- That all that is read from here on makes a pattern that begins with `w`: inside of braces, what
counts is what stands before the outermost one. -/
def Reading.Stems (r : Reading) (w : List UInt8) : Prop :=
  match r.choices.getLast? with
  | none => Stem w r.current
  | some c => c.before.Begins w

namespace Reading.Stems

variable {r : Reading} {w : List UInt8}

theorem of_choices (h : r.Stems w) {r' : Reading} (hchoices : r'.choices = r.choices)
    (hcurrent : Stem w r.current → Stem w r'.current) : r'.Stems w := by
  rw [Stems] at h ⊢
  rw [hchoices]
  split at h
  · exact hcurrent h
  · exact h

theorem push (h : r.Stems w) (g : Glob) (c : Char) : (r.push g c).Stems w :=
  h.of_choices rfl fun hstem => hstem.append g

theorem openBrace (h : r.Stems w) : r.openBrace.Stems w := by
  rw [Stems] at h ⊢
  rw [Reading.openBrace]
  cases hchoices : r.choices with
  | nil =>
    rw [hchoices] at h
    exact Stem.begins h
  | cons c cs =>
    rw [hchoices] at h
    rwa [List.getLast?_cons_cons]

theorem comma (h : r.Stems w) : r.comma.Stems w := by
  rw [Reading.comma]
  split
  · exact h.push _ _
  · next c cs hchoices =>
    rw [Stems, hchoices] at h
    rw [Stems]
    cases cs with
    | nil => exact h
    | cons c' cs => rwa [List.getLast?_cons_cons] at h ⊢

theorem closeBrace (h : r.Stems w) {r' : Reading} (hr' : r.closeBrace = .ok r') : r'.Stems w := by
  rw [Reading.closeBrace] at hr'
  split at hr'
  · cases hr'
  · next c cs hchoices =>
    cases hr'
    rw [Stems, hchoices] at h
    rw [Stems]
    cases cs with
    | nil => exact ⟨c.before, _, rfl, .inl h⟩
    | cons c' cs => rwa [List.getLast?_cons_cons] at h

theorem doubleStar (h : r.Stems w) (next : Option Char) : (r.doubleStar next).1.Stems w := by
  rw [Reading.doubleStar]
  split
  · next hempty =>
    -- A stem ends in a part of its own, and only an empty pattern lets a `**` begin it.
    have hnot : ¬ Stem w r.current := by
      rintro ⟨a, x, heq, -⟩
      rw [hempty] at heq
      cases heq
    split
    · exact h.of_choices rfl fun hstem => absurd hstem hnot
    · exact h.of_choices rfl fun hstem => absurd hstem hnot
  · split
    · refine h.of_choices rfl fun hstem => hstem.joinPath ?_
      split
      · exact .inl rfl
      · exact .inr rfl
    · exact h.of_choices rfl fun hstem => (hstem.append _).append _

theorem begins_of_read {lenient : Bool} {cs : List Char} {g : Glob} (h : r.Stems w)
    (hg : read lenient r cs = .ok g) : g.Begins w := by
  fun_induction read lenient r cs with
  | case1 | case9 | case10 | case14 => cases hg
  | case2 r hbraces =>
    cases hg
    have hchoices : r.choices = [] := by simpa [inBraces] using hbraces
    rw [Stems, hchoices] at h
    exact Stem.begins h
  | case3 | case5 | case6 | case7 | case15 | case16 =>
    next ih => exact ih (h.push _ _) hg
  | case4 r cs step ih => exact ih (h.doubleStar _) hg
  | case8 r cs _ _ _ ih => exact ih ((h.push (.literal '[') '[').of_choices rfl id) hg
  | case11 r cs ih => exact ih h.openBrace hg
  | case12 r cs ih =>
    obtain ⟨r', hr', hg⟩ := exists_of_bind_ok hg
    exact ih r' (h.closeBrace hr') hg
  | case13 r cs ih => exact ih h.comma hg

end Reading.Stems

def isPlain (c : Char) : Bool :=
  !(c == '*' || c == '?' || c == '[' || c == '\x7b' || c == '\x5c')

theorem read_plain {r : Reading} (hchoices : r.choices = []) {c : Char} (hc : isPlain c = true)
    {cs : List Char} {g : Glob} (hg : read false r (c :: cs) = .ok g) :
    read false (r.push (.literal c) c) cs = .ok g := by
  simp only [isPlain, Bool.not_eq_eq_eq_not, Bool.not_true, Bool.or_eq_false_iff,
    beq_eq_false_iff_ne] at hc
  obtain ⟨⟨⟨⟨hstar, hsingle⟩, hclass⟩, hbrace⟩, hescape⟩ := hc
  by_cases hclose : c = '\x7d'
  · subst hclose
    rw [read, Reading.closeBrace, hchoices] at hg
    cases hg
  by_cases hcomma : c = ','
  · subst hcomma
    rwa [read, Reading.comma, hchoices] at hg
  · rw [read] at hg <;> simp_all

theorem exists_read_plain {v cs : List Char} (hv : ∀ c ∈ v, isPlain c = true) {r : Reading}
    {u : List Char} {g : Glob} (hchoices : r.choices = []) (hspells : r.current.Spells (utf8 u))
    (hg : read false r (v ++ cs) = .ok g) :
    ∃ r', read false r' cs = .ok g ∧ r'.choices = [] ∧ r'.current.Spells (utf8 (u ++ v)) := by
  induction v generalizing r u with
  | nil => exact ⟨r, hg, hchoices, by rwa [List.append_nil]⟩
  | cons c v ih =>
    rw [List.forall_mem_cons] at hv
    have hnext : (r.push (.literal c) c).current.Spells (utf8 (u ++ [c])) := by
      rw [utf8_append]
      exact hspells.append (spells_literal c)
    have hrest := ih hv.2 (r := r.push (.literal c) c) hchoices hnext (read_plain hchoices hv.1 hg)
    rwa [List.append_assoc] at hrest

theorem begins_of_parse {v cs : List Char} (hv : ∀ c ∈ v, isPlain c = true) {g : Glob}
    (hg : parse (v ++ '/' :: cs) = .ok g) : g.Begins (utf8 v ++ [slash]) := by
  obtain ⟨r, hread, hchoices, hspells⟩ := exists_read_plain hv (u := []) rfl spells_empty hg
  have hslash := read_plain hchoices (c := '/') rfl hread
  have hstems : (r.push (.literal '/') '/').Stems (utf8 v ++ [slash]) := by
    rw [Reading.Stems, Reading.push, hchoices]
    exact ⟨r.current, .literal '/', rfl, .inr ⟨_, rfl, hspells, (spells_literal '/').begins⟩⟩
  exact hstems.begins_of_read hslash

theorem Begins.isPrefix {g : Glob} {w s : List UInt8} (h : g.Begins w) (hw : w ≠ [])
    (hs : g.accepts true s = true) : w <+: s := by
  rw [accepts, Bool.or_eq_true, beq_iff_eq, List.contains_iff_mem] at hs
  rcases hs with rfl | hs
  · obtain ⟨m, hm⟩ := h [] [] (by decide)
    exact absurd (List.append_eq_nil_iff.1 hm.symm).1 hw
  · obtain ⟨m, rfl⟩ := h s [] hs
    exact List.prefix_append _ _

end Glob

end ClassWeave

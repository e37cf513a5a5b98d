import Mathlib.Data.List.TakeWhile
import ClassWeave.Proofs.Markup.Reading
import ClassWeave.Proofs.Text.Blank

namespace ClassWeave.Markup

open Text

theorem exists_of_readMustache {c d : Cursor} {m : Mustache} {cs : List Char}
    (hc : c.rest = '\x7b' :: cs) (h : readMustache c = .ok (m, d)) :
    ∃ inner, Balanced inner ∧ c.rest = '\x7b' :: (inner ++ '\x7d' :: d.rest) := by
  obtain ⟨o, cs'⟩ := c
  cases hc
  cases hs : splitBraces .top cs with
  | none =>
    rw [readMustache, List.tail_cons, hs] at h
    cases h
  | some p =>
    obtain ⟨inner, after⟩ := p
    have hinner := balanced_of_splitBraces hs
    rw [splitBraces_append hs, readMustache_ofInner hinner] at h
    obtain ⟨m', -, hm⟩ := exists_of_map_ok h
    cases hm
    exact ⟨inner, hinner, by rw [splitBraces_append hs]⟩

theorem quotable_word (quote : Char) (c : Cursor) : Quotable quote (c.word (stays quote)) := by
  intro x hx
  have := List.mem_takeWhile_imp hx
  simpa using this

theorem rest_advance {c : Cursor} {x : Char} {cs : List Char} (h : c.rest = x :: cs) :
    (c.advance 1).rest = cs := by
  simp [Cursor.advance, h]

theorem exists_of_readQuoted {quote : Char} {opening : Nat} {c d : Cursor} {ps : List ValuePart}
    (h : readQuoted quote opening c = .ok (ps, d)) :
    ∃ runs last, (∀ r ∈ runs, Quotable quote r.1 ∧ Balanced r.2) ∧ Quotable quote last ∧
      c.rest = quotedText quote last runs ++ d.rest := by
  fun_induction readQuoted quote opening c generalizing ps with
  | case1 | case3 | case4 => cases h
  | case2 c =>
    rename_i hd
    cases h
    refine ⟨[], _, by simp, quotable_word quote c, ?_⟩
    have hskip : (c.skip (stays quote)).rest = _ := hd
    rw [(c.reads_skip (stays quote)).rest_eq, rest_advance hd, hskip]
    simp [quotedText]
  | case5 c =>
    rename_i hd hx m e hm more f hq ih
    cases h
    obtain ⟨runs, last, hruns, hlast, hrest⟩ := ih hq
    have hskip : (c.skip (stays quote)).rest = _ := hd
    have hmark := Cursor.not_of_skip hskip
    simp [hx] at hmark
    subst hmark
    obtain ⟨inner, hinner, hbrace⟩ := exists_of_readMustache hskip hm
    refine ⟨(c.word (stays quote), inner) :: runs, last, ?_, hlast, ?_⟩
    · intro r hr
      rcases List.mem_cons.1 hr with rfl | hr
      · exact ⟨quotable_word quote c, hinner⟩
      · exact hruns r hr
    · have htext : c.rest = c.word (stays quote) ++ (c.skip (stays quote)).rest :=
        (c.reads_skip (stays quote)).rest_eq
      rw [htext, hbrace, hrest]
      simp [quotedText]

theorem exists_of_unquotedText (cs : List Char) :
    ∃ r, cs = unquotedText cs ++ r ∧ (r ≠ [] → endsBare r = true) := by
  induction cs with
  | nil => exact ⟨[], rfl, by simp⟩
  | cons x cs ih =>
    by_cases hx : endsBare (x :: cs) = true
    · exact ⟨x :: cs, by rw [unquotedText_eq_nil hx]; rfl, fun _ => hx⟩
    · obtain ⟨r, hr, hend⟩ := ih
      refine ⟨r, ?_, hend⟩
      rw [endsBare] at hx
      rw [unquotedText, if_neg hx, List.cons_append, ← hr]

theorem exists_of_readValue {c d : Cursor} {ps : List ValuePart}
    (hblank : ∀ x, c.rest.head? = some x → isBlank x = false) (h : readValue c = .ok (ps, d)) :
    ∃ v : ValueLayout, (d.rest ≠ [] → v.Valid d.rest) ∧ c.rest = v.text ++ d.rest := by
  rw [readValue] at h
  split at h
  · cases h
  next x xs hc =>
  by_cases hquote : x = '\x22' ∨ x = '\x27'
  · rw [if_pos hquote] at h
    obtain ⟨runs, last, hruns, hlast, hrest⟩ := exists_of_readQuoted h
    rw [rest_advance hc] at hrest
    refine ⟨.quoted x runs last, fun _ => ⟨hquote, hruns, hlast⟩, ?_⟩
    rw [hc, hrest]
    rfl
  rw [if_neg hquote] at h
  by_cases hbrace : x = '\x7b'
  · rw [if_pos hbrace] at h
    subst hbrace
    obtain ⟨⟨m, e⟩, hm, hq⟩ := exists_of_map_ok h
    cases hq
    obtain ⟨inner, hinner, hrest⟩ := exists_of_readMustache hc hm
    refine ⟨.braced inner, fun _ => hinner, ?_⟩
    rw [hrest]
    simp [ValueLayout.text]
  · rw [if_neg hbrace] at h
    cases h
    obtain ⟨r, hr, hend⟩ := exists_of_unquotedText c.rest
    have hd : (c.advance (unquotedText c.rest).length).rest = r := by
      have := congrArg (List.drop (unquotedText c.rest).length) hr
      rwa [List.drop_left] at this
    rw [hd]
    refine ⟨.bare (unquotedText c.rest), fun hne => ⟨hend hne, ?_, ?_⟩, hr⟩
    · rw [← hr]
    · rw [← hr, hc]
      have hx := hblank x (by rw [hc]; rfl)
      simp [opensValue, hbrace, hx, not_or.1 hquote]

theorem blanks_word (c : Cursor) : Blanks (c.word isBlank) := fun _ hy =>
  List.mem_takeWhile_imp hy

theorem rest_eq_skipBlanks (c : Cursor) : c.rest = c.word isBlank ++ c.skipBlanks.rest :=
  (c.reads_skip isBlank).rest_eq

theorem isName_word {c : Cursor} (hbrace : c.rest.head? ≠ some '\x7b') :
    IsName (c.word fun x => !endsName x) := by
  constructor
  · intro y hy
    simpa using List.mem_takeWhile_imp hy
  · intro hhead
    apply hbrace
    rw [(c.reads_skip fun x => !endsName x).rest_eq, List.head?_append, hhead]
    rfl

theorem endsName_of_skip {c : Cursor} {y : Char}
    (hy : (c.skip fun x => !endsName x).rest.head? = some y) : endsName y = true := by
  simpa using head?_dropWhile hy

theorem exists_of_word_eq_nil {c : Cursor} {x : Char} {xs : List Char} (hc : c.rest = x :: xs)
    (hx : x = '=' ∨ endsName x = false) (hnil : (c.word fun x => !endsName x) = []) :
    ∃ cs, (c.skip fun x => !endsName x).rest = '=' :: cs := by
  have hword := (c.reads_skip fun x => !endsName x).rest_eq
  rw [hnil, List.nil_append, hc] at hword
  rcases hx with rfl | hx
  · exact ⟨xs, hword.symm⟩
  · have := endsName_of_skip (c := c) (y := x) (by rw [← hword]; rfl)
    simp [hx] at this

theorem exists_of_valued {e f : Cursor} {r : List Char} {ps : List ValuePart}
    (hr : e.skipBlanks.rest = '=' :: r) (hne : f.rest ≠ [])
    (hv : readValue (e.skipBlanks.advance 1).skipBlanks = .ok (ps, f)) :
    ∃ (after : List Char) (v : ValueLayout), Blanks after ∧ v.Valid f.rest ∧
      e.rest = e.word isBlank ++ '=' :: (after ++ (v.text ++ f.rest)) := by
  obtain ⟨v, hvalid, hrest⟩ := exists_of_readValue (fun y hy => head?_dropWhile hy) hv
  refine ⟨(e.skipBlanks.advance 1).word isBlank, v, blanks_word _, hvalid hne, ?_⟩
  have hafter := rest_eq_skipBlanks (e.skipBlanks.advance 1)
  rw [rest_advance hr, hrest] at hafter
  rw [← hafter, ← hr]
  exact rest_eq_skipBlanks e

theorem exists_of_readAttribute {c d : Cursor} {a : Attribute} {x : Char} {xs : List Char}
    (hc : c.rest = x :: xs) (hx : x = '=' ∨ endsName x = false)
    (h : readAttribute c = .ok (a, d)) (hd : d.skipBlanks.rest ≠ []) :
    ∃ l : AttributeLayout, l.Valid d.rest ∧ c.rest = l.text ++ d.rest := by
  have hne : d.rest ≠ [] := by
    intro hd'
    simp [Cursor.skipBlanks, Cursor.skip, hd'] at hd
  rw [readAttribute] at h
  by_cases hbrace : c.rest.head? = some '\x7b'
  · rw [if_pos hbrace] at h
    obtain ⟨cs, hcs⟩ := List.head?_eq_some_iff.1 hbrace
    obtain ⟨⟨m, e⟩, hm, hq⟩ := exists_of_map_ok h
    cases hq
    obtain ⟨inner, hinner, hrest⟩ := exists_of_readMustache hcs hm
    refine ⟨.braced inner, hinner, ?_⟩
    rw [hrest]
    simp [AttributeLayout.text]
  rw [if_neg hbrace] at h
  dsimp only at h
  have hname := isName_word hbrace
  have hword := (c.reads_skip fun x => !endsName x).rest_eq
  have hstop := fun y => endsName_of_skip (c := c) (y := y)
  have hempty := exists_of_word_eq_nil hc hx
  generalize c.word (fun x => !endsName x) = name at h hword hname hempty
  generalize c.skip (fun x => !endsName x) = e at h hword hstop hempty
  by_cases hequals : e.skipBlanks.rest.head? = some '='
  · rw [if_pos hequals] at h
    obtain ⟨⟨ps, f⟩, hv, hq⟩ := exists_of_map_ok h
    cases hq
    obtain ⟨r, hr⟩ := List.head?_eq_some_iff.1 hequals
    obtain ⟨after, v, hafter, hvalid, hrest⟩ := exists_of_valued hr hne hv
    refine ⟨.valued name (e.word isBlank) after v,
      ⟨hname, blanks_word e, ?_, hafter, hvalid⟩, ?_⟩
    · intro hnil
      obtain ⟨cs, hcs⟩ := hempty hnil
      rw [Cursor.word, hcs]
      rfl
    · rw [hword, hrest]
      simp [AttributeLayout.text]
  · rw [if_neg hequals] at h
    cases h
    refine ⟨.single name, ⟨hname, ?_, ?_, ?_⟩, hword⟩
    · intro hnil
      obtain ⟨cs, hcs⟩ := hempty hnil
      apply hequals
      rw [Cursor.skipBlanks, Cursor.skip_eq_self hcs rfl, hcs]
      rfl
    · obtain ⟨y, r, hr⟩ := List.exists_cons_of_ne_nil hne
      have := hstop y (by rw [hr]; rfl)
      simpa [hr] using this
    · obtain ⟨y, r, hr⟩ := List.exists_cons_of_ne_nil hd
      have hr' : trimStart d.rest = y :: r := hr
      rw [hr] at hequals
      simpa [hr'] using hequals

theorem SameStart.symm {a b : List Char} (h : SameStart a b) : SameStart b a :=
  ⟨h.head.symm, h.bare.symm, h.mark.symm⟩

theorem skipBlanks_ne_nil {start : Nat} {name : String} {c : Cursor}
    {r : List Attribute × Bool × Cursor} (h : readAttributes start name c = .ok r) :
    c.skipBlanks.rest ≠ [] := by
  intro hnil
  rw [readAttributes] at h
  split at h
  · cases h
  · next hd => rw [hnil] at hd; cases hd

theorem exists_of_readAttributes {start : Nat} {name : String} {c d : Cursor}
    {as : List Attribute} {closed : Bool} (h : readAttributes start name c = .ok (as, closed, d)) :
    ∃ tag : TagLayout, tag.Valid ∧ c.rest = tag.text ++ d.rest := by
  fun_induction readAttributes start name c generalizing as with
  | case1 | case5 => cases h
  | case2 c =>
    rename_i x xs hd hx
    obtain ⟨rfl, hhead⟩ := hx
    obtain ⟨r, rfl⟩ := List.head?_eq_some_iff.1 hhead
    cases h
    refine ⟨.stop (c.word isBlank) true, blanks_word c, ?_⟩
    have hrest : c.skipBlanks.rest = '/' :: '>' :: r := hd
    rw [rest_eq_skipBlanks c, hrest]
    simp [TagLayout.text, Cursor.advance, hd]
  | case3 c =>
    rename_i xs hd hne
    cases h
    refine ⟨.stop (c.word isBlank) false, blanks_word c, ?_⟩
    have hrest : c.skipBlanks.rest = '>' :: xs := hd
    rw [rest_eq_skipBlanks c, hrest]
    simp [TagLayout.text, Cursor.advance, hd]
  | case4 c =>
    rename_i xs hd hne hstop ih
    obtain ⟨rest, hrest, htail⟩ := ih h
    rw [rest_advance hd] at htail
    refine ⟨.slash (c.word isBlank) rest, ⟨blanks_word c, ?_, hrest⟩, ?_⟩
    · rw [(rest.sameStart_append d.rest).head, ← htail]
      simpa using hne
    · have hslash : c.skipBlanks.rest = '/' :: xs := hd
      rw [rest_eq_skipBlanks c, hslash, htail]
      simp [TagLayout.text]
  | case6 c =>
    rename_i x xs hd hne hstop hslash a e ha ih
    obtain ⟨⟨bs, closed', f⟩, hr, h⟩ := exists_of_map_ok h
    cases h
    have hx : x = '=' ∨ endsName x = false := by
      have := Cursor.not_of_skip hd
      by_cases h : x = '='
      · exact .inl h
      · exact .inr (by simp [endsName, this, h, hstop, hslash])
    obtain ⟨l, hl, hrest⟩ := exists_of_readAttribute hd hx ha (skipBlanks_ne_nil hr)
    obtain ⟨rest, hvalid, htail⟩ := ih hr
    refine ⟨.item (c.word isBlank) l rest, ⟨blanks_word c, ?_, hvalid⟩, ?_⟩
    · rw [htail] at hl
      exact hl.congr (rest.sameStart_append _).symm
    · have hitem : c.skipBlanks.rest = l.text ++ e.rest := hrest
      rw [rest_eq_skipBlanks c, hitem, htail]
      simp [TagLayout.text]

theorem exists_of_seekPast {needle : String} {cause : ParseCause} {c d e : Cursor} {w : List Char}
    (h : seekPast needle cause c = .ok (w, d, e)) :
    Precedes needle.toList w ∧ c.rest = w ++ d.rest ∧ d.rest = needle.toList ++ e.rest := by
  rw [seekPast] at h
  split at h
  · cases h
  · next hs =>
    cases h
    refine ⟨Cursor.precedes_of_seek hs, (Cursor.reads_seek hs).rest_eq, ?_⟩
    obtain ⟨r, hr⟩ := List.isPrefixOf_iff_prefix.1 (Cursor.isPrefixOf_of_seek hs)
    have hlen : needle.length = needle.toList.length := String.length_toList.symm
    rw [Cursor.advance, ← hr, hlen, List.drop_left]

theorem not_mem_of_precedes {x : Char} {w : List Char} (h : Precedes [x] w) : x ∉ w := by
  induction w with
  | nil => simp
  | cons y w ih =>
    rw [Precedes, List.cons_append, splitBefore] at h
    split at h
    · cases h
    · next hne =>
      obtain ⟨⟨a, b⟩, hs, hq⟩ := Option.map_eq_some_iff.1 h
      cases hq
      have hy : x ≠ y := by
        rintro rfl
        simp [List.isPrefixOf] at hne
      simp [hy, ih hs]

theorem exists_append_of_mark {x : Char} {a b w r : List Char} (ha : x ∉ a)
    (h : a ++ b = w ++ x :: r) : ∃ t, w = a ++ t ∧ b = t ++ x :: r := by
  rcases List.append_eq_append_iff.1 h with ⟨t, rfl, rfl⟩ | ⟨t, rfl, ht⟩
  · exact ⟨t, rfl, rfl⟩
  · cases t with
    | nil => exact ⟨[], by simp, by simpa using ht.symm⟩
    | cons y t =>
      obtain ⟨rfl, -⟩ := List.cons.inj ht
      simp at ha

theorem exists_of_startsWith {c : Cursor} {w : String} (h : c.startsWith w = true) :
    ∃ r, c.rest = w.toList ++ r := by
  obtain ⟨r, hr⟩ := List.isPrefixOf_iff_prefix.1 h
  exact ⟨r, hr.symm⟩

theorem exists_of_readContent {start : Nat} {name : List Char} {c d : Cursor} {t : Option Token}
    (hname : IsContentName name) (h : readContent start (.ofList name) c = .ok (t, d)) :
    ∃ body tail, Precedes ('<' :: '/' :: name) body ∧ '>' ∉ tail ∧
      c.rest = body ++ '<' :: '/' :: (name ++ (tail ++ '>' :: d.rest)) := by
  obtain ⟨⟨body, close, e⟩, hbody, h⟩ := exists_of_bind_ok h
  obtain ⟨⟨w, f, g⟩, hw, h⟩ := exists_of_bind_ok h
  cases h
  obtain ⟨hprecedes, hc, hclose⟩ := exists_of_seekPast hbody
  obtain ⟨hmark, hw, hf⟩ := exists_of_seekPast hw
  have hneedle : ("</" ++ String.ofList name).toList = '<' :: '/' :: name := by simp
  rw [hneedle] at hprecedes hclose
  have hclosing : '>' ∉ '<' :: '/' :: name := by
    rcases hname.eq_or_eq with rfl | rfl <;> simp
  rw [hclose, hf] at hw
  obtain ⟨tail, rfl, htail⟩ := exists_append_of_mark hclosing hw
  refine ⟨body, tail, hprecedes, ?_, ?_⟩
  · have : '>' ∉ '<' :: '/' :: name ++ tail := not_mem_of_precedes hmark
    exact fun htail => this (by simp [htail])
  · rw [hc, hclose, htail]
    simp

theorem not_endsTagName_of_isAlpha {x : Char} (h : x.isAlpha = true) : endsTagName x = false := by
  have hne : x ≠ '/' ∧ x ≠ '>' := by
    constructor <;> rintro rfl <;> exact absurd h (by decide)
  obtain ⟨hl, hu⟩ := toNat_of_isAlpha h
  have hblank : isBlank x = false := not_isBlank_of_ascii (by omega) (by omega)
  simp [endsTagName, hne, hblank]

theorem exists_of_readOpening {c d : Cursor} {t : Option Token} (hc : opensTag c.rest = true)
    (h : readOpening c = .ok (t, d)) :
    ∃ l : Layout, l.Valid d.rest ∧ c.rest = l.text ++ d.rest := by
  obtain ⟨x, cs, hrest, hx⟩ : ∃ x cs, c.rest = '<' :: x :: cs ∧ x.isAlpha = true := by
    rw [opensTag.eq_def] at hc
    split at hc
    · next x cs heq => exact ⟨x, cs, heq, hc⟩
    · cases hc
  obtain ⟨⟨as, closed, e⟩, hr, h⟩ := exists_of_bind_ok h
  obtain ⟨tag, htag, htext⟩ := exists_of_readAttributes hr
  dsimp only at h
  have hadvance : (c.advance 1).rest = x :: cs := rest_advance hrest
  have hword := ((c.advance 1).reads_skip fun x => !endsTagName x).rest_eq
  rw [htext, hadvance] at hword
  have hall : ∀ y ∈ (c.advance 1).word (fun x => !endsTagName x), endsTagName y = false := by
    intro y hy
    simpa using List.mem_takeWhile_imp hy
  have hstop : tag.text.head?.any endsTagName = true := by
    rw [(tag.sameStart_append e.rest).head, ← htext]
    obtain ⟨u, hu⟩ := tag.text_eq_append
    cases hs : ((c.advance 1).skip fun x => !endsTagName x).rest with
    | nil => simp [htext, hu] at hs
    | cons y r => simpa using Cursor.not_of_skip hs
  have halpha : ((c.advance 1).word fun x => !endsTagName x).head?.any Char.isAlpha = true := by
    have hne := not_endsTagName_of_isAlpha hx
    simp [Cursor.word, hadvance, hne, hx]
  generalize (c.advance 1).word (fun x => !endsTagName x) = name at *
  split at h
  · next hname =>
    obtain ⟨body, tail, hbody, htail, hcontent⟩ := exists_of_readContent hname h
    refine ⟨.content name tag body tail, ⟨hname, hstop, htag, hbody, htail⟩, ?_⟩
    rw [hrest, hword, hcontent]
    simp [Layout.text]
  · next hname =>
    cases h
    refine ⟨.opening name tag, ⟨⟨halpha, hall⟩, hname, hstop, htag⟩, ?_⟩
    rw [hrest, hword]
    simp [Layout.text]

theorem startsPlain_of {c : Cursor} (hcomment : ¬ c.startsWith "<!--" = true)
    (hclosing : ¬ c.startsWith "</" = true) (htag : ¬ opensTag c.rest = true)
    (hmustache : ¬ c.startsWith "\x7b" = true) : StartsPlain c.rest := by
  rw [Cursor.startsWith, List.isPrefixOf_iff_prefix] at hcomment hclosing hmustache
  refine ⟨fun hhead => hmustache ?_, hcomment, hclosing, by simpa using htag⟩
  obtain ⟨r, hr⟩ := List.head?_eq_some_iff.1 hhead
  exact ⟨r, hr.symm⟩

theorem StartsPlain.of_append {w r : List Char} (hw : w ≠ []) (h : StartsPlain (w ++ r)) :
    StartsPlain w := by
  obtain ⟨hbrace, hcomment, hclosing, htag⟩ := h
  refine ⟨?_, fun hp => hcomment (hp.trans (List.prefix_append w r)),
    fun hp => hclosing (hp.trans (List.prefix_append w r)), ?_⟩
  · obtain ⟨x, w, rfl⟩ := List.exists_cons_of_ne_nil hw
    exact hbrace
  · match w with
    | [] => rfl
    | [x] => simp [opensTag]
    | x :: y :: w =>
      by_cases hx : x = '<'
      · subst hx; exact htag
      · simp [opensTag, hx]

theorem exists_of_comment {c d e : Cursor} {cause : ParseCause} {w : List Char}
    (hcomment : c.startsWith "<!--" = true)
    (h : seekPast "-->" cause (c.advance 4) = .ok (w, d, e)) :
    (Layout.comment w).Valid e.rest ∧ c.rest = (Layout.comment w).text ++ e.rest := by
  obtain ⟨r, hr⟩ := exists_of_startsWith hcomment
  obtain ⟨hw, hrest, he⟩ := exists_of_seekPast h
  have hadvance : (c.advance 4).rest = r := by
    rw [Cursor.advance, hr]
    rfl
  refine ⟨hw, ?_⟩
  rw [hr, ← hadvance, hrest, he]
  simp [Layout.text]

theorem exists_of_closing {c d e : Cursor} {cause : ParseCause} {w : List Char}
    (hclosing : c.startsWith "</" = true) (h : seekPast ">" cause c = .ok (w, d, e)) :
    ∃ body, (Layout.closing body).Valid e.rest ∧ c.rest = (Layout.closing body).text ++ e.rest := by
  obtain ⟨r, hr⟩ := exists_of_startsWith hclosing
  obtain ⟨hw, hrest, he⟩ := exists_of_seekPast h
  rw [hr, he] at hrest
  have hmark : '>' ∉ "</".toList := by decide
  obtain ⟨body, rfl, hbody⟩ := exists_append_of_mark hmark hrest
  refine ⟨body, ?_, ?_⟩
  · intro h
    exact not_mem_of_precedes hw (List.mem_append_right _ h)
  · rw [hr, hbody]
    simp [Layout.text]

theorem valid_plain {x : Char} {xs : List Char} (h : StartsPlain (x :: xs)) :
    (Layout.plain (x :: xs.takeWhile isPlain)).Valid (xs.dropWhile isPlain) := by
  have htext : x :: xs = (x :: xs.takeWhile isPlain) ++ xs.dropWhile isPlain := by
    rw [List.cons_append, List.takeWhile_append_dropWhile]
  refine ⟨by simp, ?_, ?_, ?_⟩
  · rw [htext] at h
    exact h.of_append (by simp)
  · intro y hy
    exact List.mem_takeWhile_imp hy
  · cases hd : (xs.dropWhile isPlain).head? with
    | none => rfl
    | some y => exact head?_dropWhile hd

theorem exists_of_readToken {c d : Cursor} {t : Option Token} {x : Char} {xs : List Char}
    (hc : c.rest = x :: xs) (h : readToken c = .ok (t, d)) :
    ∃ l : Layout, l.Valid d.rest ∧ c.rest = l.text ++ d.rest := by
  rw [readToken] at h
  by_cases hcomment : c.startsWith "<!--" = true
  · rw [if_pos hcomment] at h
    obtain ⟨⟨w, e, f⟩, hs, hq⟩ := exists_of_map_ok h
    cases hq
    exact ⟨.comment w, exists_of_comment hcomment hs⟩
  rw [if_neg hcomment] at h
  by_cases hclosing : c.startsWith "</" = true
  · rw [if_pos hclosing] at h
    obtain ⟨⟨w, e, f⟩, hs, hq⟩ := exists_of_map_ok h
    cases hq
    obtain ⟨body, hbody⟩ := exists_of_closing hclosing hs
    exact ⟨.closing body, hbody⟩
  rw [if_neg hclosing] at h
  by_cases htag : opensTag c.rest = true
  · rw [if_pos htag] at h
    exact exists_of_readOpening htag h
  rw [if_neg htag] at h
  by_cases hmustache : c.startsWith "\x7b" = true
  · rw [if_pos hmustache] at h
    obtain ⟨r, hr⟩ := exists_of_startsWith hmustache
    obtain ⟨⟨m, e⟩, hm, hq⟩ := exists_of_map_ok h
    cases hq
    obtain ⟨inner, hinner, hrest⟩ := exists_of_readMustache hr hm
    refine ⟨.mustache inner, hinner, ?_⟩
    rw [hrest]
    simp [Layout.text]
  · rw [if_neg hmustache] at h
    cases h
    have hstart := startsPlain_of hcomment hclosing htag hmustache
    have hrest : ((c.advance 1).skip isPlain).rest = xs.dropWhile isPlain := by
      rw [← rest_advance hc]
      rfl
    rw [hc] at hstart ⊢
    rw [hrest]
    refine ⟨.plain (x :: xs.takeWhile isPlain), valid_plain hstart, ?_⟩
    rw [Layout.text, List.cons_append, List.takeWhile_append_dropWhile]

theorem exists_of_readTokens {c : Cursor} {ts : List Token} (h : readTokens c = .ok ts) :
    ∃ ls, ValidAll ls ∧ c.rest = textOf ls := by
  fun_induction readTokens c generalizing ts with
  | case1 c hc => exact ⟨[], trivial, hc⟩
  | case2 => cases h
  | case3 c =>
    rename_i hc t d ht ih
    obtain ⟨ts, hts, -⟩ := exists_of_map_ok h
    obtain ⟨l, hl, hrest⟩ := exists_of_readToken hc ht
    obtain ⟨ls, hls, htail⟩ := ih hts
    refine ⟨l :: ls, ⟨htail ▸ hl, hls⟩, ?_⟩
    rw [hrest, htail]
    rfl

/-- Every source that can be parsed is the text of a valid layout, and its tokens are those of that
layout. -/
theorem exists_of_parse {source : String} {c : Component} (h : Component.parse source = .ok c) :
    ∃ ls ts, ValidAll ls ∧ source.toList = textOf ls ∧ tokensOf 0 ls = .ok ts ∧
      c = .ofTokens (byteLength (textOf ls)) ts := by
  obtain ⟨ts, hts, rfl⟩ := exists_of_map_ok h
  obtain ⟨ls, hls, hsource⟩ := exists_of_readTokens hts
  change source.toList = textOf ls at hsource
  refine ⟨ls, ts, hls, hsource, ?_, by rw [hsource]⟩
  rw [← readTokens_textOf hls, ← hsource]
  exact hts

end ClassWeave.Markup

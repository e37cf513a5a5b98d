import ClassWeave.Proofs.Markup.TopStyles
import ClassWeave.Proofs.Process.Reparse

namespace ClassWeave

open Markup Text Utility

namespace Processor

def Holds (code css : List Char) (s : StyleBlock) : Prop :=
  ∃ w, s.content.Covers code ('\n' :: (css ++ w))

variable {ls : List Layout} {ts : List Token} {r : Revision} {css : String}

theorem exists_styles_inserted (hr : r.Fits) (hinserted : r.inserted = '\n' :: css.toList)
    (hls : ValidAll ls) (hts : tokensOf 0 ls = .ok ts) :
    ∃ d, Component.parse (.ofList (textOf (reviseAll r [] ls))) = .ok d ∧
      (∀ s ∈ d.styles, Holds (textOf (reviseAll r [] ls)) css.toList s) ∧
      d.styles.length = (topStyles [] ts).length := by
  obtain ⟨us, hus, hunplaced⟩ := exists_tokensOf hr.apply_eq_nil hts [] 0
  refine ⟨.ofTokens (byteLength (textOf (reviseAll r [] ls))) us, ?_, ?_, ?_⟩
  · rw [parse_textOf (hls.revise hr []), hus]
    rfl
  · intro s hs
    rw [Component.styles_ofTokens] at hs
    obtain ⟨w, hw⟩ := covers_of_mem_topStyles hus (.whole _) hs
    rw [hinserted] at hw
    exact ⟨w, hw⟩
  · rw [Component.styles_ofTokens]
    exact (topStyles_of_unplaced hunplaced []).1

theorem exists_token_styleLayout (css : String) {code : List Char} {o : Nat}
    (h : Stands code o (styleLayout css).text) :
    ∃ s, (styleLayout css).token o = .ok (some (.style s)) ∧ Holds code css.toList s := by
  refine ⟨_, rfl, [], ?_⟩
  rw [List.append_nil]
  exact Layout.covers_content h

theorem exists_styles_appended (hr : r.Fits) (hcss : '<' ∉ css.toList) (hls : ValidAll ls)
    (hts : tokensOf 0 ls = .ok ts) (hnone : topStyles [] ts = []) :
    ∃ d, Component.parse (.ofList (textOf (styled [] css (reviseAll r [] ls)))) = .ok d ∧
      (∀ s ∈ d.styles, Holds (textOf (styled [] css (reviseAll r [] ls))) css.toList s) ∧
      d.styles.length = if ts.foldl Token.nest [] = [] then 1 else 0 := by
  obtain ⟨us, hus, hunplaced⟩ := exists_tokensOf hr.apply_eq_nil hts [] 0
  obtain ⟨hlength, hnest⟩ := topStyles_of_unplaced hunplaced []
  rw [hnone, List.length_nil, List.length_eq_zero_iff] at hlength
  have hstands := Stands.whole (textOf (styled [] css (reviseAll r [] ls)))
  have htext : textOf (styled [] css (reviseAll r [] ls)) =
      textOf (withBreak (reviseAll r [] ls)) ++ ((styleLayout css).text ++ []) := textOf_append _ _
  rw [htext] at hstands
  obtain ⟨s, hs, hholds⟩ := exists_token_styleLayout css hstands.right.left
  have htokens : tokensOf 0 (styled [] css (reviseAll r [] ls)) = .ok (us ++ [.style s]) := by
    have hblock : tokensOf (0 + byteLength (textOf (withBreak (reviseAll r [] ls))))
        [styleLayout css] = .ok [.style s] := by
      rw [tokensOf, hs]
      rfl
    change tokensOf 0 (withBreak _ ++ [styleLayout css]) = _
    rw [tokensOf_append, tokensOf_withBreak, hus, hblock]
    rfl
  have hstyles : topStyles [] (us ++ [.style s]) = if ts.foldl Token.nest [] = [] then [s] else [] := by
    rw [topStyles_append, hlength, hnest]
    simp [topStyles, Token.topStyles]
  refine ⟨.ofTokens (byteLength (textOf (styled [] css (reviseAll r [] ls)))) (us ++ [.style s]),
    ?_, ?_, ?_⟩
  · rw [parse_textOf (validAll_styled [] css (hls.revise hr []) hcss), htokens]
    rfl
  · intro x hx
    rw [Component.styles_ofTokens, hstyles] at hx
    split at hx
    · rw [List.mem_singleton] at hx
      rw [hx, htext]
      exact hholds
    · cases hx
  · rw [Component.styles_ofTokens, hstyles]
    split <;> rfl

def stylesAfter (ts : List Token) : Nat :=
  if topStyles [] ts = [] then if ts.foldl Token.nest [] = [] then 1 else 0
  else (topStyles [] ts).length

theorem styles_code {session t : Session} {file source : String} {p : Processed}
    (hstem : IsPlainStem session.options.classStem)
    (h : process ⟨Table.builtin.resolver, Component.parse⟩ session file source = .ok (p, t))
    (hls : ValidAll ls) (hsource : source.toList = textOf ls) (hts : tokensOf 0 ls = .ok ts) :
    ∃ d, Component.parse p.code = .ok d ∧ (∀ s ∈ d.styles, Holds p.code.toList p.css.toList s) ∧
      d.styles.length = stylesAfter ts := by
  obtain ⟨c, scan, code, hparse, hscan, hcode, rfl, rfl⟩ := process_eq_ok_iff.1 h
  have hcss : '<' ∉ (cssOf ⟨Table.builtin.resolver, Component.parse⟩ session file scan).toList :=
    inert_cssOf (p := ⟨Table.builtin.resolver, Component.parse⟩)
      (Table.inert_builtin.resolver hstem) hscan file
  generalize cssOf ⟨Table.builtin.resolver, Component.parse⟩ session file scan = css at *
  have hc : c = .ofTokens (byteLength (textOf ls)) ts := by
    have hlayout := parse_textOf hls
    rw [← hsource, String.ofList_toList, hts, hsource] at hlayout
    cases hparse.symm.trans hlayout
    rfl
  subst hc
  cases hcode.symm.trans (codeOf_layout _ css hsource hts hscan)
  have hfits : (revision Table.builtin.resolver session.options css).Fits := fits_revision hstem hcss
  rw [Component.styles_ofTokens, stylesAfter]
  dsimp only
  rw [String.toList_ofList]
  by_cases hstyles : topStyles [] ts = []
  · rw [hstyles, ← textOf_styled [] css (hls.revise hfits []), if_pos rfl]
    exact exists_styles_appended hfits hcss hls hts hstyles
  · rw [withStyles, if_neg (by simpa using hstyles), if_neg hstyles]
    exact exists_styles_inserted hfits rfl hls hts

def bareTag (name : List Char) : List Layout := [.opening name (.stop [] false)]

theorem validAll_bareTag {name : List Char} (h : IsTagName name) (hcontent : ¬ IsContentName name) :
    ValidAll (bareTag name) :=
  ⟨⟨h, hcontent, rfl, by simp [TagLayout.Valid, Blanks]⟩, trivial⟩

theorem exists_process_bareTag {name : List Char} (h : ValidAll (bareTag name)) :
    ∃ p t, process ⟨Table.builtin.resolver, Component.parse⟩ (.start ⟨"w-", .replace⟩) "a"
      (.ofList (textOf (bareTag name))) = .ok (p, t) := by
  have hresolves (kind : ElementKind) (span : Span) (leaf : Bool) (n : Nat) :
      ∀ p ∈ placesOf (Component.ofTokens n [.opening ⟨.ofList name, kind, span, []⟩ leaf]).fragment,
        p.Resolves := by
    cases leaf <;> simp [Component.ofTokens, Builder.add, Builder.finish, Builder.empty,
      Builder.attach, Builder.closeInnermost, Nat.repeat, OpenElement.close, placesOf, Node.places,
      Place.Resolves]
  obtain ⟨scan, hscan⟩ := Scan.exists_scan_iff.2 (hresolves _ _ _ _)
  obtain ⟨code, hprocess⟩ := exists_process Table.builtin.resolver (parse_textOf h) hscan "a"
  exact ⟨_, _, hprocess⟩

/-- The code of a component is a component again, each style block of which outside of elements
begins with its css. There are as many as the source has. If it has none there is one, unless an
element is open at the end of the source, in which the new block then lies. -/
theorem process_styles {session t : Session} {file source : String} {p : Processed}
    (hstem : IsPlainStem session.options.classStem)
    (h : process ⟨Table.builtin.resolver, Component.parse⟩ session file source = .ok (p, t)) :
    ∃ c d names, Component.parse source = .ok c ∧ openAtEnd source = .ok names ∧
      Component.parse p.code = .ok d ∧
      (∀ s ∈ d.styles, ∃ w, s.content.Covers p.code.toList ('\n' :: (p.css.toList ++ w))) ∧
      (c.styles ≠ [] → d.styles.length = c.styles.length) ∧
      (c.styles = [] → d.styles.length = if names = [] then 1 else 0) := by
  obtain ⟨c, -, -, hparse, -⟩ := process_eq_ok_iff.1 h
  obtain ⟨ls, ts, hls, hsource, hts, rfl⟩ := exists_of_parse hparse
  obtain ⟨d, hd, hholds, hlength⟩ := styles_code hstem h hls hsource hts
  have hopen : openAtEnd source = .ok (ts.foldl Token.nest []) := by
    have htokens : tokens source.toList = .ok ts := by
      rw [tokens, Cursor.ofText, hsource, readTokens_textOf hls, hts]
    rw [openAtEnd, htokens]
    exact congrArg Except.ok (Builder.names_foldl ts .empty)
  refine ⟨_, d, _, hparse, hopen, hd, hholds, ?_, ?_⟩
  · intro hstyles
    rw [Component.styles_ofTokens] at hstyles ⊢
    rw [hlength, stylesAfter, if_neg hstyles]
  · intro hstyles
    rw [Component.styles_ofTokens] at hstyles
    rw [hlength, stylesAfter, if_pos hstyles]

theorem process_styles_br :
    IsPlainStem "w-" ∧ ∃ p t,
      process ⟨Table.builtin.resolver, Component.parse⟩ (.start ⟨"w-", .replace⟩) "a" "<br>" =
        .ok (p, t) ∧
      ∃ d, Component.parse p.code = .ok d ∧ d.styles.length = 1 ∧
        ∀ s ∈ d.styles, ∃ w, s.content.Covers p.code.toList ('\n' :: (p.css.toList ++ w)) := by
  have hstem : IsPlainStem "w-" := by simp [IsPlainStem, isNameChar]
  have hname : IsTagName "br".toList := ⟨by decide, by simp [endsTagName, isBlank, blankRanges]⟩
  have hvalid := validAll_bareTag hname (by decide)
  obtain ⟨p, t, hprocess⟩ := exists_process_bareTag hvalid
  obtain ⟨c, d, names, hc, hopen, hd, hcovers, -, hlength⟩ := process_styles hstem hprocess
  have hparse := parse_textOf hvalid
  cases hparse.symm.trans hc
  have hnames : names = [] := by
    rw [openAtEnd, tokens, String.toList_ofList, Cursor.ofText, readTokens_textOf hvalid] at hopen
    cases hopen
    rfl
  rw [hnames] at hlength
  exact ⟨hstem, p, t, hprocess, d, hd, hlength rfl, hcovers⟩

/-- An element that is open at the end takes up the style block behind it. -/
theorem exists_styles_eq_nil :
    IsPlainStem "w-" ∧ ∃ p t d,
      process ⟨Table.builtin.resolver, Component.parse⟩ (.start ⟨"w-", .replace⟩) "a" "<p>" =
        .ok (p, t) ∧
      Component.parse p.code = .ok d ∧ d.styles = [] := by
  have hstem : IsPlainStem "w-" := by simp [IsPlainStem, isNameChar]
  have hname : IsTagName "p".toList := ⟨by decide, by simp [endsTagName, isBlank, blankRanges]⟩
  have hvalid := validAll_bareTag hname (by decide)
  obtain ⟨p, t, hprocess⟩ := exists_process_bareTag hvalid
  obtain ⟨d, hd, -, hlength⟩ := styles_code hstem hprocess hvalid rfl rfl
  exact ⟨hstem, p, t, d, hprocess, hd, List.length_eq_zero_iff.1 hlength⟩

end Processor

end ClassWeave

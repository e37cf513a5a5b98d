import ClassWeave.Proofs.Markup.Appending
import ClassWeave.Proofs.Markup.Fitting
import ClassWeave.Proofs.Process.Inert
import ClassWeave.Proofs.Process.Rewriting
import ClassWeave.Proofs.Scan.Success

namespace ClassWeave

open Markup Text Utility

theorem Utility.Table.Inert.resolver {t : Table} (h : t.Inert) {options : Options}
    (hstem : IsPlainStem options.classStem) : t.resolver.Inert options := by
  constructor
  · intro classes
    rw [Resolver.ofAttribute]
    cases options.mode with
    | replace => exact (h.compile (inert_name hstem) classes).withLayer _
    | resolveInPlace => exact ((h.interpret classes).withScope _).withLayer _
  · exact fun classes => (h.interpret classes).withLayer _
  · exact fun tags includeGlobal => ((h.preflightSheet tags includeGlobal).withScope _).withLayer _

namespace Processor

def styleLayout (css : String) : Layout :=
  .content "style".toList (.stop [] false) ('\n' :: css.toList) []

def styled (styles : List StyleBlock) (css : String) (ls : List Layout) : List Layout :=
  if styles.isEmpty then withBreak ls ++ [styleLayout css] else ls

variable {ls : List Layout} (styles : List StyleBlock) (css : String)

theorem textOf_styled (h : ValidAll ls) :
    textOf (styled styles css ls) = withStyles styles css (textOf ls) := by
  rw [styled, withStyles]
  split
  · have hblock : textOf [styleLayout css] = ("<style>\n" ++ css ++ "</style>").toList := by
      simp [textOf, styleLayout, Layout.text, TagLayout.text]
    rw [textOf_append, textOf_withBreak h, hblock]
    simp
  · rfl

theorem validAll_styled (h : ValidAll ls) (hcss : '<' ∉ css.toList) :
    ValidAll (styled styles css ls) := by
  rw [styled]
  split
  · apply h.withBreak_append _ rfl
    have hbody : '<' ∉ '\n' :: css.toList := by simpa using hcss
    have hprecedes : Precedes ('<' :: '/' :: "style".toList) ('\n' :: css.toList) := by
      simpa using (precedes_nil '<' ('/' :: "style".toList)).append_left hbody
    exact ⟨.inr rfl, rfl, by simp [TagLayout.Valid, Blanks], hprecedes, by simp⟩
  · exact h

theorem exists_tokensOf_styled {ts : List Token} (h : tokensOf 0 ls = .ok ts) (n : Nat) :
    ∃ us, tokensOf 0 (styled styles css ls) = .ok us ∧
      (Component.ofTokens n us).fragment = (Component.ofTokens n ts).fragment := by
  rw [styled]
  split
  · rw [tokensOf_append, tokensOf_withBreak, h]
    exact ⟨_, rfl, Component.fragment_ofTokens_style n ts _⟩
  · exact ⟨ts, h, rfl⟩

theorem exists_parse_styled {r : Revision} (hr : r.Fits) (hcss : '<' ∉ css.toList)
    (hls : ValidAll ls) {ts : List Token} (hts : tokensOf 0 ls = .ok ts) (n : Nat) :
    ∃ c, Component.parse (.ofList (withStyles styles css (textOf (reviseAll r [] ls)))) = .ok c ∧
      unplacedAll id c.fragment =
        unplacedAll (onString r.apply) (Component.ofTokens n ts).fragment := by
  have hvalid := hls.revise hr []
  obtain ⟨ts', hts', hunplaced⟩ := exists_tokensOf hr.apply_eq_nil hts [] 0
  have hlayout := validAll_styled styles css hvalid hcss
  obtain ⟨us, hus, hfragment⟩ := exists_tokensOf_styled styles css hts'
    (byteLength (textOf (styled styles css (reviseAll r [] ls))))
  refine ⟨.ofTokens (byteLength (textOf (styled styles css (reviseAll r [] ls)))) us, ?_, ?_⟩
  · rw [← textOf_styled styles css hvalid, parse_textOf hlayout, hus]
    rfl
  · rw [hfragment, Component.unplaced_ofTokens, hunplaced, ← Component.unplaced_ofTokens]

variable (resolver : Resolver) (options : Options)

def editedText (text : String) : String :=
  if options.mode = .replace ∧ trim text.toList ≠ [] then
    .ofList (leading text.toList ++
      (resolver.ofAttribute options (.ofList (trim text.toList))).replacement.toList ++
      trailing text.toList)
  else text

theorem onString_apply :
    onString (revision resolver options css).apply = editedText resolver options := by
  funext text
  rw [onString, editedText, Revision.apply, revision]
  by_cases h : options.mode = .replace ∧ trim text.toList ≠ []
  · simp [h]
  · have htouches : (options.mode = .replace && !(trim text.toList).isEmpty) = false := by
      simpa using h
    simp [h, htouches]

theorem text_rewriteOf {t : TextPart} (hmode : options.mode = .replace)
    (ht : t.hasClasses = true) :
    (Scan.rewriteOf resolver options t).text = editedText resolver options t.text := by
  rw [editedText, if_pos ⟨hmode, TextPart.hasClasses_iff.1 ht⟩]
  rfl

section

variable {resolver options} {session : Session}

theorem exists_parse_code {file source : String} {p : Processed} {s : Session}
    (hinert : resolver.Inert session.options)
    (hfits : ∀ css, '<' ∉ String.toList css → (revision resolver session.options css).Fits)
    (h : process ⟨resolver, Component.parse⟩ session file source = .ok (p, s)) :
    ∃ c d scan, Component.parse source = .ok c ∧ c.scan resolver session = .ok scan ∧
      Component.parse p.code = .ok d ∧
      unplacedAll id d.fragment =
        unplacedAll (editedText resolver session.options) c.fragment := by
  obtain ⟨c, scan, code, hparse, hscan, hcode, rfl, rfl⟩ := process_eq_ok_iff.1 h
  have hcss := inert_cssOf hinert hscan file
  obtain ⟨ls, ts, hls, hsource, hts, rfl⟩ := exists_of_parse hparse
  have hlayout := codeOf_layout resolver (cssOf ⟨resolver, Component.parse⟩ session file scan)
    hsource hts hscan
  cases hcode.symm.trans hlayout
  obtain ⟨d, hd, hunplaced⟩ := exists_parse_styled _ _ (hfits _ hcss) hcss hls hts
    (byteLength (textOf ls))
  rw [onString_apply] at hunplaced
  exact ⟨_, d, scan, hparse, hscan, hd, hunplaced⟩

theorem text_eq_of_mem_rewritesOf {c d : Component}
    (hedited : ∀ text, editedText resolver options (editedText resolver options text) =
      editedText resolver options text)
    (hunplaced : unplacedAll id d.fragment = unplacedAll (editedText resolver options) c.fragment)
    {r : Rewrite} (hr : r ∈ Scan.rewritesOf resolver options d.classTexts) :
    r.text = r.part.text := by
  rw [Scan.rewritesOf] at hr
  split at hr
  · next hmode =>
    obtain ⟨t, ht, rfl⟩ := List.mem_map.1 hr
    obtain ⟨ht, hclasses⟩ := List.mem_filter.1 ht
    rw [text_rewriteOf resolver options hmode hclasses]
    have hmem : t.unplaced id ∈ (classTextsOf c.fragment).map
        (TextPart.unplaced (editedText resolver options)) := by
      rw [← classTextsOf_unplaced, ← hunplaced, classTextsOf_unplaced, ← Component.classTexts_eq]
      exact List.mem_map_of_mem ht
    obtain ⟨u, -, hu⟩ := List.mem_map.1 hmem
    have htext : editedText resolver options u.text = t.text := congrArg TextPart.text hu
    change editedText resolver options t.text = t.text
    rw [← htext, hedited]
  · cases hr

theorem editedText_editedText {t : Table} (hstem : IsPlainStem options.classStem)
    (hfresh : t.IsFresh options.classStem) (text : String) :
    editedText t.resolver options (editedText t.resolver options text) =
      editedText t.resolver options text := by
  rw [← onString_apply "", onString, onString, String.toList_ofList, apply_apply hstem hfresh]

end

/-- With the tables that a resolver starts with, code can be parsed whenever it is given, and as the
tree of its source with edited class texts. Where classes are rewritten, that code can be processed
in its turn, and then all that is edited stays as it is. -/
theorem process_reparses {session s : Session} {file source : String} {p : Processed}
    (hstem : IsPlainStem session.options.classStem)
    (h : process ⟨Table.builtin.resolver, Component.parse⟩ session file source = .ok (p, s)) :
    ∃ c d, Component.parse source = .ok c ∧ Component.parse p.code = .ok d ∧
      unplacedAll id d.fragment =
        unplacedAll (editedText Table.builtin.resolver session.options) c.fragment ∧
      (session.options.mode = .replace → ∀ (session' : Session) (file' : String),
        session'.options = session.options →
        ∃ q t scan out,
          process ⟨Table.builtin.resolver, Component.parse⟩ session' file' p.code = .ok (q, t) ∧
          d.scan Table.builtin.resolver session' = .ok scan ∧
          scan.edits = ((d.classTexts.filter TextPart.hasClasses).map fun t => ⟨t.span, t.text⟩) ∧
          Patched 0 p.code.toList []
            (d.styles.map fun style => ⟨style.content.start, "\n" ++ q.css⟩) out ∧
          q.code.toList = withStyles d.styles q.css out) := by
  have hinert := Table.inert_builtin.resolver hstem
  have hfits : ∀ css, '<' ∉ String.toList css →
      (revision Table.builtin.resolver session.options css).Fits :=
    fun css hcss => fits_revision hstem hcss
  obtain ⟨c, d, scan, hparse, hscan, hcode, hunplaced⟩ := exists_parse_code hinert hfits h
  refine ⟨c, d, hparse, hcode, hunplaced, ?_⟩
  intro hmode session' file' hoptions
  obtain ⟨scan', hscan'⟩ :=
    Scan.exists_scan_of_unplaced hunplaced hscan Table.builtin.resolver session'
  obtain ⟨code, hprocess⟩ := exists_process Table.builtin.resolver hcode hscan' file'
  obtain ⟨out, hpatched, hout⟩ := patched_of_process Table.builtin.resolver hcode hprocess
  have hedited := editedText_editedText (t := Table.builtin) hstem (isFresh_builtin _)
  have hsame : ∀ r ∈ Scan.rewritesOf Table.builtin.resolver session'.options d.classTexts,
      r.text = r.part.text := by
    rw [hoptions]
    exact fun r hr => text_eq_of_mem_rewritesOf hedited hunplaced hr
  refine ⟨_, _, scan', out, hprocess, hscan', ?_, hpatched.of_unchanged hsame, hout⟩
  have hedits : (Scan.rewritesOf Table.builtin.resolver session'.options d.classTexts).map
        Rewrite.edit =
      (Scan.rewritesOf Table.builtin.resolver session'.options d.classTexts).map
        fun r => ⟨r.part.span, r.part.text⟩ := by
    apply List.map_congr_left
    intro r hr
    rw [Rewrite.edit, hsame r hr]
  rw [Scan.edits_eq Table.builtin.resolver hscan', Scan.editsOf, hedits, Scan.rewritesOf, hoptions,
    if_pos hmode, List.map_map]
  rfl

theorem process_reparses_paragraph :
    IsPlainStem "w-" ∧ ∃ p s,
      process ⟨Table.builtin.resolver, Component.parse⟩ (.start ⟨"w-", .replace⟩) "a"
        "<p class=a>" = .ok (p, s) ∧
      ∃ d, Component.parse p.code = .ok d ∧
        unplacedAll id d.fragment =
          unplacedAll (editedText Table.builtin.resolver ⟨"w-", .replace⟩) paragraph.fragment ∧
        ∃ q t, process ⟨Table.builtin.resolver, Component.parse⟩ s "a" p.code = .ok (q, t) := by
  have hstem : IsPlainStem "w-" := by simp [IsPlainStem, isNameChar]
  have hplaces : ∀ p ∈ placesOf paragraph.fragment, p.Resolves := by
    simp [paragraph, placesOf, Node.places, Attribute.places, ValuePart.places, Place.Resolves]
  have hscan : ∃ scan, paragraph.scan Table.builtin.resolver (.start ⟨"w-", .replace⟩) = .ok scan :=
    Scan.exists_scan_iff.2 hplaces
  obtain ⟨scan, hscan⟩ := hscan
  obtain ⟨code, hprocess⟩ := exists_process Table.builtin.resolver parse_paragraph hscan "a"
  obtain ⟨c, d, hc, hd, hunplaced, hagain⟩ := process_reparses hstem hprocess
  cases parse_paragraph.symm.trans hc
  obtain ⟨q, t, -, -, hq, -⟩ := hagain rfl
    ((Session.start ⟨"w-", .replace⟩).commit "a" scan.newTags) "a" rfl
  exact ⟨hstem, _, _, hprocess, d, hd, hunplaced, q, t, hq⟩

end Processor

end ClassWeave

import ClassWeave.Proofs.Markup.Recovery
import ClassWeave.Proofs.Markup.Revision
import ClassWeave.Proofs.Process.Basic
import ClassWeave.Proofs.Scan.Edits

namespace ClassWeave

open Markup Text

def Processor.revision (resolver : Resolver) (options : Options) (css : String) : Revision where
  touches w := options.mode = .replace && !(trim w).isEmpty
  rewrite w := leading w ++ (resolver.ofAttribute options (.ofList (trim w))).replacement.toList ++
    trailing w
  inserted := '\n' :: css.toList
  touches_nil := by simp [trim, trimStart, trimEnd]

def Processor.withStyles (styles : List StyleBlock) (css : String) (cs : List Char) : List Char :=
  if styles.isEmpty then trimEnd cs ++ ("\n\n<style>\n" ++ css ++ "</style>").toList else cs

namespace Processor

variable (resolver : Resolver) (options : Options) (css : String)

theorem rewrites_revision (ts : List TextPart) :
    (revision resolver options css).rewrites ts = Scan.rewritesOf resolver options ts := by
  by_cases hm : options.mode = .replace
  · simp only [Revision.rewrites, revision, Scan.rewritesOf, hm, decide_true, Bool.true_and, if_true]
    rfl
  · simp [Revision.rewrites, revision, Scan.rewritesOf, hm]

theorem insert_revision :
    (revision resolver options css).insert = fun s => ⟨s.content.start, "\n" ++ css⟩ := by
  funext s
  have : String.ofList ('\n' :: css.toList) = "\n" ++ css := by
    apply String.toList_injective
    simp
  rw [Revision.insert, revision, this]

theorem overwrite_foldl (s : Splice) (edits : List Edit) :
    edits.foldl Splice.overwrite s = { s with edits := s.edits ++ edits } := by
  induction edits generalizing s with
  | nil => simp
  | cons e edits ih => simp [ih, Splice.overwrite]

theorem insert_foldl (s : Splice) (styles : List StyleBlock) :
    styles.foldl (fun s style => s.insert style.content.start ("\n" ++ css)) s =
      { s with inserts := s.inserts ++ styles.map fun s => ⟨s.content.start, "\n" ++ css⟩ } := by
  induction styles generalizing s with
  | nil => simp
  | cons style styles ih =>
    rw [List.foldl_cons, ih]
    simp [Splice.insert]

theorem codeOf_of_patched {source : String} {c : Component} {scan : Scan} {out : List Char}
    (hedits : scan.edits = Scan.editsOf resolver options c.classTexts)
    (h : Patched 0 source.toList (Scan.rewritesOf resolver options c.classTexts)
      (c.styles.map fun s => ⟨s.content.start, "\n" ++ css⟩) out) :
    codeOf source c scan css = .ok (.ofList (withStyles c.styles css out)) := by
  rw [codeOf, overwrite_foldl, hedits, Splice.inject, withStyles]
  by_cases hs : c.styles.isEmpty = true
  · have hnil : c.styles = [] := by simpa using hs
    rw [hnil, List.map_nil] at h
    rw [if_pos hs, if_pos hs]
    exact Splice.finish_of_patched h (some _)
  · rw [if_neg hs, if_neg hs, insert_foldl]
    exact Splice.finish_of_patched h none

theorem patched_of_layout {source : String} {ls : List Layout} {ts : List Token}
    (hsource : source.toList = textOf ls) (h : tokensOf 0 ls = .ok ts) (n : Nat) :
    Patched 0 source.toList (Scan.rewritesOf resolver options (Component.ofTokens n ts).classTexts)
      ((Component.ofTokens n ts).styles.map fun s => ⟨s.content.start, "\n" ++ css⟩)
      (textOf (reviseAll (revision resolver options css) [] ls)) := by
  have := patched_textOf (revision resolver options css) [] h
  rwa [rewrites_revision, insert_revision, ← Component.classTexts_ofTokens n,
    ← Component.styles_ofTokens n, ← hsource] at this

theorem codeOf_layout {source : String} {ls : List Layout} {ts : List Token} {n : Nat}
    {session : Session} {scan : Scan} (hsource : source.toList = textOf ls)
    (h : tokensOf 0 ls = .ok ts)
    (hscan : (Component.ofTokens n ts).scan resolver session = .ok scan) :
    codeOf source (Component.ofTokens n ts) scan css =
      .ok (.ofList (withStyles (Component.ofTokens n ts).styles css
        (textOf (reviseAll (revision resolver session.options css) [] ls)))) := by
  apply codeOf_of_patched resolver session.options
  · exact Scan.edits_eq resolver hscan
  · exact patched_of_layout resolver session.options css hsource h n

theorem exists_process {session : Session} {source : String} {c : Component} {scan : Scan}
    (hparse : Component.parse source = .ok c) (hscan : c.scan resolver session = .ok scan)
    (file : String) :
    ∃ code, process ⟨resolver, Component.parse⟩ session file source =
      .ok (⟨code, cssOf ⟨resolver, Component.parse⟩ session file scan, scan.ignored, scan.newTags,
        session.preflightTags file scan.newTags⟩, session.commit file scan.newTags) := by
  obtain ⟨ls, ts, -, hsource, hts, rfl⟩ := exists_of_parse hparse
  have hcode := codeOf_layout resolver (cssOf ⟨resolver, Component.parse⟩ session file scan)
    hsource hts hscan
  exact ⟨_, process_eq_ok_iff.2 ⟨_, scan, _, hparse, hscan, hcode, rfl, rfl⟩⟩

theorem patched_of_process {session t : Session} {file source : String} {p : Processed}
    {c : Component} (hparse : Component.parse source = .ok c)
    (h : process ⟨resolver, Component.parse⟩ session file source = .ok (p, t)) :
    ∃ out, Patched 0 source.toList (Scan.rewritesOf resolver session.options c.classTexts)
        (c.styles.map fun style => ⟨style.content.start, "\n" ++ p.css⟩) out ∧
      p.code.toList = withStyles c.styles p.css out := by
  obtain ⟨d, scan, code, hd, hscan, hcode, rfl, rfl⟩ := process_eq_ok_iff.1 h
  cases hparse.symm.trans hd
  obtain ⟨ls, ts, -, hsource, hts, rfl⟩ := exists_of_parse hparse
  have hlayout := codeOf_layout resolver (cssOf ⟨resolver, Component.parse⟩ session file scan)
    hsource hts hscan
  cases hcode.symm.trans hlayout
  refine ⟨_, patched_of_layout resolver session.options _ hsource hts _, ?_⟩
  rw [String.toList_ofList]

/-- Whatever can be parsed and scanned is processed. Its code is the source, in which the class texts
are rewritten and the sheet is put into the style blocks, or behind all else if there is none. -/
theorem process_patches {session : Session} {source : String} {c : Component} {scan : Scan}
    (hparse : Component.parse source = .ok c) (hscan : c.scan resolver session = .ok scan)
    (file : String) :
    ∃ p s out, process ⟨resolver, Component.parse⟩ session file source = .ok (p, s) ∧
      Patched 0 source.toList (Scan.rewritesOf resolver session.options c.classTexts)
        (c.styles.map fun style => ⟨style.content.start, "\n" ++ p.css⟩) out ∧
      p.code.toList = withStyles c.styles p.css out := by
  obtain ⟨code, hprocess⟩ := exists_process resolver hparse hscan file
  obtain ⟨out, hpatched, hcode⟩ := patched_of_process resolver hparse hprocess
  exact ⟨_, _, out, hprocess, hpatched, hcode⟩

def paragraph : Component :=
  ⟨[.element ⟨"p", .element, ⟨0, 11⟩, [.classes ⟨⟨3, 10⟩, [.text ⟨⟨9, 10⟩, "a"⟩]⟩]⟩ []], []⟩

theorem parse_paragraph : Component.parse "<p class=a>" = .ok paragraph := by
  have hname : IsName "class".toList :=
    ⟨by simp [endsName, isBlank, blankRanges], by decide⟩
  have hattribute : AttributeLayout.Valid ['>'] (.valued "class".toList [] [] (.bare ['a'])) :=
    ⟨hname, by simp [Blanks], by simp, by simp [Blanks], rfl, rfl, rfl⟩
  have htag : TagLayout.Valid (.item [' '] (.valued "class".toList [] [] (.bare ['a']))
      (.stop [] false)) :=
    ⟨by simp [Blanks, isBlank, blankRanges], hattribute, by simp [TagLayout.Valid, Blanks]⟩
  have hp : IsTagName ['p'] := ⟨by decide, by simp [endsTagName, isBlank, blankRanges]⟩
  have hlayout : ValidAll [.opening ['p'] (.item [' ']
      (.valued "class".toList [] [] (.bare ['a'])) (.stop [] false))] :=
    ⟨⟨hp, by decide, by decide, htag⟩, trivial⟩
  have := parse_textOf hlayout
  exact this

def stemOnly : Resolver := ⟨fun _ stem => ⟨some stem, [], []⟩, fun _ => ⟨none, [], []⟩, fun _ _ => []⟩

theorem process_patches_paragraph :
    ∃ p s out, process ⟨stemOnly, Component.parse⟩ (.start ⟨"w", .replace⟩) "a" "<p class=a>" =
        .ok (p, s) ∧
      Patched 0 "<p class=a>".toList [⟨⟨⟨9, 10⟩, "a"⟩, "w"⟩] [] out ∧
      p.code.toList = withStyles [] p.css out := by
  have hscan : paragraph.scan stemOnly (.start ⟨"w", .replace⟩) =
      .ok ⟨[[]], [], [], ["p"], [⟨⟨9, 10⟩, "w"⟩]⟩ := by decide
  obtain ⟨p, s, out, hprocess, hpatched, hcode⟩ :=
    process_patches stemOnly parse_paragraph hscan "a"
  have hrewrites : Scan.rewritesOf stemOnly ⟨"w", .replace⟩ [⟨⟨9, 10⟩, "a"⟩] =
      [⟨⟨⟨9, 10⟩, "a"⟩, "w"⟩] := by decide
  exact ⟨p, s, out, hprocess, hrewrites ▸ hpatched, hcode⟩

end Processor

end ClassWeave

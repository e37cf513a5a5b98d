import ClassWeave.Proofs.Markup.Appending
import ClassWeave.Proofs.Markup.Rereading
import ClassWeave.Proofs.Text.Stands

namespace ClassWeave.Markup

open Text

def openAtEnd (source : String) : Except Failure (List String) :=
  (tokens source.toList).map fun ts => (ts.foldl Builder.add .empty).names

theorem Builder.names_foldl (ts : List Token) (b : Builder) :
    (ts.foldl add b).names = ts.foldl Token.nest b.names := by
  induction ts generalizing b with
  | nil => rfl
  | cons t ts ih => rw [List.foldl_cons, ih, names_add, List.foldl_cons]

theorem topStyles_append (names : List String) (ts us : List Token) :
    topStyles names (ts ++ us) = topStyles names ts ++ topStyles (ts.foldl Token.nest names) us := by
  induction ts generalizing names with
  | nil => rfl
  | cons t ts ih => rw [List.cons_append, topStyles, ih, topStyles, List.append_assoc, List.foldl_cons]

section

variable (f : String → String)

theorem Token.nest_unplaced (names : List String) (t : Token) :
    (t.unplaced f).nest names = t.nest names := by
  cases t <;> rfl

theorem Token.topStyles_unplaced (names : List String) (t : Token) :
    (t.unplaced f).topStyles names = (t.topStyles names).map StyleBlock.unplaced := by
  cases t with
  | style s =>
    rw [Token.unplaced, topStyles, topStyles]
    split <;> rfl
  | opening | closing | expression | block => rfl

theorem foldl_nest_unplaced (names : List String) (ts : List Token) :
    (ts.map (Token.unplaced f)).foldl Token.nest names = ts.foldl Token.nest names := by
  rw [List.foldl_map]
  congr 1
  funext names t
  exact t.nest_unplaced f names

theorem topStyles_unplaced (names : List String) (ts : List Token) :
    topStyles names (ts.map (Token.unplaced f)) = (topStyles names ts).map StyleBlock.unplaced := by
  induction ts generalizing names with
  | nil => rfl
  | cons t ts ih =>
    rw [List.map_cons, topStyles, topStyles, Token.nest_unplaced, Token.topStyles_unplaced, ih,
      List.map_append]

end

theorem topStyles_of_unplaced {f : String → String} {ts us : List Token}
    (h : us.map (Token.unplaced id) = ts.map (Token.unplaced f)) (names : List String) :
    (topStyles names us).length = (topStyles names ts).length ∧
      us.foldl Token.nest names = ts.foldl Token.nest names := by
  constructor
  · have := congrArg List.length (congrArg (topStyles names) h)
    rwa [topStyles_unplaced, topStyles_unplaced, List.length_map, List.length_map] at this
  · rw [← foldl_nest_unplaced id, h, foldl_nest_unplaced]

theorem Layout.nest_revise (r : Revision) (outer names : List String) (l : Layout) :
    (l.revise r outer).nest names = l.nest names := by
  cases l with
  | opening name tag =>
    rw [Layout.revise, Layout.nest, Layout.nest, TagLayout.isLeaf, TagLayout.isLeaf,
      TagLayout.closed_revise]
  | comment | closing | mustache | plain | content => rfl

theorem Layout.covers_content {name body tail cs : List Char} {tag : TagLayout} {o : Nat}
    (h : Stands cs o (content name tag body tail).text) :
    Span.Covers cs ⟨o + 1 + byteLength name + byteLength tag.text,
      o + 1 + byteLength name + byteLength tag.text + byteLength body⟩ body :=
  ⟨h.tail.right.right.left, rfl⟩

theorem Layout.covers_of_mem_topStyles {r : Revision} {names : List String} {l : Layout} {o : Nat}
    {t : Option Token} (h : (l.revise r names).token o = .ok t) {cs : List Char}
    (hstands : Stands cs o (l.revise r names).text) {s : StyleBlock}
    (hs : s ∈ t.toList.flatMap (Token.topStyles names)) :
    ∃ w, s.content.Covers cs (r.inserted ++ w) := by
  cases l with
  | comment body | closing body | plain w =>
    cases h
    cases hs
  | mustache inner =>
    obtain ⟨m, -, rfl⟩ := exists_of_map_ok h
    rw [m.topStyles_token?] at hs
    cases hs
  | opening name tag =>
    obtain ⟨as, -, rfl⟩ := exists_of_map_ok h
    cases hs
  | content name tag body tail =>
    obtain ⟨as, -, rfl⟩ := exists_of_map_ok h
    by_cases hstyle : String.ofList name = "style" ∧ names = []
    · obtain ⟨hname, hnames⟩ := hstyle
      simp only [hname, hnames, and_self, if_true, Option.toList_some, List.flatMap_cons,
        List.flatMap_nil, List.append_nil, Token.topStyles, List.isEmpty_nil,
        List.mem_singleton] at hs
      subst hs
      rw [Layout.revise, if_pos ⟨hname, hnames⟩] at hstands
      exact ⟨body, Layout.covers_content hstands⟩
    · split at hs
      · next hname =>
        have hnames : names ≠ [] := fun hnames => hstyle ⟨hname, hnames⟩
        simp [Token.topStyles, hnames] at hs
      · cases hs

theorem covers_of_mem_topStyles {r : Revision} {ls : List Layout} {o : Nat} {names : List String}
    {ts : List Token} (h : tokensOf o (reviseAll r names ls) = .ok ts) {cs : List Char}
    (hstands : Stands cs o (textOf (reviseAll r names ls))) {s : StyleBlock}
    (hs : s ∈ topStyles names ts) : ∃ w, s.content.Covers cs (r.inserted ++ w) := by
  induction ls generalizing o names ts with
  | nil =>
    cases h
    cases hs
  | cons l ls ih =>
    obtain ⟨t, ht, h⟩ := exists_of_bind_ok h
    obtain ⟨ts, hts, h⟩ := exists_of_bind_ok h
    cases h
    rw [topStyles_toList_append, ← Layout.nest_eq names ht, Layout.nest_revise] at hs
    rcases List.mem_append.1 hs with hs | hs
    · exact Layout.covers_of_mem_topStyles ht hstands.left hs
    · exact ih hts hstands.right hs

end ClassWeave.Markup

import ClassWeave.Markup.Component
import ClassWeave.Proofs.Markup.Building
import ClassWeave.Proofs.Markup.Recovery
import ClassWeave.Proofs.Markup.SoundTokens

/-!
The spans of a parsed component are sound. An element that is still open ends where the next one
inside of it begins, or where reading stands, so that it can be closed at any later byte.
-/

namespace ClassWeave.Markup

open Text

variable {cs : List Char} {lo hi : Nat}

theorem SoundNodes.append {ns ms : List Node} (hn : SoundNodes cs ns) (hm : SoundNodes cs ms) :
    SoundNodes cs (ns ++ ms) := by
  induction ns with
  | nil => exact hm
  | cons n ns ih => exact ⟨hn.1, ih hn.2⟩

theorem Node.Sound.lt {n : Node} (h : n.Sound cs) : n.span.start < n.span.stop := by
  cases n with
  | element tag children =>
    rw [Node.Sound] at h
    exact h.1.lt
  | expression tag =>
    rw [Node.Sound] at h
    exact lt_of_braced h.covers
  | block tag =>
    rw [Node.Sound] at h
    exact lt_of_braced h.covers

structure Node.Fits (cs : List Char) (lo hi : Nat) (n : Node) : Prop where
  sound : n.Sound cs
  start : lo ≤ n.span.start
  stop : n.span.stop ≤ hi

theorem Node.fits_of_span {n : Node} {start stop : Nat} (h : n.Sound cs)
    (hspan : n.span = ⟨start, stop⟩) (hlo : lo ≤ start) : n.Fits cs lo stop where
  sound := h
  start := by rwa [hspan]
  stop := by rw [hspan]

theorem inOrder_concat {n : Node} {ns : List Node} {start : Nat}
    (h : Span.InOrder lo start (ns.map Node.span)) (hn : n.Fits cs lo hi) :
    Span.InOrder hi start ((ns ++ [n]).map Node.span) := by
  rw [List.map_append]
  apply h.append
  exact ⟨hn.start, Nat.le_of_lt hn.sound.lt, hn.stop⟩

namespace Component.Sound

variable {c : Component}

theorem mono (h : c.Sound cs lo) (hle : lo ≤ hi) : c.Sound cs hi :=
  ⟨h.fragment.mono (Nat.le_refl _) hle, h.nodes, h.styles.mono (Nat.le_refl _) hle, h.blocks,
    h.apart⟩

theorem addNode (h : c.Sound cs lo) {n : Node} (hn : n.Fits cs lo hi) :
    Component.Sound cs hi ⟨c.fragment ++ [n], c.styles⟩ where
  fragment := inOrder_concat h.fragment hn
  nodes := h.nodes.append ⟨hn.sound, trivial⟩
  styles := by
    apply h.styles.mono (Nat.le_refl _)
    exact Nat.le_trans hn.start (Nat.le_trans (Nat.le_of_lt hn.sound.lt) hn.stop)
  blocks := h.blocks
  apart := by
    intro m hm s hs
    rcases List.mem_append.1 hm with hm | hm
    · exact h.apart m hm s hs
    · cases List.mem_singleton.1 hm
      obtain ⟨-, -, hstop⟩ := h.styles.bounds (List.mem_map_of_mem hs)
      exact .inr (Nat.le_trans hstop hn.start)

theorem addStyle (h : c.Sound cs lo) {s : StyleBlock} (hs : s.Sound cs) (hlo : lo ≤ s.span.start) :
    Component.Sound cs s.span.stop ⟨c.fragment, c.styles ++ [s]⟩ where
  fragment := h.fragment.mono (Nat.le_refl _) (Nat.le_trans hlo (Nat.le_of_lt hs.span.lt))
  nodes := h.nodes
  styles := by
    rw [List.map_append]
    apply h.styles.append
    exact ⟨hlo, Nat.le_of_lt hs.span.lt, Nat.le_refl _⟩
  blocks := by
    intro t ht
    rcases List.mem_append.1 ht with ht | ht
    · exact h.blocks t ht
    · cases List.mem_singleton.1 ht
      exact hs
  apart := by
    intro n hn t ht
    rcases List.mem_append.1 ht with ht | ht
    · exact h.apart n hn t ht
    · cases List.mem_singleton.1 ht
      obtain ⟨-, -, hstop⟩ := h.fragment.bounds (List.mem_map_of_mem hn)
      exact .inl (Nat.le_trans hstop hlo)

end Component.Sound

structure OpenElement.Sound (cs : List Char) (stop : Nat) (e : OpenElement) : Prop where
  opens : ∃ opened, e.tag.OpensTo cs opened ∧ e.tag.span.start < opened ∧
    Span.InOrder stop opened (e.children.map Node.span)
  children : SoundNodes cs e.children

namespace OpenElement.Sound

variable {e : OpenElement}

theorem mono (h : e.Sound cs lo) (hle : lo ≤ hi) : e.Sound cs hi := by
  obtain ⟨⟨opened, hopens, hlt, horder⟩, hchildren⟩ := h
  exact ⟨⟨opened, hopens, hlt, horder.mono (Nat.le_refl _) hle⟩, hchildren⟩

theorem addNode (h : e.Sound cs lo) {n : Node} (hn : n.Fits cs lo hi) :
    OpenElement.Sound cs hi ⟨e.tag, e.children ++ [n]⟩ := by
  obtain ⟨⟨opened, hopens, hlt, horder⟩, hchildren⟩ := h
  constructor
  · exact ⟨opened, hopens, hlt, inOrder_concat horder hn⟩
  · exact hchildren.append ⟨hn.sound, trivial⟩

theorem close {stop : Nat} (h : e.Sound cs stop) (hstop : Stands cs stop []) :
    (e.close stop).Sound cs := by
  obtain ⟨⟨opened, hopens, hlt, horder⟩, hchildren⟩ := h
  have hle := horder.le
  obtain ⟨w, hw, hlen⟩ := hopens.name.start.exists_between hstop (by omega)
  have hcovers : Span.Covers cs ⟨e.tag.span.start, stop⟩ w := ⟨hw, hlen⟩
  have hne : w ≠ [] := by
    rintro rfl
    rw [byteLength_nil] at hlen
    omega
  rw [OpenElement.close, Node.Sound]
  exact ⟨hcovers.proper hne, opened, ⟨hopens.name, hopens.attributes⟩, horder, hchildren⟩

end OpenElement.Sound

/-- The open elements around byte `stop`, each around the one before it, and all that was read
before the outermost of them. -/
def SoundStack (cs : List Char) (c : Component) : Nat → List OpenElement → Prop
  | stop, [] => c.Sound cs stop
  | stop, e :: es => e.Sound cs stop ∧ SoundStack cs c e.tag.span.start es

theorem SoundStack.mono {c : Component} {es : List OpenElement} (h : SoundStack cs c lo es)
    (hle : lo ≤ hi) : SoundStack cs c hi es := by
  cases es with
  | nil => exact Component.Sound.mono h hle
  | cons e es => exact ⟨h.1.mono hle, h.2⟩

namespace Builder

def Sound (cs : List Char) (stop : Nat) (b : Builder) : Prop :=
  SoundStack cs ⟨b.fragment, b.styles⟩ stop b.opened

theorem sound_empty (cs : List Char) : empty.Sound cs 0 :=
  ⟨Nat.le_refl _, trivial, Nat.le_refl _, by simp [empty], by simp [empty]⟩

variable {b : Builder}

theorem Sound.attach (h : b.Sound cs lo) {n : Node} (hn : n.Fits cs lo hi) :
    (b.attach n).Sound cs hi := by
  rw [Builder.attach]
  split
  · next hnil =>
    rw [Sound, hnil] at h
    rw [Sound, hnil]
    exact Component.Sound.addNode h hn
  · next e es hcons =>
    rw [Sound, hcons] at h
    exact ⟨h.1.addNode hn, h.2⟩

theorem Sound.closeInnermost {stop : Nat} (h : b.Sound cs stop) (hstop : Stands cs stop []) :
    (b.closeInnermost stop).Sound cs stop := by
  rw [Builder.closeInnermost]
  split
  · exact h
  · next e es hcons =>
    rw [Sound, hcons] at h
    have hrest : Sound cs e.tag.span.start { b with opened := es } := h.2
    exact hrest.attach ⟨h.1.close hstop, Nat.le_refl _, Nat.le_refl _⟩

theorem Sound.repeat {stop : Nat} (h : b.Sound cs stop) (hstop : Stands cs stop []) (k : Nat) :
    (Nat.repeat (Builder.closeInnermost stop) k b).Sound cs stop := by
  induction k with
  | zero => exact h
  | succ k ih => exact ih.closeInnermost hstop

theorem Sound.add {start stop : Nat} {t : Token} (h : b.Sound cs lo) (hlo : lo ≤ start)
    (hle : start ≤ stop) (ht : t.Sound cs start stop) : (b.add t).Sound cs stop := by
  cases t with
  | opening tag leaf =>
    obtain ⟨hspan, hproper, hopens⟩ := ht
    have hlt := hproper.lt
    rw [hspan] at hlt
    cases leaf with
    | true =>
      apply h.attach
      refine Node.fits_of_span ?_ hspan hlo
      rw [Node.Sound, hspan]
      exact ⟨hspan ▸ hproper, stop, hopens, Nat.le_refl _, trivial⟩
    | false =>
      -- The tag is the innermost open element from here on. What stands in it begins at `stop`,
      -- and what was read before it has to end where the tag starts.
      refine ⟨⟨⟨stop, hopens, by rw [hspan]; exact hlt, Nat.le_refl _⟩, trivial⟩, ?_⟩
      rw [hspan]
      exact SoundStack.mono h hlo
  | closing name n =>
    obtain ⟨rfl, hstop⟩ := ht
    have hread : b.Sound cs n := SoundStack.mono h (Nat.le_trans hlo hle)
    rw [Builder.add, closeNamed]
    split
    · exact hread
    · exact hread.repeat hstop _
  | expression tag =>
    obtain ⟨hspan, htag⟩ := ht
    apply h.attach
    refine Node.fits_of_span ?_ hspan hlo
    rw [Node.Sound]
    exact htag
  | block tag =>
    obtain ⟨hspan, htag⟩ := ht
    apply h.attach
    refine Node.fits_of_span ?_ hspan hlo
    rw [Node.Sound]
    exact htag
  | style s =>
    obtain ⟨hspan, hs⟩ := ht
    rw [Builder.add]
    by_cases hopened : b.opened = []
    · rw [Sound, hopened] at h
      rw [if_pos (by simp [hopened]), Sound, hopened]
      have := Component.Sound.addStyle h hs (by rw [hspan]; exact hlo)
      rwa [hspan] at this
    · -- Inside of an element a style is dropped, but its text has been read.
      rw [if_neg (by simp [hopened])]
      exact SoundStack.mono h (Nat.le_trans hlo hle)

theorem Sound.foldl {ts : List Token} {o : Nat} (h : b.Sound cs o) (hts : SoundTokens cs o ts) :
    (ts.foldl Builder.add b).Sound cs (byteLength cs) := by
  induction ts generalizing b o with
  | nil => exact SoundStack.mono h hts
  | cons t ts ih =>
    obtain ⟨start, stop, hlo, hle, ht, hts⟩ := hts
    exact ih (h.add hlo hle ht) hts

theorem Sound.finish (h : b.Sound cs (byteLength cs)) :
    (b.finish (byteLength cs)).Sound cs (byteLength cs) := by
  have hstop : Stands cs (byteLength cs) [] := by
    have := (Stands.whole cs).stop
    rwa [Nat.zero_add] at this
  have hclosed := h.repeat hstop b.opened.length
  have hnames := (repeat_closeInnermost (byteLength cs) b b.opened.length).1
  have hnil : (Nat.repeat (Builder.closeInnermost (byteLength cs)) b.opened.length b).opened =
      [] := by
    have hlen : b.opened.length = b.names.length := by rw [names, List.length_map]
    rw [hlen, List.drop_length] at hnames
    rw [← hlen] at hnames
    exact List.map_eq_nil_iff.1 hnames
  rw [Sound, hnil] at hclosed
  exact hclosed

end Builder

/-- Whatever source can be parsed, the spans of its component are sound. -/
theorem Component.sound_of_parse {source : String} {c : Component}
    (h : Component.parse source = .ok c) : c.Sound source.toList (byteLength source.toList) := by
  obtain ⟨ls, ts, hvalid, hsource, hts, rfl⟩ := exists_of_parse h
  have hstands := Stands.whole source.toList
  rw [hsource] at hstands ⊢
  have htokens := soundTokens_of_layouts hvalid hstands hts
  exact ((Builder.sound_empty _).foldl htokens).finish

def styledParagraph : Component where
  fragment := [.element ⟨"p", .element, ⟨16, 33⟩, [.classes ⟨⟨19, 32⟩,
    [.expression ⟨⟨25, 32⟩, .conditional 26 (.other "a") (.other "b") (.other "c")⟩]⟩]⟩ []]
  styles := [⟨⟨0, 16⟩, ⟨7, 8⟩⟩]

theorem read_conditional : Expr.read 26 ['a', '?', 'b', ':', 'c'] =
    .conditional 26 (.other "a") (.other "b") (.other "c") := by
  have hname (o : Nat) (x : Char) (h : x = 'a' ∨ x = 'b' ∨ x = 'c') :
      Expr.read o [x] = .other (.ofList [x]) := by
    rcases h with rfl | rfl | rfl
    all_goals
      rw [Expr.read_of_none]
      · rfl
      · rfl
      · rfl
  have hternary : Expr.ternary? (trim ['a', '?', 'b', ':', 'c']) = some ⟨['a'], ['b'], ['c']⟩ := rfl
  rw [Expr.read_of_ternary rfl hternary]
  simp only [hname, true_or, or_true]
  rfl

theorem parse_styledParagraph :
    Component.parse "<style>x</style><p class={a?b:c}>" = .ok styledParagraph := by
  let tag : TagLayout := .item [' ']
    (.valued "class".toList [] [] (.braced ['a', '?', 'b', ':', 'c'])) (.stop [] false)
  let ls : List Layout := [.content "style".toList (.stop [] false) ['x'] [], .opening ['p'] tag]
  have hstyle : (Layout.content "style".toList (.stop [] false) ['x'] []).Valid
      (textOf [.opening ['p'] tag]) :=
    ⟨by decide, by decide, by simp [TagLayout.Valid, Blanks], rfl, by simp⟩
  have hname : IsName "class".toList :=
    ⟨by simp [endsName, isBlank, blankRanges], by decide⟩
  have htag : tag.Valid :=
    ⟨by simp [Blanks, isBlank, blankRanges],
      ⟨hname, by simp [Blanks], by simp, by simp [Blanks], rfl⟩, by simp [TagLayout.Valid, Blanks]⟩
  have hp : IsTagName ['p'] := ⟨by decide, by simp [endsTagName, isBlank, blankRanges]⟩
  have hopening : (Layout.opening ['p'] tag).Valid (textOf []) := ⟨hp, by decide, by decide, htag⟩
  have hvalid : ValidAll ls := ⟨hstyle, hopening, trivial⟩
  have hparse := parse_textOf hvalid
  have htext : textOf ls = "<style>x</style><p class={a?b:c}>".toList := by decide
  have htokens : tokensOf 0 ls = .ok [.style ⟨⟨0, 16⟩, ⟨7, 8⟩⟩, .opening ⟨"p", .element, ⟨16, 33⟩,
      [.classes ⟨⟨19, 32⟩, [.expression ⟨⟨25, 32⟩, .read 26 ['a', '?', 'b', ':', 'c']⟩]⟩]⟩ false] :=
    rfl
  rw [htext, htokens, read_conditional, String.ofList_toList] at hparse
  have hlen : byteLength "<style>x</style><p class={a?b:c}>".toList = 33 := by decide
  rw [hlen] at hparse
  exact hparse

theorem sound_of_parse_styledParagraph :
    Component.parse "<style>x</style><p class={a?b:c}>" = .ok styledParagraph ∧
      styledParagraph.Sound "<style>x</style><p class={a?b:c}>".toList
        (byteLength "<style>x</style><p class={a?b:c}>".toList) :=
  ⟨parse_styledParagraph, Component.sound_of_parse parse_styledParagraph⟩

end ClassWeave.Markup

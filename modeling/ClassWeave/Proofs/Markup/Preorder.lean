import ClassWeave.Proofs.Markup.TopStyles

namespace ClassWeave.Markup

open Text

inductive Head
  | element (tag : Tag)
  | expression (tag : ExpressionTag)
  | block (tag : BlockTag)
deriving DecidableEq

/-- A node below the elements of these names, the innermost first. -/
structure Entry where
  around : List String
  head : Head
deriving DecidableEq

mutual

def Node.preorder (around : List String) : Node → List Entry
  | .element tag children => ⟨around, .element tag⟩ :: preorderOf (tag.name :: around) children
  | .expression tag => [⟨around, .expression tag⟩]
  | .block tag => [⟨around, .block tag⟩]

def preorderOf (around : List String) : List Node → List Entry
  | [] => []
  | n :: ns => n.preorder around ++ preorderOf around ns

end

/-- Closes one of the elements of these names, and nothing that was opened inside of them. -/
def Token.ends? (names inner : List String) : Token → Option Nat
  | closing name stop => if name ∉ inner ∧ name ∈ names then some stop else none
  | _ => none

/-- Where an element ends that is the first of these names, the others being around it. What is open
inside of it has the names `inner`. -/
def endOf (length : Nat) (names inner : List String) : List Token → Nat
  | [] => length
  | t :: ts =>
    match t.ends? names inner with
    | some stop => stop
    | none => endOf length names (t.nest inner) ts

def Token.head? (length : Nat) (names : List String) (later : List Token) : Token → Option Head
  | opening tag leaf =>
    let stop := if leaf then tag.span.stop else endOf length (tag.name :: names) [] later
    some (.element { tag with span := ⟨tag.span.start, stop⟩ })
  | expression tag => some (.expression tag)
  | block tag => some (.block tag)
  | closing _ _ => none
  | style _ => none

def listing (length : Nat) (names : List String) : List Token → List Entry
  | [] => []
  | t :: ts =>
    (t.head? length names ts).toList.map (Entry.mk names) ++ listing length (t.nest names) ts

def endsOf (length : Nat) (ts : List Token) (inner : List String) : List String → List Nat
  | [] => []
  | name :: names =>
    endOf length (name :: names) inner ts :: endsOf length ts (inner ++ [name]) names

section

variable (length : Nat) (ts : List Token)

theorem endsOf_nil (inner names : List String) :
    endsOf length [] inner names = List.replicate names.length length := by
  induction names generalizing inner with
  | nil => rfl
  | cons name names ih => rw [endsOf, ih, endOf, List.length_cons, List.replicate_succ]

theorem length_endsOf (inner names : List String) :
    (endsOf length ts inner names).length = names.length := by
  induction names generalizing inner with
  | nil => rfl
  | cons name names ih => rw [endsOf, List.length_cons, ih, List.length_cons]

theorem endOf_cons_of_none {t : Token} {names inner : List String}
    (h : t.ends? names inner = none) :
    endOf length names inner (t :: ts) = endOf length names (t.nest inner) ts := by
  rw [endOf, h]

theorem endOf_cons_of_some {t : Token} {names inner : List String} {stop : Nat}
    (h : t.ends? names inner = some stop) : endOf length names inner (t :: ts) = stop := by
  rw [endOf, h]

theorem endsOf_cons_of_nest_eq {t : Token} (hends : ∀ names inner, t.ends? names inner = none)
    (hnest : ∀ names, t.nest names = names) (inner names : List String) :
    endsOf length (t :: ts) inner names = endsOf length ts inner names := by
  induction names generalizing inner with
  | nil => rfl
  | cons name names ih =>
    rw [endsOf, ih, endOf_cons_of_none length ts (hends _ _), hnest, endsOf]

theorem endsOf_opening (tag : Tag) (inner names : List String) :
    endsOf length (.opening tag false :: ts) inner names =
      endsOf length ts (tag.name :: inner) names := by
  induction names generalizing inner with
  | nil => rfl
  | cons name names ih =>
    rw [endsOf, ih, endOf_cons_of_none length ts rfl]
    rfl

theorem findIdx?_of_not_mem {name : String} {names : List String} (h : name ∉ names) :
    names.findIdx? (· == name) = none := by
  rw [List.findIdx?_eq_none_iff]
  intro other hother
  rw [beq_eq_false_iff_ne]
  rintro rfl
  exact h hother

theorem findIdx?_append_self {name : String} {inner : List String} (h : name ∉ inner)
    (outer : List String) : (inner ++ name :: outer).findIdx? (· == name) = some inner.length := by
  simp [List.findIdx?_append, findIdx?_of_not_mem h, List.findIdx?_cons]

theorem nest_closing_of_not_mem {name : String} {names : List String} (h : name ∉ names)
    (stop : Nat) : (Token.closing name stop).nest names = names := by
  rw [Token.nest, findIdx?_of_not_mem h]

theorem nest_closing_append {name : String} {inner : List String} (h : name ∉ inner) (stop : Nat)
    (outer : List String) : (Token.closing name stop).nest (inner ++ name :: outer) = outer := by
  rw [Token.nest, findIdx?_append_self h]
  simp

theorem endsOf_unmatched {name : String} (stop : Nat) {inner names : List String}
    (hinner : name ∉ inner) (hnames : name ∉ names) :
    endsOf length (.closing name stop :: ts) inner names = endsOf length ts inner names := by
  induction names generalizing inner with
  | nil => rfl
  | cons other names ih =>
    obtain ⟨hne, hrest⟩ := not_or.1 (mt List.mem_cons.2 hnames)
    have hends : (Token.closing name stop).ends? (other :: names) inner = none :=
      if_neg fun h => hnames h.2
    rw [endsOf, ih (by simp [hinner, hne]) hrest, endOf_cons_of_none length ts hends,
      nest_closing_of_not_mem hinner, endsOf]

theorem endsOf_closed {name : String} (stop : Nat) {inner : List String} (hinner : name ∉ inner)
    (outer names : List String) :
    endsOf length (.closing name stop :: ts) (inner ++ name :: outer) names =
      endsOf length ts outer names := by
  induction names generalizing outer with
  | nil => rfl
  | cons other names ih =>
    have hends : (Token.closing name stop).ends? (other :: names) (inner ++ name :: outer) =
        none := if_neg fun h => h.1 (by simp)
    rw [endsOf, endOf_cons_of_none length ts hends, nest_closing_append hinner, List.append_assoc,
      List.cons_append, ih, endsOf]

theorem endsOf_matched {name : String} (stop : Nat) {inside inner : List String}
    (hinside : name ∉ inside) (hinner : name ∉ inner) (outer : List String) :
    endsOf length (.closing name stop :: ts) inner (inside ++ name :: outer) =
      List.replicate (inside.length + 1) stop ++ endsOf length ts [] outer := by
  induction inside generalizing inner with
  | nil =>
    have hends : (Token.closing name stop).ends? (name :: outer) inner = some stop :=
      if_pos ⟨hinner, by simp⟩
    rw [List.nil_append, endsOf, endOf_cons_of_some length ts hends, endsOf_closed _ _ _ hinner]
    rfl
  | cons other inside ih =>
    obtain ⟨hne, hrest⟩ := not_or.1 (mt List.mem_cons.2 hinside)
    have hends : (Token.closing name stop).ends? (other :: (inside ++ name :: outer)) inner =
        some stop := if_pos ⟨hinner, by simp⟩
    rw [List.cons_append, endsOf, endOf_cons_of_some length ts hends,
      ih hrest (by simp [hinner, hne])]
    rfl

end

theorem preorderOf_append (around : List String) (ns ms : List Node) :
    preorderOf around (ns ++ ms) = preorderOf around ns ++ preorderOf around ms := by
  induction ns with
  | nil => rfl
  | cons n ns ih => rw [List.cons_append, preorderOf, ih, preorderOf, List.append_assoc]

def openPreorder : List Nat → List OpenElement → List Entry
  | stop :: stops, e :: es =>
    openPreorder stops es ++ (e.close stop).preorder (es.map (·.tag.name))
  | _, _ => []

namespace Builder

def preorder (stops : List Nat) (b : Builder) : List Entry :=
  preorderOf [] b.fragment ++ openPreorder stops b.opened

theorem preorder_attach {stops : List Nat} {b : Builder} (h : stops.length = b.names.length)
    (n : Node) : (b.attach n).preorder stops = b.preorder stops ++ n.preorder b.names := by
  obtain ⟨opened, fragment, styles⟩ := b
  cases opened with
  | nil => simp [attach, preorder, openPreorder, preorderOf_append, preorderOf, names]
  | cons e es =>
    cases stops with
    | nil => cases h
    | cons stop stops =>
      simp [attach, preorder, openPreorder, OpenElement.close, Node.preorder, preorderOf_append,
        preorderOf, names]

theorem preorder_closeInnermost {stop : Nat} {stops : List Nat} {b : Builder}
    (h : stops.length + 1 = b.names.length) :
    (b.closeInnermost stop).preorder stops = b.preorder (stop :: stops) := by
  obtain ⟨opened, fragment, styles⟩ := b
  cases opened with
  | nil => cases h
  | cons e es =>
    have hlen : stops.length = (Builder.mk es fragment styles).names.length := Nat.succ.inj h
    rw [closeInnermost]
    dsimp only
    rw [preorder_attach hlen, preorder, preorder, openPreorder, List.append_assoc]
    rfl

theorem preorder_repeat (stop : Nat) {k : Nat} {stops : List Nat} {b : Builder}
    (h : stops.length + k = b.names.length) :
    (Nat.repeat (closeInnermost stop) k b).preorder stops =
      b.preorder (List.replicate k stop ++ stops) := by
  induction k generalizing stops with
  | zero => rfl
  | succ k ih =>
    have hlen : stops.length + 1 = (Nat.repeat (closeInnermost stop) k b).names.length := by
      rw [(repeat_closeInnermost stop b k).1, List.length_drop]
      omega
    rw [Nat.repeat, preorder_closeInnermost hlen, ih (by rw [List.length_cons]; omega),
      List.replicate_succ', List.append_assoc]
    rfl

theorem closeNamed_of_not_mem {b : Builder} {name : String} (h : name ∉ b.names) (stop : Nat) :
    b.closeNamed name stop = b := by
  have hfind := findIdx?_of_not_mem h
  rw [findIdx?_names] at hfind
  rw [closeNamed, hfind]

theorem preorder_closeNamed (length : Nat) (ts : List Token) (name : String) (stop : Nat)
    (b : Builder) :
    (b.closeNamed name stop).preorder
        (endsOf length ts [] ((Token.closing name stop).nest b.names)) =
      b.preorder (endsOf length (.closing name stop :: ts) [] b.names) := by
  by_cases hmem : name ∈ b.names
  · obtain ⟨inside, outer, hnames, hinside⟩ := List.eq_append_cons_of_mem hmem
    have hfind := findIdx?_append_self hinside outer
    rw [← hnames, findIdx?_names] at hfind
    have hlen : (endsOf length ts [] outer).length + (inside.length + 1) = b.names.length := by
      rw [length_endsOf, hnames, List.length_append, List.length_cons]
      omega
    rw [closeNamed, hfind, hnames, nest_closing_append hinside,
      endsOf_matched _ _ _ hinside List.not_mem_nil]
    exact preorder_repeat stop hlen
  · rw [closeNamed_of_not_mem hmem, nest_closing_of_not_mem hmem,
      endsOf_unmatched _ _ _ List.not_mem_nil hmem]

theorem preorder_add (length : Nat) (t : Token) (ts : List Token) (b : Builder) :
    (b.add t).preorder (endsOf length ts [] (b.add t).names) =
      b.preorder (endsOf length (t :: ts) [] b.names) ++
        (t.head? length b.names ts).toList.map (Entry.mk b.names) := by
  have hlen : (endsOf length ts [] b.names).length = b.names.length := length_endsOf _ _ _ _
  rw [names_add]
  cases t with
  | opening tag leaf =>
    cases leaf with
    | true =>
      rw [endsOf_cons_of_nest_eq _ _ (fun _ _ => rfl) fun _ => rfl]
      exact preorder_attach hlen _
    | false =>
      rw [endsOf_opening]
      simp [add, preorder, Token.nest, endsOf, openPreorder, OpenElement.close, Node.preorder,
        preorderOf, names, Token.head?]
  | closing name stop => simpa [Token.head?, add] using preorder_closeNamed length ts name stop b
  | expression tag =>
    rw [endsOf_cons_of_nest_eq _ _ (fun _ _ => rfl) fun _ => rfl]
    exact preorder_attach hlen _
  | block tag =>
    rw [endsOf_cons_of_nest_eq _ _ (fun _ _ => rfl) fun _ => rfl]
    exact preorder_attach hlen _
  | style s =>
    rw [endsOf_cons_of_nest_eq _ _ (fun _ _ => rfl) fun _ => rfl, add]
    split <;> simp [Token.nest, Token.head?, preorder]

theorem preorder_foldl (length : Nat) (ts : List Token) (b : Builder) :
    (ts.foldl add b).preorder (endsOf length [] [] (ts.foldl add b).names) =
      b.preorder (endsOf length ts [] b.names) ++ listing length b.names ts := by
  induction ts generalizing b with
  | nil => rw [List.foldl_nil, listing, List.append_nil]
  | cons t ts ih =>
    rw [List.foldl_cons, ih, preorder_add, listing, names_add, List.append_assoc]

theorem preorder_finish (length : Nat) (b : Builder) :
    preorderOf [] (b.finish length).fragment =
      b.preorder (endsOf length [] [] b.names) := by
  have hnames : b.opened.length = b.names.length := (List.length_map _).symm
  have hclosed : (Nat.repeat (closeInnermost length) b.opened.length b).preorder [] =
      b.preorder (List.replicate b.opened.length length ++ []) :=
    preorder_repeat length (by rw [List.length_nil, Nat.zero_add, hnames])
  rw [List.append_nil, hnames, ← endsOf_nil] at hclosed
  rw [← hclosed, ← hnames, finish]
  simp [preorder, openPreorder]

end Builder

namespace Component

theorem preorder_ofTokens (length : Nat) (ts : List Token) :
    preorderOf [] (ofTokens length ts).fragment = listing length [] ts := by
  rw [ofTokens, Builder.preorder_finish, Builder.preorder_foldl]
  rfl

theorem ofTokens_unmatched (length : Nat) {us : List Token} {name : String}
    (h : name ∉ us.foldl Token.nest []) (stop : Nat) (vs : List Token) :
    ofTokens length (us ++ .closing name stop :: vs) = ofTokens length (us ++ vs) := by
  have hnames : (us.foldl Builder.add .empty).names = us.foldl Token.nest [] :=
    Builder.names_foldl us .empty
  rw [← hnames] at h
  rw [ofTokens, ofTokens, List.foldl_append, List.foldl_append, List.foldl_cons, Builder.add,
    Builder.closeNamed_of_not_mem h]

end Component

/-- None of the tokens is a closing tag of one of these names, but for closing tags of elements that
are opened inside. -/
def StaysOpen (names inner : List String) (ts : List Token) : Prop :=
  ∀ us name stop vs, ts = us ++ .closing name stop :: vs → name ∈ names →
    name ∈ us.foldl Token.nest inner

/-- What ends an element with the tokens `later` behind its opening tag: the first closing tag of
its own name or of the name of an element around it, if no element of that name is open inside of
it; or the end of the source. -/
inductive EndedBy (length : Nat) (name : String) (around : List String) (later : List Token) :
    Nat → Prop
  | closed {us vs : List Token} {other : String} {stop : Nat}
      (hlater : later = us ++ .closing other stop :: vs) (hother : other = name ∨ other ∈ around)
      (hinside : other ∉ us.foldl Token.nest []) (hfirst : StaysOpen (name :: around) [] us) :
      EndedBy length name around later stop
  | source (hopen : StaysOpen (name :: around) [] later) : EndedBy length name around later length

namespace StaysOpen

variable {names inner : List String}

theorem nil : StaysOpen names inner [] := by
  intro us name stop vs h
  simp at h

theorem cons {t : Token} {ts : List Token} (ht : t.ends? names inner = none)
    (h : StaysOpen names (t.nest inner) ts) : StaysOpen names inner (t :: ts) := by
  intro us name stop vs hts hname
  rcases List.cons_eq_append_iff.1 hts with ⟨rfl, hhead⟩ | ⟨us, rfl, htail⟩
  · cases hhead
    by_contra hinner
    have hends : (Token.closing name stop).ends? names inner = some stop := if_pos ⟨hinner, hname⟩
    rw [hends] at ht
    cases ht
  · exact h us name stop vs htail hname

end StaysOpen

theorem endOf_cases (length : Nat) (names inner : List String) (ts : List Token) :
    (endOf length names inner ts = length ∧ StaysOpen names inner ts) ∨
      ∃ us name stop vs, ts = us ++ .closing name stop :: vs ∧ endOf length names inner ts = stop ∧
        name ∈ names ∧ name ∉ us.foldl Token.nest inner ∧ StaysOpen names inner us := by
  induction ts generalizing inner with
  | nil => exact .inl ⟨rfl, .nil⟩
  | cons t ts ih =>
    cases hends : t.ends? names inner with
    | none =>
      rw [endOf_cons_of_none length ts hends]
      rcases ih (t.nest inner) with ⟨h, hopen⟩ | ⟨us, name, stop, vs, rfl, h, hname, hne, hopen⟩
      · exact .inl ⟨h, hopen.cons hends⟩
      · exact .inr ⟨t :: us, name, stop, vs, rfl, h, hname, hne, hopen.cons hends⟩
    | some stop =>
      rw [endOf_cons_of_some length ts hends]
      cases t with
      | closing name n =>
        rw [Token.ends?] at hends
        split at hends
        · next h =>
          cases hends
          exact .inr ⟨[], name, _, ts, rfl, rfl, h.2, h.1, .nil⟩
        · cases hends
      | opening | expression | block | style => cases hends

theorem endedBy_endOf (length : Nat) (name : String) (around : List String) (ts : List Token) :
    EndedBy length name around ts (endOf length (name :: around) [] ts) := by
  rcases endOf_cases length (name :: around) [] ts with
    ⟨h, hopen⟩ | ⟨us, other, stop, vs, hts, h, hmem, hne, hfirst⟩
  · rw [h]
    exact .source hopen
  · rw [h]
    exact .closed hts (List.mem_cons.1 hmem) hne hfirst

theorem exists_of_mem_listing {length : Nat} {names : List String} {ts : List Token} {e : Entry}
    (h : e ∈ listing length names ts) :
    ∃ us t vs, ts = us ++ t :: vs ∧ e.around = us.foldl Token.nest names ∧
      t.head? length e.around vs = some e.head := by
  induction ts generalizing names with
  | nil => cases h
  | cons t ts ih =>
    rw [listing, List.mem_append] at h
    rcases h with h | h
    · obtain ⟨head, hhead, rfl⟩ := List.mem_map.1 h
      exact ⟨[], t, ts, rfl, rfl, by simpa using hhead⟩
    · obtain ⟨us, t', vs, rfl, haround, hhead⟩ := ih h
      exact ⟨t :: us, t', vs, rfl, haround, hhead⟩

/-- Whatever tokens a source is read as, each opening tag, mustache and block tag among them is a
node of its tree, once and in their order, below the elements that are open where it stands. A void
or closed tag is all of its element; any other element ends with the closing tag that closes it or
an element around it, or with the source. A closing tag of no open element changes nothing. -/
theorem parse_lists {source : String} {c : Component} (h : Component.parse source = .ok c) :
    ∃ ts, tokens source.toList = .ok ts ∧
      preorderOf [] c.fragment = listing (byteLength source.toList) [] ts ∧
      (∀ around tag, ⟨around, .element tag⟩ ∈ preorderOf [] c.fragment →
        ∃ us opened leaf vs, ts = us ++ .opening opened leaf :: vs ∧
          around = us.foldl Token.nest [] ∧
          tag = { opened with span := ⟨opened.span.start, tag.span.stop⟩ } ∧
          if leaf then tag = opened
          else EndedBy (byteLength source.toList) tag.name around vs tag.span.stop) ∧
      ∀ us name stop vs, ts = us ++ .closing name stop :: vs → name ∉ us.foldl Token.nest [] →
        Component.ofTokens (byteLength source.toList) (us ++ vs) = c := by
  obtain ⟨ts, hts, rfl⟩ := exists_of_map_ok h
  refine ⟨ts, hts, Component.preorder_ofTokens _ _, ?_, ?_⟩
  · intro around tag hmem
    rw [Component.preorder_ofTokens] at hmem
    obtain ⟨us, t, vs, rfl, haround, hhead⟩ := exists_of_mem_listing hmem
    cases t with
    | opening opened leaf =>
      refine ⟨us, opened, leaf, vs, rfl, haround, ?_⟩
      simp only [Token.head?, Option.some.injEq, Head.element.injEq] at hhead
      subst hhead
      cases leaf with
      | true => exact ⟨rfl, rfl⟩
      | false => exact ⟨rfl, endedBy_endOf _ _ _ _⟩
    | closing | expression | block | style => cases hhead
  · rintro us name stop vs rfl hname
    exact (Component.ofTokens_unmatched _ hname stop vs).symm

def unclosedItem : Component :=
  ⟨[.element ⟨"ul", .element, ⟨0, 18⟩, []⟩ [.element ⟨"li", .element, ⟨4, 18⟩, []⟩ []]], []⟩

theorem parse_unclosedItem : Component.parse "<ul><li>a</b></ul>" = .ok unclosedItem := by
  have hopening {name : List Char} (hname : IsTagName name) (hcontent : ¬ IsContentName name)
      (next : List Char) : (Layout.opening name (.stop [] false)).Valid next :=
    ⟨hname, hcontent, rfl, by simp [TagLayout.Valid, Blanks]⟩
  have hul : IsTagName "ul".toList := ⟨by decide, by simp [endsTagName, isBlank, blankRanges]⟩
  have hli : IsTagName "li".toList := ⟨by decide, by simp [endsTagName, isBlank, blankRanges]⟩
  have hplain : StartsPlain ['a'] := ⟨by decide, by decide, by decide, rfl⟩
  let ls : List Layout := [.opening "ul".toList (.stop [] false),
    .opening "li".toList (.stop [] false), .plain ['a'], .closing ['b'], .closing "ul".toList]
  have hvalid : ValidAll ls :=
    ⟨hopening hul (by decide) _, hopening hli (by decide) _,
      ⟨by simp, hplain, by simp, rfl⟩, by simp [Layout.Valid], by simp [Layout.Valid], trivial⟩
  have hparse := parse_textOf hvalid
  have htext : textOf ls = "<ul><li>a</b></ul>".toList := by decide
  have htokens : tokensOf 0 ls = .ok [.opening ⟨"ul", .element, ⟨0, 4⟩, []⟩ false,
      .opening ⟨"li", .element, ⟨4, 8⟩, []⟩ false, .closing "b" 13, .closing "ul" 18] := rfl
  rw [htext, htokens, String.ofList_toList] at hparse
  exact hparse

theorem parse_lists_unclosedItem :
    Component.parse "<ul><li>a</b></ul>" = .ok unclosedItem ∧
      ∃ ts, tokens "<ul><li>a</b></ul>".toList = .ok ts ∧
        listing 18 [] ts = [⟨[], .element ⟨"ul", .element, ⟨0, 18⟩, []⟩⟩,
          ⟨["ul"], .element ⟨"li", .element, ⟨4, 18⟩, []⟩⟩] := by
  obtain ⟨ts, hts, hlisting, -, -⟩ := parse_lists parse_unclosedItem
  have hlength : byteLength "<ul><li>a</b></ul>".toList = 18 := by decide
  rw [hlength] at hlisting
  exact ⟨parse_unclosedItem, ts, hts, hlisting.symm⟩

end ClassWeave.Markup

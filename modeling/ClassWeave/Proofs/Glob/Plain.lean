import ClassWeave.Glob.Parser

namespace ClassWeave.Glob

open Text

def isBracket (c : Char) : Bool := c == '[' || c == '\x7b' || c == '\x7d' || c == '\x5c'

def Takes (g : Glob) (w : List Char) : Prop := ∀ s, s ∈ g.rests true (utf8 w ++ s)

theorem utf8_append (a b : List Char) : utf8 (a ++ b) = utf8 a ++ utf8 b := List.flatMap_append

theorem mem_rests_append {a b : Glob} {crossing : Bool} {s t r : List UInt8}
    (ha : t ∈ a.rests crossing s) (hb : r ∈ b.rests crossing t) :
    r ∈ (append a b).rests crossing s := by
  rw [rests, List.mem_eraseDups, List.mem_flatMap]
  exact ⟨t, ha, hb⟩

theorem mem_restsWhile_append (s t : List UInt8) : t ∈ restsWhile (fun _ => true) (s ++ t) := by
  induction s with
  | nil =>
    cases t with
    | nil => exact List.mem_singleton_self []
    | cons b bs => exact List.mem_cons_self
  | cons b bs ih => exact List.mem_cons_of_mem _ ih

theorem mem_restsAfterSlash_append (s t : List UInt8) :
    t ∈ restsAfterSlash (s ++ slash :: t) := by
  induction s with
  | nil => exact List.mem_cons_self
  | cons b bs ih =>
    rw [List.cons_append, restsAfterSlash]
    split
    · exact List.mem_cons_of_mem _ ih
    · exact ih

namespace Takes

variable {a b : Glob} {v w : List Char}

theorem empty : Takes .empty [] := fun _ => List.mem_singleton_self _

theorem append (ha : Takes a v) (hb : Takes b w) : Takes (.append a b) (v ++ w) := by
  intro s
  have := ha (utf8 w ++ s)
  rw [utf8_append, List.append_assoc]
  exact mem_rests_append this (hb s)

theorem literal (c : Char) : Takes (.literal c) [c] := by
  intro s
  have hc : utf8 [c] = String.utf8EncodeChar c := List.append_nil _
  rw [hc, rests, if_pos (List.prefix_append _ _), List.drop_left]
  exact List.mem_singleton_self s

theorem single : Takes .single ['?'] := fun s => List.mem_singleton_self s

theorem run (w : List Char) : Takes .run w := fun s => mem_restsWhile_append _ s

theorem leadingPath (w : List Char) : Takes .leadingPath (w ++ ['/']) := by
  intro s
  have hslash : utf8 ['/'] = [slash] := by decide
  rw [utf8_append, hslash, List.append_assoc]
  exact List.mem_cons_of_mem _ (mem_restsAfterSlash_append _ s)

theorem innerPath (w : List Char) : Takes .innerPath ('/' :: (w ++ ['/'])) := by
  intro s
  have hslash : utf8 ['/'] = [slash] := by decide
  have hcons : utf8 ('/' :: (w ++ ['/'])) = slash :: (utf8 w ++ [slash]) := by
    rw [← hslash, ← utf8_append]
    rfl
  rw [hcons, List.cons_append, rests, if_pos rfl, List.append_assoc]
  exact List.mem_cons_of_mem _ (mem_restsAfterSlash_append _ s)

end Takes

theorem nil_mem_rests_trailingPath (w : List Char) (s : List UInt8) :
    [] ∈ trailingPath.rests true (utf8 ('/' :: w) ++ s) := by
  have hcons : utf8 ('/' :: w) ++ s = slash :: (utf8 w ++ s) := rfl
  have := mem_restsWhile_append (utf8 w ++ s) []
  rw [hcons, rests, if_pos rfl]
  rwa [List.append_nil] at this

inductive AfterSlash : Glob → List Char → Prop
  | leading (u : List Char) : AfterSlash (.append .empty .leadingPath) u
  | inner {a g : Glob} {u : List Char} (w : List Char) (ha : Takes a u)
      (hg : g = .literal '/' ∨ g = .innerPath) : AfterSlash (.append a g) (u ++ '/' :: w)

namespace AfterSlash

variable {g : Glob} {u : List Char}

theorem ne_empty (h : AfterSlash g u) : g ≠ .empty := by
  cases h <;> nofun

theorem join (h : AfterSlash g u) :
    Takes (Reading.joinPath .innerPath g) (u ++ ['*', '*', '/']) ∧
      AfterSlash (Reading.joinPath .innerPath g) (u ++ ['*', '*', '/']) := by
  cases h with
  | leading =>
    have := Takes.empty.append (Takes.leadingPath (u ++ ['*', '*']))
    exact ⟨by simpa [Reading.joinPath] using this, .leading _⟩
  | @inner a g u w ha hg =>
    have hjoin : Reading.joinPath .innerPath (.append a g) = .append a .innerPath := by
      rcases hg with rfl | rfl <;> rfl
    rw [hjoin]
    have htakes := ha.append (Takes.innerPath (w ++ ['*', '*']))
    have hafter := AfterSlash.inner (w ++ ['*', '*', '/']) ha (.inr rfl)
    exact ⟨by simpa using htakes, by simpa using hafter⟩

theorem accepts (h : AfterSlash g (u ++ ['/'])) (s : List UInt8) :
    (Reading.joinPath .trailingPath g).accepts true (utf8 u ++ slash :: s) = true := by
  have hslash : utf8 ['/'] = [slash] := by decide
  have htext : utf8 u ++ slash :: s = utf8 (u ++ ['/']) ++ s := by
    rw [utf8_append, hslash, List.append_assoc]
    rfl
  rw [htext]
  generalize u ++ ['/'] = u at h
  cases h with
  | leading => rfl
  | @inner a g u w ha hg =>
    have hjoin : Reading.joinPath .trailingPath (.append a g) = .append a .trailingPath := by
      rcases hg with rfl | rfl <;> rfl
    have hempty : [] ∈ (append a .trailingPath).rests true (utf8 (u ++ '/' :: w) ++ s) := by
      rw [utf8_append, List.append_assoc]
      exact mem_rests_append (ha _) (nil_mem_rests_trailingPath w s)
    rw [hjoin, Glob.accepts, Bool.or_eq_true, List.contains_iff_mem]
    exact .inr hempty

end AfterSlash

structure Reading.Reads (r : Reading) (u : List Char) : Prop where
  choices : r.choices = []
  takes : Takes r.current u
  fresh : r.current = .empty → u = []
  afterSlash : r.previous = some '/' → AfterSlash r.current u

namespace Reading.Reads

variable {r : Reading} {u : List Char}

theorem start : Reads {} [] := ⟨rfl, .empty, fun _ => rfl, nofun⟩

theorem push (h : r.Reads u) {g : Glob} {c : Char} (hg : Takes g [c])
    (hc : c = '/' → g = .literal '/') : (r.push g c).Reads (u ++ [c]) where
  choices := h.choices
  takes := h.takes.append hg
  fresh := nofun
  afterSlash := by
    intro hprevious
    cases Option.some.inj hprevious
    exact .inner [] h.takes (.inl (hc rfl))

theorem stars (h : r.Reads u) :
    { r with current := .append (.append r.current .run) .run, previous := some '*' : Reading }.Reads
      (u ++ ['*', '*']) where
  choices := h.choices
  takes := by simpa using (h.takes.append (.run ['*'])).append (.run ['*'])
  fresh := nofun
  afterSlash := nofun

theorem doubleStar_of_ne (h : r.Reads u) {c : Char} (hc : c ≠ '/') :
    ∃ r', r.doubleStar (some c) = (r', false) ∧ r'.Reads (u ++ ['*', '*']) := by
  refine ⟨_, ?_, h.stars⟩
  by_cases hempty : r.current = .empty
  · simp [doubleStar, hempty, hc]
  · simp [doubleStar, hempty, breaksBefore, inBraces, h.choices, hc]

theorem doubleStar_slash (h : r.Reads u) :
    (∃ r', r.doubleStar (some '/') = (r', false) ∧ r'.Reads (u ++ ['*', '*'])) ∨
      ∃ r', r.doubleStar (some '/') = (r', true) ∧ r'.Reads (u ++ ['*', '*', '/']) ∧
        r'.previous = some '/' := by
  by_cases hempty : r.current = .empty
  · refine .inr ⟨{ r with current := .append .empty .leadingPath, previous := some '/' }, ?_, ?_, rfl⟩
    · simp [doubleStar, hempty]
    · rw [h.fresh hempty]
      exact ⟨h.choices, by simpa using Takes.empty.append (Takes.leadingPath ['*', '*']), nofun,
        fun _ => .leading _⟩
  by_cases hslash : r.previous = some '/'
  · obtain ⟨htakes, hafter⟩ := (h.afterSlash hslash).join
    refine .inr ⟨{ r with current := joinPath .innerPath r.current, previous := some '/' }, ?_, ?_,
      rfl⟩
    · simp [doubleStar, hempty, afterBreak, breaksBefore, hslash]
    · exact ⟨h.choices, htakes, fun hnone => absurd hnone hafter.ne_empty, fun _ => hafter⟩
  · refine .inl ⟨_, ?_, h.stars⟩
    simp [doubleStar, hempty, afterBreak, inBraces, h.choices, hslash]

theorem accepts_last (h : r.Reads (u ++ ['/'])) (hslash : r.previous = some '/') :
    ∃ g, read false r ['*', '*'] = .ok g ∧
      ∀ s, g.accepts true (utf8 u ++ slash :: s) = true := by
  have hafter := h.afterSlash hslash
  refine ⟨joinPath .trailingPath r.current, ?_, hafter.accepts⟩
  have hstep : r.doubleStar none =
      ({ r with current := joinPath .trailingPath r.current, previous := some '*' }, false) := by
    simp [doubleStar, hafter.ne_empty, afterBreak, breaksBefore, hslash]
  rw [read, List.head?_nil, hstep, List.drop_nil, read]
  simp [inBraces, h.choices]

theorem read_literal (h : r.Reads u) {c : Char} (hc : isBracket c = false) (hsingle : c ≠ '?')
    (hrun : c ≠ '*') (cs : List Char) :
    read false r (c :: cs) = read false (r.push (.literal c) c) cs := by
  by_cases hcomma : c = ','
  · subst hcomma
    rw [read, comma, h.choices]
  · simp only [isBracket, Bool.or_eq_false_iff, beq_eq_false_iff_ne] at hc
    rw [read] <;> simp_all

theorem read_run (r : Reading) {cs : List Char} (hcs : cs.head? ≠ some '*') :
    read false r ('*' :: cs) = read false (r.push .run '*') cs := by
  rw [read]
  rintro cs' rfl
  exact hcs rfl

theorem exists_doubleStar (h : r.Reads u) (c : Char) (cs : List Char) :
    ∃ r', (read false r ('*' :: '*' :: c :: cs) = read false r' (c :: cs) ∧
        r'.Reads (u ++ ['*', '*'])) ∨
      (c = '/' ∧ read false r ('*' :: '*' :: c :: cs) = read false r' cs ∧
        r'.Reads (u ++ ['*', '*', '/']) ∧ r'.previous = some '/') := by
  by_cases hc : c = '/'
  · subst hc
    rcases h.doubleStar_slash with ⟨r', hr', hreads⟩ | ⟨r', hr', hreads, hprevious⟩
    · refine ⟨r', .inl ⟨?_, hreads⟩⟩
      rw [read, List.head?_cons, hr']
      rfl
    · refine ⟨r', .inr ⟨rfl, ?_, hreads, hprevious⟩⟩
      rw [read, List.head?_cons, hr']
      rfl
  · obtain ⟨r', hr', hreads⟩ := h.doubleStar_of_ne hc
    refine ⟨r', .inl ⟨?_, hreads⟩⟩
    rw [read, List.head?_cons, hr']
    rfl

theorem exists_push (h : r.Reads u) {c : Char} (hc : isBracket c = false) {cs : List Char}
    (hcs : c = '*' → cs.head? ≠ some '*') :
    ∃ r', read false r (c :: cs) = read false r' cs ∧ r'.Reads (u ++ [c]) := by
  by_cases hsingle : c = '?'
  · subst hsingle
    exact ⟨_, by rw [read], h.push .single fun hslash => absurd hslash (by decide)⟩
  by_cases hrun : c = '*'
  · subst hrun
    exact ⟨_, read_run r (hcs rfl), h.push (.run _) fun hslash => absurd hslash (by decide)⟩
  exact ⟨_, h.read_literal hc hsingle hrun cs, h.push (.literal c) fun hslash => by rw [hslash]⟩

theorem exists_read : (v : List Char) → (∀ c ∈ v, isBracket c = false) → {r : Reading} →
    {u : List Char} → r.Reads u →
    ∃ g, read false r (v ++ ['/', '*', '*']) = .ok g ∧
      ∀ s, g.accepts true (utf8 (u ++ v) ++ Glob.slash :: s) = true
  | [], _, r, u, h => by
    have hpush := h.push (.literal '/') fun _ => rfl
    rw [List.nil_append, h.read_literal rfl (by decide) (by decide), List.append_nil]
    exact hpush.accepts_last rfl
  | b :: v, hv, r, u, h => by
    rw [List.forall_mem_cons] at hv
    by_cases hstars : b = '*' ∧ v.head? = some '*'
    · obtain ⟨rfl, hhead⟩ := hstars
      obtain ⟨v, rfl⟩ := List.head?_eq_some_iff.1 hhead
      -- The slash that ends the pattern may be the one that the two stars take.
      cases v with
      | nil =>
        obtain ⟨r', ⟨hread, hreads⟩ | ⟨-, hread, hreads, hprevious⟩⟩ :=
          h.exists_doubleStar '/' ['*', '*']
        · obtain ⟨g, hg, haccepts⟩ := exists_read [] (by simp) hreads
          rw [List.append_nil] at haccepts
          exact ⟨g, hread.trans hg, haccepts⟩
        · have hlast : r'.Reads (u ++ ['*', '*'] ++ ['/']) := by simpa using hreads
          obtain ⟨g, hg, haccepts⟩ := hlast.accepts_last hprevious
          exact ⟨g, hread.trans hg, haccepts⟩
      | cons c v =>
        simp only [List.forall_mem_cons] at hv
        obtain ⟨r', ⟨hread, hreads⟩ | ⟨rfl, hread, hreads, -⟩⟩ :=
          h.exists_doubleStar c (v ++ ['/', '*', '*'])
        · obtain ⟨g, hg, haccepts⟩ := exists_read (c :: v) (by simpa using hv.2.2) hreads
          exact ⟨g, hread.trans hg, by simpa using haccepts⟩
        · obtain ⟨g, hg, haccepts⟩ := exists_read v hv.2.2.2 hreads
          exact ⟨g, hread.trans hg, by simpa using haccepts⟩
    · have hrun : b = '*' → (v ++ ['/', '*', '*']).head? ≠ some '*' := by
        intro hb
        cases v with
        | nil => simp
        | cons c v => exact fun hc => hstars ⟨hb, hc⟩
      obtain ⟨r', hread, hreads⟩ := h.exists_push hv.1 hrun
      obtain ⟨g, hg, haccepts⟩ := exists_read v hv.2 hreads
      exact ⟨g, hread.trans hg, by simpa using haccepts⟩
termination_by v => v.length

end Reading.Reads

theorem exists_parse {v : List Char} (hv : ∀ c ∈ v, isBracket c = false) :
    ∃ g, parse (v ++ ['/', '*', '*']) = .ok g ∧
      ∀ s, g.accepts true (utf8 v ++ slash :: s) = true :=
  Reading.Reads.exists_read v hv .start

end ClassWeave.Glob

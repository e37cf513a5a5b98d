import ClassWeave.Proofs.Markup.Operands
import ClassWeave.Toml.Word

namespace ClassWeave.Markup

open Text

inductive Spaced (isDigit : Char → Bool) : List Char → Prop
  | last {x : Char} (hx : isDigit x = true) : Spaced isDigit [x]
  | cons {x : Char} (hx : isDigit x = true) {w : List Char} (h : Spaced isDigit w) :
      Spaced isDigit (x :: w)
  | underscore {x : Char} (hx : isDigit x = true) {w : List Char} (h : Spaced isDigit w) :
      Spaced isDigit (x :: '_' :: w)

structure Digits (isDigit : Char → Bool) where
  chars : List Char
  spaced : Spaced isDigit chars

inductive Base
  | binary
  | octal
  | hexadecimal

def Base.mark : Base → Char
  | binary => 'b'
  | octal => 'o'
  | hexadecimal => 'x'

def Base.isDigit : Base → Char → Bool
  | binary => fun c => c == '0' || c == '1'
  | octal => fun c => '0' ≤ c && c ≤ '7'
  | hexadecimal => Toml.isHexDigit

structure Exponent where
  mark : Char
  isMark : mark = 'e' ∨ mark = 'E'
  sign : Option Char
  isSign : ∀ x ∈ sign, Toml.isSign x = true
  digits : Digits Char.isDigit

/-- A number without a sign before it. Zeros may stand before the whole part, as they do in octal
numbers of the old form. -/
inductive Numeral
  | whole (digits : Digits Char.isDigit) (exponent : Option Exponent)
  | pointed (digits : Digits Char.isDigit) (fraction : Option (Digits Char.isDigit))
      (exponent : Option Exponent)
  | fraction (digits : Digits Char.isDigit) (exponent : Option Exponent)
  | big (digits : Digits Char.isDigit)
  | based (base : Base) (upper : Bool) (digits : Digits base.isDigit) (isBig : Bool)

structure Number where
  negative : Bool
  numeral : Numeral

def Exponent.text (e : Exponent) : List Char := e.mark :: (e.sign.toList ++ e.digits.chars)

namespace Numeral

def text : Numeral → List Char
  | whole ds e => ds.chars ++ e.toList.flatMap Exponent.text
  | pointed ds f e => ds.chars ++ '.' :: (f.toList.flatMap Digits.chars ++
      e.toList.flatMap Exponent.text)
  | fraction ds e => '.' :: (ds.chars ++ e.toList.flatMap Exponent.text)
  | big ds => ds.chars ++ ['n']
  | based base upper ds isBig =>
    '0' :: (if upper then base.mark.toUpper else base.mark) ::
      (ds.chars ++ if isBig then ['n'] else [])

def exponent? : Numeral → Option Exponent
  | whole _ e => e
  | pointed _ _ e => e
  | fraction _ e => e
  | big _ => none
  | based .. => none

def hasSignedExponent (n : Numeral) : Bool := n.exponent?.any fun e => e.sign.isSome

end Numeral

namespace Number

def text (m : Number) : List Char := (if m.negative then ['-'] else []) ++ m.numeral.text

def hasSignedExponent (m : Number) : Bool := m.numeral.hasSignedExponent

end Number

def isNumberChar (c : Char) : Bool := c.isAlphanum || c == '.' || c == '_'

theorem isAlphanum_of_isDigit {c : Char} (h : c.isDigit = true) : c.isAlphanum = true := by
  rw [Char.isAlphanum, h, Bool.or_true]

theorem isAlpha_of_isUpper {c : Char} (h : c.isUpper = true) : c.isAlpha = true := by
  change (c.isUpper || c.isLower) = true
  rw [h, Bool.true_or]

theorem isAlpha_of_bounds {c : Char} (hlow : 'a' ≤ c) (hhigh : c ≤ 'z') : c.isAlpha = true := by
  change (c.isUpper || (decide ('a' ≤ c) && decide (c ≤ 'z'))) = true
  rw [decide_eq_true hlow, decide_eq_true hhigh, Bool.and_true, Bool.or_true]

theorem isAlphanum_of_isHexDigit {c : Char} (h : Toml.isHexDigit c = true) :
    c.isAlphanum = true := by
  rw [Toml.isHexDigit, Bool.or_eq_true, Bool.and_eq_true, decide_eq_true_eq,
    decide_eq_true_eq] at h
  rcases h with h | ⟨hlow, hhigh⟩
  · exact isAlphanum_of_isDigit h
  · have halpha : c.isAlpha = true := by
      by_cases hupper : c.isUpper = true
      · exact isAlpha_of_isUpper hupper
      · have hlower : c.toLower = c := dif_neg fun h => hupper (decide_eq_true h)
        rw [hlower] at hlow hhigh
        exact isAlpha_of_bounds hlow (UInt32.le_trans hhigh (by decide))
    rw [Char.isAlphanum, halpha, Bool.true_or]

theorem Base.isAlphanum_of_isDigit {base : Base} {c : Char} (h : base.isDigit c = true) :
    c.isAlphanum = true := by
  cases base with
  | binary =>
    rw [Base.isDigit, Bool.or_eq_true, beq_iff_eq, beq_iff_eq] at h
    rcases h with rfl | rfl <;> rfl
  | octal =>
    rw [Base.isDigit, Bool.and_eq_true, decide_eq_true_eq, decide_eq_true_eq] at h
    apply Markup.isAlphanum_of_isDigit
    rw [Char.isDigit, Bool.and_eq_true, decide_eq_true_eq, decide_eq_true_eq]
    exact ⟨h.1, UInt32.le_trans h.2 (by decide)⟩
  | hexadecimal => exact isAlphanum_of_isHexDigit h

theorem not_isNumberChar_of_isSign {c : Char} (h : Toml.isSign c = true) :
    isNumberChar c = false := by
  rw [Toml.isSign, Bool.or_eq_true, beq_iff_eq, beq_iff_eq] at h
  rcases h with rfl | rfl <;> rfl

namespace Digits

variable {isDigit : Char → Bool}

theorem exists_head (ds : Digits isDigit) : ∃ x w, ds.chars = x :: w ∧ isDigit x = true := by
  obtain ⟨w, hw⟩ := ds
  cases hw with
  | last hx => exact ⟨_, _, rfl, hx⟩
  | cons hx _ => exact ⟨_, _, rfl, hx⟩
  | underscore hx _ => exact ⟨_, _, rfl, hx⟩

theorem of_mem_chars (hdigit : ∀ x, isDigit x = true → x.isAlphanum = true)
    (ds : Digits isDigit) : ∀ x ∈ ds.chars, isNumberChar x = true := by
  have hnumber {x : Char} (hx : isDigit x = true) : isNumberChar x = true := by
    rw [isNumberChar, hdigit x hx]
    rfl
  obtain ⟨w, hw⟩ := ds
  intro x hmem
  dsimp only at hmem
  induction hw with
  | last hx =>
    rw [List.mem_singleton.1 hmem]
    exact hnumber hx
  | cons hx _ ih =>
    rcases List.mem_cons.1 hmem with rfl | hmem
    · exact hnumber hx
    · exact ih hmem
  | underscore hx _ ih =>
    rcases List.mem_cons.1 hmem with rfl | hmem
    · exact hnumber hx
    · rcases List.mem_cons.1 hmem with rfl | hmem
      · rfl
      · exact ih hmem

end Digits

theorem Exponent.of_mem_text {e : Exponent} {x : Char} (h : x ∈ e.text) :
    isNumberChar x = true ∨ x ∈ e.sign := by
  rw [Exponent.text, List.mem_cons, List.mem_append, Option.mem_toList] at h
  rcases h with rfl | h | h
  · left
    rcases e.isMark with h | h
    all_goals
      rw [h]
      rfl
  · exact .inr h
  · exact .inl (e.digits.of_mem_chars (fun _ => isAlphanum_of_isDigit) x h)

namespace Numeral

variable {n : Numeral} {x : Char}

theorem of_mem_exponent {e : Option Exponent} (h : x ∈ e.toList.flatMap Exponent.text) :
    isNumberChar x = true ∨ ∃ d ∈ e, x ∈ d.sign := by
  obtain ⟨d, hd, hx⟩ := List.mem_flatMap.1 h
  exact (Exponent.of_mem_text hx).imp_right fun hx => ⟨d, Option.mem_toList.1 hd, hx⟩

theorem of_mem_text (h : x ∈ n.text) :
    isNumberChar x = true ∨ ∃ e ∈ n.exponent?, x ∈ e.sign := by
  have hdigits {ds : Digits Char.isDigit} (h : x ∈ ds.chars) : isNumberChar x = true :=
    ds.of_mem_chars (fun _ => isAlphanum_of_isDigit) x h
  cases n with
  | whole ds e =>
    rcases List.mem_append.1 h with h | h
    · exact .inl (hdigits h)
    · exact of_mem_exponent h
  | pointed ds f e =>
    rcases List.mem_append.1 h with h | h
    · exact .inl (hdigits h)
    · rcases List.mem_cons.1 h with rfl | h
      · exact .inl rfl
      · rcases List.mem_append.1 h with h | h
        · obtain ⟨d, -, hx⟩ := List.mem_flatMap.1 h
          exact .inl (hdigits hx)
        · exact of_mem_exponent h
  | fraction ds e =>
    rcases List.mem_cons.1 h with rfl | h
    · exact .inl rfl
    · rcases List.mem_append.1 h with h | h
      · exact .inl (hdigits h)
      · exact of_mem_exponent h
  | big ds =>
    rcases List.mem_append.1 h with h | h
    · exact .inl (hdigits h)
    · rw [List.mem_singleton.1 h]
      exact .inl rfl
  | based base upper ds isBig =>
    left
    rcases List.mem_cons.1 h with rfl | h
    · rfl
    · rcases List.mem_cons.1 h with rfl | h
      · cases base <;> cases upper <;> rfl
      · rcases List.mem_append.1 h with h | h
        · exact ds.of_mem_chars (fun _ => Base.isAlphanum_of_isDigit) x h
        · cases isBig with
          | false => cases h
          | true =>
            rw [List.mem_singleton.1 h]
            rfl

theorem sign_mem_text {e : Exponent} (he : e ∈ n.exponent?) (hx : x ∈ e.sign) : x ∈ n.text := by
  have hmem : x ∈ e.text := by simp [Exponent.text, Option.mem_toList.2 hx]
  cases n with
  | whole ds d | pointed ds f d | fraction ds d =>
    obtain rfl : d = some e := he
    simp [text, hmem]
  | big | based => cases he

theorem startsNumber_text (n : Numeral) : Expr.startsNumber n.text = true := by
  cases n with
  | whole ds e | pointed ds f e | big ds =>
    obtain ⟨x, w, hw, hx⟩ := ds.exists_head
    simp [text, hw, Expr.startsNumber, hx]
  | fraction ds e =>
    obtain ⟨x, w, hw, hx⟩ := ds.exists_head
    simp [text, hw, Expr.startsNumber, hx]
  | based base upper ds isBig => rfl

theorem all_text (n : Numeral) : n.text.all isNumberChar = !n.hasSignedExponent := by
  cases hsigned : n.hasSignedExponent with
  | true =>
    obtain ⟨e, he, hsign⟩ := (Option.any_eq_true _ _).1 hsigned
    obtain ⟨x, hx⟩ := Option.isSome_iff_exists.1 hsign
    rw [Bool.not_true, List.all_eq_false]
    refine ⟨x, sign_mem_text he hx, ?_⟩
    rw [not_isNumberChar_of_isSign (e.isSign x hx)]
    decide
  | false =>
    rw [Bool.not_false, List.all_eq_true]
    intro x hx
    apply (of_mem_text hx).resolve_right
    rintro ⟨e, he, hsign⟩
    rw [hasSignedExponent, he, Option.any_some, hsign] at hsigned
    cases hsigned

end Numeral

namespace Number

theorem unsigned_text (m : Number) :
    (if m.text.head? = some '-' then m.text.tail else m.text) = m.numeral.text := by
  rw [text]
  cases m.negative with
  | true => rfl
  | false =>
    rw [if_neg Bool.false_ne_true, List.nil_append, if_neg]
    intro hhead
    obtain ⟨w, hw⟩ := List.head?_eq_some_iff.1 hhead
    have hstart := m.numeral.startsNumber_text
    rw [hw] at hstart
    cases hstart

theorem isPlainLiteral_text (m : Number) : Expr.isPlainLiteral m.text = !m.hasSignedExponent := by
  have hword {word : List Char}
      (h : Expr.startsNumber (if word.head? = some '-' then word.tail else word) = false) :
      (m.text == word) = false := by
    rw [beq_eq_false_iff_ne]
    rintro rfl
    rw [m.unsigned_text, m.numeral.startsNumber_text] at h
    cases h
  rw [Expr.isPlainLiteral, hword rfl, hword rfl, hword rfl]
  simp only [Bool.false_or, m.unsigned_text, m.numeral.startsNumber_text, Bool.true_and]
  exact m.numeral.all_text

theorem of_mem_text {m : Number} {x : Char} (h : x ∈ m.text) :
    isNumberChar x = true ∨ Toml.isSign x = true := by
  rw [text, List.mem_append] at h
  rcases h with h | h
  · right
    cases hnegative : m.negative with
    | true =>
      rw [hnegative, if_pos rfl, List.mem_singleton] at h
      rw [h]
      rfl
    | false =>
      rw [hnegative] at h
      cases h
  · apply (Numeral.of_mem_text h).imp_right
    rintro ⟨e, -, hx⟩
    exact e.isSign x hx

end Number

theorem not_isBlank_of_isNumberChar {x : Char} (h : isNumberChar x = true) : isBlank x = false := by
  simp only [isNumberChar, Char.isAlphanum, Bool.or_eq_true, beq_iff_eq] at h
  rcases h with ((h | h) | rfl) | rfl
  · have := toNat_of_isAlpha h
    apply not_isBlank_of_ascii
    all_goals omega
  · have := toNat_of_isDigit h
    apply not_isBlank_of_ascii
    all_goals omega
  · rfl
  · rfl

theorem not_isBlank_of_isSign {x : Char} (h : Toml.isSign x = true) : isBlank x = false := by
  rw [Toml.isSign, Bool.or_eq_true, beq_iff_eq, beq_iff_eq] at h
  rcases h with rfl | rfl <;> rfl

section

variable {x : Char} (h : isNumberChar x = true ∨ Toml.isSign x = true)

include h

theorem ne_of_number {y : Char} (hnumber : isNumberChar y = false) (hsign : Toml.isSign y = false) :
    x ≠ y := by
  rintro rfl
  rw [hnumber, hsign] at h
  rcases h with h | h <;> cases h

theorem isOrdinary_of_number : isOrdinary x = true := by
  by_contra hx
  simp only [isOrdinary, isQuote, Brackets.all, Bool.and_eq_true, Bool.not_eq_true',
    Bool.or_eq_false_iff, beq_eq_false_iff_ne, not_and_or, not_not] at hx
  rcases hx with (((rfl | rfl) | rfl) | ((rfl | rfl) | rfl)) | ((rfl | rfl) | rfl)
  all_goals exact ne_of_number h (by decide) (by decide) rfl

end

namespace Expr

theorem plain_of_ordinary {w : List Char}
    (h : ∀ x ∈ w, isOrdinary x = true ∧ x ≠ ':' ∧ x ≠ '?') : Plain w := by
  induction w with
  | nil => exact .nil
  | cons x w ih =>
    obtain ⟨⟨hx, hcolon, hquestion⟩, hw⟩ := List.forall_mem_cons.1 h
    exact (plain_singleton hx hcolon hquestion).append (ih hw)

end Expr

namespace Number

theorem isWord_text (m : Number) : IsWord m.text := by
  constructor
  · intro hnil
    have hstart := m.numeral.startsNumber_text
    rw [text, List.append_eq_nil_iff] at hnil
    rw [hnil.2] at hstart
    cases hstart
  · intro x hx
    rcases of_mem_text hx with h | h
    · exact not_isBlank_of_isNumberChar h
    · exact not_isBlank_of_isSign h

def leaf (m : Number) : Expr.Leaf where
  text := m.text
  trimmed := m.isWord_text.trim_eq
  plain := by
    apply Expr.plain_of_ordinary
    intro x hx
    have h := of_mem_text hx
    exact ⟨isOrdinary_of_number h, ne_of_number h rfl rfl, ne_of_number h rfl rfl⟩
  bare := by
    intro cs _ heq
    have hopen : '(' ∈ m.text := by
      rw [heq]
      exact List.mem_cons_self
    exact ne_of_number (of_mem_text hopen) rfl rfl rfl

def expr (m : Number) : Expr :=
  if m.hasSignedExponent then .other (.ofList m.text) else .literal (.ofList m.text)

theorem literal?_text (m : Number) :
    Expr.literal? m.text = if m.hasSignedExponent then none else some m.text := by
  have hstring : Expr.stringLiteral? m.text = none := by
    obtain ⟨x, w, hw⟩ := List.exists_cons_of_ne_nil m.isWord_text.1
    have hx : isQuote x = false := by
      have hmem : x ∈ m.text := by rw [hw]; exact List.mem_cons_self
      have hx := isOrdinary_of_number (of_mem_text hmem)
      simp only [isOrdinary, Bool.and_eq_true, Bool.not_eq_true'] at hx
      exact hx.1.1
    simp [hw, Expr.stringLiteral?, hx]
  rw [Expr.literal?, hstring, Option.none_or, m.isPlainLiteral_text]
  cases m.hasSignedExponent <;> rfl

theorem read_around (m : Number) {a b : List Char} (ha : ∀ x ∈ a, isBlank x = true)
    (hb : ∀ x ∈ b, isBlank x = true) (o : Nat) : Expr.read o (a ++ (m.text ++ b)) = m.expr := by
  have hread := m.leaf.read_around ha hb o
  have hliteral : Expr.literal? m.leaf.text = _ := m.literal?_text
  rw [hliteral] at hread
  rw [expr]
  cases hsigned : m.hasSignedExponent with
  | true | false =>
    rw [hsigned] at hread
    exact hread

end Number

end ClassWeave.Markup

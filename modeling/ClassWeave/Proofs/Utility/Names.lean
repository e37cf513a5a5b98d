import ClassWeave.Proofs.Text.Blank
import ClassWeave.Proofs.Utility.Inert
import ClassWeave.Utility.Builtin

/-!
The names of generated classes, and those of the tokens that are known from the start. All generated
names end in a digest, and no token that is known from the start does.
-/

namespace ClassWeave.Utility

open Style Text

def isNameChar (c : Char) : Bool := c.isAlphanum || c == '-' || c == '_'

def IsPlainStem (stem : String) : Prop := ∀ c ∈ stem.toList, isNameChar c = true

def isHexDigit (c : Char) : Bool := c.isDigit || 'a' ≤ c && c ≤ 'f'

theorem isHexDigit_digitChar : ∀ n < 16, isHexDigit (Nat.digitChar n) = true := by decide

theorem isNameChar_of_isHexDigit {c : Char} (h : isHexDigit c = true) : isNameChar c = true := by
  rw [isHexDigit, Bool.or_eq_true] at h
  rcases h with h | h
  · simp [isNameChar, Char.isAlphanum, h]
  · simp only [Bool.and_eq_true, decide_eq_true_eq] at h
    have hlower : c.isLower = true := by
      change (decide ('a'.val ≤ c.val) && decide (c.val ≤ 'z'.val)) = true
      rw [Bool.and_eq_true, decide_eq_true_eq, decide_eq_true_eq]
      exact ⟨h.1, UInt32.le_trans h.2 (by decide)⟩
    have halpha : c.isAlpha = true := by
      change (c.isUpper || c.isLower) = true
      rw [hlower, Bool.or_true]
    simp [isNameChar, Char.isAlphanum, halpha]

theorem ne_of_isNameChar {c d : Char} (h : isNameChar c = true) (hd : isNameChar d = false) :
    c ≠ d := by
  rintro rfl
  rw [h] at hd
  cases hd

theorem not_isBlank_of_isNameChar {c : Char} (h : isNameChar c = true) : isBlank c = false := by
  simp only [isNameChar, Char.isAlphanum, Bool.or_eq_true, beq_iff_eq] at h
  rcases h with ((h | h) | rfl) | rfl
  · have := toNat_of_isAlpha h
    apply not_isBlank_of_ascii
    all_goals omega
  · have := toNat_of_isDigit h
    apply not_isBlank_of_ascii
    all_goals omega
  · rfl
  · rfl

namespace Digest

theorem length_shortText (text : String) : (shortText text).toList.length = 8 := by
  simp [shortText]

theorem isHexDigit_of_mem {text : String} {c : Char} (h : c ∈ (shortText text).toList) :
    isHexDigit c = true := by
  rw [shortText, String.toList_ofList] at h
  obtain ⟨i, -, rfl⟩ := List.mem_map.1 h
  exact isHexDigit_digitChar _ (Nat.mod_lt _ (by decide))

end Digest

theorem isNameChar_of_mem {stem text : String} (h : IsPlainStem stem) {c : Char}
    (hc : c ∈ (stem ++ Digest.shortText text).toList) : isNameChar c = true := by
  rw [String.toList_append] at hc
  rcases List.mem_append.1 hc with hc | hc
  · exact h c hc
  · exact isNameChar_of_isHexDigit (Digest.isHexDigit_of_mem hc)

theorem inert_name {stem : String} (h : IsPlainStem stem) (text : String) :
    Style.Inert (stem ++ Digest.shortText text).toList :=
  fun hc => ne_of_isNameChar (isNameChar_of_mem h hc) rfl rfl

def Table.IsFresh (t : Table) (stem : String) : Prop :=
  ∀ text, t.knows (stem ++ Digest.shortText text) = false

def endsInDigest (name : String) : Bool :=
  let ds := name.toList.reverse.take 8
  ds.length == 8 && ds.all isHexDigit

theorem endsInDigest_name (stem text : String) :
    endsInDigest (stem ++ Digest.shortText text) = true := by
  have hlen := Digest.length_shortText text
  have htake : (stem ++ Digest.shortText text).toList.reverse.take 8 =
      (Digest.shortText text).toList.reverse := by
    rw [String.toList_append, List.reverse_append, ← hlen, ← List.length_reverse, List.take_left]
  simp only [endsInDigest, htake, List.length_reverse, hlen, List.all_reverse]
  apply List.all_eq_true.2
  exact fun c hc => Digest.isHexDigit_of_mem hc

set_option maxRecDepth 10000 in
theorem not_endsInDigest_builtin : builtinUtilities.all (fun e => !endsInDigest e.1) = true := by
  decide +kernel

theorem isFresh_builtin (stem : String) : Table.builtin.IsFresh stem := by
  intro text
  rw [Table.knows, Option.isSome_eq_false_iff, Option.isNone_iff_eq_none]
  cases h : Table.builtin.lookup (stem ++ Digest.shortText text) with
  | none => rfl
  | some e =>
    rcases Assoc.mem_putAll (Table.mem_of_lookup h) with hmem | hmem
    · cases hmem
    · obtain ⟨u, hu, hname⟩ := List.mem_map.1 hmem
      have hne := List.all_eq_true.1 not_endsInDigest_builtin u hu
      have hends := endsInDigest_name stem text
      rw [← (Prod.mk.inj hname).1] at hends
      simp [hends] at hne

theorem inert_of_bytes {s : String} (h : s.toByteArray.data.toList.contains 60 = false) :
    Style.Inert s.toList := by
  intro hmem
  have hbytes : s.toByteArray.data.toList = s.toList.flatMap String.utf8EncodeChar := by
    rw [← String.utf8Encode_toList, List.utf8Encode, List.toList_data_toByteArray]
  have hmark : (60 : UInt8) ∈ s.toByteArray.data.toList := by
    rw [hbytes, List.mem_flatMap]
    exact ⟨'<', hmem, by decide⟩
  rw [List.contains_iff_mem.2 hmark] at h
  cases h

def bytesInert (s : String) : Bool := !s.toByteArray.data.toList.contains 60

set_option maxRecDepth 10000 in
theorem bytesInert_builtinUtilities :
    builtinUtilities.all (fun e => bytesInert e.1 && bytesInert e.2) = true := by
  decide +kernel

set_option maxRecDepth 10000 in
theorem bytesInert_builtinPreflight :
    builtinPreflight.all (fun e => bytesInert e.selector && bytesInert e.declarations) = true := by
  decide +kernel

theorem Table.inert_builtin : Table.builtin.Inert := by
  have hbytes {a b : String} (h : (bytesInert a && bytesInert b) = true) :
      Style.Inert a.toList ∧ Style.Inert b.toList := by
    simp only [bytesInert, Bool.and_eq_true, Bool.not_eq_true'] at h
    exact ⟨inert_of_bytes h.1, inert_of_bytes h.2⟩
  apply Table.inert_empty.extend
  · intro e he
    exact hbytes (List.all_eq_true.1 bytesInert_builtinUtilities e he)
  · intro e he
    exact hbytes (List.all_eq_true.1 bytesInert_builtinPreflight e he)

end ClassWeave.Utility

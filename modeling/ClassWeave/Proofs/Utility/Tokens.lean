import Mathlib.Data.List.Basic
import Mathlib.Data.List.Induction
import ClassWeave.Proofs.Assoc
import ClassWeave.Proofs.Style.Sorting
import ClassWeave.Proofs.Utility.ClassName
import ClassWeave.Utility.Table

namespace ClassWeave.Utility

open Style

theorem pairwise_idxOf_eraseDups (ks : List String) :
    ks.eraseDups.Pairwise fun a b => ks.idxOf a < ks.idxOf b := by
  induction ks using List.reverseRecOn with
  | nil => simp
  | append_singleton ks k ih =>
    have hold : ks.eraseDups.Pairwise fun a b => (ks ++ [k]).idxOf a < (ks ++ [k]).idxOf b := by
      apply ih.imp_of_mem
      intro a b ha hb hab
      rw [List.mem_eraseDups] at ha hb
      rwa [List.idxOf_append_of_mem ha, List.idxOf_append_of_mem hb]
    rw [List.eraseDups_append]
    by_cases hk : k ∈ ks
    · have hnone : [k].removeAll ks = [] := by simpa [List.removeAll] using hk
      simpa [hnone] using hold
    · have hone : [k].removeAll ks = [k] := by simpa [List.removeAll] using hk
      rw [hone, List.pairwise_append]
      refine ⟨hold, by simp [List.eraseDups_cons], ?_⟩
      intro a ha b hb
      rw [List.mem_eraseDups] at ha hb
      rw [List.mem_singleton.1 hb, List.idxOf_append_of_mem ha, List.idxOf_append_of_notMem hk]
      have := List.idxOf_lt_length_of_mem ha
      omega

namespace Table

variable {t : Table}

def tokens (t : Table) : List String := t.utilities.keys.eraseDups

def position (t : Table) (token : String) : Nat := t.utilities.keys.idxOf token

theorem lookup_eq (t : Table) (token : String) :
    t.lookup token =
      (t.utilities.find? token).map fun ds => (UInt32.ofNat (t.position token), ds) := by
  rw [lookup, Assoc.findEntry?_eq, Option.map_map]
  rfl

theorem order_of_lookup {token : String} {e : UInt32 × List Declaration}
    (h : t.lookup token = some e) : e.1 = UInt32.ofNat (t.position token) := by
  rw [lookup_eq] at h
  obtain ⟨ds, -, rfl⟩ := Option.map_eq_some_iff.1 h
  rfl

theorem knows_iff {token : String} : t.knows token = true ↔ token ∈ t.tokens := by
  rw [tokens, List.mem_eraseDups, ← Assoc.contains_iff, knows, lookup_eq, Option.isSome_map]
  rfl

theorem position_lt {token : String} (h : token ∈ t.tokens) : t.position token < t.size := by
  rw [tokens, List.mem_eraseDups] at h
  have := List.idxOf_lt_length_of_mem h
  rwa [Assoc.keys, List.length_map] at this

theorem position_inj {a b : String} (ha : a ∈ t.tokens) (h : t.position a = t.position b) :
    a = b := by
  rw [tokens, List.mem_eraseDups] at ha
  exact List.idxOf_inj ha |>.1 h

theorem pairwise_tokens (t : Table) : t.tokens.Pairwise fun a b => t.position a < t.position b :=
  pairwise_idxOf_eraseDups _

end Table

def classKey (layer : Layer) (scope : Scope) (name : String) : Rule.Key :=
  ⟨layer, none, scope, classSelector name⟩

theorem classKey_inj {layer : Layer} {scope : Scope} {a b : String}
    (h : classKey layer scope a = classKey layer scope b) : a = b :=
  classSelector_inj (congrArg Rule.Key.selector h)

structure Table.Fills (t : Table) (layer : Layer) (scope : Scope) (tokens : List String)
    (s : Sheet) : Prop where
  exists_rule : ∀ token ∈ tokens, ∀ e, t.lookup token = some e →
    ∃ r ∈ s, r.key = classKey layer scope token ∧ r.order = e.1 ∧ r.declarations = e.2
  exists_token : ∀ r ∈ s, r.layer = layer → ∃ token ∈ tokens, ∃ e, t.lookup token = some e ∧
    r.key = classKey layer scope token ∧ r.order = e.1 ∧ r.declarations = e.2

/-- That a layer has one rule for each of some tokens, in the order of a table, and each of them
declares what the table says. -/
structure Table.Lists (t : Table) (layer : Layer) (scope : Scope) (tokens : List String)
    (out : Sheet) : Prop where
  keys : Sheet.keysIn out layer = (t.tokens.filter (· ∈ tokens)).map (classKey layer scope)
  properties : ∀ r ∈ out, ∀ token e, r.key = classKey layer scope token →
    t.lookup token = some e → ∀ p, p ∈ r.properties ↔ p ∈ e.2.map Declaration.property

theorem Table.Fills.congr {t : Table} {layer : Layer} {scope : Scope} {tokens tokens' : List String}
    {s : Sheet} (h : t.Fills layer scope tokens s) (hmem : ∀ w, w ∈ tokens ↔ w ∈ tokens') :
    t.Fills layer scope tokens' s where
  exists_rule token htoken := h.exists_rule token ((hmem token).2 htoken)
  exists_token r hr hlayer := by
    obtain ⟨token, htoken, hrule⟩ := h.exists_token r hr hlayer
    exact ⟨token, (hmem token).1 htoken, hrule⟩

namespace Table.Fills

variable {t : Table} {layer : Layer} {scope : Scope} {tokens : List String} {s out : Sheet}
  (h : t.Fills layer scope tokens s) (hout : Sheet.Gathers s out)

include h hout

theorem mem_keys (k : Rule.Key) :
    k ∈ Sheet.keysIn out layer ↔
      k ∈ (t.tokens.filter (· ∈ tokens)).map (classKey layer scope) := by
  simp only [hout.mem_keysIn, List.mem_map, List.mem_filter, decide_eq_true_eq]
  constructor
  · rintro ⟨q, hq, hlayer, rfl⟩
    obtain ⟨token, htoken, e, he, hk, -⟩ := h.exists_token q hq hlayer
    refine ⟨token, ⟨knows_iff.1 ?_, htoken⟩, hk.symm⟩
    rw [knows, he]
    rfl
  · rintro ⟨token, ⟨hknown, htoken⟩, rfl⟩
    obtain ⟨e, he⟩ := Option.isSome_iff_exists.1 (knows_iff.2 hknown)
    obtain ⟨q, hq, hk, -⟩ := h.exists_rule token htoken e he
    exact ⟨q, hq, congrArg Rule.Key.layer hk, hk⟩

theorem order_eq {r : Rule} (hr : r ∈ out) {token : String}
    (hk : r.key = classKey layer scope token) : r.order = UInt32.ofNat (t.position token) := by
  obtain ⟨q, hq, hkey, horder⟩ := hout.order r hr
  rw [hk] at hkey
  obtain ⟨other, -, e, he, hk', ho, -⟩ := h.exists_token q hq (congrArg Rule.Key.layer hkey)
  cases classKey_inj (hk'.symm.trans hkey)
  rw [← horder, ho, order_of_lookup he]

theorem mem_properties {r : Rule} (hr : r ∈ out) {token : String}
    (hk : r.key = classKey layer scope token) {e : UInt32 × List Declaration}
    (he : t.lookup token = some e) (p : String) :
    p ∈ r.properties ↔ p ∈ e.2.map Declaration.property := by
  have hrules : ∀ q ∈ s, q.key = r.key → q.properties = e.2.map Declaration.property := by
    intro q hq hkey
    rw [hk] at hkey
    obtain ⟨other, -, e', he', hk', -, hd⟩ := h.exists_token q hq (congrArg Rule.Key.layer hkey)
    cases classKey_inj (hk'.symm.trans hkey)
    cases he.symm.trans he'
    rw [Rule.properties, hd]
  rw [hout.properties r hr]
  constructor
  · rintro ⟨q, hq, hkey, hp⟩
    rwa [hrules q hq hkey] at hp
  · intro hp
    obtain ⟨q, hq, hkey⟩ := List.mem_map.1 ((hout.key r.key).1 (List.mem_map_of_mem hr))
    exact ⟨q, hq, hkey, by rwa [hrules q hq hkey]⟩

theorem exists_token_of_mem {r : Rule} (hr : r ∈ out.filter (·.layer = layer)) :
    ∃ token ∈ t.tokens, r.key = classKey layer scope token := by
  obtain ⟨token, htoken, hk⟩ := List.mem_map.1 ((h.mem_keys hout _).1 (List.mem_map_of_mem hr))
  exact ⟨token, (List.mem_filter.1 htoken).1, hk.symm⟩

theorem position_le (hsize : t.size < UInt32.size) {r q : Rule} (hr : r ∈ out)
    (hq : q ∈ out) {a b : String} (ha : a ∈ t.tokens) (hb : b ∈ t.tokens)
    (hra : r.key = classKey layer scope a) (hqb : q.key = classKey layer scope b)
    (hle : (r.compare q).isLE = true) : t.position a ≤ t.position b := by
  have hlayer : r.layer = q.layer :=
    (congrArg Rule.Key.layer hra).trans (congrArg Rule.Key.layer hqb).symm
  have horder := Rule.order_le_of_compare hlayer (congrArg Rule.Key.atRule hra)
    (congrArg Rule.Key.atRule hqb) hle
  have hapos : t.position a < UInt32.size := Nat.lt_trans (position_lt ha) hsize
  have hbpos : t.position b < UInt32.size := Nat.lt_trans (position_lt hb) hsize
  rw [h.order_eq hout hr hra, h.order_eq hout hq hqb, UInt32.le_iff_toNat_le,
    UInt32.toNat_ofNat_of_lt' hapos, UInt32.toNat_ofNat_of_lt' hbpos] at horder
  exact horder

theorem keys_eq (hsize : t.size < UInt32.size)
    (hsort : out.Pairwise fun a b => (a.compare b).isLE = true) :
    Sheet.keysIn out layer = (t.tokens.filter (· ∈ tokens)).map (classKey layer scope) := by
  let le (k l : Rule.Key) : Prop := ∃ a b, a ∈ t.tokens ∧ k = classKey layer scope a ∧
    l = classKey layer scope b ∧ t.position a ≤ t.position b
  have hanti : ∀ k l, le k l → le l k → k = l := by
    rintro k l ⟨a, b, ha, rfl, rfl, hab⟩ ⟨b', a', -, hb', ha', hba⟩
    cases classKey_inj hb'
    cases classKey_inj ha'
    rw [position_inj ha (Nat.le_antisymm hab hba)]
  have hmap : ((t.tokens.filter (· ∈ tokens)).map (classKey layer scope)).Pairwise
      fun k l => le k l ∧ k ≠ l := by
    apply List.pairwise_map.2
    apply (t.pairwise_tokens.filter _).imp_of_mem
    intro a b ha _ hab
    refine ⟨⟨a, b, (List.mem_filter.1 ha).1, rfl, rfl, Nat.le_of_lt hab⟩, ?_⟩
    intro hk
    cases classKey_inj hk
    exact Nat.lt_irrefl _ hab
  have hkeys : (Sheet.keysIn out layer).Pairwise le := by
    apply List.pairwise_map.2
    apply (hsort.filter _).imp_of_mem
    intro r q hr hq hle
    obtain ⟨a, ha, hra⟩ := h.exists_token_of_mem hout hr
    obtain ⟨b, hb, hqb⟩ := h.exists_token_of_mem hout hq
    exact ⟨a, b, ha, hra, hqb, h.position_le hout hsize (List.mem_filter.1 hr).1
      (List.mem_filter.1 hq).1 ha hb hra hqb hle⟩
  -- Both lists have the same keys, each once, in the order of their positions.
  apply List.Perm.eq_of_pairwise (fun k l _ _ => hanti k l) hkeys (hmap.imp And.left)
  apply (List.perm_ext_iff_of_nodup (hout.nodup_keysIn layer) (hmap.imp And.right)).2
  exact h.mem_keys hout

theorem lists (hsize : t.size < UInt32.size)
    (hsort : out.Pairwise fun a b => (a.compare b).isLE = true) :
    t.Lists layer scope tokens out where
  keys := h.keys_eq hout hsize hsort
  properties _ hr _ _ hk he := h.mem_properties hout hr hk he

end Table.Fills

end ClassWeave.Utility

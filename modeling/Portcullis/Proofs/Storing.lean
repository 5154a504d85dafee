/-
  Portcullis.Proofs.Storing — under which keys edges are stored, and when one is overwritten.

  The first edge of a key is stored under it and each later one under the key with the index
  of its rule behind it (`slots`). Keys of policies have one length and keys with an index are
  longer, so two edges meet under one key if and only if they have the same key and the same
  rule index and neither is the first of that key (`nodup_slots_iff`). As many edges are kept
  as there are different slots.
-/

import Portcullis.Graph
import Std.Data.String.ToInt

namespace Portcullis

/-! ## Keys of policies -/

theorem Digest.Sha256.length_hex (bytes : List UInt8) : (hex bytes).length = 64 := by
  simp [hex, State.words, Text.Hex.lower, Text.Hex.length_fixed]

namespace Key

theorem length_digest (keys : List String) : (digest keys).length = digestLength := by
  rw [digest, String.length_ofList, List.length_take, Digest.Sha256.length_hex]
  rfl

/-- Digests are told by what is hashed. -/
theorem digest_congr {keys keys' : List String} (h : digestInput keys = digestInput keys') :
    digest keys = digest keys' := by
  unfold digest
  rw [h]

def policyLength : Nat := 32

theorem length_composite (kind : PolicyKind) (sources destinations : List String) :
    (composite kind.text sources destinations).length = policyLength := by
  cases kind <;> simp only [composite, String.length_append, length_digest] <;> rfl

/-- The key of a policy begins with its kind. -/
theorem kind_of_composite {kind kind' : PolicyKind} {sources destinations sources' destinations' : List String}
    (h : composite kind.text sources destinations = composite kind'.text sources' destinations') : kind = kind' := by
  have hcs := congrArg (fun s => s.toList.take 10) h
  have hlen : ∀ k : PolicyKind, 10 ≤ k.text.toList.length := fun k => by cases k <;> decide
  simp only [composite, String.toList_append, List.append_assoc] at hcs
  rw [List.take_append_of_le_length (hlen _), List.take_append_of_le_length (hlen _)] at hcs
  cases kind <;> cases kind' <;> first | rfl | exact absurd hcs (by decide)

theorem length_disambiguate (key : String) (index : Int) : key.length < (disambiguate key index).length := by
  simp only [disambiguate, String.length_append]
  have : "-".length = 1 := rfl
  omega

theorem disambiguate_inj {key key' : String} {i j : Int} (hl : key.length = key'.length) :
    disambiguate key i = disambiguate key' j ↔ key = key' ∧ i = j := by
  constructor
  · intro h
    have hcs := congrArg String.toList h
    simp only [disambiguate, String.toList_append, List.append_assoc] at hcs
    obtain ⟨hk, hrest⟩ := List.append_inj hcs (by rw [String.length_toList, String.length_toList, hl])
    refine ⟨String.toList_injective hk, Int.repr_injective (String.toList_injective ?_)⟩
    exact (List.append_inj hrest rfl).2
  · intro hex
    rcases hex with ⟨rfl, rfl⟩
    rfl

end Key

/-! ## Storing a list of entries -/

namespace Table

variable {α : Type}

def storeAll (t : Table α) (l : List (String × α)) : Table α := l.foldl (fun t e => t.insert e.1 e.2) t

theorem toList_insert {t : Table α} {k : String} (h : k ∉ t.keys) (v : α) :
    (t.insert k v).toList = t.toList ++ [(k, v)] := by
  have hstore : ∀ l : List (String × α), k ∉ l.map Prod.fst → store k v l = l ++ [(k, v)] := by
    intro l
    induction l with
    | nil => intro _; rfl
    | cons e l ih =>
      obtain ⟨k', v'⟩ := e
      intro h
      simp only [List.map_cons, List.mem_cons, not_or] at h
      rw [store, if_neg (fun e => h.1 e.symm), ih h.2]
      rfl
  exact hstore t.entries h

theorem size_eq (t : Table α) : t.size = t.keys.length := by simp [size, keys]

theorem mem_keys_insert {t : Table α} {k q : String} {v : α} : q ∈ (t.insert k v).keys ↔ q ∈ t.keys ∨ q = k := by
  rw [keys_insert]
  split
  · rename_i hk
    exact ⟨Or.inl, fun h => h.elim id fun e => e ▸ hk⟩
  · simp

theorem size_insert (t : Table α) (k : String) (v : α) :
    (t.insert k v).size = if k ∈ t.keys then t.size else t.size + 1 := by
  rw [size_eq, keys_insert, size_eq]
  split <;> simp

/-- Entries under different keys stand in the table as they were stored. -/
theorem toList_storeAll {t : Table α} {l : List (String × α)} (h : (t.keys ++ l.map Prod.fst).Nodup) :
    (t.storeAll l).toList = t.toList ++ l := by
  induction l generalizing t with
  | nil => simp [storeAll]
  | cons e l ih =>
    obtain ⟨k, v⟩ := e
    have hk : k ∉ t.keys := fun hm => (List.nodup_append.mp h).2.2 k hm k (by simp) rfl
    have hnext : ((t.insert k v).keys ++ l.map Prod.fst).Nodup := by
      rw [keys_insert, if_neg hk, List.append_assoc]
      exact h
    show ((t.insert k v).storeAll l).toList = _
    rw [ih hnext, toList_insert hk, List.append_assoc]
    rfl

/-- Entries under different keys stand in the table of their list as they are. -/
theorem toList_ofList {l : List (String × α)} (h : (l.map Prod.fst).Nodup) : (ofList l).toList = l :=
  toList_storeAll (t := ∅) h

theorem size_storeAll_le (t : Table α) (l : List (String × α)) : (t.storeAll l).size ≤ t.size + l.length := by
  induction l generalizing t with
  | nil => exact Nat.le_refl _
  | cons e l ih =>
    have h := ih (t.insert e.1 e.2)
    rw [size_insert] at h
    show ((t.insert e.1 e.2).storeAll l).size ≤ _
    rw [List.length_cons]
    split at h <;> omega

/-- Otherwise one of them is overwritten. -/
theorem size_storeAll_lt {t : Table α} {l : List (String × α)} (h : ¬ (t.keys ++ l.map Prod.fst).Nodup) :
    (t.storeAll l).size < t.size + l.length := by
  induction l generalizing t with
  | nil => exact absurd (by simpa using t.keys_nodup) h
  | cons e l ih =>
    obtain ⟨k, v⟩ := e
    show ((t.insert k v).storeAll l).size < _
    rw [List.length_cons]
    by_cases hk : k ∈ t.keys
    · have hle := size_storeAll_le (t.insert k v) l
      rw [size_insert, if_pos hk] at hle
      omega
    · have hlt := ih (t := t.insert k v) (by
        rw [keys_insert, if_neg hk, List.append_assoc]
        exact h)
      rw [size_insert, if_neg hk] at hlt
      omega

end Table

/-! ## The slots of a list of edges -/

namespace Graph

def PolicyKeys (es : List Edge) : Prop := ∀ e ∈ es, e.key.length = Key.policyLength

/-- Where an edge is stored after others. -/
def slot (earlier : List Edge) (e : Edge) : String :=
  if e.key ∈ earlier.map Edge.key then Key.disambiguate e.key e.ruleIndex else e.key

def slots (earlier : List Edge) : List Edge → List (String × Edge)
  | [] => []
  | e :: es => (slot earlier e, { e with key := slot earlier e }) :: slots (earlier ++ [e]) es

theorem policyKey_eq {g : Graph} {earlier : List Edge} {e : Edge}
    (h : ∀ k, k.length = Key.policyLength → (k ∈ g.policies.keys ↔ k ∈ earlier.map Edge.key))
    (he : e.key.length = Key.policyLength) : g.policyKey e = slot earlier e := by
  have hc : g.policies.contains e.key = true ↔ e.key ∈ earlier.map Edge.key := Table.contains_iff.trans (h _ he)
  unfold policyKey slot
  by_cases hm : e.key ∈ earlier.map Edge.key
  · rw [if_pos (hc.mpr hm), if_pos hm]
  · rw [if_neg (fun hx => hm (hc.mp hx)), if_neg hm]

theorem eq_slot_iff {earlier : List Edge} {e : Edge} {k : String} (hk : k.length = Key.policyLength)
    (he : e.key.length = Key.policyLength) : k = slot earlier e ↔ k = e.key ∧ e.key ∉ earlier.map Edge.key := by
  unfold slot
  split
  · rename_i hm
    refine ⟨fun hs => ?_, fun hs => absurd hm hs.2⟩
    have := Key.length_disambiguate e.key e.ruleIndex
    rw [← hs] at this
    omega
  · rename_i hm
    simp [hm]

/-- Storing edges is storing them in their slots. -/
theorem policies_stored {g : Graph} (earlier : List Edge) {es : List Edge} (hes : PolicyKeys es)
    (h : ∀ k, k.length = Key.policyLength → (k ∈ g.policies.keys ↔ k ∈ earlier.map Edge.key)) :
    (es.foldl addPolicy g).policies = g.policies.storeAll (slots earlier es) := by
  induction es generalizing g earlier with
  | nil => rfl
  | cons e es ih =>
    have he := hes e (by simp)
    have hpolicies : (g.addPolicy e).policies = g.policies.insert (slot earlier e) { e with key := slot earlier e } := by
      unfold addPolicy
      simp only [policyKey_eq h he]
    have hnext : ∀ k, k.length = Key.policyLength →
        (k ∈ (g.addPolicy e).policies.keys ↔ k ∈ (earlier ++ [e]).map Edge.key) := by
      intro k hk
      rw [hpolicies, Table.mem_keys_insert, eq_slot_iff hk he, h k hk, List.map_append, List.mem_append,
        List.map_singleton, List.mem_singleton]
      constructor
      · exact Or.imp_right And.left
      · intro hor
        rcases hor with hm | rfl
        · exact .inl hm
        · exact Classical.or_iff_not_imp_left.mpr fun hm => ⟨rfl, hm⟩
    rw [List.foldl_cons, ih (earlier ++ [e]) (fun d hd => hes d (List.mem_cons_of_mem _ hd)) hnext, hpolicies]
    rfl

/-! ## When two edges meet in one slot -/

def indicesOf (k : String) (es : List Edge) : List Int := (es.filter fun e => decide (e.key = k)).map Edge.ruleIndex

/-- The rule indices of the edges of a key that are not its first edge, when some edges were
    stored before. -/
def lateIndices (keys : List String) (k : String) (es : List Edge) : List Int :=
  if k ∈ keys then indicesOf k es else (indicesOf k es).tail

theorem mem_indicesOf {k : String} {es : List Edge} {i : Int} :
    i ∈ indicesOf k es ↔ ∃ e ∈ es, e.key = k ∧ e.ruleIndex = i := by
  simp [indicesOf, and_assoc]

theorem indicesOf_cons (k : String) (e : Edge) (es : List Edge) :
    indicesOf k (e :: es) = if e.key = k then e.ruleIndex :: indicesOf k es else indicesOf k es := by
  unfold indicesOf
  by_cases h : e.key = k <;> simp [h]

/-- A key that was used before is no slot any more. -/
theorem not_mem_slots (earlier : List Edge) {es : List Edge} (hes : PolicyKeys es) {k : String}
    (hk : k.length = Key.policyLength) (hm : k ∈ earlier.map Edge.key) : k ∉ (slots earlier es).map Prod.fst := by
  induction es generalizing earlier with
  | nil => simp [slots]
  | cons e es ih =>
    have hrest := ih (earlier ++ [e]) (fun d hd => hes d (List.mem_cons_of_mem _ hd)) (by simp [List.map_append, hm])
    simp only [slots, List.map_cons, List.mem_cons, not_or]
    refine ⟨fun hs => ?_, hrest⟩
    obtain ⟨rfl, hno⟩ := (eq_slot_iff hk (hes e (by simp))).mp hs
    exact hno hm

/-- A key with an index is the slot of the edges of that key and index, if the key was used
    before. -/
theorem disambiguate_mem_slots (earlier : List Edge) {es : List Edge} (hes : PolicyKeys es) {k : String} {i : Int}
    (hk : k.length = Key.policyLength) (hm : k ∈ earlier.map Edge.key) :
    Key.disambiguate k i ∈ (slots earlier es).map Prod.fst ↔ i ∈ indicesOf k es := by
  induction es generalizing earlier with
  | nil => simp [slots, indicesOf]
  | cons e es ih =>
    have he := hes e (by simp)
    have hrest := ih (earlier ++ [e]) (fun d hd => hes d (List.mem_cons_of_mem _ hd)) (by simp [List.map_append, hm])
    have hslot : Key.disambiguate k i = slot earlier e ↔ e.key = k ∧ e.ruleIndex = i := by
      unfold slot
      split
      · rw [Key.disambiguate_inj (hk.trans he.symm), eq_comm, eq_comm (a := i)]
      · rename_i hno
        refine ⟨fun hs => ?_, fun h => absurd (h.1 ▸ hm) hno⟩
        have := Key.length_disambiguate k i
        rw [hs] at this
        omega
    simp only [slots, List.map_cons, List.mem_cons, hrest, hslot, mem_indicesOf, exists_eq_or_imp]

/-- Edges have slots of their own if and only if, among the edges of each key but the first,
    no rule index is there twice. -/
theorem nodup_slots_iff {earlier : List Edge} {es : List Edge} (hes : PolicyKeys es) :
    ((slots earlier es).map Prod.fst).Nodup ↔ ∀ k, (lateIndices (earlier.map Edge.key) k es).Nodup := by
  induction es generalizing earlier with
  | nil => simp [slots, lateIndices, indicesOf]
  | cons e es ih =>
    have he := hes e (by simp)
    have hes' : PolicyKeys es := fun d hd => hes d (List.mem_cons_of_mem _ hd)
    have hmem : e.key ∈ (earlier ++ [e]).map Edge.key := by simp [List.map_append]
    simp only [slots, List.map_cons, List.nodup_cons]
    rw [ih hes']
    have hother : ∀ k, k ≠ e.key →
        lateIndices ((earlier ++ [e]).map Edge.key) k es = lateIndices (earlier.map Edge.key) k (e :: es) := by
      intro k hk
      have hk' : ¬ e.key = k := fun h => hk h.symm
      simp only [lateIndices, List.map_append, List.map_singleton, List.mem_append, List.mem_singleton, hk, or_false,
        indicesOf_cons, if_neg hk']
    have hself : lateIndices ((earlier ++ [e]).map Edge.key) e.key es = indicesOf e.key es := if_pos hmem
    -- The slot of `e` can only be met by edges of its own key, all of which are late ones now.
    have hown : (slot earlier e ∉ (slots (earlier ++ [e]) es).map Prod.fst ∧ (indicesOf e.key es).Nodup) ↔
        (lateIndices (earlier.map Edge.key) e.key (e :: es)).Nodup := by
      unfold lateIndices slot
      rw [indicesOf_cons, if_pos rfl]
      split
      · rw [disambiguate_mem_slots _ hes' he hmem, List.nodup_cons]
      · exact and_iff_right (not_mem_slots _ hes' he hmem)
    constructor
    · intro hex k
      rcases hex with ⟨hs, hall⟩
      by_cases hk : k = e.key
      · subst hk
        exact hown.mp ⟨hs, hself ▸ hall _⟩
      · exact hother k hk ▸ hall k
    · intro hall
      obtain ⟨hs, hn⟩ := hown.mpr (hall e.key)
      refine ⟨hs, fun k => ?_⟩
      by_cases hk : k = e.key
      · subst hk
        exact hself ▸ hn
      · exact hother k hk ▸ hall k

end Graph

end Portcullis

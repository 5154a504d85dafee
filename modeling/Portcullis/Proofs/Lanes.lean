/-
  Portcullis.Proofs.Lanes — what a policy table has under one key.

  An edge is stored under its key, or under that key with the index of its rule behind it.
  Keys of policies have one length, so the first letters of a key of the table tell the key of
  the edges that can stand there (`Key.base`). Two consequences, over every run of stores:
  - `get?_stored_congr`: what stands under a key is told by the edges of one key, its lane; the
    order among edges of different keys does not count.
  - `get?_stored_of_ne`: edges of other rules leave alone what is stored, for the key with an
    index belongs to the rule of that index (`Indexed`), and the key without it is taken.
-/

import Portcullis.Proofs.Drawing
import Portcullis.Proofs.Storing

namespace Portcullis

namespace Key

/-- The key of the policies that can stand under a key. -/
def base (k : String) : String := String.ofList (k.toList.take policyLength)

theorem base_of_length {k : String} (h : k.length = policyLength) : base k = k := by
  rw [base, List.take_of_length_le (Nat.le_of_eq (by rw [String.length_toList, h])), String.ofList_toList]

theorem base_disambiguate {k : String} (h : k.length = policyLength) (i : Int) : base (disambiguate k i) = k := by
  have hlen : k.toList.length = policyLength := by rw [String.length_toList, h]
  have htake : (disambiguate k i).toList.take policyLength = k.toList := by
    unfold disambiguate
    rw [String.toList_append, String.toList_append, List.append_assoc, ← hlen, List.take_left]
  rw [base, htake, String.ofList_toList]

end Key

namespace Graph

variable {g g' : Graph} {b k : String} {e x : Edge} {es es' : List Edge}

theorem policies_addPolicy (g : Graph) (e : Edge) :
    (g.addPolicy e).policies = g.policies.insert (g.policyKey e) { e with key := g.policyKey e } := rfl

theorem base_policyKey (g : Graph) (he : e.key.length = Key.policyLength) : Key.base (g.policyKey e) = e.key := by
  unfold policyKey
  split
  · exact Key.base_disambiguate he e.ruleIndex
  · exact Key.base_of_length he

/-! ## Lanes -/

def lane (b : String) (es : List Edge) : List Edge := es.filter fun e => decide (e.key = b)

theorem lane_append (b : String) (es fs : List Edge) : lane b (es ++ fs) = lane b es ++ lane b fs :=
  List.filter_append ..

theorem mem_lane : e ∈ lane b es ↔ e ∈ es ∧ e.key = b := by
  simp [lane]

/-- Whether two graphs have the same policies where the edges of a key can stand. -/
def SameLane (b : String) (g g' : Graph) : Prop := ∀ k, Key.base k = b → g.policies.get? k = g'.policies.get? k

theorem SameLane.trans {g'' : Graph} (h : SameLane b g g') (h' : SameLane b g' g'') : SameLane b g g'' :=
  fun k hk => (h k hk).trans (h' k hk)

/-- An edge of another key. -/
theorem sameLane_addPolicy (g : Graph) (he : e.key.length = Key.policyLength) (hb : e.key ≠ b) :
    SameLane b (g.addPolicy e) g := by
  intro k hk
  have hne : k ≠ g.policyKey e := by
    intro h
    rw [h, base_policyKey g he] at hk
    exact hb hk
  rw [policies_addPolicy, Table.get?_insert, if_neg hne]

/-- An edge of the key itself is stored in the same place in both graphs. -/
theorem SameLane.addPolicy (h : SameLane e.key g g') (he : e.key.length = Key.policyLength) :
    SameLane e.key (g.addPolicy e) (g'.addPolicy e) := by
  have hkey : g.policyKey e = g'.policyKey e := by
    unfold policyKey Table.contains
    rw [h e.key (Key.base_of_length he)]
  intro k hk
  rw [policies_addPolicy, policies_addPolicy, hkey, Table.get?_insert, Table.get?_insert, h k hk]

/-- Edges of other keys may be left out. -/
theorem SameLane.stored (h : SameLane b g g') (hes : PolicyKeys es) : SameLane b (g.stored es) (g'.stored (lane b es)) := by
  induction es generalizing g g' with
  | nil => exact h
  | cons e es ih =>
    have he := hes e (by simp)
    have hes' : PolicyKeys es := fun d hd => hes d (List.mem_cons_of_mem _ hd)
    show SameLane b ((g.addPolicy e).stored es) _
    by_cases hb : e.key = b
    · subst hb
      have hlane : lane e.key (e :: es) = e :: lane e.key es := List.filter_cons_of_pos (by simp)
      rw [hlane]
      exact ih (h.addPolicy he) hes'
    · have hlane : lane b (e :: es) = lane b es := List.filter_cons_of_neg (by simpa using hb)
      rw [hlane]
      exact ih ((sameLane_addPolicy g he hb).trans h) hes'

/-- What stands under a key is told by one lane. -/
theorem get?_stored_congr (hes : PolicyKeys es) (hes' : PolicyKeys es') (h : ∀ b, lane b es = lane b es')
    (g : Graph) (k : String) : (g.stored es).policies.get? k = (g.stored es').policies.get? k := by
  have hsame : SameLane (Key.base k) g g := fun _ _ => rfl
  have hlane := hsame.stored hes k rfl
  have hlane' := hsame.stored hes' k rfl
  rw [hlane, hlane', h]

/-! ## Keys with an index -/

structure Indexed (g : Graph) : Prop where
  key : ∀ {k x}, g.policies.get? k = some x → x.key = k
  shape : ∀ {k x}, g.policies.get? k = some x → k.length = Key.policyLength ∨
    ∃ b, b.length = Key.policyLength ∧ k = Key.disambiguate b x.ruleIndex

theorem indexed_empty : Indexed {} where
  key hx := by cases hx
  shape hx := by cases hx

/-- Only the policies count. -/
theorem Indexed.congr (h : Indexed g) (hp : g'.policies = g.policies) : Indexed g' where
  key hx := h.key (hp ▸ hx)
  shape hx := h.shape (hp ▸ hx)

theorem Indexed.addPolicy (h : Indexed g) (he : e.key.length = Key.policyLength) : Indexed (g.addPolicy e) where
  key {k x} hx := by
    rw [policies_addPolicy] at hx
    rcases Table.get?_insert_cases hx with ⟨rfl, rfl⟩ | ⟨-, hx⟩
    · rfl
    · exact h.key hx
  shape {k x} hx := by
    rw [policies_addPolicy] at hx
    rcases Table.get?_insert_cases hx with ⟨rfl, rfl⟩ | ⟨-, hx⟩
    · unfold policyKey
      split
      · exact .inr ⟨e.key, he, rfl⟩
      · exact .inl he
    · exact h.shape hx

theorem Indexed.stored (h : Indexed g) (hes : PolicyKeys es) : Indexed (g.stored es) := by
  induction es generalizing g with
  | nil => exact h
  | cons e es ih => exact ih (h.addPolicy (hes e (by simp))) fun d hd => hes d (List.mem_cons_of_mem _ hd)

/-- What is stored is overwritten by edges of its own rule index only. -/
theorem get?_addPolicy (h : Indexed g) (he : e.key.length = Key.policyLength) (hx : g.policies.get? k = some x) :
    (g.addPolicy e).policies.get? k = some x ∨
      e.ruleIndex = x.ruleIndex ∧ (g.addPolicy e).policies.get? k = some { e with key := k } := by
  rw [policies_addPolicy, Table.get?_insert]
  by_cases hk : k = g.policyKey e
  · rw [if_pos hk, ← hk]
    refine .inr ⟨?_, rfl⟩
    unfold policyKey at hk
    split at hk
    · rcases h.shape hx with hlen | ⟨b, hb, hbk⟩
      · have := Key.length_disambiguate e.key e.ruleIndex
        rw [← hk] at this
        omega
      · exact ((Key.disambiguate_inj (he.trans hb.symm)).mp (hk.symm.trans hbk)).2
    · rename_i hfree
      refine absurd ?_ hfree
      rw [← hk, Table.contains, hx]
      rfl
  · rw [if_neg hk]
    exact .inl hx

/-- Under a key there is always an edge of the same rule index. -/
theorem get?_stored_index (h : Indexed g) (hes : PolicyKeys es) (hx : g.policies.get? k = some x) :
    ∃ y, (g.stored es).policies.get? k = some y ∧ y.ruleIndex = x.ruleIndex := by
  induction es generalizing g x with
  | nil => exact ⟨x, hx, rfl⟩
  | cons e es ih =>
    have he := hes e (by simp)
    have hes' : PolicyKeys es := fun d hd => hes d (List.mem_cons_of_mem _ hd)
    rcases get?_addPolicy h he hx with hsame | ⟨hindex, hnew⟩
    · exact ih (h.addPolicy he) hes' hsame
    · obtain ⟨y, hy, hyx⟩ := ih (h.addPolicy he) hes' hnew
      exact ⟨y, hy, hyx.trans hindex⟩

/-- Edges of other rules leave alone what is stored. -/
theorem get?_stored_of_ne (h : Indexed g) (hes : PolicyKeys es) (hx : g.policies.get? k = some x)
    (hne : ∀ e ∈ es, e.ruleIndex ≠ x.ruleIndex) : (g.stored es).policies.get? k = some x := by
  induction es generalizing g with
  | nil => exact hx
  | cons e es ih =>
    have he := hes e (by simp)
    rcases get?_addPolicy h he hx with hsame | ⟨hindex, -⟩
    · exact ih (h.addPolicy he) (fun d hd => hes d (List.mem_cons_of_mem _ hd)) hsame
        fun d hd => hne d (List.mem_cons_of_mem _ hd)
    · exact absurd hindex (hne e (by simp))

/-- What is stored was there before or is one of the edges of its lane, but for its key. -/
theorem exists_of_get?_stored (hes : PolicyKeys es) (hx : (g.stored es).policies.get? k = some x) :
    g.policies.get? k = some x ∨ ∃ e ∈ es, Key.base k = e.key ∧ x = { e with key := k } := by
  induction es generalizing g with
  | nil => exact .inl hx
  | cons e es ih =>
    rcases ih (g := g.addPolicy e) (fun d hd => hes d (List.mem_cons_of_mem _ hd)) hx with h | ⟨d, hd, hdx⟩
    · rw [policies_addPolicy] at h
      rcases Table.get?_insert_cases h with ⟨rfl, rfl⟩ | ⟨-, h⟩
      · exact .inr ⟨e, by simp, base_policyKey g (hes e (by simp)), rfl⟩
      · exact .inl h
    · exact .inr ⟨d, List.mem_cons_of_mem _ hd, hdx⟩

/-! ## Keys that were noted -/

/-- Under a key that an edge of a list was stored under stands an edge of the same rule index. -/
theorem exists_of_mem_storedKeys (h : Indexed g) (hes : PolicyKeys es) (hk : k ∈ g.storedKeys es) :
    ∃ e ∈ es, ∃ y, (g.stored es).policies.get? k = some y ∧ y.ruleIndex = e.ruleIndex := by
  induction es generalizing g with
  | nil => cases hk
  | cons e es ih =>
    have he := hes e (by simp)
    have hes' : PolicyKeys es := fun d hd => hes d (List.mem_cons_of_mem _ hd)
    rcases List.mem_cons.mp hk with rfl | hk
    · have hx : (g.addPolicy e).policies.get? (g.policyKey e) = some { e with key := g.policyKey e } := by
        rw [policies_addPolicy, Table.get?_insert, if_pos rfl]
      obtain ⟨y, hy, hyx⟩ := get?_stored_index (h.addPolicy he) hes' hx
      exact ⟨e, by simp, y, hy, hyx⟩
    · obtain ⟨d, hd, hy⟩ := ih (h.addPolicy he) hes' hk
      exact ⟨d, List.mem_cons_of_mem _ hd, hy⟩

/-- What is stored under another key was there before. -/
theorem get?_stored_of_not_mem (hk : k ∉ g.storedKeys es) : (g.stored es).policies.get? k = g.policies.get? k := by
  induction es generalizing g with
  | nil => rfl
  | cons e es ih =>
    simp only [storedKeys, List.mem_cons, not_or] at hk
    show ((g.addPolicy e).stored es).policies.get? k = _
    rw [ih hk.2, policies_addPolicy, Table.get?_insert, if_neg hk.1]

end Graph

end Portcullis

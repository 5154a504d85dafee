/-
  Portcullis.Proofs.Slots — what the slot of a rule holds after endpoints were added to it.

  A slot is told by the list of all endpoints that were ever added (`Holds`): under a key
  stands the first of them that has the key, with a port restriction that allows what any of
  them allows. Adding to the slot is adding to the list (`holds_add`), so the order and the
  grouping of additions do not matter for what a slot allows.
-/

import Portcullis.Rule
import Portcullis.Proofs.Ports

namespace Portcullis

namespace Slot

def firstOf (k : String) (es : List Endpoint) : Option Endpoint := es.find? fun e => decide (e.key = k)

theorem firstOf_append (k : String) (es : List Endpoint) (e : Endpoint) :
    firstOf k (es ++ [e]) = (firstOf k es).or (if e.key = k then some e else none) := by
  simp only [firstOf, List.find?_append, List.find?_cons, List.find?_nil]
  by_cases h : e.key = k <;> simp [h]

theorem firstOf_eq_none {k : String} {es : List Endpoint} (h : ∀ e ∈ es, e.key ≠ k) : firstOf k es = none := by
  simpa [firstOf, List.find?_eq_none] using h

theorem firstOf_some {k : String} {es : List Endpoint} {e : Endpoint} (h : firstOf k es = some e) :
    e ∈ es ∧ e.key = k :=
  ⟨List.mem_of_find?_eq_some h, by simpa using List.find?_some h⟩

structure Holds (slot : Slot) (es : List Endpoint) : Prop where
  first : ∀ {k x}, slot.get? k = some x → ∃ e, firstOf k es = some e ∧ x.target = e.target ∧ x.token = e.token
  canonical : ∀ {k x}, slot.get? k = some x → Ports.Canonical x.ports
  allows : ∀ {k x}, slot.get? k = some x → ∀ t, Ports.Allows x.ports t ↔ ∃ e ∈ es, e.key = k ∧ Ports.Allows e.ports t
  absent : ∀ {k}, slot.get? k = none → ∀ e ∈ es, e.key ≠ k

theorem holds_empty : Holds ∅ [] where
  first h := by cases h
  canonical h := by cases h
  allows h := by cases h
  absent _ := by simp

variable {slot : Slot} {es : List Endpoint}

theorem Holds.key (h : Holds slot es) {k : String} {x : Endpoint} (hx : slot.get? k = some x) : x.key = k := by
  obtain ⟨e, he, ht, -⟩ := h.first hx
  rw [← (firstOf_some he).2, Endpoint.key, ht, Endpoint.key]

theorem Holds.mem_values (h : Holds slot es) {x : Endpoint} : x ∈ slot.values ↔ slot.get? x.key = some x := by
  rw [Table.mem_values_iff]
  constructor
  · intro hex
    rcases hex with ⟨k, hk⟩
    rw [h.key hk, hk]
  · exact fun hx => ⟨_, hx⟩

theorem Holds.mem_keys (h : Holds slot es) {k : String} : k ∈ slot.keys ↔ ∃ e ∈ es, e.key = k := by
  rw [Table.mem_keys_iff]
  constructor
  · intro hex
    rcases hex with ⟨x, hx⟩
    obtain ⟨e, he, -⟩ := h.first hx
    exact ⟨e, firstOf_some he⟩
  · intro hex
    rcases hex with ⟨e, he, hk⟩
    cases hx : slot.get? k with
    | none => exact absurd hk (h.absent hx e he)
    | some x => exact ⟨x, rfl⟩

/-- A slot that differs in one entry only, which is what one more endpoint makes of it. -/
theorem Holds.of_get? (h : Holds slot es) {slot' : Slot} {e : Endpoint} (y : Endpoint)
    (hget : ∀ q, slot'.get? q = if q = e.key then some y else slot.get? q)
    (hfirst : ∃ d, firstOf e.key (es ++ [e]) = some d ∧ y.target = d.target ∧ y.token = d.token)
    (hc : Ports.Canonical y.ports)
    (ha : ∀ t, Ports.Allows y.ports t ↔ (∃ d ∈ es, d.key = e.key ∧ Ports.Allows d.ports t) ∨ Ports.Allows e.ports t) :
    Holds slot' (es ++ [e]) := by
  refine ⟨fun {k x} hk => ?_, fun {k x} hk => ?_, fun {k x} hk t => ?_, fun {k} hk d hd => ?_⟩
  all_goals rw [hget] at hk
  all_goals by_cases hke : k = e.key
  all_goals first | rw [if_pos hke] at hk; cases hk | rw [if_neg hke] at hk
  · rw [hke]; exact hfirst
  · obtain ⟨d, hd, ht⟩ := h.first hk
    exact ⟨d, by rw [firstOf_append, hd]; rfl, ht⟩
  · exact hc
  · exact h.canonical hk
  · rw [ha, hke]
    constructor
    · intro hor
      rcases hor with ⟨d, hd, hd'⟩ | ht
      · exact ⟨d, List.mem_append_left _ hd, hd'⟩
      · exact ⟨e, by simp, rfl, ht⟩
    · intro hex
      rcases hex with ⟨d, hd, hdk, ht⟩
      rcases List.mem_append.mp hd with hd | hd
      · exact .inl ⟨d, hd, hdk, ht⟩
      · rw [List.mem_singleton.mp hd] at ht
        exact .inr ht
  · rw [h.allows hk t]
    constructor
    · intro hex
      rcases hex with ⟨d, hd, hd'⟩
      exact ⟨d, List.mem_append_left _ hd, hd'⟩
    · intro hex
      rcases hex with ⟨d, hd, hdk, ht⟩
      rcases List.mem_append.mp hd with hd | hd
      · exact ⟨d, hd, hdk, ht⟩
      · exact absurd (hdk.symm.trans (congrArg Endpoint.key (List.mem_singleton.mp hd))) hke
  · rcases List.mem_append.mp hd with hd | hd
    · exact h.absent hk d hd
    · rw [List.mem_singleton.mp hd]
      exact Ne.symm hke

/-- Adding to a slot always succeeds, and is adding to the list. -/
theorem holds_add (h : Holds slot es) {e : Endpoint} (hc : Ports.Canonical e.ports) :
    ∃ slot', slot.add? e = some slot' ∧ Holds slot' (es ++ [e]) := by
  unfold add?
  cases hx : slot.get? e.key with
  | none =>
    have hno := h.absent hx
    refine ⟨_, rfl, h.of_get? e (fun q => Table.get?_insert ..) ?_ hc fun t => ?_⟩
    · exact ⟨e, by rw [firstOf_append, firstOf_eq_none hno]; simp, rfl, rfl⟩
    · exact ⟨Or.inr, fun ht => ht.resolve_left fun ⟨d, hd, hdk, _⟩ => hno d hd hdk⟩
  | some old =>
    obtain ⟨u, hu, huc, hua⟩ := Ports.merge?_canonical (h.canonical hx) hc
    simp only [hu, Option.map_some]
    refine ⟨_, rfl, h.of_get? (old.withPorts u) (fun q => ?_) ?_ huc fun t => ?_⟩
    · -- Leaving the slot alone and storing the old restriction again are the same look-ups.
      split
      · rename_i hp
        by_cases hq : q = e.key
        · rw [if_pos hq, hq, hx, hp]; rfl
        · rw [if_neg hq]
      · exact Table.get?_insert ..
    · obtain ⟨d, hd, ht⟩ := h.first hx
      exact ⟨d, by rw [firstOf_append, hd]; rfl, ht⟩
    · show Ports.Allows u t ↔ _
      rw [hua, h.allows hx]

end Slot

end Portcullis

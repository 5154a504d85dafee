/-
  Portcullis.Proofs.Links — which nodes of a graph lead to which, and how many do.

  A link adds one edge, unless both ends are one node; adding a node adds none. So the edges of
  a graph that was drawn by any number of nodes and links are those of its links, whatever was
  there first (`linked_foldl`). Nodes are `Plain`: they carry no ports and list each key that
  they lead to once, so the lists of a graph count its edges (`destinationRuleTotal_eq`,
  `sourceRuleCount_eq`).
-/

import Mathlib.Data.Set.Card
import Portcullis.Proofs.Nodes

namespace Portcullis

namespace Graph

def Linked (g : Graph) (s t : String) : Prop := ∃ n, g.nodes.get? s = some n ∧ t ∈ n.destinations

structure Plain (g : Graph) : Prop where
  ports : ∀ {k n}, g.nodes.get? k = some n → n.endpoint.ports = none
  nodup : ∀ {k n}, g.nodes.get? k = some n → n.destinations.Nodup

variable {g g' : Graph} {s t : String}

theorem linked_congr (h : g.nodes = g'.nodes) : g.Linked s t ↔ g'.Linked s t := by
  unfold Linked
  rw [h]

theorem Plain.congr (hg : g'.Plain) (h : g.nodes = g'.nodes) : g.Plain where
  ports hn := hg.ports (h ▸ hn)
  nodup hn := hg.nodup (h ▸ hn)

/-! ## Drawing -/

theorem get?_addNode_of_some {e : Endpoint} {k : String} {n : Node} (h : g.nodes.get? k = some n) :
    (g.addNode e).nodes.get? k = some n := by
  unfold addNode Table.insertNew
  simp only
  split
  · exact h
  · rename_i hfree
    rw [Table.get?_insert, if_neg]
    · exact h
    · rintro rfl
      exact hfree (Table.contains_iff.mpr (Table.mem_keys_iff.mpr ⟨n, h⟩))

theorem linked_addNode {e : Endpoint} : (g.addNode e).Linked s t ↔ g.Linked s t := by
  constructor
  · rintro ⟨n, hn, ht⟩
    rcases get?_addNode hn with hn | ⟨rfl, rfl⟩
    · exact ⟨n, hn, ht⟩
    · cases ht
  · rintro ⟨n, hn, ht⟩
    exact ⟨n, get?_addNode_of_some hn, ht⟩

theorem mem_addDestination {n : Node} {d k : String} :
    k ∈ (Node.addDestination n d).destinations ↔ k ∈ n.destinations ∨ k = d := by
  unfold Node.addDestination
  split
  · rename_i hd
    constructor
    · exact Or.inl
    · rintro (h | rfl)
      · exact h
      · exact List.contains_iff_mem.mp hd
  · simp

theorem linked_addEdge {a d : String} (ha : a ∈ g.nodes.keys) :
    (g.addEdge a d).Linked s t ↔ g.Linked s t ∨ s = a ∧ t = d := by
  obtain ⟨m, hm⟩ := Table.mem_keys_iff.mp ha
  have hget : (g.addEdge a d).nodes.get? s = if s = a then some (Node.addDestination m d) else g.nodes.get? s := by
    unfold addEdge
    rw [hm]
    exact Table.get?_insert ..
  unfold Linked
  rw [hget]
  by_cases hs : s = a
  · subst hs
    rw [if_pos rfl, hm]
    simp [mem_addDestination]
  · rw [if_neg hs]
    simp [hs]

/-- A link leads from its first end to its second, unless they are one. -/
theorem linked_link {a b : Endpoint} :
    (g.link a b).Linked s t ↔ g.Linked s t ∨ a.key ≠ b.key ∧ s = a.key ∧ t = b.key := by
  unfold link
  simp only
  by_cases hab : a.key = b.key
  · rw [if_pos hab, linked_addNode, linked_addNode]
    simp [hab]
  · have ha : a.key ∈ ((g.addNode a).addNode b).nodes.keys :=
      mem_keys_addNode.mpr (.inl (mem_keys_addNode.mpr (.inr rfl)))
    rw [if_neg hab, linked_addEdge ha, linked_addNode, linked_addNode]
    simp [hab]

/-- A fold whose steps add edges. -/
theorem linked_foldl {α : Type} {f : Graph → α → Graph} {P : α → Prop}
    (hf : ∀ (g : Graph) x, (f g x).Linked s t ↔ g.Linked s t ∨ P x) (xs : List α) (g : Graph) :
    (xs.foldl f g).Linked s t ↔ g.Linked s t ∨ ∃ x ∈ xs, P x := by
  induction xs generalizing g with
  | nil => simp
  | cons x xs ih => simp [ih, hf, or_assoc]

theorem not_linked_empty : ¬ Linked {} s t := by
  rintro ⟨n, hn, -⟩
  cases hn

theorem plain_empty : Plain {} where
  ports hn := by cases hn
  nodup hn := by cases hn

theorem Plain.addNode (h : g.Plain) (e : Endpoint) : (g.addNode e).Plain where
  ports hn := by
    rcases get?_addNode hn with hn | ⟨rfl, rfl⟩
    · exact h.ports hn
    · rfl
  nodup hn := by
    rcases get?_addNode hn with hn | ⟨rfl, rfl⟩
    · exact h.nodup hn
    · exact List.nodup_nil

theorem nodup_addDestination {n : Node} (h : n.destinations.Nodup) (d : String) :
    (Node.addDestination n d).destinations.Nodup := by
  unfold Node.addDestination
  split
  · exact h
  · rename_i hd
    have hnew : d ∉ n.destinations := fun hmem => hd (List.contains_iff_mem.mpr hmem)
    exact List.nodup_append.mpr ⟨h, by simp, fun a ha b hb hab => hnew (by simp_all)⟩

theorem Plain.addEdge (h : g.Plain) (a d : String) : (g.addEdge a d).Plain := by
  unfold Graph.addEdge
  split
  · exact h
  · rename_i m hm
    constructor
    · intro k n hn
      rcases Table.get?_insert_cases hn with ⟨-, rfl⟩ | ⟨-, hn⟩
      · rw [endpoint_addDestination]
        exact h.ports hm
      · exact h.ports hn
    · intro k n hn
      rcases Table.get?_insert_cases hn with ⟨-, rfl⟩ | ⟨-, hn⟩
      · exact nodup_addDestination (h.nodup hm) d
      · exact h.nodup hn

theorem Plain.link (h : g.Plain) (a b : Endpoint) : (g.link a b).Plain := by
  unfold Graph.link
  simp only
  split
  · exact (h.addNode a).addNode b
  · exact ((h.addNode a).addNode b).addEdge _ _

theorem Plain.foldl {α : Type} {f : Graph → α → Graph} (hf : ∀ (g : Graph) x, g.Plain → (f g x).Plain) (xs : List α)
    (h : g.Plain) : (xs.foldl f g).Plain := by
  induction xs generalizing g with
  | nil => exact h
  | cons x xs ih => exact ih (hf g x h)

/-! ## Counting -/

def edgePairs (g : Graph) : List (String × String) :=
  g.nodes.toList.flatMap fun e => e.2.destinations.map fun t => (e.1, t)

theorem mem_edgePairs {p : String × String} : p ∈ g.edgePairs ↔ g.Linked p.1 p.2 := by
  simp only [edgePairs, List.mem_flatMap, List.mem_map]
  constructor
  · rintro ⟨⟨k, n⟩, hn, t, ht, rfl⟩
    exact ⟨n, Table.get?_eq_some_iff.mpr hn, ht⟩
  · rintro ⟨n, hn, ht⟩
    exact ⟨(p.1, n), Table.get?_eq_some_iff.mp hn, p.2, ht, rfl⟩

theorem Plain.nodup_edgePairs (h : g.Plain) : g.edgePairs.Nodup := by
  refine List.nodup_flatMap.mpr ⟨fun e he => ?_, ?_⟩
  · exact (h.nodup (Table.get?_eq_some_iff.mpr he)).map fun t u htu => (Prod.mk.inj htu).2
  · refine (List.pairwise_map.mp g.nodes.keys_nodup).imp fun {a b} hab p ha hb => hab ?_
    obtain ⟨t, -, rfl⟩ := List.mem_map.mp ha
    obtain ⟨u, -, hu⟩ := List.mem_map.mp hb
    exact (Prod.mk.inj hu).1.symm

/-- The members of a list without repetition are as many as it is long. -/
theorem encard_of_nodup {α : Type} {l : List α} (h : l.Nodup) {P : α → Prop} (hmem : ∀ a, a ∈ l ↔ P a) :
    {a | P a}.encard = l.length := by
  classical
  have hset : {a | P a} = (l.toFinset : Set α) := by
    ext a
    simp [hmem]
  rw [hset, Set.encard_coe_eq_coe_finsetCard, List.toFinset_card_of_nodup h]

/-- The sum over all nodes is the number of edges. -/
theorem Plain.destinationRuleTotal_eq (h : g.Plain) :
    (g.destinationRuleTotal : ℕ∞) = {p : String × String | g.Linked p.1 p.2}.encard := by
  rw [encard_of_nodup h.nodup_edgePairs fun p => mem_edgePairs]
  simp [destinationRuleTotal, edgePairs, List.length_flatMap, Table.values, Table.toList, List.map_map,
    Function.comp_def]

/-- The roots are the nodes that lead somewhere. -/
theorem sourceRuleCount_eq (g : Graph) : (g.sourceRuleCount : ℕ∞) = {s | ∃ t, g.Linked s t}.encard := by
  have hroots : ∀ s, s ∈ g.roots ↔ ∃ t, g.Linked s t := by
    intro s
    simp only [roots, Key.mem_sorted, List.mem_map, List.mem_filter]
    constructor
    · rintro ⟨⟨k, n⟩, ⟨hn, hsome⟩, rfl⟩
      obtain ⟨t, ht⟩ := List.exists_mem_of_ne_nil n.destinations (by simpa using hsome)
      exact ⟨t, n, Table.get?_eq_some_iff.mpr hn, ht⟩
    · rintro ⟨t, n, hn, ht⟩
      refine ⟨(s, n), ⟨Table.get?_eq_some_iff.mp hn, ?_⟩, rfl⟩
      simpa using List.ne_nil_of_mem ht
  have hnodup : g.roots.Nodup := by
    refine (Key.sorted_perm _).nodup_iff.mpr ?_
    exact g.nodes.keys_nodup.sublist (List.filter_sublist.map _)
  exact (encard_of_nodup hnodup hroots).symm

end Graph

namespace Compiler

open Portcullis.Graph

variable {g : Graph} {s t : String}

/-- A registered rule leads from each source to each destination. -/
theorem linked_registered (r : Rule) : (registered g r).Linked s t ↔ g.Linked s t ∨
    ∃ a ∈ r.sources.values, ∃ b ∈ r.destinations.values, a.key ≠ b.key ∧ s = a.key ∧ t = b.key := by
  refine linked_foldl (fun g a => ?_) r.sources.values g
  rw [linked_foldl (f := fun g b => g.link a b) (fun g b => linked_link), linked_addNode]

/-- The group table leads from each member to its groups. -/
theorem linked_foldMembership (m : Membership) : (Compilation.foldMembership {} m).Linked s t ↔
    ∃ group ∈ m.groups.values, ∃ e ∈ group.members, e.key ≠ group.self.key ∧ s = e.key ∧ t = group.self.key := by
  have hfold := linked_foldl (s := s) (t := t)
    (f := fun g (group : Group) => group.members.foldl (fun g e => g.link e group.self) (g.addNode group.self))
    (P := fun group => ∃ e ∈ group.members, e.key ≠ group.self.key ∧ s = e.key ∧ t = group.self.key)
    (fun g group => by rw [linked_foldl (f := fun g e => g.link e group.self) (fun g e => linked_link), linked_addNode])
    m.groups.values {}
  rw [Compilation.foldMembership, hfold]
  simp [not_linked_empty]

theorem plain_registered (h : g.Plain) (r : Rule) : (registered g r).Plain :=
  h.foldl (fun _ a hg => (hg.addNode a).foldl (fun _ b hg => hg.link a b) _) _

theorem plain_foldMembership (m : Membership) : (Compilation.foldMembership {} m).Plain :=
  plain_empty.foldl (fun _ group hg => (hg.addNode group.self).foldl (fun _ e hg => hg.link e group.self) _) _

end Compiler

end Portcullis

/-
  Portcullis.Proofs.Nodes — what is declared of the nodes of a graph.

  Every node stands under the key of its endpoint, and that endpoint is lawful (`Sound`). The
  key then tells everything about the node that is declared, so graphs with the same keys and
  policies are declared alike, whichever endpoint of a key came first (`emit?_congr`). The keys
  of a graph are told by the keys on the sides of its rules (`mem_keys_registered`).
-/

import Portcullis.Proofs.Edges
import Portcullis.Proofs.Outcome
import Portcullis.Proofs.Storing

namespace Portcullis

/-- Lists in the strict order of their keys that have the same members are one list. -/
theorem Key.eq_of_strict {α : Type} (f : α → String) {xs ys : List α} (hx : xs.Pairwise fun a b => f a < f b)
    (hy : ys.Pairwise fun a b => f a < f b) (h : ∀ a, a ∈ xs ↔ a ∈ ys) : xs = ys := by
  have nodup : ∀ {l : List α}, (l.Pairwise fun a b => f a < f b) → l.Nodup := fun hl =>
    hl.imp fun {a b} hab (e : a = b) => String.lt_irrefl (f a) (by rw [e] at hab ⊢; exact hab)
  refine List.Perm.eq_of_pairwise (fun a b _ _ hab hba => absurd (String.lt_trans hab hba) (String.lt_irrefl _))
    hx hy ?_
  exact (List.perm_ext_iff_of_nodup (nodup hx) (nodup hy)).mpr h

namespace Target

theorem key_of_face {t u : Target} (h : t.face = u.face) : t.key = u.key := by
  cases t <;> cases u <;> cases h <;> rfl

theorem isGroup_of_face {t u : Target} (h : t.face = u.face) : t.isGroup = u.isGroup := by
  cases t <;> cases u <;> cases h <;> rfl

end Target

namespace Graph

structure Sound (g : Graph) : Prop where
  keyed : ∀ {k n}, g.nodes.get? k = some n → n.endpoint.key = k
  lawful : ∀ {k n}, g.nodes.get? k = some n → n.endpoint.target.Lawful

theorem sound_empty : Sound {} where
  keyed h := by cases h
  lawful h := by cases h

/-- The node under the key of a block was made from that block. -/
theorem Sound.target_of_key {g : Graph} (h : g.Sound) {role : Role} {name address : String}
    (hb : (Target.block role name address).Lawful) {n : Node}
    (hn : g.nodes.get? (Target.block role name address).key = some n) :
    n.endpoint.target = .block role name address :=
  Target.eq_of_key_block (h.lawful hn) hb (h.keyed hn)

/-! ## Adding nodes -/

theorem get?_addNode {g : Graph} {e : Endpoint} {k : String} {n : Node} (h : (g.addNode e).nodes.get? k = some n) :
    g.nodes.get? k = some n ∨ (k = e.key ∧ n = ⟨e.withPorts none, []⟩) := by
  unfold addNode Table.insertNew at h
  simp only at h
  split at h
  · exact .inl h
  · rcases Table.get?_insert_cases h with hnew | ⟨-, h⟩
    · exact .inr hnew
    · exact .inl h

theorem Sound.addNode {g : Graph} (h : g.Sound) {e : Endpoint} (he : e.target.Lawful) : (g.addNode e).Sound where
  keyed hn := by
    rcases get?_addNode hn with hn | ⟨rfl, rfl⟩
    · exact h.keyed hn
    · rfl
  lawful hn := by
    rcases get?_addNode hn with hn | ⟨rfl, rfl⟩
    · exact h.lawful hn
    · exact he

theorem endpoint_addDestination (n : Node) (d : String) : (Node.addDestination n d).endpoint = n.endpoint := by
  unfold Node.addDestination
  split <;> rfl

theorem get?_addEdge {g : Graph} {s d k : String} {n : Node} (h : (g.addEdge s d).nodes.get? k = some n) :
    ∃ n', g.nodes.get? k = some n' ∧ n.endpoint = n'.endpoint := by
  unfold addEdge at h
  split at h
  · exact ⟨n, h, rfl⟩
  · rename_i n' hn'
    rcases Table.get?_insert_cases h with ⟨rfl, rfl⟩ | ⟨-, h⟩
    · exact ⟨n', hn', endpoint_addDestination n' d⟩
    · exact ⟨n, h, rfl⟩

theorem Sound.addEdge {g : Graph} (h : g.Sound) (s d : String) : (g.addEdge s d).Sound where
  keyed hn := by
    obtain ⟨n', hn', he⟩ := get?_addEdge hn
    rw [he]
    exact h.keyed hn'
  lawful hn := by
    obtain ⟨n', hn', he⟩ := get?_addEdge hn
    rw [he]
    exact h.lawful hn'

theorem Sound.link {g : Graph} (h : g.Sound) {s d : Endpoint} (hs : s.target.Lawful) (hd : d.target.Lawful) :
    (g.link s d).Sound := by
  unfold Graph.link
  simp only
  split
  · exact (h.addNode hs).addNode hd
  · exact ((h.addNode hs).addNode hd).addEdge _ _

/-- A fold whose steps keep a graph sound. -/
theorem Sound.foldl {α : Type} {f : Graph → α → Graph} {xs : List α}
    (hf : ∀ x ∈ xs, ∀ {g : Graph}, g.Sound → (f g x).Sound)
    {g : Graph} (h : g.Sound) : (xs.foldl f g).Sound := by
  induction xs generalizing g with
  | nil => exact h
  | cons x xs ih => exact ih (fun y hy => hf y (List.mem_cons_of_mem _ hy)) (hf x (by simp) h)

/-! ## The keys of a graph -/

theorem mem_keys_addNode {g : Graph} {e : Endpoint} {k : String} :
    k ∈ (g.addNode e).nodes.keys ↔ k ∈ g.nodes.keys ∨ k = e.key := by
  unfold addNode Table.insertNew
  simp only
  split
  · rename_i hc
    exact ⟨Or.inl, fun h => h.elim id fun hk => hk ▸ Table.contains_iff.mp hc⟩
  · exact Table.mem_keys_insert

theorem keys_addEdge (g : Graph) (s d : String) : (g.addEdge s d).nodes.keys = g.nodes.keys := by
  unfold addEdge
  split
  · rfl
  · rename_i n hn
    rw [Table.keys_insert, if_pos (Table.mem_keys_iff.mpr ⟨n, hn⟩)]

theorem mem_keys_link {g : Graph} {s d : Endpoint} {k : String} :
    k ∈ (g.link s d).nodes.keys ↔ k ∈ g.nodes.keys ∨ k = s.key ∨ k = d.key := by
  unfold link
  simp only
  split
  · rw [mem_keys_addNode, mem_keys_addNode, or_assoc]
  · rw [keys_addEdge, mem_keys_addNode, mem_keys_addNode, or_assoc]

/-- A fold whose steps add keys. -/
theorem mem_keys_foldl {α : Type} {f : Graph → α → Graph} {P : α → Prop} {k : String}
    (hf : ∀ (g : Graph) x, k ∈ (f g x).nodes.keys ↔ k ∈ g.nodes.keys ∨ P x) (xs : List α) (g : Graph) :
    k ∈ (xs.foldl f g).nodes.keys ↔ k ∈ g.nodes.keys ∨ ∃ x ∈ xs, P x := by
  induction xs generalizing g with
  | nil => simp
  | cons x xs ih => simp [ih, hf, or_assoc]

/-! ## Registering -/

end Graph

namespace Compiler

open Portcullis.Graph

theorem sound_registered {g : Graph} (h : g.Sound) {r : Rule} (hs : ∀ x ∈ r.sources.values, x.target.Lawful)
    (hd : ∀ x ∈ r.destinations.values, x.target.Lawful) : (registered g r).Sound :=
  h.foldl fun s hs' _ hg => (hg.addNode (hs s hs')).foldl fun d hd' _ hg => hg.link (hs s hs') (hd d hd')

/-- The keys of a registered rule: those of its sources and, unless it has none, of its
    destinations. -/
theorem mem_keys_registered (g : Graph) (r : Rule) (k : String) :
    k ∈ (registered g r).nodes.keys ↔ k ∈ g.nodes.keys ∨
      ∃ s ∈ r.sources.values, k = s.key ∨ ∃ d ∈ r.destinations.values, k = s.key ∨ k = d.key :=
  mem_keys_foldl (fun g s => (mem_keys_foldl (f := fun g d => g.link s d) (fun _ _ => mem_keys_link) _ _).trans (by
    rw [mem_keys_addNode, or_assoc])) r.sources.values g

/-- The keys of the group table: those of its groups and of their members. -/
theorem mem_keys_foldMembership (m : Membership) (k : String) : k ∈ (Compilation.foldMembership {} m).nodes.keys ↔
    ∃ group ∈ m.groups.values, k = group.self.key ∨ ∃ e ∈ group.members, k = e.key := by
  have hfold := mem_keys_foldl (k := k)
    (f := fun g (group : Group) => group.members.foldl (fun g e => g.link e group.self) (g.addNode group.self))
    (P := fun group => k = group.self.key ∨ ∃ e ∈ group.members, k = e.key) (fun g group => by
      rw [mem_keys_foldl (f := fun g e => g.link e group.self) fun _ _ => mem_keys_link, mem_keys_addNode]
      constructor
      · rintro ((h | h) | ⟨e, he, h | h⟩)
        · exact .inl h
        · exact .inr (.inl h)
        · exact .inr (.inr ⟨e, he, h⟩)
        · exact .inr (.inl h)
      · rintro (h | h | ⟨e, he, h⟩)
        · exact .inl (.inl h)
        · exact .inl (.inr h)
        · exact .inr ⟨e, he, .inl h⟩)
    m.groups.values {}
  rw [Compilation.foldMembership, hfold]
  simp

/-- The group table makes a sound graph. -/
theorem sound_foldMembership {m : Membership} (hm : Membership.OfNames m.groups) :
    (Compilation.foldMembership {} m).Sound := by
  apply sound_empty.foldl
  intro group hgroup g hg
  obtain ⟨k, hk⟩ := Table.mem_values_iff.mp hgroup
  obtain ⟨hself, hmembers⟩ := hm k group hk
  exact (hg.addNode hself.lawful).foldl fun e he _ hg => hg.link (hmembers e he).lawful hself.lawful

end Compiler

namespace Graph

/-! ## Declaring -/

/-- What a node stands under, and its target without the spelling of a name. -/
def view (e : String × Node) : String × Target := (e.1, e.2.endpoint.target.face)

variable {g g' : Graph}

theorem mem_sortedNodes {e : String × Node} : e ∈ g.sortedNodes ↔ g.nodes.get? e.1 = some e.2 :=
  (List.mergeSort_perm _ _).mem_iff.trans Table.get?_eq_some_iff.symm

/-- Keys in order, each once. -/
theorem sortedNodes_strict (g : Graph) : g.sortedNodes.Pairwise fun a b => a.1 < b.1 :=
  Key.strict_mergeSort Prod.fst g.nodes.keys_nodup

/-- Sound graphs with the same keys look the same. -/
theorem map_view_congr (hg : g.Sound) (hg' : g'.Sound) (h : ∀ k, k ∈ g.nodes.keys ↔ k ∈ g'.nodes.keys) :
    g.sortedNodes.map view = g'.sortedNodes.map view := by
  have strict : ∀ g : Graph, (g.sortedNodes.map view).Pairwise fun a b => a.1 < b.1 := fun g =>
    List.pairwise_map.mpr (g.sortedNodes_strict)
  -- The other graph may have met another endpoint of the key first; its face is the same.
  have incl : ∀ {g g' : Graph}, g.Sound → g'.Sound → (∀ k, k ∈ g.nodes.keys → k ∈ g'.nodes.keys) →
      ∀ v ∈ g.sortedNodes.map view, v ∈ g'.sortedNodes.map view := by
    intro g g' hg hg' h v hv
    obtain ⟨⟨k, n⟩, hn, rfl⟩ := List.mem_map.mp hv
    have hn := mem_sortedNodes.mp hn
    obtain ⟨n', hn'⟩ := Table.mem_keys_iff.mp (h k (Table.mem_keys_iff.mpr ⟨n, hn⟩))
    refine List.mem_map.mpr ⟨(k, n'), mem_sortedNodes.mpr hn', ?_⟩
    have hkey : n'.endpoint.key = n.endpoint.key := (hg'.keyed hn').trans (hg.keyed hn).symm
    exact congrArg (Prod.mk k) (Target.face_of_key (hg'.lawful hn') (hg.lawful hn) hkey)
  refine Key.eq_of_strict Prod.fst (strict g) (strict g') fun v => ?_
  exact ⟨incl hg hg' (fun k => (h k).mp) v, incl hg' hg (fun k => (h k).mpr) v⟩

theorem groupDeclaration_congr (m : Membership) (k : String) {n n' : Node}
    (h : n.endpoint.target.face = n'.endpoint.target.face) :
    groupDeclaration (some m) k n = groupDeclaration (some m) k n' := by
  have hk : n.endpoint.key = n'.endpoint.key := Target.key_of_face h
  unfold groupDeclaration
  rw [hk]
  cases ht : n.endpoint.target <;> cases ht' : n'.endpoint.target <;> rw [ht, ht'] at h <;> cases h <;> rfl

theorem resourceDeclaration_congr (k : String) {n n' : Node}
    (h : n.endpoint.target.face = n'.endpoint.target.face) :
    resourceDeclaration k n = resourceDeclaration k n' := by
  unfold resourceDeclaration
  cases ht : n.endpoint.target <;> cases ht' : n'.endpoint.target <;> rw [ht, ht'] at h <;> first | cases h; rfl | cases h

theorem groupDeclarations_congr (m : Membership) {es es' : List (String × Node)} (h : es.map view = es'.map view) :
    groupDeclarations (some m) es = groupDeclarations (some m) es' := by
  induction es generalizing es' with
  | nil => rw [List.map_eq_nil_iff.mp h.symm]
  | cons e es ih =>
    obtain ⟨k, n⟩ := e
    obtain ⟨⟨k', n'⟩, es', rfl, hview, hrest⟩ := List.map_eq_cons_iff.mp h.symm
    obtain ⟨rfl, hface⟩ := Prod.mk.injEq .. ▸ hview
    have hg : n'.endpoint.isGroup = n.endpoint.isGroup := Target.isGroup_of_face hface
    simp only [groupDeclarations, hg, groupDeclaration_congr m k' hface, ih hrest.symm]

theorem resourceDeclarations_congr {es es' : List (String × Node)} (h : es.map view = es'.map view) :
    (es.filter fun e => !e.2.endpoint.isGroup).filterMap (fun e => resourceDeclaration e.1 e.2) =
      (es'.filter fun e => !e.2.endpoint.isGroup).filterMap fun e => resourceDeclaration e.1 e.2 := by
  induction es generalizing es' with
  | nil => rw [List.map_eq_nil_iff.mp h.symm]
  | cons e es ih =>
    obtain ⟨k, n⟩ := e
    obtain ⟨⟨k', n'⟩, es', rfl, hview, hrest⟩ := List.map_eq_cons_iff.mp h.symm
    obtain ⟨rfl, hface⟩ := Prod.mk.injEq .. ▸ hview
    have hg : n'.endpoint.isGroup = n.endpoint.isGroup := Target.isGroup_of_face hface
    cases hc : n.endpoint.isGroup <;>
      simp [List.filterMap_cons, hg, hc, resourceDeclaration_congr k' hface, ih hrest.symm]

/-- Sound graphs with the same keys and policies are declared alike. -/
theorem emit?_congr (hg : g.Sound) (hg' : g'.Sound) (h : ∀ k, k ∈ g.nodes.keys ↔ k ∈ g'.nodes.keys)
    (hp : g.policies = g'.policies) (m : Membership) (o : Options) : g.emit? (some m) o = g'.emit? (some m) o := by
  have hview := map_view_congr hg hg' h
  have hsorted : g.sortedPolicies = g'.sortedPolicies := by
    unfold sortedPolicies
    rw [hp]
  unfold emit?
  rw [groupDeclarations_congr m hview, resourceDeclarations_congr hview, hsorted]

end Graph

end Portcullis

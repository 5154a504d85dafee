/-
  Portcullis.Proofs.Declared — what is declared, key by key.

  Each node gives one declaration, each policy gives one, and a declaration has the key of what
  it was made from (`mem_groups`, `mem_resources`, `mem_policies`).
  - `Extends.declared`: a graph that has all keys of another, and all of its policies, declares
    all that the other declares.
  - `nodup_keys`: no two declarations of a graph have one key, whatever their kinds.
-/

import Portcullis.Proofs.PolicyTable
import Portcullis.Proofs.TokenOrder

namespace Portcullis

/-- A look-up in an output in which no key is there twice finds every declaration. -/
theorem Output.get?_of_nodup {out : Output} (h : out.keys.Nodup) {x : Declaration} (hx : x ∈ out.declarations) :
    out.get? x.key = some x := by
  unfold Output.keys at h
  unfold Output.get?
  generalize out.declarations = l at hx h
  induction l with
  | nil => cases hx
  | cons y l ih =>
    obtain ⟨hy, h⟩ := List.nodup_cons.mp h
    rcases List.mem_cons.mp hx with rfl | hx
    · exact List.find?_cons_of_pos (by simp)
    · have hne : y.key ≠ x.key := fun e => hy (e ▸ List.mem_map_of_mem hx)
      rw [List.find?_cons_of_neg (by simpa using hne), ih hx h]

theorem Output.get?_resource {out : Output} (h : out.keys.Nodup) {x : ResourceDeclaration} (hx : x ∈ out.resources) :
    out.get? x.key = some (.resource x) :=
  Output.get?_of_nodup (x := .resource x) h (by simp [Output.declarations, hx])

/-- Resources of one key are one. -/
theorem Output.eq_of_key {out : Output} (h : out.keys.Nodup) {x y : ResourceDeclaration} (hx : x ∈ out.resources)
    (hy : y ∈ out.resources) (hkey : x.key = y.key) : x = y := by
  have hfound := Output.get?_resource h hx
  rw [hkey, Output.get?_resource h hy] at hfound
  cases hfound
  rfl

namespace Graph

variable {g g' : Graph} {m : Membership} {o : Options} {out out' : Output}

/-! ## Declarations and what they are made from -/

theorem groupDeclaration_isSome (m : Membership) (k : String) (n : Node) :
    ∃ x, groupDeclaration (some m) k n = some x ∧ x.key = k := by
  unfold groupDeclaration
  cases n.endpoint.target <;> exact ⟨_, rfl, rfl⟩

theorem resourceDeclaration_isSome (k : String) {n : Node} (h : n.endpoint.isGroup = false) :
    ∃ x, resourceDeclaration k n = some x ∧ x.key = k := by
  unfold resourceDeclaration
  cases ht : n.endpoint.target with
  | named space name =>
    unfold Endpoint.isGroup at h
    rw [ht] at h
    cases h
  | block role name address => exact ⟨_, rfl, rfl⟩

theorem groupDeclarations_eq (m : Membership) (nodes : List (String × Node)) :
    groupDeclarations (some m) nodes = some
      ((nodes.filter fun e => e.2.endpoint.isGroup).filterMap fun e => groupDeclaration (some m) e.1 e.2) := by
  induction nodes with
  | nil => rfl
  | cons e nodes ih =>
    obtain ⟨k, n⟩ := e
    unfold groupDeclarations
    cases hg : n.endpoint.isGroup with
    | false => simp [hg, ih]
    | true =>
      obtain ⟨x, hx, -⟩ := groupDeclaration_isSome m k n
      simp [hg, ih, hx]

theorem emit?_eq (g : Graph) (m : Membership) (o : Options) : g.emit? (some m) o = some
    { groups := (g.sortedNodes.filter fun e => e.2.endpoint.isGroup).filterMap fun e => groupDeclaration (some m) e.1 e.2
      resources := (g.sortedNodes.filter fun e => !e.2.endpoint.isGroup).filterMap fun e => resourceDeclaration e.1 e.2
      policies := g.sortedPolicies.map fun e => policyDeclaration o e.2 } := by
  unfold emit?
  rw [groupDeclarations_eq]
  rfl

theorem mem_sortedPolicies {e : String × Edge} : e ∈ g.sortedPolicies ↔ g.policies.get? e.1 = some e.2 :=
  (List.mergeSort_perm _ _).mem_iff.trans Table.get?_eq_some_iff.symm

theorem mem_groups (h : g.emit? (some m) o = some out) {x : GroupDeclaration} :
    x ∈ out.groups ↔ ∃ k n, g.nodes.get? k = some n ∧ n.endpoint.isGroup = true ∧
      groupDeclaration (some m) k n = some x := by
  rw [emit?_eq] at h
  cases h
  simp [List.mem_filterMap, List.mem_filter, mem_sortedNodes, and_assoc]

theorem mem_resources (h : g.emit? (some m) o = some out) {x : ResourceDeclaration} :
    x ∈ out.resources ↔ ∃ k n, g.nodes.get? k = some n ∧ n.endpoint.isGroup = false ∧
      resourceDeclaration k n = some x := by
  rw [emit?_eq] at h
  cases h
  simp [List.mem_filterMap, List.mem_filter, mem_sortedNodes, and_assoc]

theorem mem_policies (h : g.emit? (some m) o = some out) {p : PolicyDeclaration} :
    p ∈ out.policies ↔ ∃ k x, g.policies.get? k = some x ∧ p = policyDeclaration o x := by
  rw [emit?_eq] at h
  cases h
  simp [mem_sortedPolicies, eq_comm]

/-- Every node is declared under its key. -/
theorem mem_keys_of_node (h : g.emit? (some m) o = some out) {k : String} {n : Node} (hn : g.nodes.get? k = some n) :
    k ∈ out.keys := by
  cases hgroup : n.endpoint.isGroup with
  | true =>
    obtain ⟨x, hx, hkey⟩ := groupDeclaration_isSome m k n
    have hmem : x ∈ out.groups := (mem_groups h).mpr ⟨k, n, hn, hgroup, hx⟩
    exact List.mem_map.mpr ⟨.group x, by simp [Output.declarations, hmem], hkey⟩
  | false =>
    obtain ⟨x, hx, hkey⟩ := resourceDeclaration_isSome k hgroup
    have hmem : x ∈ out.resources := (mem_resources h).mpr ⟨k, n, hn, hgroup, hx⟩
    exact List.mem_map.mpr ⟨.resource x, by simp [Output.declarations, hmem], hkey⟩

/-- Graphs in which every look-up finds the same policy list their policies alike. -/
theorem sortedPolicies_congr (h : ∀ k, g.policies.get? k = g'.policies.get? k) : g.sortedPolicies = g'.sortedPolicies := by
  have strict : ∀ g : Graph, g.sortedPolicies.Pairwise fun a b => a.1 < b.1 := fun g =>
    Key.strict_mergeSort Prod.fst g.policies.keys_nodup
  refine Key.eq_of_strict Prod.fst (strict g) (strict g') fun e => ?_
  rw [mem_sortedPolicies, mem_sortedPolicies, h]

/-- Graphs with the same nodes in which every look-up finds the same policy are declared alike. -/
theorem emit?_of_lookups {o' : Options} (hn : g.nodes = g'.nodes) (hp : ∀ k, g.policies.get? k = g'.policies.get? k)
    (ho : policyDeclaration o = policyDeclaration o') (m : Membership) :
    g.emit? (some m) o = g'.emit? (some m) o' := by
  have hnodes : g.sortedNodes = g'.sortedNodes := by
    unfold sortedNodes
    rw [hn]
  rw [emit?_eq, emit?_eq, hnodes, sortedPolicies_congr hp, ho]

/-! ## The keys of declarations -/

structure Distinct (g : Graph) : Prop where
  sound : g.Sound
  indexed : g.Indexed
  initial : ∀ {k x}, g.policies.get? k = some x → k.toList.head? = some 'p'

/-- No endpoint has a key that begins like that of a policy. -/
theorem initial_key (e : Endpoint) : e.key.toList.head? ≠ some 'p' := by
  unfold Endpoint.key Target.key Key.simple
  rw [String.toList_append, String.toList_append]
  cases e.target.kind <;> simp [Kind.text]

theorem map_key_filterMap {α β : Type} {f : String × α → Option β} {key : β → String} {l : List (String × α)}
    (h : ∀ e ∈ l, ∃ x, f e = some x ∧ key x = e.1) : (l.filterMap f).map key = l.map Prod.fst := by
  induction l with
  | nil => rfl
  | cons e l ih =>
    obtain ⟨x, hx, hk⟩ := h e (by simp)
    rw [List.filterMap_cons_some hx, List.map_cons, List.map_cons, hk, ih fun d hd => h d (List.mem_cons_of_mem _ hd)]

/-- The keys of an output: those of the nodes, groups first, and those of the policies. -/
theorem keys_eq (h : g.Indexed) (hout : g.emit? (some m) o = some out) : out.keys =
    (g.sortedNodes.filter fun e => e.2.endpoint.isGroup).map Prod.fst ++
      (g.sortedNodes.filter fun e => !e.2.endpoint.isGroup).map Prod.fst ++ g.sortedPolicies.map Prod.fst := by
  have hpolicies : ∀ e ∈ g.sortedPolicies, e.2.key = e.1 := fun e he => h.key (mem_sortedPolicies.mp he)
  rw [emit?_eq] at hout
  cases hout
  unfold Output.keys Output.declarations
  rw [List.map_append, List.map_append, List.map_map, List.map_map, List.map_map, List.map_map]
  refine congrArg₂ (· ++ ·) (congrArg₂ (· ++ ·) ?_ ?_) ?_
  · exact map_key_filterMap fun e _ => groupDeclaration_isSome m e.1 e.2
  · refine map_key_filterMap fun e he => resourceDeclaration_isSome e.1 ?_
    simpa using (List.mem_filter.mp he).2
  · exact List.map_congr_left hpolicies

/-- No two declarations have one key. -/
theorem Distinct.nodup_keys (h : g.Distinct) (hout : g.emit? (some m) o = some out) : out.keys.Nodup := by
  have hstrict : ∀ p : String × Node → Bool, ((g.sortedNodes.filter p).map Prod.fst).Nodup := by
    intro p
    have hnodup : (g.sortedNodes.map Prod.fst).Nodup :=
      ((List.mergeSort_perm _ _).map Prod.fst).nodup_iff.mpr g.nodes.keys_nodup
    exact hnodup.sublist (List.filter_sublist.map _)
  have hpolicies : (g.sortedPolicies.map Prod.fst).Nodup :=
    ((List.mergeSort_perm _ _).map Prod.fst).nodup_iff.mpr g.policies.keys_nodup
  have hnode : ∀ {k} {p : String × Node → Bool}, k ∈ (g.sortedNodes.filter p).map Prod.fst →
      ∃ n, g.nodes.get? k = some n ∧ p (k, n) = true := by
    intro k p hk
    obtain ⟨⟨k, n⟩, hn, rfl⟩ := List.mem_map.mp hk
    obtain ⟨hn, hp⟩ := List.mem_filter.mp hn
    exact ⟨n, mem_sortedNodes.mp hn, hp⟩
  rw [keys_eq h.indexed hout]
  refine List.nodup_append.mpr ⟨List.nodup_append.mpr ⟨hstrict _, hstrict _, ?_⟩, hpolicies, ?_⟩
  · intro k hk k' hk' heq
    subst heq
    obtain ⟨n, hn, hg⟩ := hnode hk
    obtain ⟨n', hn', hg'⟩ := hnode hk'
    obtain rfl : n = n' := Option.some.inj (hn.symm.trans hn')
    simp_all
  · intro k hk k' hk' heq
    subst heq
    obtain ⟨⟨k, x⟩, hx, rfl⟩ := List.mem_map.mp hk'
    obtain ⟨p, hk⟩ : ∃ p, k ∈ (g.sortedNodes.filter p).map Prod.fst := by
      rcases List.mem_append.mp hk with hk | hk <;> exact ⟨_, hk⟩
    obtain ⟨n, hn, -⟩ := hnode hk
    have hinitial := initial_key n.endpoint
    rw [h.sound.keyed hn] at hinitial
    exact hinitial (h.initial (mem_sortedPolicies.mp hx))

/-- So a look-up in the output finds every declaration. -/
theorem Distinct.get?_of_mem (h : g.Distinct) (hout : g.emit? (some m) o = some out) {x : Declaration}
    (hx : x ∈ out.declarations) : out.get? x.key = some x :=
  Output.get?_of_nodup (h.nodup_keys hout) hx

/-! ## Graphs that have more -/

structure Extends (g g' : Graph) : Prop where
  nodes : ∀ k, k ∈ g.nodes.keys → k ∈ g'.nodes.keys
  policies : ∀ k x, g.policies.get? k = some x → g'.policies.get? k = some x

/-- The node of a key in the larger graph looks the same, whichever endpoint it was made for. -/
theorem Extends.exists_node (h : Extends g g') (hg : g.Sound) (hg' : g'.Sound) {k : String} {n : Node}
    (hn : g.nodes.get? k = some n) :
    ∃ n', g'.nodes.get? k = some n' ∧ n'.endpoint.target.face = n.endpoint.target.face := by
  obtain ⟨n', hn'⟩ := Table.mem_keys_iff.mp (h.nodes k (Table.mem_keys_iff.mpr ⟨n, hn⟩))
  have hkey : n'.endpoint.key = n.endpoint.key := (hg'.keyed hn').trans (hg.keyed hn).symm
  exact ⟨n', hn', Target.face_of_key (hg'.lawful hn') (hg.lawful hn) hkey⟩

/-- What is declared stays declared, unchanged. -/
theorem Extends.declared (h : Extends g g') (hg : g.Sound) (hg' : g'.Sound) (hout : g.emit? (some m) o = some out)
    (hout' : g'.emit? (some m) o = some out') : ∀ x ∈ out.declarations, x ∈ out'.declarations := by
  intro x hx
  simp only [Output.declarations, List.mem_append, List.mem_map] at hx ⊢
  rcases hx with (⟨y, hy, rfl⟩ | ⟨y, hy, rfl⟩) | ⟨y, hy, rfl⟩
  · obtain ⟨k, n, hn, hgroup, hdecl⟩ := (mem_groups hout).mp hy
    obtain ⟨n', hn', hface⟩ := h.exists_node hg hg' hn
    have hgroup' : n'.endpoint.isGroup = true := (Target.isGroup_of_face hface).trans hgroup
    refine .inl (.inl ⟨y, (mem_groups hout').mpr ⟨k, n', hn', hgroup', ?_⟩, rfl⟩)
    rw [groupDeclaration_congr m k hface, hdecl]
  · obtain ⟨k, n, hn, hgroup, hdecl⟩ := (mem_resources hout).mp hy
    obtain ⟨n', hn', hface⟩ := h.exists_node hg hg' hn
    have hgroup' : n'.endpoint.isGroup = false := (Target.isGroup_of_face hface).trans hgroup
    refine .inl (.inr ⟨y, (mem_resources hout').mpr ⟨k, n', hn', hgroup', ?_⟩, rfl⟩)
    rw [resourceDeclaration_congr k hface, hdecl]
  · obtain ⟨k, e, he, rfl⟩ := (mem_policies hout).mp hy
    exact .inr ⟨_, (mem_policies hout').mpr ⟨k, e, h.policies k e he, rfl⟩, rfl⟩

end Graph

namespace Compiler

variable {m : Membership} {declared : List String} {d : Document} {o : Options} {c : Compilation}

/-- The keys of the edges of a rule begin like those of policies. -/
theorem initial_edgesOf {r : Rule} {e : Edge} (he : e ∈ edgesOf r) : e.key.toList.head? = some 'p' := by
  rcases List.mem_append.mp he with he | he
  · obtain ⟨p, -, rfl⟩ := mem_groupEdges.mp he
    simp [edge, Key.composite, PolicyKind.text, String.toList_append]
  · obtain ⟨x, -, rfl⟩ := mem_resourceEdges.mp he
    simp [edge, Key.composite, PolicyKind.text, String.toList_append]

/-- The policies of a compilation, by look-up. -/
theorem Compiled.get?_policies (hc : Compiled d o m declared c) (k : String) : c.graph.policies.get? k =
    (Graph.stored {} ((finished m declared d.rules).flatMap edgesOf)).policies.get? k := by
  rw [hc.graph, policies_laidOut (policies_foldMembership m), get?_scheduled]

/-- A policy of a compilation is an edge of a finished rule, but for its key. -/
theorem Compiled.exists_edge (hc : Compiled d o m declared c) {k : String} {x : Edge}
    (hx : c.graph.policies.get? k = some x) :
    ∃ r ∈ finished m declared d.rules, ∃ e ∈ edgesOf r, Key.base k = e.key ∧ x = { e with key := k } := by
  rw [hc.get?_policies] at hx
  have hkeys : Graph.PolicyKeys ((finished m declared d.rules).flatMap edgesOf) := policyKeys_scheduled false _
  rcases Graph.exists_of_get?_stored hkeys hx with h | ⟨e, he, hk⟩
  · cases h
  · obtain ⟨r, hr, he⟩ := List.mem_flatMap.mp he
    exact ⟨r, hr, e, he, hk⟩

/-- The graph of a compilation. -/
theorem distinct_graph (hm : Membership.OfNames m.groups) (hc : Compiled d o m declared c) : c.graph.Distinct where
  sound := sound_graph hm hc
  indexed := by
    have hpolicies := policies_laidOut (policies_foldMembership m) o.ruleDebug (finished m declared d.rules)
    rw [← hc.graph] at hpolicies
    exact (Graph.indexed_empty.stored (policyKeys_scheduled _ _)).congr hpolicies
  initial {k x} hx := by
    obtain ⟨r, -, e, he, hbase, -⟩ := hc.exists_edge hx
    have hinitial := initial_edgesOf he
    rw [← hbase, Key.base, String.toList_ofList, List.head?_take] at hinitial
    exact hinitial

end Compiler

end Portcullis

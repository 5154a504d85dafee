/-
  Portcullis.Proofs.PolicyTable — when every edge becomes a policy of its own.

  The edges of a rule that have one key are stored under that key and under the key with the
  index of the rule behind it. That is room for two of them, or for one if an earlier rule has
  taken the key; one more overwrites the last (`Roomy`). A digest is over the keys of a side
  put together without separator, so one rule can well have three such edges.
  - `policies_kept_iff`: in a compilation without errors, all edges are kept if and only if
    there is room for them, and the number of policies tells.
-/

import Portcullis.Proofs.Edges
import Portcullis.Proofs.Lanes
import Portcullis.Proofs.Outcome
import Mathlib.Algebra.GroupWithZero.Nat
import Mathlib.Data.List.Dedup

namespace Portcullis

def PolicyDeclaration.content (p : PolicyDeclaration) : PolicyDeclaration :=
  { p with key := "", name := "", rules := p.rules.map fun r => { r with name := "" } }

namespace Compiler

def edgesOf (r : Rule) : List Edge := groupEdges r ++ resourceEdges r

/-- The number of different port restrictions among the groups that a rule leads to, and the
    number of its hosts and networks. -/
def policyCount (r : Rule) : Nat :=
  ((r.groups .destination).map Endpoint.ports).dedup.length + (r.resources .destination).length

def keyCount (k : String) (r : Rule) : Nat := (edgesOf r).countP fun e => decide (e.key = k)

/-- Whether there is room for the edges of all rules, when some keys are taken: for one edge
    of a key that is taken, and for two of a key that is not. -/
def Roomy : List String → List Rule → Prop
  | _, [] => True
  | taken, r :: rs => (∀ k, keyCount k r ≤ if k ∈ taken then 1 else 2) ∧ Roomy (taken ++ (edgesOf r).map Edge.key) rs

/-! ## The edges of a rule -/

theorem ruleIndex_of_mem {r : Rule} {e : Edge} (h : e ∈ edgesOf r) : e.ruleIndex = r.index := (common_of_mem h).1

theorem policyKeys_edgesOf (r : Rule) : Graph.PolicyKeys (edgesOf r) := by
  intro e he
  rcases List.mem_append.mp he with he | he
  · obtain ⟨p, -, rfl⟩ := mem_groupEdges.mp he
    exact Key.length_composite .groupToGroup _ _
  · obtain ⟨x, -, rfl⟩ := mem_resourceEdges.mp he
    exact Key.length_composite .groupToResource _ _

theorem length_edgesOf (r : Rule) : (edgesOf r).length = policyCount r := by
  have hports : ((partition (r.groups .destination)).map Prod.fst).Perm
      ((r.groups .destination).map Endpoint.ports).dedup := by
    apply (List.perm_ext_iff_of_nodup (parts_partition _).nodup (List.nodup_dedup _)).mpr
    intro p
    rw [List.mem_dedup, mem_fst_partition]
  unfold edgesOf policyCount
  rw [List.length_append, groupEdges_eq, resourceEdges_eq, List.length_map, List.length_map, ← hports.length_eq,
    (orderedParts_perm r).length_eq, (orderedResources_perm r).length_eq, List.length_map]

/-! ## Room, key by key -/

theorem indicesOf_append (k : String) (es fs : List Edge) :
    Graph.indicesOf k (es ++ fs) = Graph.indicesOf k es ++ Graph.indicesOf k fs := by
  simp [Graph.indicesOf]

/-- All edges of a rule have its index. -/
theorem indicesOf_edgesOf (k : String) (r : Rule) :
    Graph.indicesOf k (edgesOf r) = List.replicate (keyCount k r) r.index := by
  refine List.eq_replicate_iff.mpr ⟨?_, fun i hi => ?_⟩
  · rw [Graph.indicesOf, List.length_map, keyCount, List.countP_eq_length_filter]
  · obtain ⟨e, he, -, rfl⟩ := Graph.mem_indicesOf.mp hi
    exact ruleIndex_of_mem he

theorem mem_indicesOf_flatMap {k : String} {rs : List Rule} {i : Int}
    (h : i ∈ Graph.indicesOf k (rs.flatMap edgesOf)) :
    i ∈ rs.map Rule.index := by
  obtain ⟨e, he, -, rfl⟩ := Graph.mem_indicesOf.mp h
  obtain ⟨r, hr, he⟩ := List.mem_flatMap.mp he
  exact List.mem_map.mpr ⟨r, hr, (ruleIndex_of_mem he).symm⟩

/-- With rule indices that occur once, there is room for the edges if and only if no index is
    there twice among the late edges of a key. -/
theorem roomy_iff {rs : List Rule} (hn : (rs.map Rule.index).Nodup) (taken : List String) :
    Roomy taken rs ↔ ∀ k, (Graph.lateIndices taken k (rs.flatMap edgesOf)).Nodup := by
  induction rs generalizing taken with
  | nil => simp [Roomy, Graph.lateIndices, Graph.indicesOf]
  | cons r rs ih =>
    obtain ⟨hr, hn⟩ := List.nodup_cons.mp hn
    have hkey : ∀ k, (Graph.lateIndices taken k ((r :: rs).flatMap edgesOf)).Nodup ↔
        keyCount k r ≤ (if k ∈ taken then 1 else 2) ∧
          (Graph.lateIndices (taken ++ (edgesOf r).map Edge.key) k (rs.flatMap edgesOf)).Nodup := by
      intro k
      -- No later rule has the index of `r`, so an edge of `r` can only meet another edge of `r`.
      have happart : ∀ n, (List.replicate n r.index ++ Graph.indicesOf k (rs.flatMap edgesOf)).Nodup ↔
          n ≤ 1 ∧ (Graph.indicesOf k (rs.flatMap edgesOf)).Nodup := by
        intro n
        rw [List.nodup_append, List.nodup_replicate]
        refine and_congr_right fun _ => and_iff_left ?_
        intro a ha b hb
        rw [(List.mem_replicate.mp ha).2]
        exact fun e => hr (e ▸ mem_indicesOf_flatMap hb)
      have hmem : k ∈ (edgesOf r).map Edge.key ↔ keyCount k r ≠ 0 := by
        simp [keyCount, List.countP_eq_zero]
      unfold Graph.lateIndices
      rw [List.flatMap_cons, indicesOf_append, indicesOf_edgesOf]
      simp only [List.mem_append, hmem]
      by_cases ht : k ∈ taken
      · simp only [ht, if_true, true_or]
        exact happart _
      · simp only [ht, if_false, false_or]
        cases hc : keyCount k r with
        | zero => simp
        | succ n =>
          have htail : (List.replicate (n + 1) r.index ++ Graph.indicesOf k (rs.flatMap edgesOf)).tail =
              List.replicate n r.index ++ Graph.indicesOf k (rs.flatMap edgesOf) := rfl
          rw [htail, happart, if_pos (by omega)]
          exact and_congr_left fun _ => by omega
    simp only [Roomy, ih hn, hkey, forall_and]

/-! ## Either order of storing -/

theorem flatMap_append_perm {α β : Type} (f g : α → List β) (xs : List α) :
    (xs.flatMap f ++ xs.flatMap g).Perm (xs.flatMap fun x => f x ++ g x) := by
  induction xs with
  | nil => exact .refl _
  | cons x xs ih =>
    simp only [List.flatMap_cons, List.append_assoc]
    apply List.Perm.append_left _
    rw [← List.append_assoc]
    exact (List.perm_append_comm.append_right _).trans (by simpa using ih.append_left (g x))

theorem perm_scheduled (stagewise : Bool) (rs : List Rule) :
    (scheduled stagewise rs).Perm (rs.flatMap edgesOf) := by
  cases stagewise with
  | false => exact .refl _
  | true => exact flatMap_append_perm groupEdges resourceEdges rs

/-- The two kinds of edges have different keys. -/
theorem key_ne {r r' : Rule} {e f : Edge} (he : e ∈ groupEdges r) (hf : f ∈ resourceEdges r') : e.key ≠ f.key := by
  obtain ⟨p, -, rfl⟩ := mem_groupEdges.mp he
  obtain ⟨x, -, rfl⟩ := mem_resourceEdges.mp hf
  intro h
  cases Key.kind_of_composite h

theorem flatMap_append_of_nil {α β : Type} {f g : α → List β} {xs : List α}
    (h : (∀ x ∈ xs, f x = []) ∨ ∀ x ∈ xs, g x = []) : xs.flatMap f ++ xs.flatMap g = xs.flatMap fun x => f x ++ g x := by
  induction xs with
  | nil => rfl
  | cons x xs ih =>
    have ih := ih (h.imp (fun h y hy => h y (List.mem_cons_of_mem _ hy)) fun h y hy => h y (List.mem_cons_of_mem _ hy))
    simp only [List.flatMap_cons, ← ih]
    rcases h with h | h
    · have hnil : xs.flatMap f = [] := List.flatMap_eq_nil_iff.mpr fun y hy => h y (List.mem_cons_of_mem _ hy)
      simp [h x (by simp), hnil]
    · simp [h x (by simp)]

theorem lane_flatMap (b : String) (f : Rule → List Edge) (rs : List Rule) :
    Graph.lane b (rs.flatMap f) = rs.flatMap fun r => Graph.lane b (f r) :=
  List.filter_flatMap ..

/-- The edges of one key are stored in the order of the rules either way. -/
theorem lane_scheduled (b : String) (stagewise : Bool) (rs : List Rule) :
    Graph.lane b (scheduled stagewise rs) = Graph.lane b (rs.flatMap edgesOf) := by
  cases stagewise with
  | false => rfl
  | true =>
    have hone : (∀ r ∈ rs, Graph.lane b (groupEdges r) = []) ∨ ∀ r ∈ rs, Graph.lane b (resourceEdges r) = [] := by
      apply Classical.or_iff_not_imp_left.mpr
      intro h r hr
      simp only [not_forall] at h
      obtain ⟨r', -, hne⟩ := h
      obtain ⟨e, he⟩ := List.exists_mem_of_ne_nil _ hne
      apply List.eq_nil_iff_forall_not_mem.mpr
      intro f hf
      obtain ⟨he, hk⟩ := Graph.mem_lane.mp he
      obtain ⟨hf, hk'⟩ := Graph.mem_lane.mp hf
      exact key_ne he hf (hk.trans hk'.symm)
    show Graph.lane b (rs.flatMap groupEdges ++ rs.flatMap resourceEdges) = _
    rw [Graph.lane_append, lane_flatMap, lane_flatMap, flatMap_append_of_nil hone, lane_flatMap]
    simp only [edgesOf, Graph.lane_append]

theorem indicesOf_scheduled (k : String) (stagewise : Bool) (rs : List Rule) :
    Graph.indicesOf k (scheduled stagewise rs) = Graph.indicesOf k (rs.flatMap edgesOf) :=
  congrArg (List.map Edge.ruleIndex) (lane_scheduled k stagewise rs)

theorem policyKeys_scheduled (stagewise : Bool) (rs : List Rule) : Graph.PolicyKeys (scheduled stagewise rs) := by
  intro e he
  obtain ⟨r, -, he⟩ := List.mem_flatMap.mp ((perm_scheduled stagewise rs).mem_iff.mp he)
  exact policyKeys_edgesOf r e he

/-- So a look-up finds the same policy either way. -/
theorem get?_scheduled (g : Graph) (stagewise : Bool) (rs : List Rule) (k : String) :
    (g.stored (scheduled stagewise rs)).policies.get? k = (g.stored (rs.flatMap edgesOf)).policies.get? k :=
  Graph.get?_stored_congr (policyKeys_scheduled stagewise rs) (policyKeys_scheduled false rs)
    (fun b => lane_scheduled b stagewise rs) g k

/-! ## The policies of a compilation -/

theorem content_slots (o : Options) (earlier es : List Edge) :
    (Graph.slots earlier es).map (fun x => (Graph.policyDeclaration o x.2).content) =
      es.map fun e => (Graph.policyDeclaration o e).content := by
  induction es generalizing earlier with
  | nil => rfl
  | cons e es ih =>
    simp only [Graph.slots, List.map_cons, ih]
    rfl

theorem length_slots (earlier es : List Edge) : (Graph.slots earlier es).length = es.length := by
  induction es generalizing earlier with
  | nil => rfl
  | cons e es ih => simp [Graph.slots, ih]

/-- The policies of stored edges: all of them, or fewer. -/
theorem policies_of_edges {es : List Edge} (hes : Graph.PolicyKeys es) :
    ((∀ k, (Graph.lateIndices [] k es).Nodup) ∧ (Graph.stored {} es).policies.toList = Graph.slots [] es) ∨
      ((¬ ∀ k, (Graph.lateIndices [] k es).Nodup) ∧ (Graph.stored {} es).policies.size < es.length) := by
  have hstored : (Graph.stored {} es).policies = (∅ : Table Edge).storeAll (Graph.slots [] es) :=
    Graph.policies_stored [] hes fun k _ => Iff.rfl
  have hnodup : ((∅ : Table Edge).keys ++ (Graph.slots [] es).map Prod.fst).Nodup ↔
      ∀ k, (Graph.lateIndices [] k es).Nodup := Graph.nodup_slots_iff hes
  rw [hstored]
  by_cases h : ∀ k, (Graph.lateIndices [] k es).Nodup
  · exact .inl ⟨h, by rw [Table.toList_storeAll (hnodup.mpr h)]; rfl⟩
  · have hlt := Table.size_storeAll_lt (fun hn => h (hnodup.mp hn))
    have hempty : (∅ : Table Edge).size = 0 := rfl
    rw [length_slots, hempty, Nat.zero_add] at hlt
    exact .inr ⟨h, hlt⟩

/-- The edges of a list of rules with different indices, as policies: all of them if and only
    if there is room. -/
theorem policies_of_rules (o : Options) (stagewise : Bool) {rs : List Rule} (hn : (rs.map Rule.index).Nodup)
    {g : Graph}
    (hg : g.policies = (Graph.stored {} (scheduled stagewise rs)).policies) :
    ((g.sortedPolicies.map fun e => (Graph.policyDeclaration o e.2).content).Perm
        ((rs.flatMap edgesOf).map fun e => (Graph.policyDeclaration o e).content) ↔ Roomy [] rs) ∧
      (g.sortedPolicies.length = (rs.map policyCount).sum ↔ Roomy [] rs) := by
  have hroomy : Roomy [] rs ↔ ∀ k, (Graph.lateIndices [] k (scheduled stagewise rs)).Nodup := by
    simp only [roomy_iff hn, Graph.lateIndices, indicesOf_scheduled]
  have hsorted : g.sortedPolicies.Perm (Graph.stored {} (scheduled stagewise rs)).policies.toList := by
    rw [← hg]
    exact List.mergeSort_perm _ _
  have hlength : (scheduled stagewise rs).length = (rs.map policyCount).sum := by
    rw [(perm_scheduled stagewise rs).length_eq, List.length_flatMap]
    simp only [length_edgesOf]
  rw [hroomy]
  rcases policies_of_edges (policyKeys_scheduled stagewise rs) with ⟨hroom, hall⟩ | ⟨hroom, hfew⟩
  · rw [hall] at hsorted
    refine ⟨iff_of_true ?_ hroom, iff_of_true ?_ hroom⟩
    · refine (hsorted.map _).trans ?_
      rw [content_slots]
      exact (perm_scheduled stagewise rs).map _
    · rw [hsorted.length_eq, length_slots, hlength]
  · have hlt : g.sortedPolicies.length < (scheduled stagewise rs).length := by
      rw [hsorted.length_eq]
      exact hfew
    refine ⟨iff_of_false (fun hp => ?_) hroom, iff_of_false (fun hl => ?_) hroom⟩
    · have := hp.length_eq
      rw [List.length_map, List.length_map, ← (perm_scheduled stagewise rs).length_eq] at this
      omega
    · omega

section

variable {d : Document} {o : Options} {res : Result} {m : Membership} {declared : List String}

/-- Without errors, the indices of the book are those of the document. -/
theorem map_index_book (ht : Tables d o m declared) (h : (compile d o).1 = .ok res) (he : res.errors = []) :
    (compile d o).2.book.map Rule.index = d.rules.map AccessRule.index := by
  have hbook := (compile_spec ht h).1.book_bare ((errors_eq_nil_iff ht h).mp he)
  have hbare : ∀ l : List Rule, l.map Rule.index = (l.map Rule.bare).map Rule.index := by
    intro l
    rw [List.map_map]
    rfl
  have hsame : (Rule.index ∘ fun a => (verdictOf m declared a).rule.bare) = AccessRule.index :=
    funext (index_verdictOf m declared)
  rw [hbare, hbook, List.map_map, hsame]

/-- Without errors, the policies are the edges of the book. -/
theorem policies_book (ht : Tables d o m declared) (h : (compile d o).1 = .ok res) (he : res.errors = []) :
    (compile d o).2.graph.policies = (Graph.stored {} (scheduled o.ruleDebug (compile d o).2.book)).policies := by
  have hc := (compile_spec ht h).1
  have hpass := (errors_eq_nil_iff ht h).mp he
  rw [hc.graph, policies_laidOut (policies_foldMembership m), finished_of_passes hpass]
  refine congrArg (fun es => (Graph.stored {} es).policies) (scheduled_congr ?_ o.ruleDebug)
  rw [hc.book_bare hpass, List.map_map]
  rfl

end

/-- In a compilation without errors of rules with different indices, every edge is declared as
    a policy of its own if and only if there is room for the edges, and it is known by the
    number of policies. -/
theorem policies_kept_iff {d : Document} {o : Options} {res : Result} (h : (compile d o).1 = .ok res)
    (he : res.errors = []) (hn : (d.rules.map AccessRule.index).Nodup) :
    ∃ out, res.output = some out ∧
      ((out.policies.map PolicyDeclaration.content).Perm
          (((compile d o).2.book.flatMap edgesOf).map fun e => (Graph.policyDeclaration o e).content) ↔
        Roomy [] (compile d o).2.book) ∧
      (out.policies.length = ((compile d o).2.book.map policyCount).sum ↔ Roomy [] (compile d o).2.book) := by
  obtain ⟨m, declared, ht⟩ := exists_tables h he
  obtain ⟨out, hout, hpolicies⟩ := emit?_some (compile d o).2.graph m o
  refine ⟨out, (output_eq ht h he).trans hout, ?_⟩
  rw [hpolicies, List.length_map, List.map_map]
  exact policies_of_rules o o.ruleDebug ((map_index_book ht h he).symm ▸ hn) (policies_book ht h he)

/-! ## Rules with and without room -/

def merged (r : Rule) : Verdict :=
  Verdict.ofBothSides (fun side r => ({ rule := r.withSlot side ∅ } : Verdict).each (r.slot side).values (·.add side ·)) r

/-- Where no group has members there is nothing to expand. -/
theorem expanded_of_membersOf {m : Membership} (h : ∀ k, m.membersOf k = []) : expanded (some m) = merged := by
  have hone : ∀ side (v : Verdict) e,
      v.unlessFailed (expandEndpoint (some m) side · e) = v.unlessFailed (·.add side e) := by
    intro side v e
    obtain ⟨t, p, s⟩ := e
    cases t with
    | block role name address => rfl
    | named space name =>
      have hx := Membership.expand_of_membersOf (h (Endpoint.key ⟨.named space name, p, s⟩))
      simp only [expandEndpoint, hx]
      unfold Verdict.each Verdict.unlessFailed
      cases ho : v.outcome with
      | error f => rfl
      | ok b => simp [ho]
  unfold expanded merged Verdict.each
  simp only [hone]

def flatCourse (a : AccessRule) : Verdict :=
  (classified (Rule.ofAccessRule a)).andThen fun r => (checked (some noGroups) [] r).andThen fun r =>
    (originated r).andThen merged

theorem verdictOf_noGroups (a : AccessRule) : verdictOf noGroups [] a = flatCourse a := by
  unfold verdictOf course
  rw [expanded_of_membersOf (m := noGroups) fun k => rfl]
  rfl

/-- A rule to two pairs of groups whose keys put together are one text. -/
def tight : AccessRule :=
  { index := 0, action := .accept, sources := [.text "tag:s"],
    destinations := [.text "tag:a:1", .text "tag:bgroup-c:1", .text "tag:agroup-b:2", .text "tag:c:2"] }

/-- There is room for both of its policies. -/
theorem policies_kept_tight :
    ∃ res out, (compile { rules := [tight] }).1 = .ok res ∧ res.output = some out ∧ out.policies.length = 2 := by
  have hp : passes (verdictOf noGroups [] tight).complaints = true :=
    (passes_course (tractable_ofAccessRule (by decide +kernel))).mpr ⟨by decide +kernel, by decide +kernel⟩
  obtain ⟨res, r, h, he, hbook, hbare⟩ := compile_single (by decide +kernel) hp
  have hcount : policyCount r = 2 := by
    show policyCount r.bare = 2
    rw [hbare, verdictOf_noGroups]
    decide +kernel
  have hroomy : Roomy [] [r] := ⟨fun k => by
    have hle : keyCount k r ≤ (edgesOf r).length := List.countP_le_length
    rw [length_edgesOf, hcount] at hle
    exact hle, trivial⟩
  obtain ⟨out, hout, -, hlength⟩ := policies_kept_iff h he (by decide)
  refine ⟨res, out, h, hout, ?_⟩
  rw [hbook] at hlength
  rw [hlength.mpr hroomy]
  simp [hcount]

def overfull : AccessRule := { tight with destinations := tight.destinations ++ [.text "tag:agroup-bgroup-c:3"] }

theorem partition_overfull :
    partition ((verdictOf noGroups [] overfull).rule.groups .destination) =
      [(some ["1"], ["group-a", "group-bgroup-c"]), (some ["2"], ["group-agroup-b", "group-c"]),
        (some ["3"], ["group-agroup-bgroup-c"])] := by
  rw [verdictOf_noGroups]
  decide +kernel

/-- Its three lists of groups have one digest. -/
theorem digest_overfull {ks : List String}
    (h : ks ∈ [["group-a", "group-bgroup-c"], ["group-agroup-b", "group-c"], ["group-agroup-bgroup-c"]]) :
    Key.digest (Key.sorted ks) = Key.digest ["group-agroup-bgroup-c"] := by
  have hsorted : Key.sorted ks = ks := Key.sorted_of_pairwise (by
    revert ks
    decide +kernel)
  apply Key.digest_congr
  unfold Key.digestInput
  rw [hsorted, hsorted, Key.sorted_single]
  clear hsorted
  revert ks
  decide +kernel

/-- Three policies have one key there, and one of them is overwritten. -/
theorem a_policy_is_overwritten :
    ∃ res out, (compile { rules := [overfull] }).1 = .ok res ∧ res.errors = [] ∧ res.output = some out ∧
      ([overfull].map AccessRule.index).Nodup ∧
      out.policies.length ≠ ((compile { rules := [overfull] }).2.book.map policyCount).sum := by
  have hp : passes (verdictOf noGroups [] overfull).complaints = true :=
    (passes_course (tractable_ofAccessRule (by decide +kernel))).mpr ⟨by decide +kernel, by decide +kernel⟩
  obtain ⟨res, r, h, he, hbook, hbare⟩ := compile_single (by decide +kernel) hp
  have ht : Tables { rules := [overfull] } {} noGroups [] := ⟨rfl, rfl⟩
  have hgroups : r.groups .destination = (verdictOf noGroups [] overfull).rule.groups .destination := by
    show r.bare.groups .destination = (verdictOf noGroups [] overfull).rule.bare.groups .destination
    rw [hbare]
  have hcrowded : ¬ Roomy [] [r] := by
    intro hroomy
    let key := "policy-gtg-" ++ Key.digest (Key.sorted r.sources.keys) ++ "-" ++ Key.digest ["group-agroup-bgroup-c"]
    have hkeys : (groupEdges r).countP (fun e => decide (e.key = key)) = 3 := by
      rw [groupEdges_eq, List.countP_map, (orderedParts_perm r).countP_eq, hgroups, partition_overfull]
      simp [key, edge, Key.composite, PolicyKind.text, digest_overfull]
    have hle := hroomy.1 key
    unfold keyCount edgesOf at hle
    rw [List.countP_append, hkeys, if_neg (by simp)] at hle
    omega
  obtain ⟨out, hout, hpolicies⟩ := emit?_some (compile { rules := [overfull] }).2.graph noGroups {}
  refine ⟨res, out, h, he, (output_eq ht h he).trans hout, by decide, fun hlength => hcrowded ?_⟩
  rw [hpolicies, List.length_map] at hlength
  have hstored := policies_of_rules {} false ((map_index_book ht h he).symm ▸ by decide) (policies_book ht h he)
  exact hbook ▸ hstored.2.mp hlength

end Compiler

end Portcullis

/-
  Portcullis.Proofs.Access — the edges of a rule are the access that the rule denotes.

  A rule lets the keys that its source tokens contribute reach the keys that its destination
  tokens cover, each on the ports of all tokens that cover it. `access_exact` says that the
  edges stored for a rule without errors are exactly that: every covered key is in one edge,
  no other key is in any, and the ports of the edge are the union over the tokens. The stages
  merge endpoints twice, make origins of the sources and split the destinations by ports; none
  of that widens or loses anything, whatever the group table looks like.
-/

import Portcullis.Proofs.Edges
import Portcullis.Proofs.Outcome

namespace Portcullis.Compiler

/-! ## What a rule denotes -/

/-- The keys that a source token contributes: those of the expansion of a name, and of a block
    the key of its address as an origin. -/
def contributed (m : Membership) (t : Value) : List String :=
  match classify t with
  | .error _ => []
  | .ok e => match e.target with
    | .named _ _ => (m.expand e).map Endpoint.key
    | .block _ name address => [(Target.block .origin name address).key]

/-- A destination token of a rule, as it is read, that covers a key: by its own key or by its
    expansion. -/
structure Covering (m : Membership) (a : AccessRule) (k : String) (e : Endpoint) : Prop where
  token : ∃ t ∈ a.destinations, classify t = .ok e
  covers : e.key = k ∨ e.target.IsName ∧ k ∈ (m.expand e).map Endpoint.key

def IsResource (k : String) : Prop :=
  ∃ (kind : Kind) (name : String), kind.isGroup = false ∧ k = Key.simple kind.text name

structure Access (m : Membership) (a : AccessRule) (edges : List Edge) : Prop where
  common : ∀ x ∈ edges, x.ruleIndex = a.index ∧ x.action = a.action ∧ x.protocol = a.protocol
  sources : ∀ x ∈ edges, x.sources.Pairwise (· < ·) ∧ ∀ k, k ∈ x.sources ↔ ∃ t ∈ a.sources, k ∈ contributed m t
  once : ∀ k, (∃ e, Covering m a k e) → edges.countP (fun x => decide (k ∈ x.destinations)) = 1
  only : ∀ x ∈ edges, ∀ k ∈ x.destinations, ∃ e, Covering m a k e
  resource : ∀ x ∈ edges, ∀ k ∈ x.destinations, IsResource k → x.kind = .groupToResource ∧ x.destinations = [k]
  group : ∀ x ∈ edges, ∀ k ∈ x.destinations, ¬ IsResource k → x.kind = .groupToGroup
  /-- A token without restriction lets every port pass. -/
  unrestricted : ∀ x ∈ edges, ∀ k ∈ x.destinations, (∃ e, Covering m a k e ∧ e.ports = none) → x.ports = none
  /-- Otherwise the ports of all tokens are listed in their order, and no others. -/
  restricted : ∀ x ∈ edges, ∀ k ∈ x.destinations, (∀ e, Covering m a k e → e.ports ≠ none) →
    ∃ l, x.ports = some l ∧ Ports.Listed l ∧ ∀ p, p ∈ l ↔ ∃ e ps, Covering m a k e ∧ e.ports = some ps ∧ p ∈ ps
  separate : ((edges.filter fun x => decide (x.kind = .groupToGroup)).map Edge.ports).Nodup
  sorted : ∀ x ∈ edges, x.destinations.Pairwise (· < ·)

/-! ## What the slots hold -/

variable {m : Membership} {declared : List String}

theorem covers_eq (m : Membership) (e : Endpoint) (k : String) :
    Covers m e k ↔ e.key = k ∨ e.target.IsName ∧ k ∈ (m.expand e).map Endpoint.key := by
  by_cases hn : e.target.IsName
  · constructor
    · intro h
      refine .inr ⟨hn, ?_⟩
      rwa [← expansion_of_isName m hn]
    · intro hor
      rcases hor with rfl | ⟨-, h⟩
      · exact covers_self m e
      · unfold Covers
        rwa [expansion_of_isName m hn]
  · obtain ⟨t, p, s⟩ := e
    cases t with
    | named space name => exact absurd ⟨space, name, rfl⟩ hn
    | block role name address => simp [Covers, expansion, hn, eq_comm]

theorem mem_contributed {t : Value} {k : String} :
    k ∈ contributed m t ↔ ∃ e, classify t = .ok e ∧ Covers m (asOrigin e) k := by
  unfold contributed
  cases classify t with
  | error u => simp
  | ok e =>
    obtain ⟨target, p, s⟩ := e
    cases target with
    | named space name =>
      have hk : ∀ q, (m.expand ⟨.named space name, q, s⟩).map Endpoint.key = m.reach (Target.named space name).key :=
        fun q => Membership.keys_expand m _
      simp only [Except.ok.injEq, exists_eq_left', hk]
      show _ ↔ k ∈ (m.expand ⟨.named space name, none, s⟩).map Endpoint.key
      rw [hk]
    | block role name address =>
      simp only [Except.ok.injEq, exists_eq_left']
      rfl

theorem covering_iff {a : AccessRule} {k : String} {e : Endpoint} :
    Covering m a k e ↔ e ∈ readable a.destinations ∧ Covers m e k := by
  rw [mem_readable, covers_eq]
  exact ⟨fun h => ⟨h.token, h.covers⟩, fun h => ⟨h.1, h.2⟩⟩

theorem not_isResource_of_isGroup {e : Endpoint} (h : e.isGroup = true) : ¬ IsResource e.key := by
  intro hex
  rcases hex with ⟨kind, name, hk, he⟩
  have hkind : e.target.kind = kind := (kind_of_text he).1
  have hg : e.target.kind.isGroup = true := h
  rw [hkind, hk] at hg
  cases hg

theorem isResource_of_isGroup {e : Endpoint} (h : e.isGroup = false) : IsResource e.key :=
  ⟨e.target.kind, e.target.name, h, rfl⟩

/-- A key that some list of a list holds is in one of them if no key is there twice. -/
theorem countP_mem {lists : List (List String)} (h : lists.flatten.Nodup) {k : String} (hk : k ∈ lists.flatten) :
    lists.countP (fun l => decide (k ∈ l)) = 1 := by
  induction lists with
  | nil => cases hk
  | cons l lists ih =>
    rw [List.flatten_cons] at h hk
    obtain ⟨-, hrest, hdisj⟩ := List.nodup_append.mp h
    rw [List.countP_cons]
    by_cases hl : k ∈ l
    · have hzero : lists.countP (fun l => decide (k ∈ l)) = 0 := by
        simp only [List.countP_eq_zero, decide_eq_true_eq]
        exact fun l' hl' hk' => hdisj k hl k (List.mem_flatten.mpr ⟨l', hl', hk'⟩) rfl
      simp [hzero, hl]
    · have hk : k ∈ lists.flatten := (List.mem_append.mp hk).resolve_left hl
      simp [ih hrest hk, hl]

/-! ## The edges of a settled rule -/

/-- A destination of an edge, with the endpoint that the rule has for it. -/
theorem exists_endpoint {r : Rule} {x : Edge} (hx : x ∈ groupEdges r ++ resourceEdges r) {k : String}
    (hk : k ∈ x.destinations) :
    ∃ e ∈ r.destinations.values, e.key = k ∧ e.ports = x.ports ∧
      (if e.isGroup then x.kind = .groupToGroup else x.kind = .groupToResource ∧ x.destinations = [k]) := by
  rcases List.mem_append.mp hx with hx | hx
  · obtain ⟨p, -, rfl⟩ := mem_groupEdges.mp hx
    obtain ⟨e, he, rfl⟩ := List.mem_map.mp (Key.mem_sorted.mp hk)
    obtain ⟨he, hp⟩ := List.mem_filter.mp he
    obtain ⟨he, hg⟩ := List.mem_filter.mp he
    exact ⟨e, he, rfl, of_decide_eq_true hp, by rw [if_pos hg]; rfl⟩
  · obtain ⟨e, he, rfl⟩ := mem_resourceEdges.mp hx
    obtain ⟨he, hg⟩ := List.mem_filter.mp he
    have hd : (edge r .groupToResource [e.key] e.ports).destinations = [e.key] := Key.sorted_single e.key
    rw [hd] at hk ⊢
    obtain rfl := List.mem_singleton.mp hk
    have hg : e.isGroup = false := by simpa using hg
    exact ⟨e, he, rfl, rfl, by rw [hg]; exact ⟨rfl, rfl⟩⟩

theorem filter_groupToGroup (r : Rule) :
    (groupEdges r ++ resourceEdges r).filter (fun x => decide (x.kind = .groupToGroup)) = groupEdges r := by
  rw [List.filter_append, List.filter_eq_self.mpr, List.filter_eq_nil_iff.mpr, List.append_nil]
  · intro x hx
    obtain ⟨e, -, rfl⟩ := mem_resourceEdges.mp hx
    simp [edge]
  · intro x hx
    obtain ⟨p, -, rfl⟩ := mem_groupEdges.mp hx
    simp [edge]

/-- The ports of an edge are the union over the tokens that cover one of its destinations. -/
theorem allows_edge {a : AccessRule} {r : Rule} (h : Settled m (Rule.ofAccessRule a) r) {x : Edge}
    (hx : x ∈ groupEdges r ++ resourceEdges r) {k : String} (hk : k ∈ x.destinations) :
    Ports.Canonical x.ports ∧
      ∀ t, Ports.Allows x.ports t ↔ ∃ q, (∃ e, Covering m a k e ∧ e.ports = q) ∧ Ports.Allows q t := by
  obtain ⟨e, he, rfl, hp, -⟩ := exists_endpoint hx hk
  rw [← hp]
  refine ⟨h.canonical e he, fun t => ?_⟩
  rw [h.allows e he t]
  constructor
  · intro hex
    rcases hex with ⟨d, hd, hc, ht⟩
    exact ⟨_, ⟨d, covering_iff.mpr ⟨hd, hc⟩, rfl⟩, ht⟩
  · intro hex
    rcases hex with ⟨_, ⟨d, hd, rfl⟩, ht⟩
    exact ⟨d, (covering_iff.mp hd).1, (covering_iff.mp hd).2, ht⟩

theorem access_of_settled {a : AccessRule} {r : Rule} (h : Settled m (Rule.ofAccessRule a) r) :
    Access m a (groupEdges r ++ resourceEdges r) := by
  have hflat := perm_destinations r
  rw [h.keys_destinations, List.flatMap_def] at hflat
  have hnodup := hflat.nodup_iff.mpr r.destinations.keys_nodup
  have hcanonical : ∀ {k} q, (∃ e, Covering m a k e ∧ e.ports = q) → Ports.Canonical q := by
    intro k _ hex
    rcases hex with ⟨e, he, rfl⟩
    obtain ⟨t, -, ht⟩ := he.token
    exact canonical_of_classify ht
  refine ⟨fun x hx => ?_, fun x hx => ?_, fun k hk => ?_, fun x hx k hk => ?_, fun x hx k hk hr => ?_,
    fun x hx k hk hr => ?_, fun x hx k hk hn => ?_, fun x hx k hk hn => ?_, ?_, fun x hx => ?_⟩
  · obtain ⟨hi, ha, hp, -⟩ := common_of_mem hx
    rw [hi, ha, hp, h.same]
    exact ⟨rfl, rfl, rfl⟩
  · obtain ⟨-, -, -, hs, -⟩ := common_of_mem hx
    rw [hs]
    refine ⟨Key.sorted_strict r.sources.keys_nodup, fun k => ?_⟩
    rw [Key.mem_sorted, h.mem_sources]
    simp only [mem_readable, mem_contributed]
    constructor
    · intro hex
      rcases hex with ⟨e, ⟨t, ht, hc⟩, hk⟩
      exact ⟨t, ht, e, hc, hk⟩
    · intro hex
      rcases hex with ⟨t, ht, e, hc, hk⟩
      exact ⟨e, ⟨t, ht, hc⟩, hk⟩
  · obtain ⟨e, he⟩ := hk
    obtain ⟨he, hc⟩ := covering_iff.mp he
    have hmem := hflat.mem_iff.mpr ((h.mem_destinations k).mpr ⟨e, he, hc⟩)
    have := countP_mem hnodup hmem
    rwa [List.countP_map] at this
  · have hmem : k ∈ r.destinations.keys :=
      hflat.mem_iff.mp (List.mem_flatten.mpr ⟨_, List.mem_map_of_mem hx, hk⟩)
    obtain ⟨e, he, hc⟩ := (h.mem_destinations k).mp hmem
    exact ⟨e, covering_iff.mpr ⟨he, hc⟩⟩
  · obtain ⟨e, -, rfl, -, hkind⟩ := exists_endpoint hx hk
    cases hg : e.isGroup with
    | true => exact absurd hr (not_isResource_of_isGroup hg)
    | false => simpa [hg] using hkind
  · obtain ⟨e, -, rfl, -, hkind⟩ := exists_endpoint hx hk
    cases hg : e.isGroup with
    | true => simpa [hg] using hkind
    | false => exact absurd (isResource_of_isGroup hg) hr
  · obtain ⟨hc, ha⟩ := allows_edge h hx hk
    exact Ports.union_none hc ha hn
  · obtain ⟨hc, ha⟩ := allows_edge h hx hk
    obtain ⟨l, hl, hlisted, hmem⟩ := Ports.union_some hc ha hcanonical fun ⟨e, he, hq⟩ => hn e he hq
    refine ⟨l, hl, hlisted, fun p => (hmem p).trans ?_⟩
    constructor
    · intro hex
      rcases hex with ⟨ps, ⟨e, he, hq⟩, hp⟩
      exact ⟨e, ps, he, hq, hp⟩
    · intro hex
      rcases hex with ⟨e, ps, he, hq, hp⟩
      exact ⟨ps, ⟨e, he, hq⟩, hp⟩
  · rw [filter_groupToGroup]
    exact nodup_ports_groupEdges r
  · obtain ⟨-, -, -, -, ks, hks⟩ := common_of_mem hx
    have hn : x.destinations.Nodup := hnodup.sublist (List.sublist_flatten_of_mem (List.mem_map_of_mem hx))
    rw [hks] at hn ⊢
    exact Key.sorted_strict ((Key.sorted_perm ks).nodup_iff.mp hn)

/-! ## The edges of a compilation -/

/-- The rules that reach the graph, around one of them. -/
theorem finished_split {rules : List AccessRule} {i : Nat} {a : AccessRule} (ha : rules[i]? = some a)
    (hp : passes (verdictOf m declared a).complaints = true) :
    finished m declared rules =
      finished m declared (rules.take i) ++
        (verdictOf m declared a).rule :: finished m declared (rules.drop (i + 1)) := by
  obtain ⟨hi, rfl⟩ := List.getElem?_eq_some_iff.mp ha
  have hsplit : rules = rules.take i ++ [rules[i]] ++ rules.drop (i + 1) := by simp
  have hone : finished m declared [rules[i]] = [(verdictOf m declared rules[i]).rule] := by simp [finished, hp]
  conv => lhs; rw [hsplit]
  rw [finished_append, finished_append, hone, List.append_assoc]
  rfl

/-- The rule at a place of the document, when no error has its index, is in the book at that
    place; its edges are stored between those of the rules before and after it, and they are
    the access that it denotes. -/
theorem access_exact {d : Document} {o : Options} {res : Result} (ht : Tables d o m declared)
    (h : (compile d o).1 = .ok res) {i : Nat} {a : AccessRule} (ha : d.rules[i]? = some a)
    (hno : ∀ e ∈ res.errors, e.ruleIndex ≠ some a.index) :
    ∃ r : Rule, (compile d o).2.book[i]? = some r ∧
      (compile d o).2.graph.policies =
        (Graph.stored {} (scheduled o.ruleDebug
          (finished m declared (d.rules.take i) ++ r :: finished m declared (d.rules.drop (i + 1))))).policies ∧
      Access m a (groupEdges r ++ resourceEdges r) := by
  have hc := (compile_spec ht h).1
  rw [errors_eq ht h] at hno
  have hmem : a ∈ d.rules := List.mem_of_getElem? ha
  have hpass : passes (verdictOf m declared a).complaints = true := Classical.byContradiction fun hp =>
    let ⟨e, he, hi⟩ := (hc.error_of_index a.index).mpr ⟨a, hmem, rfl, hp⟩
    hno e he hi
  obtain ⟨r, hr, hbare⟩ := hc.book ha hpass
  have hsettled := settled_of_course (Membership.ofNames_of_ofTable ht.membership)
    (tractable_ofAccessRule (brief_of_compile ht h a hmem)) hpass
  refine ⟨r, hr, ?_, ?_⟩
  · rw [hc.graph, policies_laidOut (policies_foldMembership m), finished_split ha hpass]
    exact congrArg (fun es => (Graph.stored {} es).policies) (scheduled_congr (by simp [hbare]) o.ruleDebug)
  · rw [groupEdges_bare hbare, resourceEdges_bare hbare]
    exact access_of_settled hsettled

def twoTokens : AccessRule :=
  { index := 7, action := .accept, sources := [.text "tag:a"],
    destinations := [.text "tag:b:80", .text "10.0.0.1", .text "tag:b:22"] }

theorem access_of_twoTokens :
    ∃ (res : Result) (r : Rule), (compile { rules := [twoTokens] }).1 = .ok res ∧
      (compile { rules := [twoTokens] }).2.book[0]? = some r ∧
      Access ⟨∅, some 1⟩ twoTokens (groupEdges r ++ resourceEdges r) := by
  have ht : Tables { rules := [twoTokens] } {} ⟨∅, some 1⟩ [] := ⟨rfl, rfl⟩
  have hpass : passes (verdictOf ⟨∅, some 1⟩ [] twoTokens).complaints = true :=
    (passes_course (tractable_ofAccessRule (by decide +kernel))).mpr ⟨by decide +kernel, by decide +kernel⟩
  obtain ⟨res, h⟩ := compile_total (d := { rules := [twoTokens] }) (o := {}) (fun hdebug => by cases hdebug)
    ⟨rfl, rfl, by decide +kernel⟩
  have hno : res.errors = [] := (errors_eq_nil_iff ht h).mpr fun a ha => by
    rw [List.mem_singleton.mp ha]
    exact hpass
  obtain ⟨r, hr, -, haccess⟩ := access_exact ht h (i := 0) rfl fun e he => by rw [hno] at he; cases he
  exact ⟨res, r, h, hr, haccess⟩

end Portcullis.Compiler

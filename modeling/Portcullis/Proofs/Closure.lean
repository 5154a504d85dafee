/-
  Portcullis.Proofs.Closure — references among declarations.

  A policy is made from the slots of a rule, and what it refers to is declared from the nodes
  that the rule registered. The sources of a rule are groups, since blocks among them were made
  origins before; its destinations are registered because it has a source.
  - `references_closed`: in the output of a compilation without errors every reference of a
    policy leads to a declaration of the fitting kind and every member of a group is declared,
    so the writer finds all it looks up: it fails nowhere and logs nothing, whatever its own
    options are. A policy that leads to a resource names it as a host or as a subnet as its
    address was read.
-/

import Portcullis.Proofs.Access
import Portcullis.Proofs.Programs
import Portcullis.Proofs.References

namespace Portcullis

namespace Graph

variable {g : Graph} {m : Membership} {o : Options} {out : Output}

/-! ## Declared keys -/

/-- A registered group is declared under its name. -/
theorem exists_group (hg : g.Sound) (hout : g.emit? (some m) o = some out) {e : Endpoint} (he : e.isGroup = true)
    (hk : e.key ∈ g.nodes.keys) : ∃ x ∈ out.groups, x.key = e.key ∧ x.name = e.name := by
  obtain ⟨n, hn⟩ := Table.mem_keys_iff.mp hk
  obtain ⟨hkind, hname⟩ := Target.key_eq_iff.mp (hg.keyed hn)
  have hgroup : n.endpoint.isGroup = true := by
    unfold Endpoint.isGroup Target.isGroup
    rw [hkind]
    exact he
  obtain ⟨x, hx, hkey⟩ := groupDeclaration_isSome m e.key n
  refine ⟨x, (mem_groups hout).mpr ⟨_, n, hn, hgroup, hx⟩, hkey, ?_⟩
  have hx' : x.name = n.endpoint.target.name := by
    unfold groupDeclaration at hx
    cases ht : n.endpoint.target <;> rw [ht] at hx <;> cases hx <;> rfl
  exact hx'.trans hname

/-- A registered host or network is declared with its address. -/
theorem mem_resources_of_block (hg : g.Sound) (hout : g.emit? (some m) o = some out) {e : Endpoint}
    (he : e.target.Lawful) {role : Role} {name address : String} (ht : e.target = .block role name address)
    (hr : role.kind.isGroup = false) (hk : e.key ∈ g.nodes.keys) :
    { key := e.key, name, address, kind := role.kind } ∈ out.resources := by
  obtain ⟨n, hn⟩ := Table.mem_keys_iff.mp hk
  have hn' : n.endpoint.target = .block role name address := by
    rw [Endpoint.key, ht] at hn
    rw [ht] at he
    exact hg.target_of_key he hn
  refine (mem_resources hout).mpr ⟨e.key, n, hn, ?_, ?_⟩
  · unfold Endpoint.isGroup Target.isGroup
    rw [hn']
    exact hr
  · unfold resourceDeclaration
    rw [hn']

/-- The members of a declared group are those of the group table. -/
theorem exists_member (hout : g.emit? (some m) o = some out) {x : GroupDeclaration} (hx : x ∈ out.groups)
    {name : String} (hname : name ∈ x.members) : ∃ k, ∃ e ∈ m.membersOf k, e.name = name := by
  obtain ⟨k, n, -, -, hx⟩ := (mem_groups hout).mp hx
  unfold groupDeclaration at hx
  cases ht : n.endpoint.target with
  | named space name =>
    rw [ht] at hx
    cases hx
    obtain ⟨e, he, rfl⟩ := List.mem_map.mp hname
    exact ⟨_, e, he, rfl⟩
  | block role name address =>
    rw [ht] at hx
    cases hx
    cases hname

end Graph

namespace Compiler

open Portcullis.Graph Portcullis.Program

variable {m : Membership} {declared : List String} {d : Document} {o : Options} {c : Compilation}

/-! ## What is registered -/

/-- The members of the groups of the table are registered. -/
theorem member_registered {k : String} {e : Endpoint} (he : e ∈ m.membersOf k) :
    e.key ∈ (Compilation.foldMembership {} m).nodes.keys := by
  unfold Membership.membersOf at he
  cases hg : m.groups.get? k with
  | none => rw [hg] at he; cases he
  | some group =>
    rw [hg] at he
    exact (mem_keys_foldMembership m _).mpr ⟨group, Table.mem_values_iff.mpr ⟨k, hg⟩, .inr ⟨e, he, rfl⟩⟩

/-- What a rule that goes on registers: the keys of its two sides. -/
theorem registers_iff (hm : Membership.OfNames m.groups) {a : AccessRule} (hb : BriefRule a)
    (hp : passes (verdictOf m declared a).complaints = true) (k : String) :
    (∃ s ∈ (verdictOf m declared a).rule.sources.values,
        k = s.key ∨ ∃ x ∈ (verdictOf m declared a).rule.destinations.values, k = s.key ∨ k = x.key) ↔
      k ∈ (verdictOf m declared a).rule.sources.keys ∨ k ∈ (verdictOf m declared a).rule.destinations.keys := by
  have hs : Settled m (Rule.ofAccessRule a) (verdictOf m declared a).rule := settled_verdictOf hm hb hp
  rw [← hs.keys_sources, ← hs.keys_destinations]
  constructor
  · rintro ⟨s, hmem, rfl | ⟨x, hx, rfl | rfl⟩⟩
    · exact .inl (List.mem_map_of_mem hmem)
    · exact .inl (List.mem_map_of_mem hmem)
    · exact .inr (List.mem_map_of_mem hx)
  · rintro (hk | hk)
    · obtain ⟨s, hmem, rfl⟩ := List.mem_map.mp hk
      exact ⟨s, hmem, .inl rfl⟩
    -- A destination is registered behind each source, and there is one.
    · obtain ⟨x, hx, rfl⟩ := List.mem_map.mp hk
      obtain ⟨⟨e, he⟩, -⟩ := exists_readable_sides hb hp
      have hsource : (asOrigin e).key ∈ (verdictOf m declared a).rule.sources.keys :=
        (hs.mem_sources _).mpr ⟨e, he, covers_self m _⟩
      rw [← hs.keys_sources] at hsource
      obtain ⟨s, hmem, -⟩ := List.mem_map.mp hsource
      exact ⟨s, hmem, .inr ⟨x, hx, .inr rfl⟩⟩

structure Registered (m : Membership) (d : Document) (c : Compilation) (r : Rule) : Prop where
  settled : ∃ a ∈ d.rules, Settled m (Rule.ofAccessRule a) r
  sources : ∀ k ∈ r.sources.keys, k ∈ c.graph.nodes.keys
  destinations : ∀ k ∈ r.destinations.keys, k ∈ c.graph.nodes.keys

theorem Compiled.registered (hm : Membership.OfNames m.groups) (hc : Compiled d o m declared c) {r : Rule}
    (hr : r ∈ finished m declared d.rules) : Registered m d c r := by
  obtain ⟨a, ha, rfl⟩ := List.mem_map.mp hr
  obtain ⟨ha, hp⟩ := List.mem_filter.mp ha
  have hb := hc.brief a ha
  have hkeys : ∀ k, k ∈ (verdictOf m declared a).rule.sources.keys ∨
      k ∈ (verdictOf m declared a).rule.destinations.keys → k ∈ c.graph.nodes.keys := by
    intro k hk
    rw [hc.nodes_eq]
    exact (mem_keys_foldl (fun g r => mem_keys_registered g r k) _ _).mpr (.inr ⟨_, hr, (registers_iff hm hb hp k).mpr hk⟩)
  exact ⟨⟨a, ha, settled_verdictOf hm hb hp⟩, fun k hk => hkeys k (.inl hk), fun k hk => hkeys k (.inr hk)⟩

/-- The sources of a rule are groups: blocks among them are origins. -/
theorem isGroup_of_mem_sources (hm : Membership.OfNames m.groups) {a : AccessRule} {r : Rule}
    (hs : Settled m (Rule.ofAccessRule a) r) {k : String} (hk : k ∈ r.sources.keys) :
    ∃ e : Endpoint, e.key = k ∧ e.isGroup = true := by
  obtain ⟨e, -, hcovers⟩ := (hs.mem_sources k).mp hk
  obtain ⟨x, hx, rfl⟩ := covers_iff.mp hcovers
  refine ⟨x, rfl, ?_⟩
  obtain ⟨target, p, t⟩ := e
  cases target with
  | named space name =>
    obtain ⟨space', name', hname⟩ := isName_of_mem_expansion hm ⟨space, name, rfl⟩ hx
    unfold Endpoint.isGroup
    rw [hname]
    rfl
  | block role name address =>
    rw [List.mem_singleton.mp hx]
    rfl

/-- A destination that is no group is a token of the rule. -/
theorem exists_token (hm : Membership.OfNames m.groups) {a : AccessRule} {r : Rule}
    (hs : Settled m (Rule.ofAccessRule a) r) {x : Endpoint} (hx : x ∈ r.destinations.values) (hg : x.isGroup = false) :
    ∃ t ∈ a.destinations, ∃ e, classify t = .ok e ∧ e.key = x.key ∧
      ∃ role name address, e.target = .block role name address ∧ role.kind.isGroup = false := by
  have hk : x.key ∈ r.destinations.keys := hs.keys_destinations ▸ List.mem_map_of_mem hx
  obtain ⟨e, he, hcovers⟩ := (hs.mem_destinations _).mp hk
  obtain ⟨t, ht, hc⟩ := mem_readable.mp he
  have hnot : ∀ y : Endpoint, y.key = x.key → ¬ y.target.IsName := by
    intro y hy hex
    rcases hex with ⟨space, name, hname⟩
    have hkind := (Target.key_eq_iff.mp hy).1
    unfold Endpoint.isGroup Target.isGroup at hg
    rw [← hkind, hname] at hg
    cases hg
  obtain ⟨y, hy, hkey⟩ := covers_iff.mp hcovers
  have hblock : ¬ e.target.IsName := fun hn => hnot y hkey (isName_of_mem_expansion hm hn hy)
  have hcases : e.key = x.key := by
    rcases (covers_eq m e x.key).mp hcovers with h | ⟨hn, -⟩
    · exact h
    · exact absurd hn hblock
  refine ⟨t, ht, e, hc, hcases, ?_⟩
  cases htarget : e.target with
  | named space name => exact absurd ⟨space, name, htarget⟩ hblock
  | block role name address =>
    refine ⟨role, name, address, rfl, ?_⟩
    have hkind := (Target.key_eq_iff.mp hcases).1
    rw [htarget] at hkind
    unfold Endpoint.isGroup Target.isGroup at hg
    rw [← hkind] at hg
    exact hg

/-! ## What policies refer to -/

/-- The sources of a stored policy are registered groups. -/
theorem Compiled.sources_registered (hm : Membership.OfNames m.groups) (hc : Compiled d o m declared c) {k : String}
    {x : Edge} (hx : c.graph.policies.get? k = some x) {s : String} (hs : s ∈ x.sources) :
    ∃ e : Endpoint, e.key = s ∧ e.isGroup = true ∧ s ∈ c.graph.nodes.keys := by
  obtain ⟨r, hr, e, he, -, rfl⟩ := hc.exists_edge hx
  have hreg := hc.registered hm hr
  obtain ⟨a, -, hsettled⟩ := hreg.settled
  obtain ⟨-, -, -, hsources, -⟩ := common_of_mem he
  have hs : s ∈ e.sources := hs
  rw [hsources, Key.mem_sorted] at hs
  obtain ⟨y, hy, hg⟩ := isGroup_of_mem_sources hm hsettled hs
  exact ⟨y, hy, hg, hreg.sources s hs⟩

/-- The destinations of a policy that leads to groups are registered groups. -/
theorem Compiled.groups_registered (hm : Membership.OfNames m.groups) (hc : Compiled d o m declared c) {k : String}
    {x : Edge} (hx : c.graph.policies.get? k = some x) (hkind : x.kind = .groupToGroup) {t : String}
    (ht : t ∈ x.destinations) : ∃ e : Endpoint, e.key = t ∧ e.isGroup = true ∧ t ∈ c.graph.nodes.keys := by
  obtain ⟨r, hr, e, he, -, rfl⟩ := hc.exists_edge hx
  have hreg := hc.registered hm hr
  obtain ⟨a, -, hsettled⟩ := hreg.settled
  obtain ⟨y, hy, rfl, -, hface⟩ := exists_endpoint he ht
  have hmem : y.key ∈ r.destinations.keys := hsettled.keys_destinations ▸ List.mem_map_of_mem hy
  refine ⟨y, rfl, ?_, hreg.destinations _ hmem⟩
  cases hg : y.isGroup with
  | true => rfl
  | false =>
    rw [hg] at hface
    have hno : e.kind = .groupToGroup := hkind
    rw [hface.1] at hno
    cases hno

/-- A policy that leads to a resource leads to one token of a rule. -/
theorem Compiled.resource_registered (hm : Membership.OfNames m.groups) (hc : Compiled d o m declared c) {k : String}
    {x : Edge} (hx : c.graph.policies.get? k = some x) (hkind : x.kind = .groupToResource) :
    ∃ a ∈ d.rules, ∃ t ∈ a.destinations, ∃ e, classify t = .ok e ∧ x.destinations = [e.key] ∧
      e.key ∈ c.graph.nodes.keys ∧ ∃ role name address, e.target = .block role name address ∧ role.kind.isGroup = false := by
  obtain ⟨r, hr, e, he, -, rfl⟩ := hc.exists_edge hx
  have hreg := hc.registered hm hr
  obtain ⟨a, ha, hsettled⟩ := hreg.settled
  rcases List.mem_append.mp he with he | he
  · obtain ⟨p, -, rfl⟩ := mem_groupEdges.mp he
    cases hkind
  · obtain ⟨y, hy, rfl⟩ := mem_resourceEdges.mp he
    obtain ⟨hy, hg⟩ := List.mem_filter.mp hy
    obtain ⟨t, ht, z, hz, hkey, hblock⟩ := exists_token hm hsettled hy (by simpa using hg)
    have hmem : y.key ∈ r.destinations.keys := hsettled.keys_destinations ▸ List.mem_map_of_mem hy
    refine ⟨a, ha, t, ht, z, hz, ?_, hkey ▸ hreg.destinations _ hmem, hblock⟩
    rw [hkey]
    exact Key.sorted_single y.key

/-! ## The output of a compilation -/

def ReadAs (d : Document) (role : Role) (address : String) : Prop :=
  ∃ a ∈ d.rules, ∃ t ∈ a.sources ++ a.destinations, ∃ e name, classify t = .ok e ∧ e.target = .block role name address

/-- An address is read as one of a host and a network only. -/
theorem ReadAs.role_eq {role role' : Role} {name address : String} (h : ReadAs d role' address) (hr' : role' ≠ .origin)
    (hl : Target.Lawful (.block role name address)) (hr : role ≠ .origin) : role' = role := by
  obtain ⟨a, -, t, -, e, name', he, ht⟩ := h
  have hl' := lawful_of_classify he
  rw [ht] at hl'
  have hiff := (hl'.role_iff hr').trans (hl.role_iff hr).symm
  cases role <;> cases role' <;> simp_all

/-- The type of a destination tells how its address was read. -/
theorem ReadAs.type_iff {role : Role} {key name address type : String} (h : ReadAs d role address)
    (hl : Target.Lawful (.block role name address))
    (htype : destinationType (some (.resource { key, name, address, kind := role.kind })) = .ok type) :
    (type = "host" ∨ type = "subnet") ∧ (type = "host" ↔ ReadAs d .host address) ∧
      (type = "subnet" ↔ ReadAs d .network address) := by
  cases role with
  | host =>
    cases htype
    refine ⟨.inl rfl, iff_of_true rfl h, iff_of_false (by decide) fun hno => ?_⟩
    cases hno.role_eq (by decide) hl (by decide)
  | network =>
    cases htype
    refine ⟨.inr rfl, iff_of_false (by decide) fun hno => ?_, iff_of_true rfl h⟩
    cases hno.role_eq (by decide) hl (by decide)
  | origin => cases htype

structure Closed (d : Document) (out : Output) (program : List (String × Tree)) : Prop where
  sources : ∀ p ∈ out.policies, ∀ r ∈ p.rules, ∀ k ∈ r.sources, (∃ g ∈ out.groups, g.key = k) ∧ ¬ IsResource k
  groups : ∀ p ∈ out.policies, p.kind = .groupToGroup → ∀ r ∈ p.rules, ∀ k ∈ r.destinations, ∃ g ∈ out.groups, g.key = k
  /-- The one destination is a resource, with the type that its address was read as. -/
  resource : ∀ p ∈ out.policies, p.kind = .groupToResource → ∀ (i : Nat) (r : PolicyRule), p.rules[i]? = some r →
    ∃ x ∈ out.resources, r.destinations = [x.key] ∧ ∃ type, typeAt? program p.key i = some type ∧
      (type = "host" ∨ type = "subnet") ∧ (type = "host" ↔ ReadAs d .host x.address) ∧
      (type = "subnet" ↔ ReadAs d .network x.address)
  members : ∀ g ∈ out.groups, ∀ name ∈ g.members,
    ∃ h ∈ out.groups, h.key = Key.simple Kind.group.text name ∧ h.name = name

/-- Every policy that leads to a resource leads to a declared one. -/
theorem Compiled.exists_resource {out : Output} (hm : Membership.OfNames m.groups) (hc : Compiled d o m declared c)
    (hg : c.graph.Sound) (hout : c.graph.emit? (some m) o = some out) {p : PolicyDeclaration} (hp : p ∈ out.policies)
    (hkind : p.kind = .groupToResource) {r : PolicyRule} (hr : r ∈ p.rules) :
    ∃ role name address key, ({ key, name, address, kind := role.kind } : ResourceDeclaration) ∈ out.resources ∧
      r.destinations = [key] ∧ role.kind.isGroup = false ∧ ReadAs d role address ∧
      Target.Lawful (.block role name address) := by
  obtain ⟨k, x, hx, rfl⟩ := (mem_policies hout).mp hp
  obtain rfl := List.mem_singleton.mp hr
  obtain ⟨a, ha, t, ht, e, he, hdest, hmem, role, name, address, htarget, hgroup⟩ := hc.resource_registered hm hx hkind
  have hl := lawful_of_classify he
  refine ⟨role, name, address, e.key, mem_resources_of_block hg hout hl htarget hgroup hmem, hdest, hgroup, ?_, ?_⟩
  · exact ⟨a, ha, t, List.mem_append_right _ ht, e, name, he, htarget⟩
  · exact htarget ▸ hl

/-- The members of a declared group are declared under their names. -/
theorem Compiled.exists_declared_member {out : Output} (hm : Membership.OfNames m.groups) (hc : Compiled d o m declared c)
    (hg : c.graph.Sound) (hout : c.graph.emit? (some m) o = some out) {x : GroupDeclaration} (hx : x ∈ out.groups)
    {name : String} (hname : name ∈ x.members) :
    ∃ h ∈ out.groups, h.key = Key.simple Kind.group.text name ∧ h.name = name := by
  obtain ⟨k, e, he, rfl⟩ := exists_member hout hx hname
  obtain ⟨space, name, htarget⟩ := Membership.isName_of_mem_membersOf hm he
  have hmem : e.key ∈ c.graph.nodes.keys := by
    rw [hc.nodes_eq]
    exact (mem_keys_foldl (fun g r => mem_keys_registered g r _) _ _).mpr (.inl (member_registered he))
  have hgroup : e.isGroup = true := by
    unfold Endpoint.isGroup
    rw [htarget]
    rfl
  obtain ⟨h, hh, hkey, hname⟩ := exists_group hg hout hgroup hmem
  refine ⟨h, hh, hkey.trans ?_, hname⟩
  unfold Endpoint.key Endpoint.name
  rw [htarget]
  rfl

/-- The output of a compilation without errors can be written. -/
theorem Compiled.writable {out : Output} (hm : Membership.OfNames m.groups) (hc : Compiled d o m declared c)
    (hout : c.graph.emit? (some m) o = some out) : Writable out where
  nodup := (distinct_graph hm hc).nodup_keys hout
  reaches p hp hkind r hr := by
    obtain ⟨role, name, address, key, hx, hdest, hgroup, -, -⟩ :=
      hc.exists_resource hm (distinct_graph hm hc).sound hout hp hkind hr
    exact ⟨_, hx, hdest, hgroup⟩

/-- The references of an output without errors are closed, and its program is written. -/
theorem Compiled.closed {out : Output} (hm : Membership.OfNames m.groups) (hc : Compiled d o m declared c)
    (hout : c.graph.emit? (some m) o = some out) (w : Options) :
    ∃ program, out.toProgram w = ([], .ok program) ∧ Closed d out program := by
  have hg := (distinct_graph hm hc).sound
  have hwritable := hc.writable hm hout
  have hnodup := hwritable.nodup
  obtain ⟨entries, hprogram, hentries⟩ := toProgram_ok hwritable w
  refine ⟨_, hprogram, ?_, ?_, ?_, ?_⟩
  · intro p hp r hr k hk
    obtain ⟨key, x, hx, rfl⟩ := (mem_policies hout).mp hp
    obtain rfl := List.mem_singleton.mp hr
    obtain ⟨e, rfl, hgroup, hmem⟩ := hc.sources_registered hm hx hk
    obtain ⟨y, hy, hkey, -⟩ := exists_group hg hout hgroup hmem
    exact ⟨⟨y, hy, hkey⟩, not_isResource_of_isGroup hgroup⟩
  · intro p hp hkind r hr k hk
    obtain ⟨key, x, hx, rfl⟩ := (mem_policies hout).mp hp
    obtain rfl := List.mem_singleton.mp hr
    obtain ⟨e, rfl, hgroup, hmem⟩ := hc.groups_registered hm hx hkind hk
    obtain ⟨y, hy, hkey, -⟩ := exists_group hg hout hgroup hmem
    exact ⟨y, hy, hkey⟩
  · intro p hp hkind i r hr
    obtain ⟨role, name, address, key, hx, hdest, -, hread, hl⟩ :=
      hc.exists_resource hm hg hout hp hkind (List.mem_of_getElem? hr)
    obtain ⟨y, hy, hdest', type, htype, hdtype⟩ := typeAt_of_wrote hwritable hentries hp hkind hr
    -- The writer found the declaration by its key, and no other has that key.
    have hkey : y.key = key := (List.cons.inj (hdest'.symm.trans hdest)).1
    obtain rfl := Output.eq_of_key hnodup hy hx hkey
    exact ⟨_, hx, hdest, type, htype, hread.type_iff hl hdtype⟩
  · intro g hgroup name hname
    exact hc.exists_declared_member hm hg hout hgroup hname

/-- A document that compiles without errors is declared with closed references, and the writer
    cannot fail on it. -/
theorem references_closed {res : Result} (h : (compile d o).1 = .ok res) (he : res.errors = []) (w : Options) :
    ∃ out program, res.output = some out ∧ out.toProgram w = ([], .ok program) ∧ Closed d out program := by
  obtain ⟨m, declared, ht⟩ := exists_tables h he
  have hm := Membership.ofNames_of_ofTable ht.membership
  obtain ⟨out, hout, -⟩ := emit?_some (compile d o).2.graph m o
  obtain ⟨program, hprogram, hclosed⟩ := (compile_spec ht h).1.closed hm hout w
  exact ⟨out, program, (output_eq ht h he).trans hout, hprogram, hclosed⟩

def mixed : AccessRule :=
  { index := 0, action := .accept, sources := [.text "10.0.0.0/8", .text "tag:a"],
    destinations := [.text "10.0.0.1", .text "10.1.0.0/16:443", .text "tag:b"] }

theorem closed_of_mixed : ∃ res out program, (compile { rules := [mixed] }).1 = .ok res ∧ res.output = some out ∧
    out.toProgram { networkRef := some "lan" } = ([], .ok program) ∧ Closed { rules := [mixed] } out program := by
  obtain ⟨res, -, h, he, -⟩ := compile_single (a := mixed) (by decide +kernel)
    ((passes_course (tractable_ofAccessRule (by decide +kernel))).mpr ⟨by decide +kernel, by decide +kernel⟩)
  obtain ⟨out, program, hout, hprogram, hclosed⟩ := references_closed h he { networkRef := some "lan" }
  exact ⟨res, out, program, h, hout, hprogram, hclosed⟩

end Compiler

end Portcullis

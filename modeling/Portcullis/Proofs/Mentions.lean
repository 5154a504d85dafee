/-
  Portcullis.Proofs.Mentions — the rule graph is what the document mentions.

  Two passes draw into one graph, the group table first and then each rule that recorded no
  error; the first of them to meet a key makes its node. What the nodes and edges are is told
  by the document all the same: the lines of the table, and the keys that the rules without
  errors have on their sides in the end.
  - `ownErrors`: the errors of a compilation are those that its rules record by themselves, so
    a rule with errors is told apart also where it shares its index with another.
  - `Compiled.drawn`: keys, edges and counts, also of a document with errors.
  - `Compiled.declares`: each node is declared once, as what it is.
  - `graph_of_mentions`: both, for every document whose tables are well-formed.
-/

import Portcullis.Proofs.Composition
import Portcullis.Proofs.Closure
import Portcullis.Proofs.Links
import Portcullis.Proofs.Merging

namespace Portcullis.Compiler

open Portcullis.Graph Portcullis.Membership

/-! ## What a document mentions -/

def ownErrors (d : Document) (o : Options) (a : AccessRule) : List Diagnostic :=
  (compile { d with rules := [a] } { o with ruleDebug := false }).2.journal.errors

def Finished (d : Document) (o : Options) (c : Compilation) (r : Rule) : Prop :=
  ∃ (i : Nat) (a : AccessRule), d.rules[i]? = some a ∧ ownErrors d o a = [] ∧ c.book[i]? = some r

/-- The keys that stand in the group table, as a group or as a member, or on a side of a rule
    without errors. -/
def Mentioned (d : Document) (o : Options) (c : Compilation) (k : String) : Prop :=
  (Headed d.groups.toList k ∨ ∃ t, MemberOf d.groups.toList k t) ∨
    ∃ r, Finished d o c r ∧ (k ∈ r.sources.keys ∨ k ∈ r.destinations.keys)

/-- Whether traffic leads from one key to another, by membership or by a rule without errors. -/
def LeadsTo (d : Document) (o : Options) (c : Compilation) (s t : String) : Prop :=
  s ≠ t ∧ (MemberOf d.groups.toList s t ∨ ∃ r, Finished d o c r ∧ s ∈ r.sources.keys ∧ t ∈ r.destinations.keys)

structure Drawn (d : Document) (o : Options) (c : Compilation) (res : Result) : Prop where
  errors : res.errors.Perm (d.rules.flatMap (ownErrors d o))
  indexed : ∀ i, (∃ e ∈ res.errors, e.ruleIndex = some i) ↔ ∃ a ∈ d.rules, a.index = i ∧ ownErrors d o a ≠ []
  keys : ∀ k, k ∈ c.graph.nodes.keys ↔ Mentioned d o c k
  keyed : ∀ {k n}, c.graph.nodes.get? k = some n → n.endpoint.key = k
  ports : ∀ {k n}, c.graph.nodes.get? k = some n → n.endpoint.ports = none
  links : ∀ s t, c.graph.Linked s t ↔ LeadsTo d o c s t
  sourceRuleCount : (res.sourceRuleCount : ℕ∞) = {s | ∃ t, LeadsTo d o c s t}.encard
  destinationRuleTotal : (res.destinationRuleTotal : ℕ∞) = {p : String × String | LeadsTo d o c p.1 p.2}.encard

structure Declares (d : Document) (g : Graph) (out : Output) : Prop where
  once : ∀ k ∈ g.nodes.keys, out.keys.count k = 1
  named : ∀ {k n space name}, g.nodes.get? k = some n → n.endpoint.target = .named space name →
    { key := k, name, members := (listed d.groups.toList k).eraseDups } ∈ out.groups
  origin : ∀ {k n name address}, g.nodes.get? k = some n → n.endpoint.target = .block .origin name address →
    { key := k, name, resources := [address] } ∈ out.groups
  resource : ∀ {k n role name address}, g.nodes.get? k = some n → n.endpoint.target = .block role name address →
    role ≠ .origin → { key := k, name, address, kind := role.kind } ∈ out.resources
  groups : ∀ x ∈ out.groups, ∃ n, g.nodes.get? x.key = some n ∧ n.endpoint.isGroup = true
  resources : ∀ x ∈ out.resources, ∃ n, g.nodes.get? x.key = some n ∧ n.endpoint.isGroup = false

variable {m : Membership} {declared : List String} {d : Document} {o : Options} {c : Compilation}

/-! ## The errors of the rules -/

theorem ownErrors_eq (ht : Tables d o m declared) {a : AccessRule} (hb : BriefRule a) : ownErrors d o a =
    (tagged a.index (verdictOf m declared a).complaints).filter fun e => e.severity = .error := by
  unfold ownErrors Journal.errors
  rw [entries_alone (o := { o with ruleDebug := false }) ⟨ht.membership, ht.tags⟩ rfl hb]

/-- A rule records no error by itself if and only if it goes on. -/
theorem ownErrors_eq_nil (ht : Tables d o m declared) {a : AccessRule} (hb : BriefRule a) :
    ownErrors d o a = [] ↔ passes (verdictOf m declared a).complaints = true := by
  have h : (∀ b ∈ [a], passes (verdictOf m declared b).complaints = true) ↔ _ := passes_iff_problems
  rw [List.forall_mem_singleton, problems, List.flatMap_singleton] at h
  rw [ownErrors_eq ht hb, h]

theorem Compiled.errors_perm (ht : Tables d o m declared) (hc : Compiled d o m declared c) :
    c.journal.errors.Perm (d.rules.flatMap (ownErrors d o)) := by
  have h := hc.journal.filter fun e => decide (e.severity = .error)
  rw [problems, List.filter_flatMap] at h
  rw [List.flatMap_congr fun a ha => ownErrors_eq ht (hc.brief a ha)]
  exact h

theorem sides_of_bare {r r' : Rule} (h : r.bare = r'.bare) :
    r.sources = r'.sources ∧ r.destinations = r'.destinations := by
  show r.bare.sources = r'.bare.sources ∧ r.bare.destinations = r'.bare.destinations
  rw [h]
  exact ⟨rfl, rfl⟩

/-- The rules without errors have the slots of the rules that reach the graph. -/
theorem Compiled.finished_iff (ht : Tables d o m declared) (hc : Compiled d o m declared c) (P : Slot → Slot → Prop) :
    (∃ r, Finished d o c r ∧ P r.sources r.destinations) ↔
      ∃ r ∈ finished m declared d.rules, P r.sources r.destinations := by
  constructor
  · rintro ⟨r, ⟨i, a, ha, hown, hr⟩, hP⟩
    have hp := (ownErrors_eq_nil ht (hc.brief a (List.mem_of_getElem? ha))).mp hown
    obtain ⟨r', hr', hbare⟩ := hc.book ha hp
    obtain rfl : r' = r := Option.some.inj (hr'.symm.trans hr)
    obtain ⟨hsources, hdestinations⟩ := sides_of_bare hbare
    refine ⟨_, List.mem_map_of_mem (List.mem_filter.mpr ⟨List.mem_of_getElem? ha, hp⟩), ?_⟩
    rw [← hsources, ← hdestinations]
    exact hP
  · rintro ⟨r, hr, hP⟩
    obtain ⟨a, ha, rfl⟩ := List.mem_map.mp hr
    obtain ⟨ha, hp⟩ := List.mem_filter.mp ha
    have hb := hc.brief a ha
    obtain ⟨i, ha⟩ := List.mem_iff_getElem?.mp ha
    obtain ⟨r, hr, hbare⟩ := hc.book ha hp
    obtain ⟨hsources, hdestinations⟩ := sides_of_bare hbare
    refine ⟨r, ⟨i, a, ha, (ownErrors_eq_nil ht hb).mpr hp, hr⟩, ?_⟩
    rw [hsources, hdestinations]
    exact hP

/-! ## The graph -/

/-- What the table draws: its groups and their members, each member leading to its groups. -/
theorem mem_keys_table (ht : Tables d o m declared) (k : String) :
    k ∈ (Compilation.foldMembership {} m).nodes.keys ↔
      Headed d.groups.toList k ∨ ∃ t, MemberOf d.groups.toList k t := by
  have hm := ofNames_of_ofTable ht.membership
  have hmerged := merged_ofTable ht.membership
  rw [mem_keys_foldMembership]
  constructor
  · rintro ⟨g, hg, hk⟩
    obtain ⟨t, hg⟩ := Table.mem_values_iff.mp hg
    rcases hk with rfl | ⟨e, he, rfl⟩
    · rw [hmerged.self hg]
      exact .inl ((hmerged.keys t).mp (Table.mem_keys_iff.mpr ⟨g, hg⟩))
    · exact .inr ⟨t, (hmerged.memberOf_iff hm).mpr ⟨g, hg, e, he, rfl⟩⟩
  · rintro (hk | ⟨t, hk⟩)
    · obtain ⟨g, hg⟩ := Table.mem_keys_iff.mp ((hmerged.keys k).mpr hk)
      exact ⟨g, Table.mem_values_iff.mpr ⟨k, hg⟩, .inl (hmerged.self hg).symm⟩
    · obtain ⟨g, hg, e, he, hk⟩ := (hmerged.memberOf_iff hm).mp hk
      exact ⟨g, Table.mem_values_iff.mpr ⟨t, hg⟩, .inr ⟨e, he, hk⟩⟩

theorem linked_table (ht : Tables d o m declared) (s t : String) :
    (Compilation.foldMembership {} m).Linked s t ↔ s ≠ t ∧ MemberOf d.groups.toList s t := by
  have hmerged := merged_ofTable ht.membership
  rw [linked_foldMembership, hmerged.memberOf_iff (ofNames_of_ofTable ht.membership)]
  constructor
  · rintro ⟨g, hg, e, he, hne, rfl, rfl⟩
    obtain ⟨t, hg⟩ := Table.mem_values_iff.mp hg
    rw [hmerged.self hg] at hne ⊢
    exact ⟨hne, g, hg, e, he, rfl⟩
  · rintro ⟨hne, g, hg, e, he, rfl⟩
    refine ⟨g, Table.mem_values_iff.mpr ⟨t, hg⟩, e, he, ?_⟩
    rw [hmerged.self hg]
    exact ⟨hne, rfl, rfl⟩

theorem Compiled.mem_keys_iff (ht : Tables d o m declared) (hc : Compiled d o m declared c) (k : String) :
    k ∈ c.graph.nodes.keys ↔ Mentioned d o c k := by
  have hm := ofNames_of_ofTable ht.membership
  unfold Mentioned
  rw [hc.nodes_eq, mem_keys_foldl (fun g r => mem_keys_registered g r k), mem_keys_table ht,
    hc.finished_iff ht fun s t => k ∈ s.keys ∨ k ∈ t.keys]
  refine or_congr Iff.rfl (exists_congr fun r => and_congr_right fun hr => ?_)
  obtain ⟨a, ha, rfl⟩ := List.mem_map.mp hr
  obtain ⟨ha, hp⟩ := List.mem_filter.mp ha
  exact registers_iff hm (hc.brief a ha) hp k

/-- A rule that goes on leads from its sources to its destinations. -/
theorem registers_links_iff (hm : OfNames m.groups) (hb : BriefRules d) {r : Rule} (hr : r ∈ finished m declared d.rules)
    (s t : String) :
    (∃ a ∈ r.sources.values, ∃ b ∈ r.destinations.values, a.key ≠ b.key ∧ s = a.key ∧ t = b.key) ↔
      s ≠ t ∧ s ∈ r.sources.keys ∧ t ∈ r.destinations.keys := by
  obtain ⟨a, ha, rfl⟩ := List.mem_map.mp hr
  obtain ⟨ha, hp⟩ := List.mem_filter.mp ha
  have hs := settled_verdictOf hm (hb a ha) hp
  rw [← hs.keys_sources, ← hs.keys_destinations]
  constructor
  · rintro ⟨x, hx, y, hy, hne, rfl, rfl⟩
    exact ⟨hne, List.mem_map_of_mem hx, List.mem_map_of_mem hy⟩
  · rintro ⟨hne, hs, ht⟩
    obtain ⟨x, hx, rfl⟩ := List.mem_map.mp hs
    obtain ⟨y, hy, rfl⟩ := List.mem_map.mp ht
    exact ⟨x, hx, y, hy, hne, rfl, rfl⟩

theorem Compiled.linked_iff (ht : Tables d o m declared) (hc : Compiled d o m declared c) (s t : String) :
    c.graph.Linked s t ↔ LeadsTo d o c s t := by
  have hm := ofNames_of_ofTable ht.membership
  unfold LeadsTo
  rw [linked_congr hc.nodes_eq, linked_foldl fun g r => linked_registered r, linked_table ht,
    hc.finished_iff ht fun x y => s ∈ x.keys ∧ t ∈ y.keys, and_or_left, ← exists_and_left]
  refine or_congr Iff.rfl (exists_congr fun r => ?_)
  rw [and_left_comm]
  exact and_congr_right fun hr => registers_links_iff hm hc.brief hr s t

theorem Compiled.plain (hc : Compiled d o m declared c) : c.graph.Plain := by
  have h : ((finished m declared d.rules).foldl Compiler.registered (Compilation.foldMembership {} m)).Plain :=
    (plain_foldMembership m).foldl (fun g r hg => plain_registered hg r) _
  exact h.congr hc.nodes_eq

/-- The graph of a compilation, also of one with errors, is what the document mentions. -/
theorem Compiled.drawn (ht : Tables d o m declared) (hc : Compiled d o m declared c) {res : Result}
    (he : res.errors = c.journal.errors) (hs : res.sourceRuleCount = c.graph.sourceRuleCount)
    (hd : res.destinationRuleTotal = c.graph.destinationRuleTotal) : Drawn d o c res where
  errors := he ▸ hc.errors_perm ht
  indexed i := by
    rw [he, hc.error_of_index]
    exact exists_congr fun a => and_congr_right fun ha => and_congr_right fun _ =>
      not_congr (ownErrors_eq_nil ht (hc.brief a ha)).symm
  keys := hc.mem_keys_iff ht
  keyed := (sound_graph (ofNames_of_ofTable ht.membership) hc).keyed
  ports := hc.plain.ports
  links := hc.linked_iff ht
  sourceRuleCount := by
    rw [hs, sourceRuleCount_eq]
    simp only [hc.linked_iff ht]
  destinationRuleTotal := by
    rw [hd, hc.plain.destinationRuleTotal_eq]
    simp only [hc.linked_iff ht]

/-! ## The declarations -/

/-- The names of the members of a key are those that its lines list, each once. -/
theorem map_name_membersOf (ht : Tables d o m declared) (k : String) :
    (m.membersOf k).map Endpoint.name = (listed d.groups.toList k).eraseDups := by
  have hmerged := merged_ofTable ht.membership
  unfold membersOf
  cases hg : m.groups.get? k with
  | some g => exact hmerged.members hg
  | none =>
    rw [hmerged.listed_of_none hg]
    rfl

/-- Each node is declared once, as what it is. -/
theorem Compiled.declares (ht : Tables d o m declared) (hc : Compiled d o m declared c) {out : Output}
    (hout : c.graph.emit? (some m) o = some out) : Declares d c.graph out := by
  have hg := distinct_graph (ofNames_of_ofTable ht.membership) hc
  have hnodup := hg.nodup_keys hout
  have hgroup : ∀ {k n x}, c.graph.nodes.get? k = some n → n.endpoint.isGroup = true →
      groupDeclaration (some m) k n = some x → x ∈ out.groups := fun hn hisGroup hx =>
    (mem_groups hout).mpr ⟨_, _, hn, hisGroup, hx⟩
  refine ⟨fun k hk => ?_, fun {k n space name} hn htarget => ?_, fun {k n name address} hn htarget => ?_,
    fun {k n role name address} hn htarget hrole => ?_, fun x hx => ?_, fun x hx => ?_⟩
  · refine List.count_eq_one_of_mem hnodup ?_
    obtain ⟨n, hn⟩ := Table.mem_keys_iff.mp hk
    exact mem_keys_of_node hout hn
  · refine hgroup hn (by rw [Endpoint.isGroup, htarget]; rfl) ?_
    rw [groupDeclaration, htarget, hg.sound.keyed hn, ← map_name_membersOf ht]
    rfl
  · refine hgroup hn (by rw [Endpoint.isGroup, htarget]; rfl) ?_
    rw [groupDeclaration, htarget]
  · have hisGroup : n.endpoint.isGroup = false := by
      rw [Endpoint.isGroup, htarget]
      cases role with
      | host | network => rfl
      | origin => exact absurd rfl hrole
    refine (mem_resources hout).mpr ⟨k, n, hn, hisGroup, ?_⟩
    rw [resourceDeclaration, htarget]
  · obtain ⟨k, n, hn, hisGroup, hx⟩ := (mem_groups hout).mp hx
    obtain ⟨y, hy, hkey⟩ := groupDeclaration_isSome m k n
    obtain rfl : y = x := Option.some.inj (hy.symm.trans hx)
    exact ⟨n, hkey ▸ hn, hisGroup⟩
  · obtain ⟨k, n, hn, hisGroup, hx⟩ := (mem_resources hout).mp hx
    obtain ⟨y, hy, hkey⟩ := resourceDeclaration_isSome k hisGroup
    obtain rfl : y = x := Option.some.inj (hy.symm.trans hx)
    exact ⟨n, hkey ▸ hn, hisGroup⟩

/-- The graph of a document whose tables are well-formed is what the document mentions, whether
    or not some of its rules have errors. Without errors each node is declared once. There is a
    result if the reading of no token stops. -/
theorem graph_of_mentions (hd : d.WellFormed) (o : Options) :
    ((o.ruleDebug = true → d.Textual) → ((∃ res, (compile d o).1 = .ok res) ↔ BriefRules d)) ∧
      ∀ res, (compile d o).1 = .ok res → Drawn d o (compile d o).2 res ∧
        (res.errors = [] → ∃ out, res.output = some out ∧ Declares d (compile d o).2.graph out) := by
  obtain ⟨m, declared, ht⟩ := tables_iff.mpr hd
  refine ⟨compile_ok_iff ht, fun res h => ?_⟩
  obtain ⟨hc, hres⟩ := compile_spec ht h
  refine ⟨hc.drawn ht (errors_eq ht h) (by rw [hres]; rfl) (by rw [hres]; rfl), fun he => ?_⟩
  obtain ⟨out, hout, -⟩ := emit?_some (compile d o).2.graph m o
  exact ⟨out, (output_eq ht h he).trans hout, hc.declares ht hout⟩

def tangled : NameTable :=
  Table.ofList [("x", [.text "group:y", .text "x", .text "tag:y"]), ("tag:x", [.text "z", .text "y"])]

def entangled : Document :=
  { groups := tangled, tagOwners := Table.ofList [("tag:x", []), ("someone", [])],
    rules := [{ index := 0, action := .accept, sources := [.text "10.0.0.0/8"], destinations := [.text "group:x:22"] },
      { index := 0, action := .drop, sources := [.text "tag:a"], destinations := [.text "group:b"] }] }

theorem wellFormed_entangled : entangled.WellFormed where
  groups := by
    have hlines : entangled.groups.toList =
        [("x", [.text "group:y", .text "x", .text "tag:y"]), ("tag:x", [.text "z", .text "y"])] := rfl
    rw [hlines]
    simp only [List.forall_mem_cons, Legible]
    exact ⟨⟨⟨_, rfl⟩, ⟨_, rfl⟩, ⟨_, rfl⟩, ⟨_, rfl⟩, by simp⟩, ⟨⟨_, rfl⟩, ⟨_, rfl⟩, ⟨_, rfl⟩, by simp⟩, by simp⟩
  tagOwners := by
    have hnames : entangled.tagOwners.keys = ["tag:x", "someone"] := rfl
    rw [hnames]
    simp only [List.forall_mem_cons]
    exact ⟨fun _ => ⟨_, rfl⟩, fun h => (by cases h), by simp⟩

theorem graph_of_entangled : entangled.WellFormed ∧ ∃ res, (compile entangled { ruleDebug := true }).1 = .ok res ∧
    Drawn entangled { ruleDebug := true } (compile entangled { ruleDebug := true }).2 res ∧
    (compile entangled { ruleDebug := true }).2.graph.Linked "group-z" "group-x" ∧
    ¬ (compile entangled { ruleDebug := true }).2.graph.Linked "group-x" "group-x" := by
  obtain ⟨hsome, hall⟩ := graph_of_mentions wellFormed_entangled { ruleDebug := true }
  have htextual : entangled.Textual := by
    unfold Document.Textual entangled AccessRule.Textual
    simp
  obtain ⟨res, h⟩ := (hsome fun _ => htextual).mpr (by decide +kernel)
  have hdrawn := (hall res h).1
  have hmember : MemberOf entangled.groups.toList "group-z" "group-x" := ⟨"z", by decide, rfl⟩
  refine ⟨wellFormed_entangled, res, h, hdrawn, (hdrawn.links _ _).mpr ⟨by decide, .inl hmember⟩, fun hself => ?_⟩
  exact ((hdrawn.links _ _).mp hself).1 rfl

end Portcullis.Compiler

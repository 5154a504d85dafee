/-
  Portcullis.Proofs.TableOrder — what the order of the group table decides.

  The order of the lines of a table, and of the members in them, does not change who is a
  member of what. It does change on which trails an expansion meets the groups, and with a
  bound on the depth what it holds.
  - `policies_of_reordered`: where no reference is expanded along a detour, the policies do not
    depend on the order. Without a bound, and to a depth of one, there are no detours.
  - `the_order_decides`: otherwise they may; two documents differ in the order of two members,
    and a rule from the first group leads from three groups in one and from four in the other.
-/

import Portcullis.Proofs.Composition
import Portcullis.Proofs.Levels
import Portcullis.Proofs.Merging

namespace Portcullis

namespace Membership

structure SameLine (a b : Line) : Prop where
  name : a.1 = b.1
  members : a.2.Perm b.2

def Reordered (lines lines' : List Line) : Prop :=
  ∃ between, lines.Perm between ∧ List.Forall₂ SameLine between lines'

/-- A key to the keys of the members that the lines about it list. -/
def Lists (lines : List Line) (s t : String) : Prop := MemberOf lines t s

theorem mem_listed {lines : List Line} {k name : String} :
    name ∈ listed lines k ↔ ∃ line ∈ lines, headOf? line = some k ∧ ∃ v ∈ line.2, memberName? v = some name := by
  simp only [listed, List.mem_flatMap, List.mem_filter, decide_eq_true_eq, List.mem_filterMap, and_assoc]

/-- What a line lists, another line of its kind lists as well. -/
theorem SameLine.lists {a b : Line} (h : SameLine a b) {k name : String} :
    (headOf? a = some k ∧ ∃ v ∈ a.2, memberName? v = some name) ↔
      headOf? b = some k ∧ ∃ v ∈ b.2, memberName? v = some name := by
  have hhead : headOf? a = headOf? b := by unfold headOf?; rw [h.name]
  rw [hhead]
  exact and_congr_right fun _ => exists_congr fun v => and_congr_left fun _ => h.members.mem_iff

theorem mem_listed_of_forall₂ {lines lines' : List Line} (h : List.Forall₂ SameLine lines lines') (k name : String) :
    name ∈ listed lines k ↔ name ∈ listed lines' k := by
  rw [mem_listed, mem_listed]
  induction h with
  | nil => exact .rfl
  | cons hab _ ih => simp only [List.exists_mem_cons_iff, hab.lists, ih]

/-- The order does not change who is a member of what. -/
theorem Reordered.lists_iff {lines lines' : List Line} (h : Reordered lines lines') (s t : String) :
    Lists lines s t ↔ Lists lines' s t := by
  obtain ⟨between, hperm, hlines⟩ := h
  refine exists_congr fun name => and_congr_left fun _ => ?_
  rw [← mem_listed_of_forall₂ hlines, mem_listed, mem_listed]
  exact exists_congr fun line => and_congr_left fun _ => hperm.mem_iff

/-- The links of a table that was read are those of its lines. -/
theorem linked_iff_lists {table : NameTable} {depth : Option Nat} {m : Membership} (h : ofTable table depth = .ok m)
    (s t : String) : m.Linked s t ↔ Lists table.toList s t := by
  unfold Lists Linked membersOf
  rw [(merged_ofTable h).memberOf_iff (ofNames_of_ofTable h)]
  cases m.groups.get? s <;> simp [eq_comm]

theorem depth_ofTable {table : NameTable} {depth : Option Nat} {m : Membership} (h : ofTable table depth = .ok m) :
    m.depth = depth := by
  unfold ofTable at h
  cases ha : addEntries ∅ table.toList with
  | error u => rw [ha] at h; cases h
  | ok groups => rw [ha] at h; cases h; rfl

end Membership

open Portcullis.Membership

structure Document.Reordered (d d' : Document) : Prop where
  groups : Membership.Reordered d.groups.toList d'.groups.toList
  rules : d.rules = d'.rules
  tagOwners : d.tagOwners = d'.tagOwners

/-- Whether no reference in a rule is expanded along a detour. -/
def Document.Direct (d : Document) (depth : Option Nat) : Prop :=
  ∀ n, depth = some n → ∀ a ∈ d.rules, ∀ t ∈ a.sources ++ a.destinations, ∀ e, classify t = .ok e →
    e.target.IsName → NoDetour (Lists d.groups.toList) n e.key

namespace Compiler

section

variable {m m' : Membership}

/-- A block stands for itself, whatever the table is. -/
theorem covers_of_not_isName {e : Endpoint} (h : ¬ e.target.IsName) (k : String) : Covers m e k ↔ Covers m' e k := by
  obtain ⟨t, p, s⟩ := e
  cases t with
  | named space name => exact absurd ⟨space, name, rfl⟩ h
  | block role name address => exact .rfl

/-- Without detours a reference stands for the same keys in tables with the same links. -/
theorem covers_of_links (hlinks : ∀ s t, m.Linked s t ↔ m'.Linked s t) (hdepth : m.depth = m'.depth) {e : Endpoint}
    (h : e.target.IsName → ∀ n, m.depth = some n → NoDetour m.Linked n e.key) (k : String) :
    Covers m e k ↔ Covers m' e k := by
  by_cases hname : e.target.IsName
  · have h' : ∀ n, m'.depth = some n → NoDetour m'.Linked n e.key :=
      fun n hn => (h hname n (hdepth.trans hn)).mono hlinks
    rw [covers_of_isName hname, covers_of_isName hname, mem_reach_iff (h hname), mem_reach_iff h', hdepth]
    exact exists_congr fun passed => and_congr_left fun _ =>
      ⟨Trail.mono fun s t => (hlinks s t).mp, Trail.mono fun s t => (hlinks s t).mpr⟩
  · exact covers_of_not_isName hname k

theorem key_asOrigin_of_isName {e : Endpoint} (h : e.target.IsName) : (asOrigin e).key = e.key := by
  obtain ⟨t, p, s⟩ := e
  obtain ⟨space, name, rfl⟩ := h
  rfl

theorem isName_asOrigin {e : Endpoint} (h : (asOrigin e).target.IsName) : e.target.IsName := by
  obtain ⟨t, p, s⟩ := e
  cases t with
  | named space name => exact ⟨space, name, rfl⟩
  | block role name address => obtain ⟨_, _, h⟩ := h; cases h

/-- A rule reads alike in both tables if none of its references is expanded along a detour. -/
theorem akin_of_links (hlinks : ∀ s t, m.Linked s t ↔ m'.Linked s t) (hdepth : m.depth = m'.depth) {a : AccessRule}
    (h : ∀ t ∈ a.sources ++ a.destinations, ∀ e, classify t = .ok e → e.target.IsName →
      ∀ n, m.depth = some n → NoDetour m.Linked n e.key) : Akin m m' a a where
  index := rfl
  action := rfl
  protocol := rfl
  sources _ := .rfl
  destinations _ := .rfl
  fromSources e he k := by
    obtain ⟨t, ht, hc⟩ := mem_readable.mp he
    refine covers_of_links hlinks hdepth (fun hname => ?_) k
    have hname := isName_asOrigin hname
    rw [key_asOrigin_of_isName hname]
    exact h t (List.mem_append_left _ ht) e hc hname
  toDestinations e he k := by
    obtain ⟨t, ht, hc⟩ := mem_readable.mp he
    exact covers_of_links hlinks hdepth (h t (List.mem_append_right _ ht) e hc) k

end

/-- Where no reference is expanded along a detour, the policies of documents without errors do
    not depend on the order of the group table. -/
theorem policies_of_reordered {d d' : Document} {o : Options} {res res' : Result} (hd : d.Reordered d')
    (hdirect : d.Direct o.expansionDepth) (h : (compile d o).1 = .ok res) (h' : (compile d' o).1 = .ok res')
    (he : res.errors = []) (he' : res'.errors = []) :
    ∃ out out', res.output = some out ∧ res'.output = some out' ∧ out.policies = out'.policies := by
  obtain ⟨m, declared, ht⟩ := exists_tables h he
  obtain ⟨m', declared', ht'⟩ := exists_tables h' he'
  have hdepth : m.depth = m'.depth := (depth_ofTable ht.membership).trans (depth_ofTable ht'.membership).symm
  have hlists : ∀ s t, m.Linked s t ↔ Lists d.groups.toList s t := linked_iff_lists ht.membership
  have hlinks : ∀ s t, m.Linked s t ↔ m'.Linked s t := fun s t =>
    ((hlists s t).trans (hd.groups.lists_iff s t)).trans (linked_iff_lists ht'.membership s t).symm
  have hpass := (errors_eq_nil_iff ht h).mp he
  have hpass' := (errors_eq_nil_iff ht' h').mp he'
  have hcounterparts : List.Forall₂ Counterpart (finished m declared d.rules) (finished m' declared' d'.rules) := by
    rw [finished_of_passes hpass, finished_of_passes hpass', ← hd.rules, List.forall₂_map_left_iff,
      List.forall₂_map_right_iff, List.forall₂_same]
    intro a ha
    refine counterpart_of_akin
      (settled_verdictOf (ofNames_of_ofTable ht.membership) (brief_of_compile ht h a ha) (hpass a ha))
      (settled_verdictOf (ofNames_of_ofTable ht'.membership) (brief_of_compile ht h a ha) (hpass' a (hd.rules ▸ ha)))
      (akin_of_links hlinks hdepth fun t htok e hc hname n hn => ?_)
    exact (hdirect n ((depth_ofTable ht.membership).symm.trans hn) a ha t htok e hc hname).mono
      fun s t => (hlists s t).symm
  have hpolicies : (compile d o).2.graph.policies = (compile d' o).2.graph.policies := by
    rw [(compile_spec ht h).1.graph, (compile_spec ht' h').1.graph, policies_laidOut (policies_foldMembership m),
      policies_laidOut (policies_foldMembership m'), scheduled_counterparts hcounterparts]
  obtain ⟨out, hout, hp⟩ := emit?_some (compile d o).2.graph m o
  obtain ⟨out', hout', hp'⟩ := emit?_some (compile d' o).2.graph m' o
  refine ⟨out, out', (output_eq ht h he).trans hout, (output_eq ht' h' he').trans hout', ?_⟩
  rw [hp, hp']
  unfold Graph.sortedPolicies
  rw [hpolicies]

/-! ## Two orders of one table -/

/-- What a document of one rule that goes on compiles to: policies, all from the keys that the
    sources of the rule stand for. -/
theorem policies_of_single {d : Document} {o : Options} {m : Membership} {declared : List String} {a : AccessRule}
    (ht : Tables d o m declared) (ho : o.ruleDebug = false) (ha : d.rules = [a]) (hb : BriefRule a)
    (hp : passes (verdictOf m declared a).complaints = true) :
    ∃ res out, (compile d o).1 = .ok res ∧ res.errors = [] ∧ res.output = some out ∧
      (∃ p ∈ out.policies, ∃ x, x ∈ p.rules) ∧
      ∀ p ∈ out.policies, ∀ x ∈ p.rules, ∀ k, k ∈ x.sources ↔ ∃ e ∈ readable a.sources, Covers m (asOrigin e) k := by
  have hbrief : BriefRules d := fun b hmem => by
    rw [ha] at hmem
    exact List.mem_singleton.mp hmem ▸ hb
  obtain ⟨res, h⟩ := (compile_ok_iff ht (textual_of_quiet ho)).mpr hbrief
  have he : res.errors = [] := (errors_eq_nil_iff ht h).mpr fun b hb => by
    rw [ha] at hb
    exact List.mem_singleton.mp hb ▸ hp
  have hm := ofNames_of_ofTable ht.membership
  have hc := (compile_spec ht h).1
  obtain ⟨out, hout, -⟩ := emit?_some (compile d o).2.graph m o
  refine ⟨res, out, h, he, (output_eq ht h he).trans hout, ?_, fun p hp x hx k => ?_⟩
  · have hlength := Graph.length_storedKeys (storedBefore m declared d.rules 0) (edgesOf (verdictOf m declared a).rule)
    obtain ⟨k, hk⟩ :
        ∃ k, k ∈ (storedBefore m declared d.rules 0).storedKeys (edgesOf (verdictOf m declared a).rule) := by
      apply List.exists_mem_of_length_pos
      rw [hlength]
      exact List.length_pos_iff.mpr (edgesOf_ne_nil hm hb hp)
    obtain ⟨x, hx, -⟩ := hc.policy_of_noted (by rw [ha]; rfl) hp hk
    exact ⟨_, (Graph.mem_policies hout).mpr ⟨k, x, hx, rfl⟩, _, List.mem_cons_self⟩
  · obtain ⟨key, edge, hedge, rfl⟩ := (Graph.mem_policies hout).mp hp
    obtain ⟨r, hr, e, hmem, -, rfl⟩ := hc.exists_edge hedge
    rw [ha, finished_of_passes fun b hb => List.mem_singleton.mp hb ▸ ‹passes _ = true›] at hr
    obtain rfl := List.mem_singleton.mp hr
    obtain rfl := List.mem_singleton.mp hx
    show k ∈ e.sources ↔ _
    obtain ⟨-, -, -, hsources, -⟩ := common_of_mem hmem
    rw [hsources, Key.mem_sorted]
    exact (settled_verdictOf hm hb ‹_›).mem_sources k

def fromFirst : AccessRule :=
  { index := 0, action := .accept, sources := [.text "group:a"], destinations := [.text "tag:t"] }

def detoured (first second : String) : Document := { groups := detour first second, rules := [fromFirst] }

theorem reordered_detoured : (detoured "b" "c").Reordered (detoured "c" "b") where
  groups := ⟨_, .refl _, .cons ⟨rfl, .swap _ _ _⟩ (.cons ⟨rfl, .refl _⟩ (.cons ⟨rfl, .refl _⟩ .nil))⟩
  rules := rfl
  tagOwners := rfl

theorem readable_fromFirst : readable fromFirst.sources = [groupRef "a"] := by decide +kernel

/-- To a depth of one there are no detours. -/
theorem policies_of_shallow : ∃ res res' out out',
    (compile (detoured "b" "c") { expansionDepth := some 1 }).1 = .ok res ∧
      (compile (detoured "c" "b") { expansionDepth := some 1 }).1 = .ok res' ∧
      res.output = some out ∧ res'.output = some out' ∧ (∃ p, p ∈ out.policies) ∧ out.policies = out'.policies := by
  have ht : Tables (detoured "b" "c") { expansionDepth := some 1 } { detourRead "b" "c" with depth := some 1 } [] :=
    ⟨rfl, rfl⟩
  have ht' : Tables (detoured "c" "b") { expansionDepth := some 1 } { detourRead "c" "b" with depth := some 1 } [] :=
    ⟨rfl, rfl⟩
  obtain ⟨res, out, h, he, hout, hne, -⟩ := policies_of_single ht rfl (a := fromFirst) rfl (by decide +kernel)
    ((passes_course (tractable_ofAccessRule (by decide +kernel))).mpr ⟨by decide +kernel, by decide +kernel⟩)
  obtain ⟨res', -, h', he', -⟩ := policies_of_single ht' rfl (a := fromFirst) rfl (by decide +kernel)
    ((passes_course (tractable_ofAccessRule (by decide +kernel))).mpr ⟨by decide +kernel, by decide +kernel⟩)
  have hdirect : (detoured "b" "c").Direct (some 1) := by
    rintro n hn - - - - e - -
    cases hn
    exact noDetour_of_le_one le_rfl _
  obtain ⟨out₀, out', hout₀, hout', heq⟩ := policies_of_reordered reordered_detoured hdirect h h' he he'
  obtain rfl : out = out₀ := Option.some.inj (hout.symm.trans hout₀)
  exact ⟨res, res', out, out', h, h', hout, hout', hne.imp fun p hp => hp.1, heq⟩

/-- To a depth of two the fourth group is a source in one order only. -/
theorem the_order_decides : ∃ res res' out out',
    (compile (detoured "b" "c") { expansionDepth := some 2 }).1 = .ok res ∧
      (compile (detoured "c" "b") { expansionDepth := some 2 }).1 = .ok res' ∧ res.errors = [] ∧ res'.errors = [] ∧
      res.output = some out ∧ res'.output = some out' ∧ out.policies ≠ out'.policies := by
  have ht : Tables (detoured "b" "c") { expansionDepth := some 2 } (detourRead "b" "c") [] := ⟨rfl, rfl⟩
  have ht' : Tables (detoured "c" "b") { expansionDepth := some 2 } (detourRead "c" "b") [] := ⟨rfl, rfl⟩
  obtain ⟨res, out, h, he, hout, ⟨p, hp, x, hx⟩, hsources⟩ :=
    policies_of_single ht rfl (a := fromFirst) rfl (by decide +kernel)
    ((passes_course (tractable_ofAccessRule (by decide +kernel))).mpr ⟨by decide +kernel, by decide +kernel⟩)
  obtain ⟨res', out', h', he', hout', -, hsources'⟩ := policies_of_single ht' rfl (a := fromFirst) rfl (by decide +kernel)
    ((passes_course (tractable_ofAccessRule (by decide +kernel))).mpr ⟨by decide +kernel, by decide +kernel⟩)
  refine ⟨res, res', out, out', h, h', he, he', hout, hout', fun heq => ?_⟩
  -- What a policy that is there in both orders leads from are the keys that the group reaches.
  have hkeys : ∀ m : Membership, (∃ e ∈ readable fromFirst.sources, Covers m (asOrigin e) "group-d") ↔
      "group-d" ∈ m.reach "group-a" := fun m => by
    rw [readable_fromFirst]
    simp only [List.mem_singleton, exists_eq_left]
    exact covers_of_isName ⟨_, _, rfl⟩
  have hreach : (detourRead "b" "c").reach "group-a" = ["group-a", "group-b", "group-c"] := by cbv
  have hreach' : (detourRead "c" "b").reach "group-a" = ["group-a", "group-c", "group-d", "group-b"] := by cbv
  have hyes : "group-d" ∈ x.sources := by
    rw [hsources' p (heq ▸ hp) x hx, hkeys, hreach']
    decide
  rw [hsources p hp x hx, hkeys, hreach] at hyes
  revert hyes
  decide

end Compiler

end Portcullis

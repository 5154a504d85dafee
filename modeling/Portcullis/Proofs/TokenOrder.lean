/-
  Portcullis.Proofs.TokenOrder — the order and repetition of tokens do not matter.

  Documents that differ in nothing else (`SameTokens`) are declared alike, if neither has an
  error.
  - A settled rule has the keys and port restrictions that the set of its tokens gives, so
    the two versions of a rule are counterparts (`Twin.counterpart`): their edges stand in one
    order and are stored under the same keys.
  - Which endpoint of a key came first shows in no declaration.
-/

import Portcullis.Proofs.Counterparts

namespace Portcullis

structure AccessRule.SameTokens (a b : AccessRule) : Prop where
  index : a.index = b.index
  action : a.action = b.action
  protocol : a.protocol = b.protocol
  sources : ∀ t, t ∈ a.sources ↔ t ∈ b.sources
  destinations : ∀ t, t ∈ a.destinations ↔ t ∈ b.destinations

structure Document.SameTokens (d d' : Document) : Prop where
  groups : d.groups = d'.groups
  tagOwners : d.tagOwners = d'.tagOwners
  rules : List.Forall₂ AccessRule.SameTokens d.rules d'.rules

namespace Compiler

open Portcullis.Graph

theorem readable_congr {ts us : List Value} (h : ∀ t, t ∈ ts ↔ t ∈ us) (e : Endpoint) :
    e ∈ readable ts ↔ e ∈ readable us := by
  simp only [mem_readable, h]

/-- Such rules read alike, in the same table. -/
theorem akin_of_sameTokens (m : Membership) {a b : AccessRule} (h : a.SameTokens b) : Akin m m a b where
  index := h.index
  action := h.action
  protocol := h.protocol
  sources := readable_congr h.sources
  destinations := readable_congr h.destinations
  fromSources _ _ _ := .rfl
  toDestinations _ _ _ := .rfl

/-! ## The two compilations -/

def Twin (m : Membership) (r s : Rule) : Prop :=
  ∃ a b : AccessRule, a.SameTokens b ∧ Settled m (Rule.ofAccessRule a) r ∧ Settled m (Rule.ofAccessRule b) s

section

variable {m : Membership} {declared : List String} {rs ss : List Rule}

theorem Twin.counterpart {r s : Rule} (h : Twin m r s) : Counterpart r s := by
  obtain ⟨a, b, hab, hr, hs⟩ := h
  exact counterpart_of_akin hr hs (akin_of_sameTokens m hab)

theorem scheduled_twins (h : List.Forall₂ (Twin m) rs ss) (stagewise : Bool) :
    scheduled stagewise rs = scheduled stagewise ss :=
  scheduled_counterparts (h.imp fun _ _ h => h.counterpart) stagewise

/-- Registering two versions of a rule adds the same keys. -/
theorem Twin.mem_keys {r s : Rule} (h : Twin m r s) {g g' : Graph}
    (hg : ∀ k, k ∈ g.nodes.keys ↔ k ∈ g'.nodes.keys) (k : String) :
    k ∈ (registered g r).nodes.keys ↔ k ∈ (registered g' s).nodes.keys := by
  obtain ⟨a, b, hab, hr, hs⟩ := h
  have hkeys : ∀ {a : AccessRule} {r : Rule}, Settled m (Rule.ofAccessRule a) r →
      ((∃ x ∈ r.sources.values, k = x.key ∨ ∃ y ∈ r.destinations.values, k = x.key ∨ k = y.key) ↔
        ∃ x ∈ r.sources.keys, k = x ∨ ∃ y ∈ r.destinations.keys, k = x ∨ k = y) := by
    intro a r hr
    simp only [← hr.keys_sources, ← hr.keys_destinations, List.mem_map, exists_exists_and_eq_and]
  rw [mem_keys_registered, mem_keys_registered, hkeys hr, hkeys hs, hg]
  have hakin := akin_of_sameTokens m hab
  simp only [mem_sources_congr hr hs hakin, mem_destinations_congr hr hs hakin]

theorem mem_keys_twins (h : List.Forall₂ (Twin m) rs ss) {g g' : Graph}
    (hg : ∀ k, k ∈ g.nodes.keys ↔ k ∈ g'.nodes.keys) :
    ∀ k, k ∈ (rs.foldl registered g).nodes.keys ↔ k ∈ (ss.foldl registered g').nodes.keys := by
  induction h generalizing g g' with
  | nil => exact hg
  | cons hrs _ ih => exact ih (hrs.mem_keys hg)

theorem sound_finished {g : Graph} (h : g.Sound) (hrs : ∀ r ∈ rs, ∃ a, Settled m (Rule.ofAccessRule a) r) :
    (rs.foldl registered g).Sound :=
  h.foldl fun r hr _ hg => by
    obtain ⟨a, ha⟩ := hrs r hr
    exact sound_registered hg (ha.lawful .source) (ha.lawful .destination)

/-- What a rule of the document has become is settled. -/
theorem settled_verdictOf (hm : Membership.OfNames m.groups) {a : AccessRule} (hb : BriefRule a)
    (h : passes (verdictOf m declared a).complaints = true) :
    Settled m (Rule.ofAccessRule a) (verdictOf m declared a).rule :=
  settled_of_course hm (tractable_ofAccessRule hb) h

/-- The rules of two documents that reach the graph. -/
theorem twins_finished (hm : Membership.OfNames m.groups) {as bs : List AccessRule}
    (h : List.Forall₂ AccessRule.SameTokens as bs)
    (ha : ∀ a ∈ as, BriefRule a ∧ passes (verdictOf m declared a).complaints = true)
    (hb : ∀ b ∈ bs, BriefRule b ∧ passes (verdictOf m declared b).complaints = true) :
    List.Forall₂ (Twin m) (finished m declared as) (finished m declared bs) := by
  rw [finished_of_passes fun a h => (ha a h).2, finished_of_passes fun b h => (hb b h).2]
  induction h with
  | nil => exact .nil
  | cons hab _ ih =>
    obtain ⟨hba, hpa⟩ := ha _ (List.mem_cons_self)
    obtain ⟨hbb, hpb⟩ := hb _ (List.mem_cons_self)
    refine .cons ⟨_, _, hab, settled_verdictOf hm hba hpa, settled_verdictOf hm hbb hpb⟩ ?_
    exact ih (fun a h => ha a (List.mem_cons_of_mem _ h)) fun b h => hb b (List.mem_cons_of_mem _ h)

/-- The graph of a compilation, also of one with errors. -/
theorem sound_graph {d : Document} {o : Options} {c : Compilation} (hm : Membership.OfNames m.groups)
    (hc : Compiled d o m declared c) : c.graph.Sound := by
  have hfinished : ((finished m declared d.rules).foldl registered (Compilation.foldMembership {} m)).Sound :=
    sound_finished (m := m) (sound_foldMembership hm) fun r hr => by
      obtain ⟨a, ha, rfl⟩ := List.mem_map.mp hr
      obtain ⟨hmem, hpass⟩ := List.mem_filter.mp ha
      exact ⟨a, settled_verdictOf hm (hc.brief a hmem) hpass⟩
  have hnodes := hc.nodes_eq
  exact ⟨fun hn => hfinished.keyed (hnodes ▸ hn), fun hn => hfinished.lawful (hnodes ▸ hn)⟩

end

/-- Documents that differ in the order and repetition of tokens only are declared alike, if
    neither has an error. -/
theorem output_of_sameTokens {d d' : Document} {o : Options} {res res' : Result} (hd : d.SameTokens d')
    (h : (compile d o).1 = .ok res) (h' : (compile d' o).1 = .ok res') (he : res.errors = []) (he' : res'.errors = []) :
    ∃ out, res.output = some out ∧ res'.output = some out := by
  obtain ⟨m, declared, ht⟩ := exists_tables h he
  have ht' : Tables d' o m declared := ⟨hd.groups ▸ ht.membership, hd.tagOwners ▸ ht.tags⟩
  have hm := Membership.ofNames_of_ofTable ht.membership
  have hc := (compile_spec ht h).1
  have hc' := (compile_spec ht' h').1
  have hpass := (errors_eq_nil_iff ht h).mp he
  have hpass' := (errors_eq_nil_iff ht' h').mp he'
  have htwins := twins_finished hm hd.rules (fun a ha => ⟨hc.brief a ha, hpass a ha⟩)
    fun a ha => ⟨hc'.brief a ha, hpass' a ha⟩
  have hkeys : ∀ k, k ∈ (compile d o).2.graph.nodes.keys ↔ k ∈ (compile d' o).2.graph.nodes.keys := by
    rw [hc.nodes_eq, hc'.nodes_eq]
    exact mem_keys_twins htwins fun _ => Iff.rfl
  have hpolicies : (compile d o).2.graph.policies = (compile d' o).2.graph.policies := by
    have hnone := policies_foldMembership m
    rw [hc.graph, hc'.graph, policies_laidOut hnone, policies_laidOut hnone, scheduled_twins htwins]
  obtain ⟨out, hout, -⟩ := emit?_some (compile d o).2.graph m o
  refine ⟨out, (output_eq ht h he).trans hout, (output_eq ht' h' he').trans ?_⟩
  rw [← emit?_congr (sound_graph hm hc) (sound_graph hm hc') hkeys hpolicies, hout]

def plain : AccessRule :=
  { index := 3, action := .accept, sources := [.text "tag:a", .text "10.0.0.1"],
    destinations := [.text "tag:b:80", .text "tag:c", .text "tag:b:22"] }

def shuffled : AccessRule :=
  { plain with
    sources := [.text "10.0.0.1", .text "tag:a", .text "10.0.0.1"]
    destinations := [.text "tag:b:22", .text "tag:c", .text "tag:b:80"] }

theorem output_of_shuffled : ∃ res res' out, (compile { rules := [plain] }).1 = .ok res ∧
    (compile { rules := [shuffled] }).1 = .ok res' ∧ res.output = some out ∧ res'.output = some out := by
  have hsources : ∀ x y t : Value, t ∈ [x, y] ↔ t ∈ [y, x, y] := by
    intro x y t
    simp only [List.mem_cons, List.not_mem_nil]
    tauto
  have hdestinations : ∀ x y z t : Value, t ∈ [x, y, z] ↔ t ∈ [z, y, x] := by
    intro x y z t
    simp only [List.mem_cons, List.not_mem_nil]
    tauto
  have hsame : plain.SameTokens shuffled := ⟨rfl, rfl, rfl, hsources _ _, hdestinations _ _ _⟩
  have hd : Document.SameTokens { rules := [plain] } { rules := [shuffled] } := ⟨rfl, rfl, .cons hsame .nil⟩
  obtain ⟨res, -, h, he, -⟩ := compile_single (a := plain) (by decide +kernel)
    ((passes_course (tractable_ofAccessRule (by decide +kernel))).mpr ⟨by decide +kernel, by decide +kernel⟩)
  obtain ⟨res', -, h', he', -⟩ := compile_single (a := shuffled) (by decide +kernel)
    ((passes_course (tractable_ofAccessRule (by decide +kernel))).mpr ⟨by decide +kernel, by decide +kernel⟩)
  obtain ⟨out, hout, hout'⟩ := output_of_sameTokens hd h h' he he'
  exact ⟨res, res', out, h, h', hout, hout'⟩

end Compiler

end Portcullis

/-
  Portcullis.Proofs.Counterparts — rules that come to the same edges.

  Two settled rules are counterparts if they agree in the keys of their sources and in what the
  edges tell of their destinations (`look`), whatever the order of their slots. What a rule is
  settled to depends on its endpoints and on what these stand for alone, so rules that read as
  the same endpoints, standing for the same keys, have counterparts (`counterpart_of_akin`).
  - Edges go by port restriction and by key. Restrictions are ranked, no two canonical ones
    alike (`rank_injective`), so the edges of counterparts stand in one order
    (`scheduled_counterparts`).
-/

import Portcullis.Proofs.Nodes
import Mathlib.Data.Prod.Lex
import Mathlib.Order.WithBot
import Mathlib.Data.List.Lex
import Mathlib.Data.List.Nodup

namespace Portcullis.Compiler

open Portcullis.Graph

/-! ## The rank of a port restriction -/

/-- The place of a restriction among others. -/
def rank (p : Ports) : WithBot (List (Int ×ₗ Int)) := p.map fun l => (portKeys l).map toLex

theorem keyBefore_iff {a b : Int × Int} : Ports.keyBefore a b = true ↔ toLex a < toLex b := by
  simp [Ports.keyBefore, Prod.Lex.toLex_lt_toLex]

theorem listBefore_iff {as bs : List (Int × Int)} :
    Ports.listBefore as bs = true ↔ as.map toLex < bs.map toLex := by
  induction as generalizing bs with
  | nil => cases bs <;> simp [Ports.listBefore]
  | cons a as ih =>
    cases bs with
    | nil => simp [Ports.listBefore]
    | cons b bs =>
      simp [Ports.listBefore, keyBefore_iff, ih, List.cons_lt_cons_iff]

theorem restrictionBefore_iff {p q : Ports} : restrictionBefore p q = true ↔ rank p < rank q := by
  cases p with
  | none =>
    cases q with
    | none => exact iff_of_false (by simp [restrictionBefore]) (lt_irrefl _)
    | some b => exact iff_of_true rfl (WithBot.bot_lt_coe _)
  | some a =>
    cases q with
    | none => exact iff_of_false (by simp [restrictionBefore]) (WithBot.not_lt_bot _)
    | some b => exact listBefore_iff.trans WithBot.coe_lt_coe.symm

theorem portKeys_texts {rs : List PortRange} (h : ∀ r ∈ rs, r.valid = true) :
    portKeys (rs.map PortRange.text) = rs.map fun r => ((r.first : Int), (r.last : Int)) := by
  unfold portKeys
  rw [List.filterMap_map, ← List.filterMap_eq_map]
  exact List.filterMap_congr fun r hr => PortRange.sortKey?_text (h r hr)

theorem rank_injective {p q : Ports} (hp : Ports.Canonical p) (hq : Ports.Canonical q) (h : rank p = rank q) :
    p = q := by
  cases p with
  | none =>
    cases q with
    | none => rfl
    | some b => cases h
  | some a =>
    cases q with
    | none => cases h
    | some b =>
      obtain ⟨rs, -, hrs, rfl⟩ := hp a rfl
      obtain ⟨qs, -, hqs, rfl⟩ := hq b rfl
      have hkeys := List.map_injective_iff.mpr toLex.injective (WithBot.coe_inj.mp h)
      rw [portKeys_texts fun r hr => hrs r (PortRange.mem_normal.mp hr),
        portKeys_texts fun r hr => hqs r (PortRange.mem_normal.mp hr)] at hkeys
      rw [List.map_injective_iff.mpr (fun r q => PortRange.eq_of_ends) hkeys]

/-! ## Rules that read alike -/

def look (e : Endpoint) : (String × Ports) × Bool := ((e.key, e.ports), e.isGroup)

theorem map_key_looks (es : List Endpoint) : (es.map look).map (fun v => v.1.1) = es.map Endpoint.key := by
  rw [List.map_map]
  rfl

/-- Rules that read as the same endpoints, which stand for the same keys. -/
structure Akin (m m' : Membership) (a b : AccessRule) : Prop where
  index : a.index = b.index
  action : a.action = b.action
  protocol : a.protocol = b.protocol
  sources : ∀ e, e ∈ readable a.sources ↔ e ∈ readable b.sources
  destinations : ∀ e, e ∈ readable a.destinations ↔ e ∈ readable b.destinations
  fromSources : ∀ e ∈ readable a.sources, ∀ k, Covers m (asOrigin e) k ↔ Covers m' (asOrigin e) k
  toDestinations : ∀ e ∈ readable a.destinations, ∀ k, Covers m e k ↔ Covers m' e k

theorem Akin.symm {m m' : Membership} {a b : AccessRule} (h : Akin m m' a b) : Akin m' m b a where
  index := h.index.symm
  action := h.action.symm
  protocol := h.protocol.symm
  sources e := (h.sources e).symm
  destinations e := (h.destinations e).symm
  fromSources e he k := (h.fromSources e ((h.sources e).mpr he) k).symm
  toDestinations e he k := (h.toDestinations e ((h.destinations e).mpr he) k).symm

structure Counterpart (r s : Rule) : Prop where
  index : r.index = s.index
  action : r.action = s.action
  protocol : r.protocol = s.protocol
  sources : ∀ k, k ∈ r.sources.keys ↔ k ∈ s.sources.keys
  looks : (r.destinations.values.map look).Perm (s.destinations.values.map look)
  canonical : ∀ x ∈ r.destinations.values, Ports.Canonical x.ports
  distinct : (r.destinations.values.map Endpoint.key).Nodup

section

variable {m m' : Membership} {a b : AccessRule} {r s : Rule}

theorem mem_sources_congr (hr : Settled m (Rule.ofAccessRule a) r) (hs : Settled m' (Rule.ofAccessRule b) s)
    (h : Akin m m' a b) (k : String) : k ∈ r.sources.keys ↔ k ∈ s.sources.keys := by
  rw [hr.mem_sources, hs.mem_sources]
  exact exists_congr fun e => (and_congr_right fun he => h.fromSources e he k).trans (and_congr_left' (h.sources e))

theorem mem_destinations_congr (hr : Settled m (Rule.ofAccessRule a) r) (hs : Settled m' (Rule.ofAccessRule b) s)
    (h : Akin m m' a b) (k : String) : k ∈ r.destinations.keys ↔ k ∈ s.destinations.keys := by
  rw [hr.mem_destinations, hs.mem_destinations]
  exact exists_congr fun e =>
    (and_congr_right fun he => h.toDestinations e he k).trans (and_congr_left' (h.destinations e))

/-- Each destination has its like in the other rule. -/
theorem exists_like (hr : Settled m (Rule.ofAccessRule a) r) (hs : Settled m' (Rule.ofAccessRule b) s)
    (h : Akin m m' a b) {x : Endpoint} (hx : x ∈ r.destinations.values) :
    ∃ y ∈ s.destinations.values, look y = look x := by
  obtain ⟨k, hk⟩ := Table.mem_values_iff.mp hx
  have hxk : x.key = k := hr.keyed .destination hk
  obtain ⟨y, hy⟩ := Table.mem_keys_iff.mp ((mem_destinations_congr hr hs h k).mp (Table.mem_keys_iff.mpr ⟨x, hk⟩))
  have hyv : y ∈ s.destinations.values := Table.mem_values_iff.mpr ⟨k, hy⟩
  have hkey : y.key = x.key := (hs.keyed .destination hy).trans hxk.symm
  have hports : y.ports = x.ports := by
    apply (hs.canonical y hyv).ext (hr.canonical x hx)
    intro t
    rw [hs.allows y hyv, hr.allows x hx, hkey]
    exact exists_congr fun e => ((and_congr_right fun he =>
      and_congr_left' (h.toDestinations e he x.key)).trans (and_congr_left' (h.destinations e))).symm
  have hgroup : y.isGroup = x.isGroup :=
    Target.isGroup_of_face (Target.face_of_key (hs.lawful .destination y hyv) (hr.lawful .destination x hx) hkey)
  refine ⟨y, hyv, ?_⟩
  unfold look
  rw [hkey, hports, hgroup]

theorem nodup_looks (hr : Settled m (Rule.ofAccessRule a) r) : (r.destinations.values.map look).Nodup := by
  refine List.Nodup.of_map (fun v => v.1.1) ?_
  rw [map_key_looks, hr.keys_destinations]
  exact r.destinations.keys_nodup

/-- What akin rules are settled to. -/
theorem counterpart_of_akin (hr : Settled m (Rule.ofAccessRule a) r) (hs : Settled m' (Rule.ofAccessRule b) s)
    (h : Akin m m' a b) : Counterpart r s where
  index := (congrArg Rule.index hr.same).trans (h.index.trans (congrArg Rule.index hs.same).symm)
  action := (congrArg Rule.action hr.same).trans (h.action.trans (congrArg Rule.action hs.same).symm)
  protocol := (congrArg Rule.protocol hr.same).trans (h.protocol.trans (congrArg Rule.protocol hs.same).symm)
  sources := mem_sources_congr hr hs h
  canonical := hr.canonical
  distinct := hr.keys_destinations ▸ r.destinations.keys_nodup
  looks := by
    apply (List.perm_ext_iff_of_nodup (nodup_looks hr) (nodup_looks hs)).mpr
    intro v
    constructor
    · intro hv
      obtain ⟨x, hx, rfl⟩ := List.mem_map.mp hv
      obtain ⟨y, hy, hlook⟩ := exists_like hr hs h hx
      exact List.mem_map.mpr ⟨y, hy, hlook⟩
    · intro hv
      obtain ⟨y, hy, rfl⟩ := List.mem_map.mp hv
      obtain ⟨x, hx, hlook⟩ := exists_like hs hr h.symm hy
      exact List.mem_map.mpr ⟨x, hx, hlook⟩

/-! ## Their edges -/

theorem Counterpart.symm (h : Counterpart r s) : Counterpart s r where
  index := h.index.symm
  action := h.action.symm
  protocol := h.protocol.symm
  sources k := (h.sources k).symm
  looks := h.looks.symm
  canonical x hx := by
    obtain ⟨y, hy, hlook⟩ := List.mem_map.mp (h.looks.mem_iff.mpr (List.mem_map_of_mem (f := look) hx))
    have hports : y.ports = x.ports := congrArg (fun v => v.1.2) hlook
    exact hports ▸ h.canonical y hy
  distinct := by
    have hkeys := h.looks.map fun v => v.1.1
    rw [map_key_looks, map_key_looks] at hkeys
    exact hkeys.nodup_iff.mp h.distinct

/-- A part of the destinations that is chosen by what is seen of them. -/
theorem perm_chosen (h : (r.destinations.values.map look).Perm (s.destinations.values.map look)) (c : Bool → Bool) :
    ((r.destinations.values.filter fun e => c e.isGroup).map fun e => (e.key, e.ports)).Perm
      ((s.destinations.values.filter fun e => c e.isGroup).map fun e => (e.key, e.ports)) := by
  have hlook : ∀ es : List Endpoint, (es.filter fun e => c e.isGroup).map (fun e => (e.key, e.ports)) =
      ((es.map look).filter fun v => c v.2).map Prod.fst := by
    intro es
    rw [List.filter_map, List.map_map]
    rfl
  rw [hlook, hlook]
  exact (h.filter _).map _

/-- The restrictions of the group edges of a rule, in order. -/
theorem groupEdges_ranked (r : Rule) : groupEdges r =
    ((orderedParts r).map Prod.fst).map fun p => edge r .groupToGroup (keysWith p (r.groups .destination)) p := by
  rw [groupEdges_eq, List.map_map]
  apply List.map_congr_left
  intro part hpart
  obtain ⟨hkeys, -⟩ := ((parts_partition _).mem_iff part.1 part.2).mp ((orderedParts_perm r).mem_iff.mp hpart)
  show edge r .groupToGroup part.2 part.1 = edge r .groupToGroup (keysWith part.1 _) part.1
  rw [← hkeys]

theorem pairwise_rank (r : Rule) : ((orderedParts r).map Prod.fst).Pairwise fun p q => rank p ≤ rank q := by
  have hle : ∀ {x y : Ports × List String}, (!restrictionBefore y.1 x.1) = true ↔ rank x.1 ≤ rank y.1 := by
    intro x y
    rw [Bool.not_eq_true', ← Bool.not_eq_true, restrictionBefore_iff, not_lt]
  refine List.pairwise_map.mpr ((List.pairwise_mergeSort ?_ ?_ (partition (r.groups .destination))).imp hle.mp)
  · exact fun x y z hxy hyz => hle.mpr ((hle.mp hxy).trans (hle.mp hyz))
  · intro x y
    rcases le_total (rank x.1) (rank y.1) with h | h
    · simp [hle.mpr h]
    · simp [hle.mpr h]

theorem mem_restrictions {r : Rule} {p : Ports} :
    p ∈ (orderedParts r).map Prod.fst ↔ p ∈ (r.groups .destination).map Endpoint.ports :=
  ((orderedParts_perm r).map _).mem_iff.trans mem_fst_partition

theorem Counterpart.canonical_restriction (h : Counterpart r s) {p : Ports} (hp : p ∈ (orderedParts r).map Prod.fst) :
    Ports.Canonical p := by
  obtain ⟨x, hx, rfl⟩ := List.mem_map.mp (mem_restrictions.mp hp)
  exact h.canonical x (List.mem_filter.mp hx).1

theorem edge_congr (h : Counterpart r s) (kind : PolicyKind) {ds es : List String} (hd : ds.Perm es) (p : Ports) :
    edge r kind ds p = edge s kind es p := by
  have hsources : Key.sorted r.sources.keys = Key.sorted s.sources.keys := Key.sorted_congr
    ((List.perm_ext_iff_of_nodup r.sources.keys_nodup s.sources.keys_nodup).mpr h.sources)
  simp only [edge, h.index, h.action, h.protocol, hsources, Key.sorted_congr hd]

theorem groupEdges_congr (h : Counterpart r s) : groupEdges r = groupEdges s := by
  have hgroups := perm_chosen h.looks id
  have hports : ((r.groups .destination).map Endpoint.ports).Perm ((s.groups .destination).map Endpoint.ports) := by
    have := hgroups.map Prod.snd
    rwa [List.map_map, List.map_map] at this
  have hkeys : ∀ p, (keysWith p (r.groups .destination)).Perm (keysWith p (s.groups .destination)) := by
    intro p
    have hwith : ∀ es : List Endpoint, keysWith p es =
        ((es.map fun e => (e.key, e.ports)).filter fun v => decide (v.2 = p)).map Prod.fst := by
      intro es
      rw [List.filter_map, List.map_map]
      rfl
    rw [hwith, hwith]
    exact (hgroups.filter _).map _
  -- No two canonical restrictions have one rank, so there is only one order to put them in.
  have hparts : (orderedParts r).map Prod.fst = (orderedParts s).map Prod.fst := by
    refine List.Perm.eq_of_pairwise (fun p q hp hq hpq hqp => ?_) (pairwise_rank r) (pairwise_rank s) ?_
    · exact rank_injective (h.canonical_restriction hp) (h.symm.canonical_restriction hq) (le_antisymm hpq hqp)
    · apply (List.perm_ext_iff_of_nodup (nodup_restrictions r) (nodup_restrictions s)).mpr
      intro p
      rw [mem_restrictions, mem_restrictions, hports.mem_iff]
  rw [groupEdges_ranked, groupEdges_ranked, hparts]
  exact List.map_congr_left fun p _ => edge_congr h .groupToGroup (hkeys p) p

/-- The hosts and networks of such a rule stand in the order of their keys, each once. -/
theorem Counterpart.resources_strict (h : Counterpart r s) :
    ((orderedResources r).map fun e => (e.key, e.ports)).Pairwise fun u v => u.1 < v.1 :=
  List.pairwise_map.mpr (Key.strict_mergeSort Endpoint.key (h.distinct.sublist (List.filter_sublist.map _)))

theorem resourceEdges_congr (h : Counterpart r s) : resourceEdges r = resourceEdges s := by
  have hseen : (orderedResources r).map (fun e => (e.key, e.ports)) =
      (orderedResources s).map fun e => (e.key, e.ports) := by
    refine List.Perm.eq_of_pairwise (fun u v _ _ huv hvu => absurd (String.lt_trans huv hvu) (String.lt_irrefl _))
      h.resources_strict h.symm.resources_strict ?_
    exact (((orderedResources_perm r).map _).trans (perm_chosen h.looks Bool.not)).trans
      ((orderedResources_perm s).map _).symm
  have hedges : ∀ r : Rule, resourceEdges r = ((orderedResources r).map fun e => (e.key, e.ports)).map
      fun v => edge r .groupToResource [v.1] v.2 := by
    intro r
    rw [resourceEdges_eq, List.map_map]
    rfl
  rw [hedges, hedges, hseen]
  exact List.map_congr_left fun v _ => edge_congr h .groupToResource (.refl _) v.2

theorem scheduled_counterparts {rs ss : List Rule} (h : List.Forall₂ Counterpart rs ss) (stagewise : Bool) :
    scheduled stagewise rs = scheduled stagewise ss := by
  have hflat : ∀ {f : Rule → List Edge}, (∀ {r s}, Counterpart r s → f r = f s) → rs.flatMap f = ss.flatMap f := by
    intro f hf
    induction h with
    | nil => rfl
    | cons hrs _ ih => rw [List.flatMap_cons, List.flatMap_cons, hf hrs, ih]
  unfold scheduled
  rw [hflat groupEdges_congr, hflat resourceEdges_congr]
  rw [hflat fun h => by rw [groupEdges_congr h, resourceEdges_congr h]]

end

end Portcullis.Compiler

/-
  Portcullis.Proofs.Edges — the edges of a settled rule.

  The groups among the destinations are put together by port restriction (`partition`); each
  part gives an edge, and each host or network gives one. So each destination is in one edge
  of its rule (`perm_destinations`), with its own kind and port restriction.
-/

import Portcullis.Compiler.Policies

namespace Portcullis

namespace Key

theorem pairwise_mergeSort {α : Type} (f : α → String) (xs : List α) :
    (xs.mergeSort fun a b => decide (f a ≤ f b)).Pairwise fun a b => f a ≤ f b := by
  have h := @List.pairwise_mergeSort α (fun a b => decide (f a ≤ f b))
    (fun a b c hab hbc => by simpa using String.le_trans (by simpa using hab) (by simpa using hbc))
    (fun a b => by simpa using String.le_total (f a) (f b)) xs
  simpa using h

/-- Things whose keys occur once are sorted strictly. -/
theorem strict_mergeSort {α : Type} (f : α → String) {xs : List α} (h : (xs.map f).Nodup) :
    (xs.mergeSort fun a b => decide (f a ≤ f b)).Pairwise fun a b => f a < f b := by
  have hne : (xs.mergeSort fun a b => decide (f a ≤ f b)).Pairwise fun a b => f a ≠ f b :=
    List.pairwise_map.mp (((List.mergeSort_perm _ _).map f).nodup_iff.mpr h)
  refine (pairwise_mergeSort f xs).imp₂ ?_ hne
  intro a b hab hne
  exact String.not_le.mp fun hba => hne (String.le_antisymm hab hba)

theorem sorted_pairwise (keys : List String) : (sorted keys).Pairwise (· ≤ ·) := pairwise_mergeSort id keys

theorem sorted_strict {keys : List String} (h : keys.Nodup) : (sorted keys).Pairwise (· < ·) :=
  strict_mergeSort id (by simpa using h)

@[simp] theorem mem_sorted {keys : List String} {k : String} : k ∈ sorted keys ↔ k ∈ keys :=
  (sorted_perm keys).mem_iff

/-- Sorting forgets the order. -/
theorem sorted_congr {keys keys' : List String} (h : keys.Perm keys') : sorted keys = sorted keys' :=
  ((sorted_perm keys).trans (h.trans (sorted_perm keys').symm)).eq_of_pairwise
    (fun _ _ _ _ hab hba => String.le_antisymm hab hba) (sorted_pairwise keys) (sorted_pairwise keys')

theorem sorted_single (k : String) : sorted [k] = [k] := List.mergeSort_singleton k

theorem sorted_of_pairwise {keys : List String} (h : keys.Pairwise (· ≤ ·)) : sorted keys = keys :=
  List.mergeSort_of_pairwise (by simpa using h)

end Key

namespace Compiler

/-! ## Parts -/

variable {es : List Endpoint}

def keysWith (p : Ports) (es : List Endpoint) : List String := (es.filter fun e => decide (e.ports = p)).map Endpoint.key

theorem keysWith_append (p : Ports) (es : List Endpoint) (e : Endpoint) :
    keysWith p (es ++ [e]) = keysWith p es ++ if e.ports = p then [e.key] else [] := by
  unfold keysWith
  by_cases h : e.ports = p <;> simp [h]

/-- The parts of a list of endpoints: for each restriction that occurs, once, all keys that
    have it. -/
structure Parts (parts : List (Ports × List String)) (es : List Endpoint) : Prop where
  nodup : (parts.map Prod.fst).Nodup
  mem_iff : ∀ p ks, (p, ks) ∈ parts ↔ ks = keysWith p es ∧ ks ≠ []

theorem mem_fst_go {e : Endpoint} {parts : List (Ports × List String)} {p : Ports} :
    p ∈ (partition.go e parts).map Prod.fst ↔ p ∈ parts.map Prod.fst ∨ p = e.ports := by
  induction parts with
  | nil => simp [partition.go]
  | cons part parts ih =>
    obtain ⟨q, ks⟩ := part
    unfold partition.go
    split
    · rename_i h
      subst h
      simp only [List.map_cons, List.mem_cons]
      constructor
      · intro hor
        rcases hor with rfl | h
        · exact .inr rfl
        · exact .inl (.inr h)
      · intro hor
        rcases hor with (rfl | h) | rfl
        · exact .inl rfl
        · exact .inr h
        · exact .inl rfl
    · simp only [List.map_cons, List.mem_cons, ih, or_assoc]

theorem nodup_go {e : Endpoint} {parts : List (Ports × List String)} (h : (parts.map Prod.fst).Nodup) :
    ((partition.go e parts).map Prod.fst).Nodup := by
  induction parts with
  | nil => simp [partition.go]
  | cons part parts ih =>
    obtain ⟨q, ks⟩ := part
    obtain ⟨hq, hn⟩ := List.nodup_cons.mp h
    unfold partition.go
    split
    · exact h
    · rename_i hne
      refine List.nodup_cons.mpr ⟨fun hm => ?_, ih hn⟩
      rcases mem_fst_go.mp hm with hm | hm
      · exact hq hm
      · exact hne hm

/-- A part after one more endpoint: its own part has gained a key, the others are as before. -/
theorem mem_go {e : Endpoint} {parts : List (Ports × List String)} (h : (parts.map Prod.fst).Nodup) {p : Ports}
    {ks : List String} :
    (p, ks) ∈ partition.go e parts ↔
      if p = e.ports then (∃ ks', (p, ks') ∈ parts ∧ ks = ks' ++ [e.key]) ∨ (p ∉ parts.map Prod.fst ∧ ks = [e.key])
      else (p, ks) ∈ parts := by
  induction parts with
  | nil =>
    by_cases hp : p = e.ports <;> simp [partition.go, hp]
  | cons part parts ih =>
    obtain ⟨q, ks₀⟩ := part
    obtain ⟨hq, hn⟩ := List.nodup_cons.mp h
    unfold partition.go
    split
    · rename_i he
      subst he
      by_cases hp : p = e.ports
      · subst hp
        have hno : ∀ ks, (e.ports, ks) ∉ parts := fun ks hm => hq (List.mem_map.mpr ⟨_, hm, rfl⟩)
        simp [hno]
      · simp [hp]
    · rename_i he
      rw [List.mem_cons, ih hn]
      by_cases hp : p = e.ports
      · subst hp
        have hne : ¬ e.ports = q := fun h => he h.symm
        simp [hne]
      · simp [hp]

theorem parts_partition (es : List Endpoint) : Parts (partition es) es := by
  have h : ∀ (ds es : List Endpoint) parts, Parts parts es →
      Parts (ds.foldl (fun parts e => partition.go e parts) parts) (es ++ ds) := by
    intro ds
    induction ds with
    | nil => intro es parts hp; simpa using hp
    | cons d ds ih =>
      intro es parts hp
      have hgo : Parts (partition.go d parts) (es ++ [d]) := by
        refine ⟨nodup_go hp.nodup, fun p ks => ?_⟩
        rw [mem_go hp.nodup, keysWith_append]
        by_cases hd : p = d.ports
        · subst hd
          simp only [if_true]
          constructor
          · intro hor
            rcases hor with ⟨ks', hk, rfl⟩ | ⟨hno, rfl⟩
            · exact ⟨by rw [← ((hp.mem_iff _ _).mp hk).1], by simp⟩
            · have hnil : keysWith d.ports es = [] := Classical.byContradiction fun hne =>
                hno (List.mem_map.mpr ⟨_, (hp.mem_iff _ _).mpr ⟨rfl, hne⟩, rfl⟩)
              exact ⟨by rw [hnil]; rfl, by simp⟩
          · intro hex
            rcases hex with ⟨rfl, -⟩
            by_cases hnil : keysWith d.ports es = []
            · refine .inr ⟨fun hm => ?_, by rw [hnil]; rfl⟩
              obtain ⟨⟨p, ks⟩, hm, rfl⟩ := List.mem_map.mp hm
              exact ((hp.mem_iff _ _).mp hm).2 (((hp.mem_iff _ _).mp hm).1.trans hnil)
            · exact .inl ⟨_, (hp.mem_iff _ _).mpr ⟨rfl, hnil⟩, rfl⟩
        · have hd' : ¬ d.ports = p := fun e => hd e.symm
          simp only [if_neg hd, if_neg hd', List.append_nil]
          exact hp.mem_iff p ks
      have := ih (es ++ [d]) _ hgo
      rwa [List.append_assoc] at this
  have h0 : Parts [] [] := ⟨List.nodup_nil, by simp [keysWith]⟩
  simpa [partition] using h es [] [] h0

/-- There is a part for each restriction. -/
theorem mem_fst_partition {es : List Endpoint} {p : Ports} :
    p ∈ (partition es).map Prod.fst ↔ p ∈ es.map Endpoint.ports := by
  have hparts := parts_partition es
  constructor
  · intro hm
    obtain ⟨⟨q, ks⟩, hpart, rfl⟩ := List.mem_map.mp hm
    obtain ⟨rfl, hne⟩ := (hparts.mem_iff q ks).mp hpart
    obtain ⟨k, hk⟩ := List.exists_mem_of_ne_nil _ hne
    obtain ⟨e, he, -⟩ := List.mem_map.mp hk
    obtain ⟨he, hq⟩ := List.mem_filter.mp he
    exact List.mem_map.mpr ⟨e, he, of_decide_eq_true hq⟩
  · intro hm
    obtain ⟨e, he, rfl⟩ := List.mem_map.mp hm
    have hk : e.key ∈ keysWith e.ports es := List.mem_map_of_mem (List.mem_filter.mpr ⟨he, by simp⟩)
    exact List.mem_map.mpr ⟨_, (hparts.mem_iff e.ports _).mpr ⟨rfl, List.ne_nil_of_mem hk⟩, rfl⟩

/-- The parts hold every key as often as it is there. -/
theorem perm_partition (es : List Endpoint) : ((partition es).flatMap Prod.snd).Perm (es.map Endpoint.key) := by
  have hgo : ∀ (e : Endpoint) parts,
      ((partition.go e parts).flatMap Prod.snd).Perm (parts.flatMap Prod.snd ++ [e.key]) := by
    intro e parts
    induction parts with
    | nil => exact .refl _
    | cons part parts ih =>
      obtain ⟨q, ks⟩ := part
      unfold partition.go
      split
      · simp only [List.flatMap_cons, List.append_assoc]
        exact List.perm_append_comm.append_left ks
      · simp only [List.flatMap_cons, List.append_assoc]
        exact ih.append_left ks
  have h : ∀ (ds : List Endpoint) parts, ((ds.foldl (fun parts e => partition.go e parts) parts).flatMap Prod.snd).Perm
      (parts.flatMap Prod.snd ++ ds.map Endpoint.key) := by
    intro ds
    induction ds with
    | nil => intro parts; simp
    | cons d ds ih =>
      intro parts
      refine (ih (partition.go d parts)).trans ?_
      simpa using (hgo d parts).append_right (ds.map Endpoint.key)
  exact h es []

/-! ## Edges -/

def orderedParts (r : Rule) : List (Ports × List String) :=
  (partition (r.groups .destination)).mergeSort fun a b => !restrictionBefore b.1 a.1

theorem groupEdges_eq (r : Rule) :
    groupEdges r = (orderedParts r).map fun part => edge r .groupToGroup part.2 part.1 := rfl

theorem orderedParts_perm (r : Rule) :
    (orderedParts r).Perm (partition (r.groups .destination)) := List.mergeSort_perm _ _

def orderedResources (r : Rule) : List Endpoint := (r.resources .destination).mergeSort fun a b => decide (a.key ≤ b.key)

theorem resourceEdges_eq (r : Rule) :
    resourceEdges r = (orderedResources r).map fun e => edge r .groupToResource [e.key] e.ports := rfl

theorem orderedResources_perm (r : Rule) :
    (orderedResources r).Perm (r.resources .destination) := List.mergeSort_perm _ _

theorem mem_groupEdges {r : Rule} {e : Edge} :
    e ∈ groupEdges r ↔ ∃ p, keysWith p (r.groups .destination) ≠ [] ∧
      e = edge r .groupToGroup (keysWith p (r.groups .destination)) p := by
  rw [groupEdges_eq]
  simp only [List.mem_map, (orderedParts_perm r).mem_iff]
  constructor
  · intro h
    rcases h with ⟨⟨p, ks⟩, hm, rfl⟩
    obtain ⟨rfl, hne⟩ := ((parts_partition _).mem_iff p ks).mp hm
    exact ⟨p, hne, rfl⟩
  · intro h
    rcases h with ⟨p, hne, rfl⟩
    exact ⟨(p, _), ((parts_partition _).mem_iff p _).mpr ⟨rfl, hne⟩, rfl⟩

theorem mem_resourceEdges {r : Rule} {e : Edge} :
    e ∈ resourceEdges r ↔ ∃ x ∈ r.resources .destination, e = edge r .groupToResource [x.key] x.ports := by
  rw [resourceEdges_eq]
  simp only [List.mem_map, (orderedResources_perm r).mem_iff, eq_comm]

theorem common_of_mem {r : Rule} {x : Edge} (hx : x ∈ groupEdges r ++ resourceEdges r) :
    x.ruleIndex = r.index ∧ x.action = r.action ∧ x.protocol = r.protocol ∧ x.sources = Key.sorted r.sources.keys ∧
      ∃ ks, x.destinations = Key.sorted ks := by
  rcases List.mem_append.mp hx with hx | hx
  · obtain ⟨p, -, rfl⟩ := mem_groupEdges.mp hx
    exact ⟨rfl, rfl, rfl, rfl, _, rfl⟩
  · obtain ⟨e, -, rfl⟩ := mem_resourceEdges.mp hx
    exact ⟨rfl, rfl, rfl, rfl, _, rfl⟩

theorem nodup_restrictions (r : Rule) : ((orderedParts r).map Prod.fst).Nodup :=
  ((orderedParts_perm r).map _).nodup_iff.mpr (parts_partition _).nodup

/-- No two group edges of a rule have one port restriction. -/
theorem nodup_ports_groupEdges (r : Rule) : ((groupEdges r).map Edge.ports).Nodup := by
  have h : (groupEdges r).map Edge.ports = (orderedParts r).map Prod.fst := by
    rw [groupEdges_eq, List.map_map]
    rfl
  rw [h]
  exact nodup_restrictions r

/-- Each destination of a rule is in one of its edges. -/
theorem perm_destinations (r : Rule) :
    ((groupEdges r ++ resourceEdges r).flatMap Edge.destinations).Perm (r.destinations.values.map Endpoint.key) := by
  have hgroups : ((groupEdges r).flatMap Edge.destinations).Perm ((r.groups .destination).map Endpoint.key) := by
    rw [groupEdges_eq, List.flatMap_map]
    have hsort : ∀ parts : List (Ports × List String),
        (parts.flatMap fun part => (edge r .groupToGroup part.2 part.1).destinations).Perm (parts.flatMap Prod.snd) := by
      intro parts
      induction parts with
      | nil => exact .refl _
      | cons part parts ih => exact (Key.sorted_perm part.2).append ih
    exact (hsort _).trans (((orderedParts_perm r).flatMap_right _).trans (perm_partition _))
  have hresources : ((resourceEdges r).flatMap Edge.destinations).Perm ((r.resources .destination).map Endpoint.key) := by
    have h : (resourceEdges r).flatMap Edge.destinations = (orderedResources r).map Endpoint.key := by
      rw [resourceEdges_eq, List.flatMap_map, List.map_eq_flatMap]
      congr 1
      funext e
      exact Key.sorted_single e.key
    rw [h]
    exact (orderedResources_perm r).map _
  rw [List.flatMap_append]
  refine (hgroups.append hresources).trans ?_
  rw [← List.map_append]
  exact (List.filter_append_perm Endpoint.isGroup r.destinations.values).map _

end Compiler

end Portcullis

/-
  Portcullis.Proofs.Appending — one more rule at the end of a document.

  A rule that is appended is registered and stored after all others, also when the stages take
  turns with all rules: what stands under a key is told by the edges of that key, and those
  come in the order of the rules.
  - `declared_of_appended`: if neither document has an error, everything that the shorter one
    declares is declared by the longer one under the same key, unchanged. The new rule meets
    no stored policy, for a key with an index belongs to the rule of that index; a node that it
    shares with another rule looks the same, whichever rule registered it first; and the
    members of a group come from the table.
-/

import Portcullis.Proofs.Declared

namespace Portcullis

structure Document.Appended (d : Document) (a : AccessRule) (d' : Document) : Prop where
  groups : d'.groups = d.groups
  tagOwners : d'.tagOwners = d.tagOwners
  rules : d'.rules = d.rules ++ [a]
  index : ∀ b ∈ d.rules, b.index ≠ a.index

namespace Compiler

open Portcullis.Graph

variable {m : Membership} {declared : List String} {d d' : Document} {a : AccessRule} {o : Options}
  {c c' : Compilation}

/-- The graph of the longer document has all that the graph of the shorter one has. -/
theorem extends_appended (hd : d.Appended a d') (hc : Compiled d o m declared c) (hc' : Compiled d' o m declared c') :
    c.graph.Extends c'.graph where
  nodes k hk := by
    rw [hc.nodes_eq] at hk
    rw [hc'.nodes_eq, hd.rules, finished_append, List.foldl_append]
    exact (mem_keys_foldl (fun g r => mem_keys_registered g r k) _ _).mpr (.inl hk)
  policies k x hx := by
    obtain ⟨r, hr, e, he, -, rfl⟩ := hc.exists_edge hx
    rw [hc.get?_policies] at hx
    rw [hc'.get?_policies, hd.rules, finished_append, List.flatMap_append, stored_append]
    refine get?_stored_of_ne (indexed_empty.stored (policyKeys_scheduled false _)) (policyKeys_scheduled false _) hx ?_
    -- The edges of the new rule have its index, and no rule before it has that.
    intro y hy
    obtain ⟨s, hs, hy⟩ := List.mem_flatMap.mp hy
    obtain ⟨a', ha', rfl⟩ := List.mem_map.mp hs
    obtain ⟨b, hb, rfl⟩ := List.mem_map.mp hr
    have hlast : a' = a := List.mem_singleton.mp (List.mem_filter.mp ha').1
    show y.ruleIndex ≠ e.ruleIndex
    rw [ruleIndex_of_mem hy, ruleIndex_of_mem he, index_verdictOf, index_verdictOf, hlast]
    exact Ne.symm (hd.index b (List.mem_filter.mp hb).1)

/-- Appending a rule changes nothing that was declared before, if neither document has an error. -/
theorem declared_of_appended {res res' : Result} (hd : d.Appended a d') (h : (compile d o).1 = .ok res)
    (h' : (compile d' o).1 = .ok res') (he : res.errors = []) (he' : res'.errors = []) :
    ∃ out out', res.output = some out ∧ res'.output = some out' ∧
      ∀ x ∈ out.declarations, x ∈ out'.declarations ∧ out'.get? x.key = some x := by
  obtain ⟨m, declared, ht⟩ := exists_tables h he
  have ht' : Tables d' o m declared := ⟨hd.groups ▸ ht.membership, hd.tagOwners ▸ ht.tags⟩
  have hm := Membership.ofNames_of_ofTable ht.membership
  have hc := (compile_spec ht h).1
  have hc' := (compile_spec ht' h').1
  have hg := distinct_graph hm hc
  have hg' := distinct_graph hm hc'
  obtain ⟨out, hout, -⟩ := emit?_some (compile d o).2.graph m o
  obtain ⟨out', hout', -⟩ := emit?_some (compile d' o).2.graph m o
  refine ⟨out, out', (output_eq ht h he).trans hout, (output_eq ht' h' he').trans hout', ?_⟩
  intro x hx
  have hmem := (extends_appended hd hc hc').declared hg.sound hg'.sound hout hout' x hx
  exact ⟨hmem, hg'.get?_of_mem hout' hmem⟩

/-- A rule, and another one whose policy has the key of the first. -/
def former : AccessRule :=
  { index := 1, action := .accept, sources := [.text "tag:a"], destinations := [.text "tag:b:80", .text "10.0.0.1"] }

def latter : AccessRule := { former with index := 2, action := .drop, destinations := [.text "tag:b:22"] }

theorem declared_before_latter : ∃ res res' out out', (compile { rules := [former] }).1 = .ok res ∧
    (compile { rules := [former, latter] }).1 = .ok res' ∧ res.output = some out ∧ res'.output = some out' ∧
    ∀ x ∈ out.declarations, x ∈ out'.declarations ∧ out'.get? x.key = some x := by
  have hpass : ∀ a ∈ [former, latter], passes (verdictOf noGroups [] a).complaints = true := by
    intro a ha
    have hcases : a = former ∨ a = latter := by simpa using ha
    rcases hcases with rfl | rfl
    · exact (passes_course (tractable_ofAccessRule (by decide +kernel))).mpr ⟨by decide +kernel, by decide +kernel⟩
    · exact (passes_course (tractable_ofAccessRule (by decide +kernel))).mpr ⟨by decide +kernel, by decide +kernel⟩
  have hformer : ∀ a ∈ [former], passes (verdictOf noGroups [] a).complaints = true := fun a ha =>
    hpass a (List.mem_cons.mpr (.inl (by simpa using ha)))
  obtain ⟨res, h, he⟩ := compile_noGroups (by decide +kernel) hformer
  obtain ⟨res', h', he'⟩ := compile_noGroups (by decide +kernel) hpass
  have hd : Document.Appended { rules := [former] } latter { rules := [former, latter] } :=
    ⟨rfl, rfl, rfl, fun b hb => by rw [List.mem_singleton.mp hb]; decide⟩
  obtain ⟨out, out', hout, hout', hall⟩ := declared_of_appended hd h h' he he'
  exact ⟨res, res', out, out', h, h', hout, hout', hall⟩

end Compiler

end Portcullis

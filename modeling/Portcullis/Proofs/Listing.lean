/-
  Portcullis.Proofs.Listing — an output and what is written from it list every declaration once.

  Names may be any text, also one that looks like the key of something else; the kind in front
  of a key keeps them apart. So a declaration is told by its key among declarations of all
  kinds, and sorting by key leaves no two of them equal.
  - `Distinct.listed`: the declarations of one kind come in the strict order of their keys, a
    look-up finds each of them, and the table of an output has each of them once, in order.
  - `programmed_of_writable`: so has the program.
  - `each_declared_once`: this is so for every document that compiles without errors.
-/

import Portcullis.Proofs.Closure

namespace Portcullis

def Key.Ascending (keys : List String) : Prop := keys.Pairwise (· < ·)

theorem Key.Ascending.of_pairwise {α : Type} {f : α → String} {xs : List α} (h : xs.Pairwise fun a b => f a < f b) :
    Key.Ascending (xs.map f) :=
  List.pairwise_map.mpr h

/-- Keys in order are different. -/
theorem Key.Ascending.nodup {keys : List String} (h : Key.Ascending keys) : keys.Nodup :=
  h.imp fun hab heq => by
    rw [heq] at hab
    exact String.lt_irrefl _ hab

open Key (Ascending)

structure Output.Listed (out : Output) : Prop where
  nodup : out.keys.Nodup
  groups : Ascending (out.groups.map GroupDeclaration.key)
  resources : Ascending (out.resources.map ResourceDeclaration.key)
  policies : Ascending (out.policies.map PolicyDeclaration.key)
  found : ∀ x ∈ out.declarations, out.get? x.key = some x
  tabled : out.toTable.toList.Perm (out.declarations.map fun x => (x.key, x.toTree))
  tableKeys : Ascending out.toTable.keys

structure Output.Programmed (out : Output) (w : Options) (entries : List (String × Tree)) : Prop where
  keys : (entries.map Prod.fst).Perm out.keys
  entry : ∀ x ∈ out.declarations, ∃ e ∈ entries, e.1 = x.key ∧ Program.entry w out x = ([], .ok e)
  ascending : Ascending (entries.map Prod.fst)

/-! ## Declarations in order -/

theorem Declaration.ascending_sorted {ds : List Declaration} (h : (ds.map Declaration.key).Nodup) :
    Ascending ((Declaration.sorted ds).map Declaration.key) :=
  .of_pairwise (Key.strict_mergeSort Declaration.key h)

/-- Declarations of different keys stand in the table of an output as they are sorted. -/
theorem Output.toList_toTable {out : Output} (h : out.keys.Nodup) :
    out.toTable.toList = (Declaration.sorted out.declarations).map fun x => (x.key, x.toTree) := by
  refine Table.toList_ofList ?_
  rw [List.map_map]
  exact ((Declaration.sorted_perm out.declarations).map Declaration.key).nodup_iff.mpr h

namespace Graph

variable {g : Graph} {m : Membership} {o : Options} {out : Output}

/-- Selected nodes are listed by key. -/
theorem ascending_nodes (g : Graph) (p : String × Node → Bool) : Ascending ((g.sortedNodes.filter p).map Prod.fst) :=
  .of_pairwise (g.sortedNodes_strict.sublist List.filter_sublist)

/-- A graph whose keys tell what they stand for is listed by key. -/
theorem Distinct.listed (h : g.Distinct) (hout : g.emit? (some m) o = some out) : out.Listed := by
  have hnodup := h.nodup_keys hout
  have hsorted := Declaration.ascending_sorted hnodup
  have htable := Output.toList_toTable hnodup
  have hpolicy : ∀ e ∈ g.sortedPolicies, (policyDeclaration o e.2).key = e.1 := fun e he =>
    h.indexed.key (mem_sortedPolicies.mp he)
  have hpolicies : g.sortedPolicies.Pairwise fun a b => a.1 < b.1 := Key.strict_mergeSort Prod.fst g.policies.keys_nodup
  refine ⟨hnodup, ?_, ?_, ?_, fun x hx => h.get?_of_mem hout hx, ?_, ?_⟩
  · rw [emit?_eq] at hout
    cases hout
    rw [map_key_filterMap fun e _ => groupDeclaration_isSome m e.1 e.2]
    exact ascending_nodes g _
  · rw [emit?_eq] at hout
    cases hout
    rw [map_key_filterMap fun e he => resourceDeclaration_isSome e.1 (by simpa using (List.mem_filter.mp he).2)]
    exact ascending_nodes g _
  · rw [emit?_eq] at hout
    cases hout
    rw [List.map_map]
    exact List.map_congr_left hpolicy ▸ .of_pairwise hpolicies
  · rw [htable]
    exact (Declaration.sorted_perm out.declarations).map _
  · show Ascending (out.toTable.toList.map Prod.fst)
    rw [htable, List.map_map]
    exact hsorted

end Graph

namespace Program

/-- A writable output is written with one entry for each declaration. -/
theorem programmed_of_writable {out : Output} (h : Writable out) (w : Options) :
    ∃ entries, out.toProgram w = ([], .ok [("resources", .table entries)]) ∧ out.Programmed w entries := by
  have hentry : ∀ x ∈ Declaration.sorted out.declarations,
      ∃ e, entry w out x = ([], .ok e) ∧ e.1 = x.key ∧ entry w out x = ([], .ok e) := fun x hx => by
    obtain ⟨e, he, hwrote⟩ := entry_ok h w ((Declaration.sorted_perm _).mem_iff.mp hx)
    exact ⟨e, he, hwrote.key, he⟩
  obtain ⟨entries, hentries, hall⟩ := logEach_ok hentry
  have hkeys : entries.map Prod.fst = (Declaration.sorted out.declarations).map Declaration.key :=
    map_eq_map_of_forall₂ (hall.imp fun _ _ he => he.1)
  have hascending : Ascending (entries.map Prod.fst) := hkeys ▸ Declaration.ascending_sorted h.nodup
  refine ⟨entries, ?_, ?_, ?_, hascending⟩
  · unfold Output.toProgram
    rw [hentries]
    show (_, Except.ok [("resources", Tree.table (Table.ofList entries).toList)]) = _
    rw [Table.toList_ofList hascending.nodup]
  · rw [hkeys]
    exact (Declaration.sorted_perm out.declarations).map Declaration.key
  · intro x hx
    obtain ⟨i, hi⟩ := List.mem_iff_getElem?.mp ((Declaration.sorted_perm out.declarations).mem_iff.mpr hx)
    obtain ⟨e, he, hkey, hwrote⟩ := getElem?_of_forall₂ hall hi
    exact ⟨e, List.mem_of_getElem? he, hkey, hwrote⟩

end Program

namespace Compiler

/-- A document that compiles without errors is declared under keys that are all different, and
    what is made of its output, whatever the options of the writer, has every declaration once,
    in the order of the keys. -/
theorem each_declared_once {d : Document} {o : Options} {res : Result} (h : (compile d o).1 = .ok res)
    (he : res.errors = []) :
    ∃ out, res.output = some out ∧ out.Listed ∧ ∀ w : Options, ∃ entries,
      out.toProgram w = ([], .ok [("resources", .table entries)]) ∧ out.Programmed w entries := by
  obtain ⟨m, declared, ht⟩ := exists_tables h he
  have hm := Membership.ofNames_of_ofTable ht.membership
  have hc := (compile_spec ht h).1
  obtain ⟨out, hout, -⟩ := emit?_some (compile d o).2.graph m o
  refine ⟨out, (output_eq ht h he).trans hout, (distinct_graph hm hc).listed hout, fun w => ?_⟩
  exact Program.programmed_of_writable (hc.writable hm hout) w

/-- A rule whose tags are called as the hosts, the origins and the policies are keyed. -/
def imitating : AccessRule :=
  { index := -1, action := .accept, sources := [.text "tag:host-10-0-0-1", .text "10.0.0.1"],
    destinations := [.text "10.0.0.1", .text "tag:net-res-to-group-10-0-0-1", .text "tag:policy-gtg--1"] }

theorem imitating_declared_once : ∃ res out entries, (compile { rules := [imitating] }).1 = .ok res ∧
    res.output = some out ∧ out.Listed ∧ out.toProgram {} = ([], .ok [("resources", .table entries)]) ∧
    out.Programmed {} entries := by
  obtain ⟨res, -, h, he, -⟩ := compile_single (a := imitating) (by decide +kernel)
    ((passes_course (tractable_ofAccessRule (by decide +kernel))).mpr ⟨by decide +kernel, by decide +kernel⟩)
  obtain ⟨out, hout, hlisted, hprogram⟩ := each_declared_once h he
  obtain ⟨entries, hentries, hprogrammed⟩ := hprogram {}
  exact ⟨res, out, entries, h, hout, hlisted, hentries, hprogrammed⟩

end Compiler

end Portcullis

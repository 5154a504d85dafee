/-
  Portcullis.Proofs.Merging — the names in a group table, whatever the spelling.

  A table that was read has a group for each key that some line is about, and lists there the
  names that all lines about the key list, each where it occurs first (`Merged`). This is what
  policies and nodes depend on: the key of a member is made from its name.
  - `merged_ofTable`: so it is of a table that was read.
  - `tables_iff`: the tables of a document can be read if and only if each of their lines can.
-/

import Portcullis.Proofs.GroupTable
import Portcullis.Proofs.Outcome

namespace Portcullis

namespace Membership

def memberName? (v : Value) : Option String := (classifyMember v).toOption.map Endpoint.name

def Headed (lines : List Line) (k : String) : Prop := ∃ line ∈ lines, headOf? line = some k

/-- The names that the lines about a key list, in order. -/
def listed (lines : List Line) (k : String) : List String :=
  (lines.filter fun line => headOf? line = some k).flatMap fun line => line.2.filterMap memberName?

/-- Whether the lines about one key list a name of another. -/
def MemberOf (lines : List Line) (s t : String) : Prop := ∃ name ∈ listed lines t, s = Key.simple Kind.group.text name

structure Merged (lines : List Line) (groups : Table Group) : Prop where
  keys : ∀ k, k ∈ groups.keys ↔ Headed lines k
  self : ∀ {k g}, groups.get? k = some g → g.self.key = k
  members : ∀ {k g}, groups.get? k = some g → g.members.map Endpoint.name = (listed lines k).eraseDups

/-! ## Members of one group -/

/-- The key of a reference is made from its name. -/
theorem key_of_isName {e : Endpoint} (h : e.target.IsName) : e.key = Key.simple Kind.group.text e.name := by
  obtain ⟨space, name, ht⟩ := h
  unfold Endpoint.key Endpoint.name
  rw [ht]
  rfl

theorem key_eq_iff_name {d e : Endpoint} (hd : d.target.IsName) (he : e.target.IsName) :
    d.key = e.key ↔ d.name = e.name := by
  rw [key_of_isName hd, key_of_isName he]
  exact ⟨fun h => (kind_of_text h).2, fun h => by rw [h]⟩

/-! ## Lines of one table -/

theorem headed_iff {lines : List Line} {k : String} : Headed lines k ↔ k ∈ lines.filterMap headOf? :=
  List.mem_filterMap.symm

/-- The names that are listed are those of the members that are listed. -/
theorem listed_eq (lines : List Line) (k : String) : listed lines k = (referencesOf lines k).map Endpoint.name := by
  have hname : memberName? = fun v => (memberOf? v).map Endpoint.name := rfl
  simp only [listed, referencesOf, List.map_flatMap, List.map_filterMap, hname]

/-- Nothing is listed for a key that no line is about. -/
theorem listed_of_not_headed {lines : List Line} {k : String} (h : ¬ Headed lines k) : listed lines k = [] := by
  rw [listed_eq, referencesOf_of_not_mem (mt headed_iff.mpr h)]
  rfl

variable {lines : List Line} {groups : Table Group}

/-- A key without a group is one that no line lists anything for. -/
theorem Merged.listed_of_none (h : Merged lines groups) {k : String} (hk : groups.get? k = none) : listed lines k = [] :=
  listed_of_not_headed fun hheaded => by
    obtain ⟨g, hg⟩ := Table.mem_keys_iff.mp ((h.keys k).mpr hheaded)
    rw [hk] at hg
    cases hg

theorem isName_of_mem_referencesOf {k : String} {e : Endpoint} (h : e ∈ referencesOf lines k) : e.target.IsName := by
  obtain ⟨line, -, he⟩ := List.mem_flatMap.mp h
  obtain ⟨v, -, hv⟩ := List.mem_filterMap.mp he
  exact isName_of_classifyMember (memberOf?_eq_some_iff.mp hv)

theorem Laid.merged (h : Laid lines groups) : Merged lines groups where
  keys k := by rw [h.keys, List.mem_eraseDups, headed_iff]
  self hk := by simpa using List.find?_some (h.self hk)
  members hk := by
    rw [h.members hk, listed_eq]
    exact map_firsts fun d hd e he => key_eq_iff_name (isName_of_mem_referencesOf hd) (isName_of_mem_referencesOf he)

/-- A table that was read. -/
theorem merged_ofTable {table : NameTable} {depth : Option Nat} {m : Membership} (h : ofTable table depth = .ok m) :
    Merged table.toList m.groups :=
  ((exact_ofTable table depth).of_ok h).merged

/-- Two lines about one group. -/
example : (listed [("x", [.text "group:y", .text "x", .text "tag:y"]), ("tag:x", [.text "z", .text "y"])]
    "group-x").eraseDups = ["y", "x", "z"] := by decide

/-- The members of a group are those that its lines list. -/
theorem Merged.memberOf_iff (h : Merged lines groups) (hn : OfNames groups) {s t : String} :
    MemberOf lines s t ↔ ∃ g, groups.get? t = some g ∧ ∃ e ∈ g.members, s = e.key := by
  constructor
  · rintro ⟨name, hname, rfl⟩
    have hheaded : Headed lines t := Classical.byContradiction fun hno => by
      rw [listed_of_not_headed hno] at hname
      cases hname
    obtain ⟨g, hg⟩ := Table.mem_keys_iff.mp ((h.keys t).mpr hheaded)
    rw [← List.mem_eraseDups, ← h.members hg] at hname
    obtain ⟨e, he, rfl⟩ := List.mem_map.mp hname
    exact ⟨g, hg, e, he, (key_of_isName ((hn t g hg).2 e he)).symm⟩
  · rintro ⟨g, hg, e, he, rfl⟩
    have hname := List.mem_map_of_mem (f := Endpoint.name) he
    rw [h.members hg, List.mem_eraseDups] at hname
    exact ⟨e.name, hname, key_of_isName ((hn t g hg).2 e he)⟩

/-! ## Which tables can be read -/

def Legible (line : Line) : Prop :=
  (∃ e, classifyMemberText line.1 = .ok e) ∧ ∀ v ∈ line.2, ∃ e, classifyMember v = .ok e

theorem ofTable_iff (table : NameTable) (depth : Option Nat) :
    (∃ m, ofTable table depth = .ok m) ↔ ∀ line ∈ table.toList, Legible line := by
  simp only [(exact_ofTable table depth).ok_iff_forall, fault?_eq_none_iff, entriesOf, List.forall_mem_flatMap,
    List.forall_mem_cons, legal_iff]
  rfl

end Membership

structure Document.WellFormed (d : Document) : Prop where
  groups : ∀ line ∈ d.groups.toList, Membership.Legible line
  tagOwners : ∀ name ∈ d.tagOwners.keys, (Classify.marker .tag).isPrefixOf name.toList = true →
    ∃ e, classifyMemberText name = .ok e

namespace Compiler

theorem tagNames_iff {names : List String} : (∃ declared, Compilation.tagNames names = .ok declared) ↔
    ∀ name ∈ names, (Classify.marker .tag).isPrefixOf name.toList = true → ∃ e, classifyMemberText name = .ok e := by
  induction names with
  | nil => simp [Compilation.tagNames]
  | cons name names ih =>
    rw [List.forall_mem_cons, ← ih]
    simp only [Compilation.tagNames]
    by_cases htag : (Classify.marker .tag).isPrefixOf name.toList = true
    · rw [if_pos htag]
      cases classifyMemberText name with
      | error u => simp [htag]
      | ok e => cases Compilation.tagNames names <;> simp [Except.map]
    · simp [htag]

/-- The tables of a document can be read line by line, whatever the options are. -/
theorem tables_iff {d : Document} {o : Options} : (∃ m declared, Tables d o m declared) ↔ d.WellFormed := by
  constructor
  · rintro ⟨m, declared, ht⟩
    exact ⟨(Membership.ofTable_iff _ _).mp ⟨m, ht.membership⟩, tagNames_iff.mp ⟨declared, ht.tags⟩⟩
  · intro h
    obtain ⟨m, hm⟩ := (Membership.ofTable_iff d.groups o.expansionDepth).mpr h.groups
    obtain ⟨declared, hdeclared⟩ := tagNames_iff.mpr h.tagOwners
    exact ⟨m, declared, hm, hdeclared⟩

end Compiler

end Portcullis

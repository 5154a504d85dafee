/-
  Portcullis.Proofs.Expansion — what the group table gives, and what a reference reaches.

  A table that was read holds names only, and nothing in it carries ports (`OfNames`). So the
  expansion of a lawful endpoint is lawful, and the keys of an expansion are told by the key
  of the reference alone (`covers_congr`), whatever ports and spelling it has.
-/

import Portcullis.Proofs.Keys
import Portcullis.Proofs.Verdicts

namespace Portcullis

namespace Target

def IsName (t : Target) : Prop := ∃ space name, t = .named space name

theorem IsName.lawful {t : Target} (h : t.IsName) : t.Lawful := by
  obtain ⟨space, name, rfl⟩ := h
  exact .named space name

/-- Targets of one key are both names or both blocks. -/
theorem isName_congr {t u : Target} (h : t.key = u.key) (ht : t.IsName) : u.IsName := by
  obtain ⟨space, name, rfl⟩ := ht
  cases u with
  | named space' name' => exact ⟨space', name', rfl⟩
  | block role n a => cases role <;> cases (key_eq_iff.mp h).1

/-- References of one name have one key, and no other target has it. -/
theorem key_eq_named_iff {t : Target} {space : Space} {name : String} :
    t.key = (Target.named space name).key ↔ ∃ space', t = .named space' name := by
  constructor
  · intro h
    obtain ⟨space', name', rfl⟩ := isName_congr h.symm ⟨space, name, rfl⟩
    exact ⟨space', congrArg (Target.named space') (key_eq_iff.mp h).2⟩
  · rintro ⟨space', rfl⟩
    rfl

end Target

namespace Membership

def OfNames (groups : Table Group) : Prop :=
  ∀ k g, groups.get? k = some g → g.self.target.IsName ∧ ∀ e ∈ g.members, e.target.IsName

theorem isName_of_classifyMember {v : Value} {e : Endpoint} (h : classifyMember v = .ok e) : e.target.IsName := by
  obtain ⟨token, space, body, d, hd, rfl⟩ := named_of_classifyMember h
  obtain ⟨name, ht⟩ := lawful_of_named hd
  exact ⟨space, name, ht⟩

theorem isName_of_readMembers {vs : List Value} {es : List Endpoint} (h : readMembers vs = .ok es) :
    ∀ e ∈ es, e.target.IsName := by
  induction vs generalizing es with
  | nil => cases h; simp
  | cons v vs ih =>
    simp only [readMembers] at h
    cases hv : classifyMember v with
    | error u => rw [hv] at h; cases h
    | ok d =>
      cases hr : readMembers vs with
      | error u => rw [hv, hr] at h; cases h
      | ok ds =>
        rw [hv, hr] at h
        cases h
        intro e he
        rcases List.mem_cons.mp he with rfl | he
        · exact isName_of_classifyMember hv
        · exact ih hr e he

theorem mem_addMembers {g : Group} {es : List Endpoint} {e : Endpoint}
    (h : e ∈ (es.foldl Group.addMember g).members) :
    e ∈ g.members ∨ e ∈ es := by
  induction es generalizing g with
  | nil => exact .inl h
  | cons d es ih =>
    rcases ih h with h | h
    · unfold Group.addMember at h
      split at h
      · exact .inl h
      · rcases List.mem_append.mp h with h | h
        · exact .inl h
        · exact .inr (by simp [List.mem_singleton.mp h])
    · exact .inr (List.mem_cons_of_mem _ h)

theorem self_addMembers (g : Group) (es : List Endpoint) : (es.foldl Group.addMember g).self = g.self := by
  induction es generalizing g with
  | nil => rfl
  | cons d es ih =>
    rw [List.foldl_cons, ih]
    unfold Group.addMember
    split <;> rfl

/-- A line of the table that can be read adds its members to the group of its name. -/
theorem addEntry_eq_ok {groups groups' : Table Group} {name : String} {vs : List Value}
    (h : addEntry groups name vs = .ok groups') :
    ∃ parent es, classifyMemberText name = .ok parent ∧ readMembers vs = .ok es ∧ groups' =
      groups.insert parent.key (es.foldl Group.addMember ((groups.get? parent.key).getD ⟨parent, []⟩)) := by
  unfold addEntry at h
  cases hp : classifyMemberText name with
  | error u => rw [hp] at h; cases h
  | ok parent =>
    cases hr : readMembers vs with
    | error u => rw [hp, hr] at h; cases h
    | ok es =>
      rw [hp, hr] at h
      cases h
      exact ⟨parent, es, rfl, rfl, rfl⟩

/-- What every line keeps is so of a whole table. -/
theorem addEntries_keeps {P : List (String × List Value) → Table Group → Prop}
    (hstep : ∀ {done groups name vs groups'}, P done groups → addEntry groups name vs = .ok groups' →
      P (done ++ [(name, vs)]) groups')
    {done lines : List (String × List Value)} {groups groups' : Table Group} (hP : P done groups)
    (h : addEntries groups lines = .ok groups') : P (done ++ lines) groups' := by
  induction lines generalizing done groups with
  | nil =>
    cases h
    rw [List.append_nil]
    exact hP
  | cons line lines ih =>
    obtain ⟨name, vs⟩ := line
    simp only [addEntries] at h
    cases ha : addEntry groups name vs with
    | error u => rw [ha] at h; cases h
    | ok between =>
      rw [ha] at h
      rw [← List.singleton_append, ← List.append_assoc]
      exact ih (hstep hP ha) h

theorem ofTable_keeps {P : List (String × List Value) → Table Group → Prop}
    (hstep : ∀ {done groups name vs groups'}, P done groups → addEntry groups name vs = .ok groups' →
      P (done ++ [(name, vs)]) groups')
    {table : NameTable} {depth : Option Nat} {m : Membership} (hP : P [] ∅) (h : ofTable table depth = .ok m) :
    P table.toList m.groups := by
  unfold ofTable at h
  cases ha : addEntries ∅ table.toList with
  | error u => rw [ha] at h; cases h
  | ok groups =>
    rw [ha] at h
    cases h
    exact addEntries_keeps hstep hP ha

theorem OfNames.addEntry {groups groups' : Table Group} (hg : OfNames groups) {name : String} {vs : List Value}
    (h : addEntry groups name vs = .ok groups') : OfNames groups' := by
  obtain ⟨parent, es, hp, hr, rfl⟩ := addEntry_eq_ok h
  have hold : ((groups.get? parent.key).getD ⟨parent, []⟩).self.target.IsName ∧
      ∀ e ∈ ((groups.get? parent.key).getD ⟨parent, []⟩).members, e.target.IsName := by
    cases hget : groups.get? parent.key with
    | none => exact ⟨isName_of_classifyMember (v := .text _) hp, by simp⟩
    | some g => exact hg _ g hget
  intro k g hk
  rcases Table.get?_insert_cases hk with ⟨rfl, rfl⟩ | ⟨-, hk⟩
  · rw [self_addMembers]
    refine ⟨hold.1, fun e he => ?_⟩
    rcases mem_addMembers he with he | he
    · exact hold.2 e he
    · exact isName_of_readMembers hr e he
  · exact hg k g hk

theorem ofNames_of_ofTable {table : NameTable} {depth : Option Nat} {m : Membership}
    (h : ofTable table depth = .ok m) : OfNames m.groups :=
  ofTable_keeps (P := fun _ groups => OfNames groups) (fun hg ha => hg.addEntry ha) (fun k g hk => by cases hk) h

variable {m : Membership}

theorem isName_of_mem_membersOf (hm : OfNames m.groups) {k : String} {e : Endpoint} (h : e ∈ m.membersOf k) :
    e.target.IsName := by
  unfold membersOf at h
  cases hg : m.groups.get? k with
  | none => rw [hg] at h; cases h
  | some g =>
    rw [hg] at h
    exact (hm k g hg).2 e h

theorem isName_of_mem_below (hm : OfNames m.groups) {k : String} {level : Nat} {p : Endpoint × Nat}
    (h : p ∈ m.below k level) : p.1.target.IsName := by
  unfold below at h
  split at h
  · obtain ⟨e, he, rfl⟩ := List.mem_map.mp h
    exact isName_of_mem_membersOf hm he
  · cases h

/-- Only names are visited when only names are pending. -/
theorem isName_of_mem_visit (hm : OfNames m.groups) {free : List String} {pending : List (Endpoint × Nat)}
    (hp : ∀ p ∈ pending, p.1.target.IsName) : ∀ e ∈ m.visit free pending, e.target.IsName := by
  induction free, pending using visit.induct m with
  | case1 free => unfold visit; simp
  | case2 free e level rest hfree ih =>
    unfold visit
    rw [if_pos hfree]
    intro x hx
    rcases List.mem_cons.mp hx with rfl | hx
    · exact hp (x, level) (by simp)
    · refine ih (fun p hmem => ?_) x hx
      rcases List.mem_append.mp hmem with hmem | hmem
      · exact isName_of_mem_below hm hmem
      · exact hp p (List.mem_cons_of_mem _ hmem)
  | case3 free e level rest hfree ih =>
    unfold visit
    rw [if_neg hfree]
    exact ih fun p hmem => hp p (List.mem_cons_of_mem _ hmem)

/-- The keys of the groups that a reference leads to, itself first. -/
def reach (m : Membership) (key : String) : List String :=
  key :: (m.visit (without m.memberKeys key) (m.below key 0)).map Endpoint.key

theorem keys_expand (m : Membership) (e : Endpoint) : (m.expand e).map Endpoint.key = m.reach e.key := by
  simp only [expand, reach, List.map_cons, List.map_map]
  rfl

/-- What has no members leads to itself only. -/
theorem expand_of_membersOf {e : Endpoint} (h : m.membersOf e.key = []) : m.expand e = [e] := by
  simp [expand, below, h, visit]

end Membership

namespace Compiler

open Portcullis.Membership

/-- Whether an endpoint stands for a key. -/
def Covers (m : Membership) (e : Endpoint) (k : String) : Prop := k ∈ (expansion m e).map Endpoint.key

theorem covers_iff {m : Membership} {e : Endpoint} {k : String} : Covers m e k ↔ ∃ x ∈ expansion m e, x.key = k :=
  List.mem_map

theorem expansion_of_isName {e : Endpoint} (m : Membership) (h : e.target.IsName) : expansion m e = m.expand e := by
  obtain ⟨t, p, s⟩ := e
  obtain ⟨space, name, rfl⟩ := h
  rfl

theorem covers_of_isName {m : Membership} {e : Endpoint} {k : String} (h : e.target.IsName) :
    Covers m e k ↔ k ∈ m.reach e.key := by
  unfold Covers
  rw [expansion_of_isName m h, keys_expand]

/-- An endpoint stands for itself. -/
theorem covers_self (m : Membership) (e : Endpoint) : Covers m e e.key := by
  obtain ⟨t, p, s⟩ := e
  cases t <;> simp [Covers, expansion, expand]

/-- What an endpoint stands for is told by its key. -/
theorem covers_congr {m : Membership} {e d : Endpoint} (h : e.key = d.key) (k : String) :
    Covers m e k ↔ Covers m d k := by
  by_cases he : e.target.IsName
  · rw [covers_of_isName he, covers_of_isName (Target.isName_congr h he), h]
  · have hd : ¬ d.target.IsName := fun hd => he (Target.isName_congr h.symm hd)
    have alone : ∀ {x : Endpoint}, ¬ x.target.IsName → (Covers m x k ↔ k = x.key) := by
      intro x hx
      obtain ⟨t, p, s⟩ := x
      cases t with
      | named space name => exact absurd ⟨space, name, rfl⟩ hx
      | block role name address => simp [Covers, expansion]
    rw [alone he, alone hd, h]

/-- A name stands for names only. -/
theorem isName_of_mem_expansion {m : Membership} (hm : OfNames m.groups) {e x : Endpoint} (he : e.target.IsName)
    (h : x ∈ expansion m e) : x.target.IsName := by
  rw [expansion_of_isName m he] at h
  rcases List.mem_cons.mp h with rfl | h
  · exact he
  · obtain ⟨y, hy, rfl⟩ := List.mem_map.mp h
    exact isName_of_mem_visit hm (fun p hp => isName_of_mem_below hm hp) y hy

theorem lawful_of_mem_expansion {m : Membership} (hm : OfNames m.groups) {e x : Endpoint} (he : e.target.Lawful)
    (h : x ∈ expansion m e) : x.target.Lawful := by
  by_cases hn : e.target.IsName
  · exact (isName_of_mem_expansion hm hn h).lawful
  · obtain ⟨t, p, s⟩ := e
    cases t with
    | named space name => exact absurd ⟨space, name, rfl⟩ hn
    | block role name address => rw [List.mem_singleton.mp h]; exact he

end Compiler

end Portcullis

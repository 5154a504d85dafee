/-
  Portcullis.Proofs.Reach — what an expansion lists.

  The links of a group table may lead back to where they started. An expansion goes along them
  all the same, since it visits a key only while that key is free, and there are fewer free
  keys after each visit.
  - `nodup_visit`: a visit meets free keys only, and each of them once.
  - `expansion_of_legible`: so an expansion lists the reference first and no key twice, all with
    the ports of the reference, and each key at the end of a trail within the depth. Without a
    bound it lists all that the links lead to.
-/

import Mathlib.Logic.Relation
import Portcullis.Proofs.TableOrder

namespace Portcullis.Membership

/-- There is a trail wherever the closure of the links leads. -/
theorem exists_trail_iff {R : String → String → Prop} {s t : String} :
    (∃ passed, Trail R s passed t) ↔ Relation.ReflTransGen R s t := by
  constructor
  · rintro ⟨passed, ht⟩
    induction ht with
    | here => exact .refl
    | link _ hr ih => exact ih.tail hr
  · intro h
    induction h with
    | refl => exact ⟨[], .here⟩
    | tail _ hr ih =>
      obtain ⟨passed, ht⟩ := ih
      exact ⟨_, ht.link hr⟩

variable {m : Membership}

/-- A visit meets free keys only, and each of them once. -/
theorem nodup_visit (free : List String) (pending : List (Endpoint × Nat)) :
    (∀ x ∈ m.visit free pending, x.key ∈ free) ∧ ((m.visit free pending).map Endpoint.key).Nodup := by
  induction free, pending using visit.induct m with
  | case1 free => unfold visit; simp
  | case2 free e level rest hfree ih =>
    obtain ⟨hmem, hnodup⟩ := ih
    unfold visit
    rw [if_pos hfree]
    refine ⟨fun x hx => ?_, ?_⟩
    · rcases List.mem_cons.mp hx with rfl | hx
      · exact hfree
      · exact (mem_without.mp (hmem x hx)).1
    · rw [List.map_cons]
      refine List.nodup_cons.mpr ⟨fun hk => ?_, hnodup⟩
      -- The key is not free any more when the rest is visited.
      obtain ⟨x, hx, hk⟩ := List.mem_map.mp hk
      exact (mem_without.mp (hmem x hx)).2 hk
  | case3 free e level rest hfree ih =>
    unfold visit
    rw [if_neg hfree]
    exact ih

theorem nodup_reach (m : Membership) (key : String) : (m.reach key).Nodup := by
  obtain ⟨hmem, hnodup⟩ := nodup_visit (m := m) (without m.memberKeys key) (m.below key 0)
  refine List.nodup_cons.mpr ⟨fun hk => ?_, hnodup⟩
  obtain ⟨x, hx, hk⟩ := List.mem_map.mp hk
  exact (mem_without.mp (hmem x hx)).2 hk

/-- What is listed stands at the end of a trail within the depth. -/
theorem exists_trail_of_mem_reach {s t : String} (h : t ∈ m.reach s) :
    ∃ passed, Trail m.Linked s passed t ∧ ∀ n, m.depth = some n → passed.length ≤ n := by
  obtain ⟨level, hlevel⟩ := mem_reach_iff_levels.mp h
  obtain ⟨passed, ht, -, rfl, hdepth⟩ := simple_of_mem_levels hlevel
  refine ⟨passed, ht, fun n hn => ?_⟩
  rw [hn] at hdepth
  exact of_decide_eq_true hdepth

/-- Without a bound all that the links lead to is listed. -/
theorem mem_reach_iff_of_unbounded (hm : m.depth = none) {e : Endpoint} {t : String} :
    t ∈ m.reach e.key ↔ Relation.ReflTransGen m.Linked e.key t := by
  rw [mem_reach_iff fun n hn => (by rw [hm] at hn; cases hn), ← exists_trail_iff]
  simp [hm]

structure Expands (lines : List Line) (depth : Option Nat) (e : Endpoint) (es : List Endpoint) : Prop where
  first : es.head? = some e
  nodup : (es.map Endpoint.key).Nodup
  ports : ∀ x ∈ es, x.ports = e.ports
  within : ∀ x ∈ es, ∃ passed, Trail (Lists lines) e.key passed x.key ∧ ∀ n, depth = some n → passed.length ≤ n
  closed : depth = none → ∀ k, k ∈ es.map Endpoint.key ↔ Relation.ReflTransGen (Lists lines) e.key k

/-- Every table whose lines can be read is expanded along its lines, to every depth and from
    every reference. -/
theorem expansion_of_legible {table : NameTable} (h : ∀ line ∈ table.toList, Legible line) (depth : Option Nat) :
    ∃ m, ofTable table depth = .ok m ∧ ∀ e, Expands table.toList depth e (m.expand e) := by
  obtain ⟨m, hm⟩ := (ofTable_iff table depth).mpr h
  obtain rfl := depth_ofTable hm
  have hlinks : m.Linked = Lists table.toList := funext₂ fun s t => propext (linked_iff_lists hm s t)
  refine ⟨m, hm, fun e => ⟨rfl, ?_, fun x hx => ports_of_mem_expand hx, fun x hx => ?_, fun hdepth k => ?_⟩⟩
  · rw [keys_expand]
    exact nodup_reach m e.key
  · rw [← hlinks]
    exact exists_trail_of_mem_reach (keys_expand m e ▸ List.mem_map_of_mem hx)
  · rw [← hlinks, keys_expand]
    exact mem_reach_iff_of_unbounded hdepth

def cyclic : NameTable :=
  Table.ofList [("a", [.text "tag:b", .text "a"]), ("group:b", [.text "a", .text "c:22"])]

theorem expansion_of_cyclic : (∀ line ∈ cyclic.toList, Legible line) ∧
    ∃ m, ofTable cyclic none = .ok m ∧ Expands cyclic.toList none (groupRef "a") (m.expand (groupRef "a")) ∧
      "group-c" ∈ (m.expand (groupRef "a")).map Endpoint.key := by
  have hlines : cyclic.toList = [("a", [.text "tag:b", .text "a"]), ("group:b", [.text "a", .text "c:22"])] := rfl
  have hlegible : ∀ line ∈ cyclic.toList, Legible line := by
    rw [hlines]
    simp only [List.forall_mem_cons, Legible]
    exact ⟨⟨⟨_, rfl⟩, ⟨_, rfl⟩, ⟨_, rfl⟩, by simp⟩, ⟨⟨_, rfl⟩, ⟨_, rfl⟩, ⟨_, rfl⟩, by simp⟩, by simp⟩
  obtain ⟨m, hm, hexpands⟩ := expansion_of_legible hlegible none
  refine ⟨hlegible, m, hm, hexpands _, ((hexpands _).closed rfl _).mpr ?_⟩
  have hb : Lists cyclic.toList "group-a" "group-b" := ⟨"b", by decide, rfl⟩
  have hc : Lists cyclic.toList "group-b" "group-c" := ⟨"c", by decide, rfl⟩
  exact (Relation.ReflTransGen.single hb).tail hc

end Portcullis.Membership

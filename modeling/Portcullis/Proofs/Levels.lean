/-
  Portcullis.Proofs.Levels — how far an expansion reaches.

  A trail follows the links from groups to their members. An expansion meets each key once, at
  a level: the number of links of the trail on which it was met. That trail passes no key
  twice, but it need not be the shortest one. Below the last level nothing is looked at, so a
  key that is met there although a shorter trail leads to it can hide its members.
  - `expand_complete_iff`: an expansion to a depth holds what trails of so many links lead to if
    and only if no member of such a key is missing; it does if no trail is of this kind.
  - `a_member_is_hidden`: in a table of three groups one is missing at depth two.
-/

import Mathlib.Data.List.Permutation
import Portcullis.Proofs.Expansion

namespace Portcullis.Membership

/-! ## Trails -/

/-- A way from `s` along a relation to a key, given by the keys before it, the latest first. -/
inductive Trail (R : String → String → Prop) (s : String) : List String → String → Prop
  | here : Trail R s [] s
  | link {passed : List String} {t u : String} : Trail R s passed t → R t u → Trail R s (t :: passed) u

theorem Trail.mono {R S : String → String → Prop} (h : ∀ t u, R t u → S t u) {s t : String} {passed : List String}
    (ht : Trail R s passed t) : Trail S s passed t := by
  induction ht with
  | here => exact .here
  | link _ hr ih => exact .link ih (h _ _ hr)

def Simple (passed : List String) (t : String) : Prop := (t :: passed).Nodup

theorem simple_nil (t : String) : Simple [] t := by simp [Simple]

/-- No key at the end of a simple trail of `n` links is also at the end of a shorter trail. -/
def NoDetour (R : String → String → Prop) (n : Nat) (s : String) : Prop :=
  ∀ ⦃passed t⦄, Trail R s passed t → Simple passed t → passed.length = n →
    ∀ ⦃other⦄, Trail R s other t → n ≤ other.length

theorem NoDetour.mono {R S : String → String → Prop} (h : ∀ t u, R t u ↔ S t u) {n : Nat} {s : String}
    (he : NoDetour R n s) :
    NoDetour S n s :=
  fun _ _ ht hs hn _ ho => he (ht.mono fun t u => (h t u).mpr) hs hn (ho.mono fun t u => (h t u).mpr)

/-- One link is never a detour. -/
theorem noDetour_of_le_one {R : String → String → Prop} {n : Nat} (hn : n ≤ 1) (s : String) : NoDetour R n s := by
  intro passed t ht hs hlen other ho
  cases ho with
  | link => simp only [List.length_cons]; omega
  | here =>
    cases ht with
    | here => exact Nat.le_of_eq hlen.symm
    | link ht hr =>
      -- One link from a key to itself would pass the key twice.
      cases ht with
      | here => simp [Simple] at hs
      | link => simp only [List.length_cons] at hlen; omega

/-! ## The levels of an expansion -/

variable {m : Membership}

def Linked (m : Membership) (s t : String) : Prop := ∃ e ∈ m.membersOf s, e.key = t

/-- Visits pending members as `visit` does, and keeps the level of each. -/
def visitAt (m : Membership) (free : List String) (pending : List (Endpoint × Nat)) : List (Endpoint × Nat) :=
  match pending with
  | [] => []
  | (e, level) :: rest =>
    if e.key ∈ free then (e, level) :: m.visitAt (without free e.key) (m.below e.key level ++ rest)
    else m.visitAt free rest
termination_by (free.length, pending.length)
decreasing_by
  · exact Prod.Lex.left _ _ (length_without_lt ‹_›)
  · exact Prod.Lex.right _ (by simp)

theorem map_visitAt (free : List String) (pending : List (Endpoint × Nat)) :
    (m.visitAt free pending).map Prod.fst = m.visit free pending := by
  induction free, pending using visit.induct m with
  | case1 free => unfold visitAt visit; rfl
  | case2 free e level rest hfree ih =>
    unfold visitAt visit
    rw [if_pos hfree, if_pos hfree, List.map_cons, ih]
  | case3 free e level rest hfree ih =>
    unfold visitAt visit
    rw [if_neg hfree, if_neg hfree, ih]

def levels (m : Membership) (key : String) : List (String × Nat) :=
  (key, 0) :: (m.visitAt (without m.memberKeys key) (m.below key 0)).map fun p => (p.1.key, p.2)

theorem map_levels (m : Membership) (key : String) : (m.levels key).map Prod.fst = m.reach key := by
  simp only [levels, reach, ← map_visitAt, List.map_cons, List.map_map]
  rfl

theorem mem_reach_iff_levels {s t : String} : t ∈ m.reach s ↔ ∃ level, (t, level) ∈ m.levels s := by
  rw [← map_levels]
  simp

/-! ## What is met -/

theorem mem_without {keys : List String} {key k : String} : k ∈ without keys key ↔ k ∈ keys ∧ k ≠ key := by
  simp [without]

theorem mem_memberKeys {k : String} {e : Endpoint} (h : e ∈ m.membersOf k) : e.key ∈ m.memberKeys := by
  unfold membersOf at h
  cases hg : m.groups.get? k with
  | none => rw [hg] at h; cases h
  | some g =>
    rw [hg] at h
    exact List.mem_map_of_mem (List.mem_flatMap.mpr ⟨g, Table.mem_values_iff.mpr ⟨k, hg⟩, h⟩)

theorem mem_below {k : String} {level : Nat} {p : Endpoint × Nat} :
    p ∈ m.below k level ↔ m.mayDescend level = true ∧ p.1 ∈ m.membersOf k ∧ p.2 = level + 1 := by
  obtain ⟨e, l⟩ := p
  unfold below
  split
  · rename_i hd
    simp only [List.mem_map, Prod.mk.injEq, hd, true_and]
    constructor
    · rintro ⟨x, hx, rfl, rfl⟩
      exact ⟨hx, rfl⟩
    · rintro ⟨he, rfl⟩
      exact ⟨e, he, rfl, rfl⟩
  · rename_i hd
    simp [hd]

/-- What is pending is met, unless it has been before. -/
theorem met_of_pending {free : List String} {pending : List (Endpoint × Nat)} {p : Endpoint × Nat}
    (hp : p ∈ pending) (hfree : p.1.key ∈ free) : ∃ q ∈ m.visitAt free pending, q.1.key = p.1.key := by
  induction free, pending using visit.induct m with
  | case1 free => cases hp
  | case2 free e level rest he ih =>
    unfold visitAt
    rw [if_pos he]
    by_cases hk : p.1.key = e.key
    · exact ⟨(e, level), by simp, hk.symm⟩
    · have hrest : p ∈ rest := by
        rcases List.mem_cons.mp hp with rfl | hp
        · exact absurd rfl hk
        · exact hp
      obtain ⟨q, hq, hqk⟩ := ih (List.mem_append_right _ hrest) (mem_without.mpr ⟨hfree, hk⟩)
      exact ⟨q, List.mem_cons_of_mem _ hq, hqk⟩
  | case3 free e level rest he ih =>
    unfold visitAt
    rw [if_neg he]
    rcases List.mem_cons.mp hp with rfl | hp
    · exact absurd hfree he
    · exact ih hp hfree

/-- What is below something that is met is met, unless it has been before. -/
theorem met_of_below {free : List String} {pending : List (Endpoint × Nat)} {x p : Endpoint × Nat}
    (hx : x ∈ m.visitAt free pending) (hp : p ∈ m.below x.1.key x.2) (hfree : p.1.key ∈ free) :
    ∃ q ∈ m.visitAt free pending, q.1.key = p.1.key := by
  induction free, pending using visit.induct m with
  | case1 free => unfold visitAt at hx; cases hx
  | case2 free e level rest he ih =>
    unfold visitAt at hx ⊢
    rw [if_pos he] at hx ⊢
    by_cases hk : p.1.key = e.key
    · exact ⟨(e, level), by simp, hk.symm⟩
    · have hstill : p.1.key ∈ without free e.key := mem_without.mpr ⟨hfree, hk⟩
      rcases List.mem_cons.mp hx with rfl | hx
      · obtain ⟨q, hq, hqk⟩ := met_of_pending (List.mem_append_left rest hp) hstill
        exact ⟨q, List.mem_cons_of_mem _ hq, hqk⟩
      · obtain ⟨q, hq, hqk⟩ := ih hx hstill
        exact ⟨q, List.mem_cons_of_mem _ hq, hqk⟩
  | case3 free e level rest he ih =>
    unfold visitAt at hx ⊢
    rw [if_neg he] at hx ⊢
    exact ih hx hfree

/-- All links of a key that is met above the last level are followed. -/
theorem mem_reach_of_linked {s t u : String} {level : Nat} (ht : (t, level) ∈ m.levels s)
    (hd : m.mayDescend level = true) (hl : m.Linked t u) : u ∈ m.reach s := by
  obtain ⟨e, he, rfl⟩ := hl
  by_cases hs : e.key = s
  · rw [hs]; simp [reach]
  have hfree : e.key ∈ without m.memberKeys s := mem_without.mpr ⟨mem_memberKeys he, hs⟩
  have hmet : ∃ q ∈ m.visitAt (without m.memberKeys s) (m.below s 0), q.1.key = e.key := by
    rcases List.mem_cons.mp ht with h | h
    · obtain ⟨rfl, rfl⟩ := Prod.mk.inj h
      exact met_of_pending (p := (e, 1)) (mem_below.mpr ⟨hd, he, rfl⟩) hfree
    · obtain ⟨x, hx, hxt⟩ := List.mem_map.mp h
      obtain ⟨rfl, rfl⟩ := Prod.mk.inj hxt
      exact met_of_below (p := (e, x.2 + 1)) hx (mem_below.mpr ⟨hd, he, rfl⟩) hfree
  obtain ⟨q, hq, hqk⟩ := hmet
  exact mem_reach_iff_levels.mpr ⟨q.2, List.mem_cons_of_mem _ (List.mem_map.mpr ⟨q, hq, by rw [hqk]⟩)⟩

/-! ## On which trails it is met -/

/-- Where something pending stands: at the end of a trail of as many links as its level says,
    which passes no key twice and none that is free. -/
def OnTrail (m : Membership) (s : String) (free : List String) (p : Endpoint × Nat) : Prop :=
  ∃ passed, Trail m.Linked s passed p.1.key ∧ passed.length = p.2 ∧ passed.Nodup ∧ (∀ k ∈ passed, k ∉ free) ∧
    m.depth.all (p.2 ≤ ·) = true

theorem OnTrail.without {s : String} {free : List String} {p : Endpoint × Nat} (h : m.OnTrail s free p) (key : String) :
    m.OnTrail s (without free key) p := by
  obtain ⟨passed, ht, hlen, hn, hfree, hd⟩ := h
  exact ⟨passed, ht, hlen, hn, fun k hk hmem => hfree k hk (mem_without.mp hmem).1, hd⟩

theorem onTrail_below {s k : String} {free passed : List String} {level : Nat} (ht : Trail m.Linked s passed k)
    (hs : Simple passed k) (hlen : passed.length = level) (hfree : ∀ q ∈ k :: passed, q ∉ free) {p : Endpoint × Nat}
    (hp : p ∈ m.below k level) : m.OnTrail s free p := by
  obtain ⟨hd, hmem, hlevel⟩ := mem_below.mp hp
  refine ⟨k :: passed, ht.link ⟨p.1, hmem, rfl⟩, by simp [hlen, hlevel], hs, hfree, ?_⟩
  rw [hlevel]
  unfold mayDescend at hd
  cases h : m.depth with
  | none => rfl
  | some n =>
    rw [h] at hd
    simp only [Option.all_some, decide_eq_true_eq] at hd ⊢
    omega

/-- Everything is met at the end of a simple trail of as many links as its level says. -/
theorem simple_of_mem_visitAt {s : String} {free : List String} {pending : List (Endpoint × Nat)}
    (hp : ∀ p ∈ pending, m.OnTrail s free p) {x : Endpoint × Nat} (hx : x ∈ m.visitAt free pending) :
    ∃ passed, Trail m.Linked s passed x.1.key ∧ Simple passed x.1.key ∧ passed.length = x.2 ∧
      m.depth.all (x.2 ≤ ·) = true := by
  induction free, pending using visit.induct m with
  | case1 free => unfold visitAt at hx; cases hx
  | case2 free e level rest he ih =>
    unfold visitAt at hx
    rw [if_pos he] at hx
    obtain ⟨passed, ht, hlen, hn, hfree, hd⟩ := hp (e, level) (by simp)
    have hsimple : Simple passed e.key := List.nodup_cons.mpr ⟨fun h => hfree _ h he, hn⟩
    rcases List.mem_cons.mp hx with rfl | hx
    · exact ⟨passed, ht, hsimple, hlen, hd⟩
    · refine ih (fun p hmem => ?_) hx
      rcases List.mem_append.mp hmem with hmem | hmem
      · refine onTrail_below ht hsimple hlen (fun q hq hmem => ?_) hmem
        obtain ⟨hq', hne⟩ := mem_without.mp hmem
        rcases List.mem_cons.mp hq with rfl | hq
        · exact hne rfl
        · exact hfree q hq hq'
      · exact (hp p (List.mem_cons_of_mem _ hmem)).without e.key
  | case3 free e level rest he ih =>
    unfold visitAt at hx
    rw [if_neg he] at hx
    exact ih (fun p hmem => hp p (List.mem_cons_of_mem _ hmem)) hx

theorem simple_of_mem_levels {s t : String} {level : Nat} (h : (t, level) ∈ m.levels s) :
    ∃ passed, Trail m.Linked s passed t ∧ Simple passed t ∧ passed.length = level ∧
      m.depth.all (level ≤ ·) = true := by
  rcases List.mem_cons.mp h with h | h
  · obtain ⟨rfl, rfl⟩ := Prod.mk.inj h
    refine ⟨[], .here, simple_nil _, rfl, ?_⟩
    cases m.depth <;> simp
  · obtain ⟨x, hx, hxt⟩ := List.mem_map.mp h
    obtain ⟨rfl, rfl⟩ := Prod.mk.inj hxt
    refine simple_of_mem_visitAt (fun p hp => ?_) hx
    refine onTrail_below .here (simple_nil _) rfl (fun q hq hmem => ?_) hp
    exact (mem_without.mp hmem).2 (List.mem_singleton.mp hq)

/-! ## Completeness -/

def Complete (m : Membership) (n : Nat) (e : Endpoint) : Prop :=
  ∀ ⦃passed t⦄, Trail m.Linked e.key passed t → passed.length ≤ n → t ∈ (m.expand e).map Endpoint.key

/-- Whether a key is met at a level although a trail of fewer links leads to it. -/
def Late (m : Membership) (n : Nat) (s t : String) : Prop :=
  (t, n) ∈ m.levels s ∧ ∃ passed, Trail m.Linked s passed t ∧ passed.length < n

/-- Nothing is missing unless a key that is met late hides it. -/
theorem complete_of_late {n : Nat} (hn : m.depth = some n) {e : Endpoint}
    (h : ∀ t u, m.Late n e.key t → m.Linked t u → u ∈ (m.expand e).map Endpoint.key) : m.Complete n e := by
  intro passed t ht hlen
  rw [keys_expand]
  induction ht with
  | here => simp [reach]
  | @link passed t u ht hl ih =>
    simp only [List.length_cons] at hlen
    obtain ⟨level, hlevel⟩ := mem_reach_iff_levels.mp (ih (by omega))
    obtain ⟨-, -, -, -, hdepth⟩ := simple_of_mem_levels hlevel
    rw [hn] at hdepth
    simp only [Option.all_some, decide_eq_true_eq] at hdepth
    by_cases hlast : level = n
    · subst hlast
      exact keys_expand m e ▸ h t u ⟨hlevel, passed, ht, by omega⟩ hl
    · refine mem_reach_of_linked hlevel ?_ hl
      unfold mayDescend
      rw [hn]
      simp only [Option.all_some, decide_eq_true_eq]
      omega

/-- Without detours nothing is met late. -/
theorem not_late_of_noDetour {n : Nat} {s t : String} (h : NoDetour m.Linked n s) : ¬ m.Late n s t := by
  rintro ⟨hlevel, other, ho, hlt⟩
  obtain ⟨passed, ht, hs, hlen, -⟩ := simple_of_mem_levels hlevel
  have := h ht hs hlen ho
  omega

theorem complete_of_noDetour {n : Nat} (hn : m.depth = some n) {e : Endpoint} (h : NoDetour m.Linked n e.key) :
    m.Complete n e :=
  complete_of_late hn fun _ _ hlate => absurd hlate (not_late_of_noDetour h)

/-- Without detours an expansion holds what trails within the depth lead to. -/
theorem mem_reach_iff {e : Endpoint} {t : String} (h : ∀ n, m.depth = some n → NoDetour m.Linked n e.key) :
    t ∈ m.reach e.key ↔ ∃ passed, Trail m.Linked e.key passed t ∧ m.depth.all (passed.length ≤ ·) = true := by
  constructor
  · intro hmem
    obtain ⟨level, hlevel⟩ := mem_reach_iff_levels.mp hmem
    obtain ⟨passed, ht, -, rfl, hd⟩ := simple_of_mem_levels hlevel
    exact ⟨passed, ht, hd⟩
  · rintro ⟨passed, ht, hd⟩
    cases hdepth : m.depth with
    | some n =>
      rw [hdepth] at hd
      have hcomplete := complete_of_noDetour hdepth (e := e) (h n hdepth) ht (of_decide_eq_true hd)
      rwa [keys_expand] at hcomplete
    | none =>
      clear hd
      induction ht with
      | here => simp [reach]
      | link _ hl ih =>
        obtain ⟨level, hlevel⟩ := mem_reach_iff_levels.mp ih
        exact mem_reach_of_linked hlevel (by simp [mayDescend, hdepth]) hl

/-- An expansion to a depth is complete if and only if no member of a key that is met late, at
    the last level, is missing. So it is where no simple trail of full length is a detour. -/
theorem expand_complete_iff {m : Membership} {n : Nat} (hn : m.depth = some n) (e : Endpoint) :
    (m.Complete n e ↔ ∀ t u, m.Late n e.key t → m.Linked t u → u ∈ (m.expand e).map Endpoint.key) ∧
      (NoDetour m.Linked n e.key → m.Complete n e) := by
  refine ⟨⟨fun h t u hlate hl => ?_, complete_of_late hn⟩, complete_of_noDetour hn⟩
  obtain ⟨-, passed, ht, hlt⟩ := hlate
  exact h (ht.link hl) (by simp only [List.length_cons]; omega)

/-! ## A table with a detour -/

def groupRef (name : String) : Endpoint := ⟨.named .group name, none, "group:" ++ name⟩

/-- The first group has the third one as a member, and as a member of its member. -/
def detour (first second : String) : NameTable :=
  Table.ofList [("a", [.text first, .text second]), ("b", [.text "c"]), ("c", [.text "d"])]

def detourRead (first second : String) : Membership where
  groups := Table.ofList [("group-a", ⟨groupRef "a", [groupRef first, groupRef second]⟩),
    ("group-b", ⟨groupRef "b", [groupRef "c"]⟩), ("group-c", ⟨groupRef "c", [groupRef "d"]⟩)]
  depth := some 2

/-- With the third group before the second, nothing is missing. -/
theorem complete_of_direct : ofTable (detour "c" "b") (some 2) = .ok (detourRead "c" "b") ∧
    (detourRead "c" "b").depth = some 2 ∧ (detourRead "c" "b").Complete 2 (groupRef "a") := by
  refine ⟨rfl, rfl, (expand_complete_iff rfl (groupRef "a")).1.mpr fun t u hlate hl => ?_⟩
  -- What is met at the last level is the fourth group, which has no members.
  have hlevels : (detourRead "c" "b").levels "group-a" =
      [("group-a", 0), ("group-c", 1), ("group-d", 2), ("group-b", 1)] := by cbv
  have hmem : (t, 2) ∈ (detourRead "c" "b").levels "group-a" := hlate.1
  rw [hlevels] at hmem
  have ht : t = "group-d" := by simpa using hmem
  obtain ⟨x, hx, -⟩ := hl
  rw [ht] at hx
  have hnone : (detourRead "c" "b").membersOf "group-d" = [] := by decide +kernel
  rw [hnone] at hx
  cases hx

/-- With the second group first, the third one is met late and its member is missing. -/
theorem a_member_is_hidden : ofTable (detour "b" "c") (some 2) = .ok (detourRead "b" "c") ∧
    ¬ (detourRead "b" "c").Complete 2 (groupRef "a") := by
  refine ⟨rfl, fun h => ?_⟩
  have hc : (detourRead "b" "c").Linked "group-a" "group-c" := ⟨groupRef "c", by decide +kernel, by decide⟩
  have hd : (detourRead "b" "c").Linked "group-c" "group-d" := ⟨groupRef "d", by decide +kernel, by decide⟩
  have hmem : "group-d" ∈ ((detourRead "b" "c").expand (groupRef "a")).map Endpoint.key :=
    h ((Trail.here.link hc).link hd) (by decide)
  have hkeys : ((detourRead "b" "c").expand (groupRef "a")).map Endpoint.key = ["group-a", "group-b", "group-c"] := by
    cbv
  rw [hkeys] at hmem
  revert hmem
  decide

end Portcullis.Membership

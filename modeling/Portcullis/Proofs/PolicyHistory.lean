/-
  Portcullis.Proofs.PolicyHistory — the policy table in every state of a compilation.

  A policy belongs to the rule at a place of the document (`OfPlace`). The policies of a kind are
  stored by one stage, and that stage treats the rules in the order of their places, however the
  turns of the stages interleave (`turns_ordered`). So whatever of a kind is in the table when a
  policy is stored comes from the same place or from one before it.
  - `Filed`: what holds of the table while the stages have treated certain places. `Filed.store`
    is the one step that changes the table: a key with an index is longer than any key of a
    policy and tells its index, so the new policy takes a free key or one of its own rule.
  - `filed_traced`: the turns of a compilation keep it, act by act.
  - `policies_in_order`: with different rule indices, every state of a compilation has an orderly
    table, and a key that was given to a rule stays with that rule.
-/

import Portcullis.Proofs.Acts
import Portcullis.Proofs.PolicyTable

namespace Portcullis

def Edge.baseKey (x : Edge) : String := Key.composite x.kind.text x.sources x.destinations

theorem Edge.length_baseKey (x : Edge) : x.baseKey.length = Key.policyLength :=
  Key.length_composite x.kind x.sources x.destinations

/-- A key with an index is no key of a policy. -/
theorem Edge.baseKey_ne_disambiguate (x y : Edge) (i : Int) : x.baseKey ≠ Key.disambiguate y.baseKey i := by
  intro h
  have hlt := Key.length_disambiguate y.baseKey i
  rw [← h, x.length_baseKey, y.length_baseKey] at hlt
  omega

namespace Compiler

open Pipeline

/-! ## The policies of a state -/

/-- Whether a policy belongs to the rule at a place of a document. -/
def OfPlace (d : Document) (i : Nat) (x : Edge) : Prop := (d.rules[i]?).map AccessRule.index = some x.ruleIndex

structure Orderly (d : Document) (c : Compilation) : Prop where
  keyed : ∀ {k x}, c.graph.policies.get? k = some x → x.key = k
  shaped : ∀ {k x}, c.graph.policies.get? k = some x → k = x.baseKey ∨ k = Key.disambiguate x.baseKey x.ruleIndex
  /-- Behind a key with an index is the key without it, of a rule that is not later. -/
  preceded : ∀ {k x}, c.graph.policies.get? k = some x → k = Key.disambiguate x.baseKey x.ruleIndex →
    ∃ y i j, c.graph.policies.get? x.baseKey = some y ∧ OfPlace d i y ∧ OfPlace d j x ∧ i ≤ j
  noted : ∀ {i : Nat} {r : Rule}, c.book[i]? = some r → ∀ k ∈ r.policyKeys,
    ∃ x, c.graph.policies.get? k = some x ∧ OfPlace d i x

/-- Two states of which the second has every key of the first under the same rule. -/
def Persists (d : Document) (c c' : Compilation) : Prop :=
  ∀ k x i, c.graph.policies.get? k = some x → OfPlace d i x →
    ∃ x', c'.graph.policies.get? k = some x' ∧ OfPlace d i x'

theorem Persists.trans {d : Document} {c c' c'' : Compilation} (h : Persists d c c') (h' : Persists d c' c'') :
    Persists d c c'' := by
  intro k x i hx hi
  obtain ⟨x', hx', hi'⟩ := h k x i hx hi
  exact h' k x' i hx' hi'

def stageOf : PolicyKind → StageKind
  | .groupToGroup => .groupPolicies
  | .groupToResource => .resourcePolicies

structure Filed (d : Document) (treated : PolicyKind → List RuleId) (c : Compilation) : Prop extends Orderly d c where
  book : ∀ {i : Nat} {r : Rule}, c.book[i]? = some r → (d.rules[i]?).map AccessRule.index = some r.index
  treated : ∀ {k x}, c.graph.policies.get? k = some x → ∃ i ∈ treated x.kind, OfPlace d i x

variable {d : Document} {treated treated' : PolicyKind → List RuleId} {c c' : Compilation} {e x : Edge} {k : String}

theorem Filed.indexed (h : Filed d treated c) : c.graph.Indexed where
  key := h.keyed
  shape {k x} hx := by
    rcases h.shaped hx with hk | hk
    · exact .inl (hk ▸ x.length_baseKey)
    · exact .inr ⟨x.baseKey, x.length_baseKey, hk⟩

/-- With different indices a policy belongs to one place. -/
theorem OfPlace.unique (hd : (d.rules.map AccessRule.index).Nodup) {i j : Nat} (hi : OfPlace d i x) (hj : OfPlace d j x) :
    i = j := by
  unfold OfPlace at hi hj
  rw [← List.getElem?_map] at hi hj
  exact (List.getElem?_inj (List.getElem?_eq_some_iff.mp hi).1 hd).mp (hi.trans hj.symm)

/-! ## One act -/

def Act.Quiet : Act → Prop
  | .readTable _ | .readTags _ | .node _ | .link _ _ | .abort | .record _ | .line _ => True
  | .load _ | .write _ _ | .store _ | .note _ _ => False

theorem policies_link (g : Graph) (source destination : Endpoint) :
    (g.link source destination).policies = g.policies := by
  unfold Graph.link Graph.addEdge
  simp only
  split
  · rfl
  · split <;> rfl

theorem quiet_run {a : Act} (ha : a.Quiet) (c : Compilation) :
    (a.run c).graph.policies = c.graph.policies ∧ (a.run c).book = c.book := by
  cases a with
  | link source destination => exact ⟨policies_link c.graph source destination, rfl⟩
  | load | write | store | note => cases ha
  | readTable | readTags | node | abort | record | line => exact ⟨rfl, rfl⟩

theorem Filed.congr (h : Filed d treated c) (hp : c'.graph.policies = c.graph.policies) (hb : c'.book = c.book) :
    Filed d treated c' := by
  obtain ⟨⟨keyed, shaped, preceded, noted⟩, book, htreated⟩ := h
  rw [← hp] at keyed shaped preceded noted htreated
  rw [← hb] at noted book
  exact ⟨⟨keyed, shaped, preceded, noted⟩, book, htreated⟩

/-- Quiet acts keep everything. -/
theorem Filed.quiet (h : Filed d treated c) {as : List Act} (has : ∀ a ∈ as, a.Quiet) :
    Always (Filed d treated) c as :=
  .of_step (fun a ha c hc => hc.congr (quiet_run (has a ha) c).1 (quiet_run (has a ha) c).2) h

theorem Filed.mono (h : Filed d treated c) (hmono : ∀ kind, ∀ i ∈ treated kind, i ∈ treated' kind) :
    Filed d treated' c :=
  { h with treated := fun hx => (h.treated hx).imp fun i hi => ⟨hmono _ i hi.1, hi.2⟩ }

/-- A rule that is written back with the keys it had and with keys of its own policies. -/
theorem Filed.setRule (h : Filed d treated c) {id : RuleId} {r r' : Rule} (hr : c.rule? id = some r)
    (hindex : r'.index = r.index)
    (hkeys : ∀ k ∈ r'.policyKeys, k ∈ r.policyKeys ∨ ∃ x, c.graph.policies.get? k = some x ∧ OfPlace d id x) :
    Filed d treated (c.setRule id r') := by
  have hcases : ∀ {i : Nat} {s : Rule}, (c.book.set id r')[i]? = some s → c.book[i]? = some s ∨ i = id ∧ s = r' := by
    intro i s hs
    by_cases hi : id = i
    · subst hi
      rw [List.getElem?_set_self (List.getElem?_eq_some_iff.mp hr).1] at hs
      exact .inr ⟨rfl, (Option.some.inj hs).symm⟩
    · rw [List.getElem?_set_ne hi] at hs
      exact .inl hs
  refine ⟨⟨h.keyed, h.shaped, h.preceded, fun {i s} hs => ?_⟩, fun {i s} hs => ?_, h.treated⟩
  · rcases hcases hs with hs | ⟨rfl, rfl⟩
    · exact h.noted hs
    · intro k hk
      rcases hkeys k hk with hold | hnew
      · exact h.noted hr k hold
      · exact hnew
  · rcases hcases hs with hs | ⟨rfl, rfl⟩
    · exact h.book hs
    · rw [hindex]
      exact h.book hr

theorem Filed.write (h : Filed d treated c) {id : RuleId} {r r' : Rule} (hr : c.rule? id = some r)
    (hframe : r'.frame = r.frame) : Filed d treated (Act.run c (.write id r')) := by
  have hindex := congrArg Rule.index hframe
  have hkeys := congrArg Rule.policyKeys hframe
  exact h.setRule hr hindex fun k (hk : k ∈ r'.frame.policyKeys) => .inl (hkeys ▸ hk)

theorem Filed.note (h : Filed d treated c) {id : RuleId} {key : String}
    (hkey : ∃ x, c.graph.policies.get? key = some x ∧ OfPlace d id x) :
    Filed d treated (Act.run c (.note id key)) := by
  simp only [Act.run]
  cases hr : c.rule? id with
  | none => exact h
  | some r =>
    show Filed d treated (c.setRule id { r with policyKeys := r.policyKeys ++ [key] })
    refine h.setRule hr rfl fun k hk => ?_
    rcases List.mem_append.mp hk with hk | hk
    · exact .inl hk
    · rw [List.mem_singleton.mp hk]
      exact .inr hkey

/-- A key that is there stays with its rule when a policy is stored. -/
theorem persists_store (h : Filed d treated c) (he : e.key = e.baseKey) :
    Persists d c (Act.run c (.store e)) := by
  intro k x i hx hi
  have hlen : e.key.length = Key.policyLength := he ▸ e.length_baseKey
  rcases Graph.get?_addPolicy h.indexed hlen hx with hsame | ⟨hindex, hnew⟩
  · exact ⟨x, hsame, hi⟩
  · refine ⟨_, hnew, ?_⟩
    show (d.rules[i]?).map AccessRule.index = some e.ruleIndex
    rw [hindex]
    exact hi

/-- Policies that could stand under one key have one kind. -/
theorem kind_of_baseKey {x y : Edge} (h : x.baseKey = y.baseKey) : x.kind = y.kind := Key.kind_of_composite h

/-- A policy is stored under its key if that is free, else under its key with the index. -/
theorem policyKey_cases (g : Graph) (he : e.key = e.baseKey) :
    g.policies.get? e.baseKey = none ∧ g.policyKey e = e.baseKey ∨
      (∃ y, g.policies.get? e.baseKey = some y) ∧ g.policyKey e = Key.disambiguate e.baseKey e.ruleIndex := by
  unfold Graph.policyKey Table.contains
  rw [he]
  cases hy : g.policies.get? e.baseKey with
  | none => exact .inl ⟨rfl, rfl⟩
  | some y => exact .inr ⟨⟨y, rfl⟩, rfl⟩

/-- What stands under a key without an index is not touched by a store. -/
theorem get?_store_of_base (he : e.key = e.baseKey) {b : String} {y : Edge} (hy : c.graph.policies.get? b = some y)
    (hb : b.length = Key.policyLength) : (Act.run c (.store e)).graph.policies.get? b = some y := by
  have hne : b ≠ c.graph.policyKey e := by
    rintro rfl
    rcases policyKey_cases c.graph he with ⟨hfree, hkey⟩ | ⟨-, hkey⟩
    · rw [hkey, hfree] at hy
      cases hy
    · have hlt := Key.length_disambiguate e.baseKey e.ruleIndex
      rw [← hkey, hb, e.length_baseKey] at hlt
      omega
  show (c.graph.policies.insert _ _).get? b = some y
  rw [Table.get?_insert, if_neg hne]
  exact hy

/-- Storing a policy of the place that is treated last. -/
theorem Filed.store (h : Filed d treated c) (he : e.key = e.baseKey) {j : RuleId} (hj : OfPlace d j e)
    (hmem : j ∈ treated e.kind) (hlast : ∀ i ∈ treated e.kind, i ≤ j) : Filed d treated (Act.run c (.store e)) := by
  have hcases : ∀ {k x}, (Act.run c (.store e)).graph.policies.get? k = some x →
      k = c.graph.policyKey e ∧ x = { e with key := c.graph.policyKey e } ∨ c.graph.policies.get? k = some x :=
    fun hx => (Table.get?_insert_cases hx).imp_right And.right
  refine ⟨⟨fun {k x} hx => ?_, fun {k x} hx => ?_, fun {k x} hx hk => ?_, fun {i r} hr k hk => ?_⟩, h.book,
    fun {k x} hx => ?_⟩
  · rcases hcases hx with ⟨rfl, rfl⟩ | hx
    · rfl
    · exact h.keyed hx
  · rcases hcases hx with ⟨rfl, rfl⟩ | hx
    · exact (policyKey_cases c.graph he).imp And.right And.right
    · exact h.shaped hx
  · rcases hcases hx with ⟨rfl, rfl⟩ | hx
    · -- The new key has an index, so the key without it was taken, by a policy of this kind.
      rcases policyKey_cases c.graph he with ⟨-, hkey⟩ | ⟨⟨y, hy⟩, -⟩
      · exact absurd (hkey.symm.trans hk) (e.baseKey_ne_disambiguate e _)
      have hbase : e.baseKey = y.baseKey := by
        rcases h.shaped hy with hb | hb
        · exact hb
        · exact absurd hb (e.baseKey_ne_disambiguate y _)
      obtain ⟨i, hi, hplace⟩ := h.treated hy
      rw [← kind_of_baseKey hbase] at hi
      exact ⟨y, i, j, get?_store_of_base he hy e.length_baseKey, hplace, hj, hlast i hi⟩
    · obtain ⟨y, i, j', hy, hi, hj', hle⟩ := h.preceded hx hk
      exact ⟨y, i, j', get?_store_of_base he hy x.length_baseKey, hi, hj', hle⟩
  · obtain ⟨x, hx, hi⟩ := h.noted hr k hk
    exact persists_store h he k x i hx hi
  · rcases hcases hx with ⟨rfl, rfl⟩ | hx
    · exact ⟨j, hmem, hj⟩
    · exact h.treated hx

/-! ## The acts of a turn -/

theorem quiet_complaining (index : Int) (complaints : List Complaint) :
    ∀ a ∈ complaints.flatMap (complaining index), a.Quiet := by
  intro a ha
  obtain ⟨p, -, ha⟩ := List.mem_flatMap.mp ha
  unfold complaining at ha
  by_cases hp : p.severity = .error
  · rw [if_pos hp] at ha
    rcases List.mem_cons.mp ha with rfl | ha
    · trivial
    · rw [List.mem_singleton.mp ha]
      trivial
  · rw [if_neg hp] at ha
    rw [List.mem_singleton.mp ha]
    trivial

theorem quiet_registering (r : Rule) : ∀ a ∈ registering r, a.Quiet := by
  simp only [registering, List.mem_flatMap, List.mem_cons, List.mem_map]
  rintro a ⟨s, -, rfl | ⟨e, -, rfl⟩⟩ <;> trivial

theorem quiet_introducing (groups : List Group) : ∀ a ∈ groups.flatMap introducing, a.Quiet := by
  simp only [introducing, List.mem_flatMap, List.mem_cons, List.mem_map]
  rintro a ⟨group, -, rfl | ⟨e, -, rfl⟩⟩ <;> trivial

theorem filed_judging (h : Filed d treated c) {f : Compilation → Rule → Verdict}
    (hf : ∀ c r, (f c r).rule.frame = r.frame) (id : RuleId) : Always (Filed d treated) c (judging f id c) := by
  unfold judging
  cases hr : c.rule? id with
  | none => exact .nil h
  | some r => exact .cons h ((h.write hr (hf c r)).quiet (quiet_complaining r.index _))

/-- Storing policies for the place that is treated last. -/
theorem filed_storing (h : Filed d treated c) {id : RuleId} {es : List Edge}
    (hes : ∀ e ∈ es, e.key = e.baseKey ∧ OfPlace d id e ∧ id ∈ treated e.kind ∧ ∀ i ∈ treated e.kind, i ≤ id) :
    Always (Filed d treated) c (storing id c.graph es) := by
  induction es generalizing c with
  | nil => exact .nil h
  | cons e es ih =>
    obtain ⟨hkey, hplace, hmem, hlast⟩ := hes e (by simp)
    have hstored := h.store hkey hplace hmem hlast
    have hthere : ∃ x, (Act.run c (.store e)).graph.policies.get? (c.graph.policyKey e) = some x ∧ OfPlace d id x := by
      refine ⟨{ e with key := c.graph.policyKey e }, ?_, hplace⟩
      show (c.graph.policies.insert _ _).get? _ = _
      rw [Table.get?_insert, if_pos rfl]
    have hnoted := hstored.note hthere
    have hgraph : (Act.run (Act.run c (.store e)) (.note id (c.graph.policyKey e))).graph = c.graph.addPolicy e := by
      simp only [Act.run]
      split <;> rfl
    have hrest := ih hnoted fun x hx => hes x (List.mem_cons_of_mem _ hx)
    rw [hgraph] at hrest
    exact .cons h (.cons hstored hrest)

/-- An edge of a rule has the key that it has by its kind and its sides. -/
theorem baseKey_of_mem {r : Rule} {e : Edge} (he : e ∈ edgesOf r) : e.key = e.baseKey := by
  rcases List.mem_append.mp he with he | he
  · obtain ⟨p, -, rfl⟩ := mem_groupEdges.mp he
    rfl
  · obtain ⟨x, -, rfl⟩ := mem_resourceEdges.mp he
    rfl

/-- The stage that stores the policies of a kind, and how it finds them. -/
theorem workActs_stageOf (kind : PolicyKind) (id : RuleId) (c : Compilation) : ∃ edges : Rule → List Edge,
    workActs (stageOf kind) id c = (c.rule? id).elim [] (fun r => storing id c.graph (edges r)) ∧
      ∀ r, ∀ e ∈ edges r, e ∈ edgesOf r ∧ e.kind = kind := by
  cases kind with
  | groupToGroup =>
    refine ⟨groupEdges, rfl, fun r e he => ⟨List.mem_append_left _ he, ?_⟩⟩
    obtain ⟨p, -, rfl⟩ := mem_groupEdges.mp he
    rfl
  | groupToResource =>
    refine ⟨resourceEdges, rfl, fun r e he => ⟨List.mem_append_right _ he, ?_⟩⟩
    obtain ⟨x, -, rfl⟩ := mem_resourceEdges.mp he
    rfl

/-- A stage that stores policies, at the place that it treats last. -/
theorem filed_stageOf (h : Filed d treated c) {kind : PolicyKind} {id : RuleId} (hmem : id ∈ treated kind)
    (hlast : ∀ i ∈ treated kind, i ≤ id) : Always (Filed d treated) c (workActs (stageOf kind) id c) := by
  obtain ⟨edges, hacts, hedges⟩ := workActs_stageOf kind id c
  rw [hacts]
  cases hr : c.rule? id with
  | none => exact .nil h
  | some r =>
    refine filed_storing h fun e he => ?_
    obtain ⟨he, hkind⟩ := hedges r e he
    refine ⟨baseKey_of_mem he, ?_, hkind ▸ hmem, hkind ▸ hlast⟩
    show (d.rules[id]?).map AccessRule.index = some e.ruleIndex
    rw [ruleIndex_of_mem he]
    exact h.book hr

/-- The work of a stage on a rule, at the place that is treated last if it stores policies. -/
theorem filed_work (h : Filed d treated c) {kind : StageKind} {id : RuleId}
    (hlast : ∀ k, stageOf k = kind → id ∈ treated k ∧ ∀ i ∈ treated k, i ≤ id) :
    Always (Filed d treated) c (workActs kind id c) := by
  cases kind with
  | classifyEndpoints => exact filed_judging h (fun _ => frame_classified) id
  | checkReferences => exact filed_judging h (fun c => frame_checked c.membership c.declaredTags) id
  | convertSources => exact filed_judging h (fun _ => frame_originated) id
  | expandGroups => exact filed_judging h (fun c => frame_expanded c.membership) id
  | registerNodes =>
    unfold workActs
    cases c.rule? id with
    | none => exact .nil h
    | some r => exact h.quiet (quiet_registering r)
  | groupPolicies =>
    obtain ⟨hmem, hle⟩ := hlast .groupToGroup rfl
    exact filed_stageOf h hmem hle
  | resourcePolicies =>
    obtain ⟨hmem, hle⟩ := hlast .groupToResource rfl
    exact filed_stageOf h hmem hle
  | begin | debug | feeder | bare | bareSlots | barePolicies => exact .nil h

/-! ## A run -/

def treatedIn (h : List (Turn StageKind RuleId Compilation)) (kind : PolicyKind) : List RuleId :=
  itemsOf (stageOf kind) h

theorem treatedIn_snoc (h : List (Turn StageKind RuleId Compilation)) (t : Turn StageKind RuleId Compilation)
    (kind : PolicyKind) :
    treatedIn (h ++ [t]) kind = treatedIn h kind ++ (if t.kind = stageOf kind then t.items else []) := by
  unfold treatedIn
  rw [itemsOf_append]
  by_cases hk : t.kind = stageOf kind <;> simp [itemsOf, hk]

theorem filed_turn {h : List (Turn StageKind RuleId Compilation)} {t : Turn StageKind RuleId Compilation}
    (hof : t.Of behaviour) (hc : Filed d (treatedIn h) t.before)
    (hsorted : ∀ kind, (treatedIn (h ++ [t]) kind).Pairwise (· < ·)) :
    Always (Filed d (treatedIn (h ++ [t]))) t.before (turnActs t) := by
  have hmono : Filed d (treatedIn (h ++ [t])) t.before := hc.mono fun kind i hi => by
    rw [treatedIn_snoc]
    exact List.mem_append_left _ hi
  cases hof with
  | @work kind w ht id s =>
    rw [turnActs_single ht]
    refine filed_work hmono fun k hk => ?_
    have htreated := treatedIn_snoc h ⟨kind, [id], s, (w id s).2⟩ k
    rw [if_pos hk.symm] at htreated
    have hpairs := hsorted k
    rw [htreated] at hpairs ⊢
    refine ⟨by simp, fun i hi => ?_⟩
    rcases List.mem_append.mp hi with hi | hi
    · exact Nat.le_of_lt ((List.pairwise_append.mp hpairs).2.2 i hi id (by simp))
    · exact Nat.le_of_eq (List.mem_singleton.mp hi)
  | @report kind rep ht name q s =>
    cases kind <;> cases ht
    refine hmono.quiet fun a ha => ?_
    obtain ⟨l, -, rfl⟩ := List.mem_map.mp ha
    trivial

/-- Turns that treat the places in order keep the table filed, act by act. -/
theorem filed_traced {h : List (Turn StageKind RuleId Compilation)} (ht : Traced behaviour c h c')
    (hc : Filed d (treatedIn []) c) (hsorted : ∀ kind, (treatedIn h kind).Pairwise (· < ·)) :
    Always (fun c => ∃ treated, Filed d treated c) c (h.flatMap turnActs) ∧ Filed d (treatedIn h) c' := by
  induction ht with
  | nil => exact ⟨.nil ⟨_, hc⟩, hc⟩
  | @snoc h t htraced hof ih =>
    obtain ⟨halways, hfiled⟩ := ih fun kind => by
      have hpairs := hsorted kind
      rw [treatedIn_snoc] at hpairs
      exact (List.pairwise_append.mp hpairs).1
    have hturn := filed_turn hof hfiled hsorted
    rw [List.flatMap_append, List.flatMap_singleton]
    refine ⟨halways.append ?_, ?_⟩
    · rw [afterActs_traced htraced]
      exact fun done hdone => ⟨_, hturn done hdone⟩
    · rw [← afterActs_turn hof]
      exact hturn.last

/-- The stages that store policies treat the rules in the order of the document. -/
theorem turns_ordered (d : Document) (o : Options) (kind : PolicyKind) :
    (treatedIn (turns d o) kind).Pairwise (· < ·) := by
  by_cases ht : ∃ m declared, Tables d o m declared
  · obtain ⟨m, declared, ht⟩ := ht
    have hturns : turns d o = stageTurns { state := entered d o m declared } := by
      unfold turns Session.prolog Session.ofDocument
      simp only [prolog_entered ht]
      rfl
    have hunused : Unused (chainOf o.ruleDebug) := by
      unfold Unused
      cases o.ruleDebug <;> decide
    have hone : ((chainOf o.ruleDebug).map Stage.kind).count (stageOf kind) = 1 := by
      cases o.ruleDebug <;> cases kind <;> decide
    have hfilter : ∃ w : Work, task (stageOf kind) = .filter w := by cases kind <;> exact ⟨_, rfl⟩
    obtain ⟨w, hw⟩ := hfilter
    have hsublist := drain_taken (ready_chainOf o.ruleDebug) hunused hone hw (entered d o m declared)
    have hsupply : supply behaviour (entered d o m declared) (chainOf o.ruleDebug) = List.range d.rules.length := by
      cases o.ruleDebug <;> rfl
    rw [hsupply] at hsublist
    rw [hturns, treatedIn, stageTurns, add_ofCompilation]
    exact List.pairwise_lt_range.sublist hsublist
  · obtain ⟨u, hu⟩ := exists_refused fun m declared hm => ht ⟨m, declared, hm⟩
    obtain ⟨c, hprolog, -, -⟩ := prolog_refused hu
    have hturns : turns d o = [] := by
      unfold turns Session.prolog Session.ofDocument
      simp only [hprolog]
      unfold Compilation.refuse
      cases u.cause.isReported <;> rfl
    rw [hturns]
    exact .nil

/-! ## Before the turns -/

/-- Reading the tables is quiet; then the rules are loaded, unless a table cannot be read. -/
theorem opening_quiet (d : Document) (o : Options) : ∃ quiet : List Act, (∀ a ∈ quiet, a.Quiet) ∧
    (opening d o = quiet ∨ opening d o = quiet ++ [.load (d.rules.map Rule.ofAccessRule)]) := by
  have hrefusing : ∀ u, ∀ a ∈ refusing u, a.Quiet := fun u a ha => by
    unfold refusing at ha
    split at ha
    · rcases List.mem_cons.mp ha with rfl | ha
      · trivial
      · rw [List.mem_singleton.mp ha]
        trivial
    · cases ha
  unfold opening
  cases Membership.ofTable d.groups o.expansionDepth with
  | error u => exact ⟨refusing u, hrefusing u, .inl rfl⟩
  | ok m =>
    simp only
    cases Compilation.tagNames d.tagOwners.keys with
    | error u =>
      refine ⟨.readTable m :: refusing u, fun a ha => ?_, .inl rfl⟩
      rcases List.mem_cons.mp ha with rfl | ha
      · trivial
      · exact hrefusing u a ha
    | ok tags =>
      refine ⟨.readTable m :: .readTags tags :: m.groups.values.flatMap introducing, fun a ha => ?_, .inr rfl⟩
      rcases List.mem_cons.mp ha with rfl | ha
      · trivial
      · rcases List.mem_cons.mp ha with rfl | ha
        · trivial
        · exact quiet_introducing _ a ha

theorem book_of_quiet {as : List Act} (has : ∀ a ∈ as, a.Quiet) (c : Compilation) : (afterActs c as).book = c.book :=
  (Always.of_step (P := fun x => x.book = c.book) (fun a ha x hx => (quiet_run (has a ha) x).2.trans hx) rfl).last

/-- The table of an empty book, and of one that was just loaded. -/
theorem Filed.load (h : Filed d treated c) (hb : c.book = []) :
    Filed d treated (Act.run c (.load (d.rules.map Rule.ofAccessRule))) := by
  have hrule : ∀ {i : Nat} {r : Rule}, (c.book ++ d.rules.map Rule.ofAccessRule)[i]? = some r →
      ∃ a, d.rules[i]? = some a ∧ r = Rule.ofAccessRule a := by
    intro i r hr
    rw [hb, List.nil_append, List.getElem?_map] at hr
    obtain ⟨a, ha, rfl⟩ := Option.map_eq_some_iff.mp hr
    exact ⟨a, ha, rfl⟩
  refine ⟨⟨h.keyed, h.shaped, h.preceded, fun {i r} hr k hk => ?_⟩, fun {i r} hr => ?_, h.treated⟩
  · obtain ⟨a, -, rfl⟩ := hrule hr
    cases hk
  · obtain ⟨a, ha, rfl⟩ := hrule hr
    rw [ha]
    rfl

theorem filed_opening (d : Document) (o : Options) :
    Always (Filed d (treatedIn [])) { document := d, options := o } (opening d o) := by
  have hstart : Filed d (treatedIn []) { document := d, options := o } :=
    ⟨⟨fun hx => (by cases hx), fun hx => (by cases hx), fun hx => (by cases hx), fun hr => (by simp at hr)⟩,
      fun hr => (by simp at hr), fun hx => (by cases hx)⟩
  obtain ⟨quiet, hquiet, heq | heq⟩ := opening_quiet d o
  · rw [heq]
    exact hstart.quiet hquiet
  · rw [heq]
    have hfiled := (hstart.quiet hquiet).last
    exact (hstart.quiet hquiet).append (.cons hfiled (.nil (hfiled.load (book_of_quiet hquiet _))))

/-- The table is filed in every state of a compilation. -/
theorem filed_acts (d : Document) (o : Options) :
    Always (fun c => ∃ treated, Filed d treated c) { document := d, options := o } (acts d o) := by
  have hopening := filed_opening d o
  have hlast := hopening.last
  have hstate : afterActs { document := d, options := o } (opening d o) = _ := afterActs_opening d o
  refine Always.append (fun done hdone => ⟨_, hopening done hdone⟩) ?_
  rw [hstate] at hlast ⊢
  exact (filed_traced (turns_traced d o) hlast (turns_ordered d o)).1

/-! ## From state to state -/

/-- An act that stores a policy, if any, under the key that it has by its kind and its sides. -/
def Act.Keyed (a : Act) : Prop := ∀ e, a = .store e → e.key = e.baseKey

theorem Act.Quiet.keyed {a : Act} (h : a.Quiet) : a.Keyed := by
  rintro e rfl
  cases h

theorem keyed_storing (id : RuleId) (g : Graph) {es : List Edge} (hes : ∀ e ∈ es, e.key = e.baseKey) :
    ∀ a ∈ storing id g es, a.Keyed := by
  induction es generalizing g with
  | nil => exact fun a ha => (List.not_mem_nil ha).elim
  | cons e es ih =>
    intro a ha
    rcases List.mem_cons.mp ha with rfl | ha
    · rintro x ⟨⟩
      exact hes e (by simp)
    · rcases List.mem_cons.mp ha with rfl | ha
      · rintro x ⟨⟩
      · exact ih (g.addPolicy e) (fun x hx => hes x (List.mem_cons_of_mem _ hx)) a ha

theorem keyed_judging (f : Compilation → Rule → Verdict) (id : RuleId) (c : Compilation) :
    ∀ a ∈ judging f id c, a.Keyed := by
  unfold judging
  cases c.rule? id with
  | none => exact fun a ha => (List.not_mem_nil ha).elim
  | some r =>
    intro a ha
    rcases List.mem_cons.mp ha with rfl | ha
    · rintro x ⟨⟩
    · exact (quiet_complaining r.index _ a ha).keyed

theorem keyed_stageOf (kind : PolicyKind) (id : RuleId) (c : Compilation) :
    ∀ a ∈ workActs (stageOf kind) id c, a.Keyed := by
  obtain ⟨edges, hacts, hedges⟩ := workActs_stageOf kind id c
  rw [hacts]
  cases c.rule? id with
  | none => exact fun a ha => (List.not_mem_nil ha).elim
  | some r => exact keyed_storing id c.graph fun e he => baseKey_of_mem (hedges r e he).1

theorem keyed_work (kind : StageKind) (id : RuleId) (c : Compilation) : ∀ a ∈ workActs kind id c, a.Keyed := by
  cases kind with
  | classifyEndpoints => exact keyed_judging (fun _ => classified) id c
  | checkReferences => exact keyed_judging (fun c => checked c.membership c.declaredTags) id c
  | convertSources => exact keyed_judging (fun _ => originated) id c
  | expandGroups => exact keyed_judging (fun c => expanded c.membership) id c
  | registerNodes =>
    unfold workActs
    cases c.rule? id with
    | none => exact fun a ha => (List.not_mem_nil ha).elim
    | some r => exact fun a ha => (quiet_registering r a ha).keyed
  | groupPolicies => exact keyed_stageOf .groupToGroup id c
  | resourcePolicies => exact keyed_stageOf .groupToResource id c
  | begin | debug | feeder | bare | bareSlots | barePolicies => exact fun a ha => (List.not_mem_nil ha).elim

theorem keyed_acts (d : Document) (o : Options) : ∀ a ∈ acts d o, a.Keyed := by
  intro a ha
  rcases List.mem_append.mp ha with ha | ha
  · obtain ⟨quiet, hquiet, heq | heq⟩ := opening_quiet d o
    · exact (hquiet a (heq ▸ ha)).keyed
    · rcases List.mem_append.mp (heq ▸ ha) with ha | ha
      · exact (hquiet a ha).keyed
      · rw [List.mem_singleton.mp ha]
        rintro x ⟨⟩
  · obtain ⟨t, -, ha⟩ := List.mem_flatMap.mp ha
    unfold turnActs at ha
    split at ha
    · obtain ⟨l, -, rfl⟩ := List.mem_map.mp ha
      rintro x ⟨⟩
    · obtain ⟨id, -, ha⟩ := List.mem_flatMap.mp ha
      exact keyed_work _ id t.before a ha

/-- One act takes no key away from its rule. -/
theorem persists_run (h : Filed d treated c) {a : Act} (ha : a.Keyed) : Persists d c (a.run c) := by
  have hsame : ∀ {c' : Compilation}, c'.graph.policies = c.graph.policies → Persists d c c' := by
    intro c' hp k x i hx hi
    rw [← hp] at hx
    exact ⟨x, hx, hi⟩
  cases a with
  | store e => exact persists_store h (ha e rfl)
  | note id key =>
    refine hsame ?_
    simp only [Act.run]
    split <;> rfl
  | link source destination => exact hsame (policies_link c.graph source destination)
  | readTable | readTags | load | node | write | abort | record | line => exact hsame rfl

/-- Nor does any number of them. -/
theorem persists_acts {as : List Act} (h : Always (fun c => ∃ treated, Filed d treated c) c as)
    (has : ∀ a ∈ as, a.Keyed) : Persists d c (afterActs c as) := by
  induction as generalizing c with
  | nil => exact fun k x i hx hi => ⟨x, hx, hi⟩
  | cons a as ih =>
    obtain ⟨treated, hfiled⟩ := h [] List.nil_prefix
    have hstep := persists_run hfiled (has a (by simp))
    exact hstep.trans (ih h.tail fun b hb => has b (List.mem_cons_of_mem _ hb))

/-- In every state of a compilation of rules with different indices the policy table is orderly,
    every policy belongs to one rule, and no key passes to another rule later. The stages of the
    policies treat the rules in the order of the document. -/
theorem policies_in_order {d : Document} (hd : (d.rules.map AccessRule.index).Nodup) (o : Options) :
    reached d o (acts d o) = (compile d o).2 ∧ (∀ kind, (treatedIn (turns d o) kind).Pairwise (· < ·)) ∧
      ∀ done, done <+: acts d o →
        Orderly d (reached d o done) ∧
        (∀ k x, (reached d o done).graph.policies.get? k = some x → ∃! i, OfPlace d i x) ∧
        ∀ more, done <+: more → more <+: acts d o → Persists d (reached d o done) (reached d o more) := by
  refine ⟨compile_acts d o, turns_ordered d o, fun done hdone => ?_⟩
  obtain ⟨treated, hfiled⟩ := filed_acts d o done hdone
  refine ⟨hfiled.toOrderly, fun k x hx => ?_, ?_⟩
  · obtain ⟨i, -, hi⟩ := hfiled.treated hx
    exact ⟨i, hi, fun j hj => OfPlace.unique hd hj hi⟩
  · rintro more ⟨rest, rfl⟩ hmore
    have hkeyed : ∀ a ∈ rest, a.Keyed := fun a ha => keyed_acts d o a (hmore.subset (List.mem_append_right _ ha))
    have hrest := ((filed_acts d o).earlier hmore).drop
    unfold reached
    rw [afterActs_append]
    exact persists_acts hrest hkeyed

def twofold : Document :=
  { rules := [{ index := 5, action := .accept, sources := [.text "tag:a"],
                destinations := [.text "tag:b:80", .text "tag:b:22"] },
      { index := -3, action := .drop, sources := [.text "tag:a"], destinations := [.text "tag:b"] }] }

theorem policies_in_order_twofold : (twofold.rules.map AccessRule.index).Nodup ∧
    ∀ done, done <+: acts twofold { ruleDebug := true } → Orderly twofold (reached twofold { ruleDebug := true } done) :=
  ⟨by decide, fun done hdone => ((policies_in_order (by decide) { ruleDebug := true }).2.2 done hdone).1⟩

end Compiler

end Portcullis

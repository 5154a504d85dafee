/-
  Portcullis.Proofs.Duties — the stages of a compilation, as stages of an assembly.

  A stage that judges both sides of a rule processes two slots, the second also where the
  first did not succeed (`judge_bothSides`). The stages that draw, and the one that makes
  origins of sources, let every rule go on. So the chain of a session is an assembly, with an
  observer behind every stage or without.
  - `task_duty`: each stage does what its duty says.
  - `drain_assembled`: a chain of such stages and its assembly hand out the same rules, and
    come to the same outcome and context.
  - `compiled_in_order`: so the stages of a compilation work on the rules in order.
-/

import Mathlib.Data.List.Induction
import Portcullis.Proofs.InOrder
import Portcullis.Proofs.PolicyHistory

namespace Portcullis

namespace Pipeline

/-! ## Stages under other names -/

variable {κ κ' ρ σ ε : Type}

def Stage.relabel (g : κ' → κ) (st : Stage κ' ρ) : Stage κ ρ := { st with kind := g st.kind }

/-- The loop of a chain does not depend on how its stages are told apart. -/
theorem fold_relabel {b' : Behaviour κ' ρ σ ε} {b : Behaviour κ ρ σ ε} {g : κ' → κ}
    (hmissing : b'.noPredecessor = b.noPredecessor) {chain : List (Stage κ' ρ)}
    (hsame : ∀ st ∈ chain, b'.task st.kind = b.task (g st.kind) ∧ b'.name st.kind = b.name (g st.kind)) {α : Type}
    (f : Consumer ρ σ ε α) (a : α) (s : σ) : fold b' chain f a s = fold b (chain.map (Stage.relabel g)) f a s := by
  induction chain generalizing α s with
  | nil => simp only [List.map_nil, fold, hmissing]
  | cons st up ih =>
    obtain ⟨⟨htask, -⟩, hup⟩ := List.forall_mem_cons.mp hsame
    have hname : nameBefore b' up = nameBefore b (up.map (Stage.relabel g)) := by
      cases up with
      | nil => rfl
      | cons before rest => exact (hup before List.mem_cons_self).2
    have ih := fun {α : Type} (f : Consumer ρ σ ε α) a s => ih hup f a s
    rw [List.map_cons, fold, fold]
    simp only [Stage.relabel, htask, hname, ih]
    cases b.task (g st.kind) <;> rfl

end Pipeline

namespace Compiler

open Pipeline

/-! ## Judging slot by slot -/

/-- Judging both sides of a rule is judging one and then the other, and the rule goes on if both
    judgements let it. -/
theorem judge_bothSides {f : Compilation → Side → Rule → Verdict}
    (hframe : ∀ c side r, (f c side r).rule.frame = r.frame)
    (hreads : ∀ {c c'}, c'.membership = c.membership → c'.declaredTags = c.declaredTags → f c' = f c) :
    judge (fun c => Verdict.ofBothSides (f c)) =
      judged [judge fun c => f c .source, judge fun c => f c .destination] := by
  funext id c
  cases hr : c.rule? id with
  | none => simp only [judged, slotResults, judge, hr, next_ok]; rfl
  | some r =>
    have hindex : (f c .source r).rule.frame.index = r.frame.index := by rw [hframe]
    have hindex : (f c .source r).rule.index = r.index := hindex
    simp only [judged, slotResults, judge, hr, Verdict.ofBothSides]
    cases ho : (f c .source r).outcome with
    | error e => simp only [next_error, ho]
    | ok keep =>
      have hnext : ((c.setRule id (f c .source r).rule).complain r.index (f c .source r).complaints).rule? id =
          some (f c .source r).rule := by
        rw [Compilation.complain_eq]
        exact rule?_set hr _
      have hsame : f ((c.setRule id (f c .source r).rule).complain r.index (f c .source r).complaints) = f c :=
        hreads (by rw [Compilation.complain_eq]; rfl) (by rw [Compilation.complain_eq]; rfl)
      -- What is recorded of one side after the other is recorded of both at once.
      have hrecord : ∀ (r' : Rule) (cs : List Complaint),
          (((c.setRule id (f c .source r).rule).complain r.index (f c .source r).complaints).setRule id r').complain
            r.index cs = (c.setRule id r').complain r.index ((f c .source r).complaints ++ cs) := fun r' cs => by
        simp only [Compilation.complain_eq, Compilation.setRule, List.set_set, tagged_append, Journal.noteAll_append]
      simp only [next_ok, hnext, hsame, hindex, hrecord]
      cases (f c .destination (f c .source r).rule).outcome with
      | error e => rfl
      | ok keep' => simp [Except.map]

/-! ## Work that lets every rule go on -/

/-- Work without a word on whether the rule goes on. -/
def silent (w : Work) : RuleId → Compilation → Except Failure Unit × Compilation :=
  fun id c => ((w id c).1.map fun _ => (), (w id c).2)

theorem eq_worked {w : Work} (h : ∀ id c, (w id c).1 ≠ .ok false) : w = worked (silent w) := by
  funext id c
  have hkeep := h id c
  unfold worked silent
  generalize w id c = x at hkeep ⊢
  obtain ⟨o, c'⟩ := x
  match o with
  | .error e => rfl
  | .ok true => rfl
  | .ok false => exact absurd rfl hkeep

theorem draw_goes_on (f : Graph → Rule → Graph × Rule) (id : RuleId) (c : Compilation) :
    (draw f id c).1 ≠ .ok false := by
  unfold draw
  cases c.rule? id <;> simp

theorem add_goes_on {v : Verdict} (hv : v.outcome ≠ .ok false) (side : Side) (e : Endpoint) :
    (v.add side e).outcome ≠ .ok false := by
  unfold Verdict.add
  cases v.rule.add? side e with
  | none => simp [Verdict.fail]
  | some r => exact hv

theorem originate_goes_on {v : Verdict} (hv : v.outcome ≠ .ok false) (e : Endpoint) :
    (originate v e).outcome ≠ .ok false := by
  have hwarned : (if e.ports = none then v else v.warn (uselessPorts e.token)).outcome ≠ .ok false := by
    split <;> exact hv
  exact add_goes_on hwarned .source (asOrigin e)

/-- Making origins of the sources can fail, but does not turn a rule down. -/
theorem originated_goes_on (r : Rule) : (originated r).outcome ≠ .ok false := by
  have heach : ∀ (es : List Endpoint) (v : Verdict), v.outcome ≠ .ok false → (v.each es originate).outcome ≠ .ok false := by
    intro es
    induction es with
    | nil => exact fun v hv => hv
    | cons e es ih =>
      intro v hv
      have hone : (v.unlessFailed (originate · e)).outcome ≠ .ok false := by
        unfold Verdict.unlessFailed
        cases ho : v.outcome with
        | error f => simp [ho]
        | ok keep => exact originate_goes_on hv e
      exact ih _ hone
  exact heach _ _ (by simp)

theorem judge_goes_on {f : Compilation → Rule → Verdict} (hf : ∀ c r, (f c r).outcome ≠ .ok false) (id : RuleId)
    (c : Compilation) : (judge f id c).1 ≠ .ok false := by
  unfold judge
  cases c.rule? id with
  | none => simp
  | some r => exact hf c r

/-! ## The duties of the stages -/

def duty : StageKind → Option (Duty RuleId Compilation Failure)
  | .classifyEndpoints => some (.slots [judge fun _ => classifiedSide .source, judge fun _ => classifiedSide .destination])
  | .checkReferences => some (.slots [judge fun c => checkedSide c.membership c.declaredTags .source,
      judge fun c => checkedSide c.membership c.declaredTags .destination])
  | .convertSources => some (.each (silent (judge fun _ => originated)))
  | .expandGroups => some (.slots [judge fun c => expandedSide c.membership .source,
      judge fun c => expandedSide c.membership .destination])
  | .registerNodes => some (.each (silent (draw fun g r => (registered g r, r))))
  | .groupPolicies => some (.each (silent (draw fun g r => addPolicies g r (groupEdges r))))
  | .resourcePolicies => some (.each (silent (draw fun g r => addPolicies g r (resourceEdges r))))
  | .debug => some (.debug report)
  | _ => none

/-- Each stage does what its duty says. -/
theorem task_duty {k : StageKind} {d : Duty RuleId Compilation Failure} (h : duty k = some d) : task k = d.task := by
  cases k with
  | classifyEndpoints =>
    cases h
    exact congrArg Task.filter (judge_bothSides (f := fun _ => classifiedSide) (fun _ => frame_classifiedSide) fun _ _ => rfl)
  | checkReferences =>
    cases h
    exact congrArg Task.filter (judge_bothSides (f := fun c => checkedSide c.membership c.declaredTags)
      (fun c => frame_checkedSide _ _) fun hm ht => by rw [hm, ht])
  | convertSources =>
    cases h
    exact congrArg Task.filter (eq_worked (judge_goes_on fun _ => originated_goes_on))
  | expandGroups =>
    cases h
    exact congrArg Task.filter (judge_bothSides (f := fun c => expandedSide c.membership)
      (fun c => frame_expandedSide _) fun hm _ => by rw [hm])
  | registerNodes | groupPolicies | resourcePolicies =>
    cases h
    exact congrArg Task.filter (eq_worked (draw_goes_on _))
  | debug =>
    cases h
    rfl
  | _ => cases h

/-! ## Chains of stages -/

/-- A chain of stages behind the first one, with the last one first. -/
def chainBehind (kinds : List StageKind) : Chain :=
  (kinds.map fun k => { kind := k }).reverse ++ [{ kind := .begin }]

def kindAt (kinds : List StageKind) : Nat → StageKind
  | 0 => .begin
  | i + 1 => (kinds[i]?).getD .bare

def assembled (kinds : List StageKind) : Assembly RuleId Compilation Failure where
  items := Compilation.rules
  duties := kinds.filterMap duty
  name i := (kindAt kinds i).name
  missing := .noPredecessor

variable {kinds : List StageKind}

/-- Stages with duties are at the places of their duties. -/
theorem getElem?_duties (hduties : ∀ k ∈ kinds, (duty k).isSome) (i : Nat) :
    (assembled kinds).duties[i]? = (kinds[i]?).bind duty := by
  show (kinds.filterMap duty)[i]? = _
  induction kinds generalizing i with
  | nil => rfl
  | cons k kinds ih =>
    obtain ⟨hk, hkinds⟩ := List.forall_mem_cons.mp hduties
    obtain ⟨d, hd⟩ := Option.isSome_iff_exists.mp hk
    rw [List.filterMap_cons_some hd]
    cases i with
    | zero => exact hd.symm
    | succ i => exact ih hkinds i

theorem task_assembled (hduties : ∀ k ∈ kinds, (duty k).isSome) {i : Nat} (hi : i ≤ kinds.length) :
    (assembled kinds).behaviour.task i = behaviour.task (kindAt kinds i) := by
  cases i with
  | zero => rfl
  | succ i =>
    have hk : kinds[i]? = some kinds[i] := List.getElem?_eq_getElem hi
    obtain ⟨d, hd⟩ := Option.isSome_iff_exists.mp (hduties kinds[i] (List.getElem_mem hi))
    have hplace : (assembled kinds).duties[i]? = some d := by rw [getElem?_duties hduties, hk]; exact hd
    rw [Assembly.task_place hplace, kindAt, hk]
    exact (task_duty hd).symm

theorem length_duties (hduties : ∀ k ∈ kinds, (duty k).isSome) : (assembled kinds).duties.length = kinds.length := by
  show (kinds.filterMap duty).length = _
  induction kinds with
  | nil => rfl
  | cons k kinds ih =>
    obtain ⟨hk, hkinds⟩ := List.forall_mem_cons.mp hduties
    obtain ⟨d, hd⟩ := Option.isSome_iff_exists.mp hk
    rw [List.filterMap_cons_some hd, List.length_cons, ih hkinds, List.length_cons]

theorem relabel_fresh {n : Nat} (hn : n ≤ kinds.length) :
    (fresh n : List (Stage Nat RuleId)).map (Stage.relabel (kindAt kinds)) = chainBehind (kinds.take n) := by
  induction n with
  | zero => rfl
  | succ n ih =>
    rw [fresh, List.map_cons, ih (Nat.le_of_succ_le hn), List.take_succ_eq_append_getElem hn, chainBehind, chainBehind,
      List.map_append, List.reverse_append]
    simp only [Stage.relabel, kindAt, List.getElem?_eq_getElem hn]
    rfl

theorem ready_chainBehind (hduties : ∀ k ∈ kinds, (duty k).isSome) : Ready behaviour (chainBehind kinds) := by
  induction kinds using List.reverseRecOn with
  | nil =>
    have htask : behaviour.task .begin = .source Compilation.rules := rfl
    exact .source htask fun _ => rfl
  | append_singleton kinds k ih =>
    have hup := ih fun k' hk' => hduties k' (List.mem_append_left _ hk')
    obtain ⟨d, hd⟩ := Option.isSome_iff_exists.mp (hduties k (by simp))
    have hchain : chainBehind (kinds ++ [k]) = { kind := k } :: chainBehind kinds := by
      simp [chainBehind]
    have htask := task_duty hd
    rw [hchain]
    cases d with
    | slots process => exact .filter htask rfl hup
    | each work => exact .filter htask rfl hup
    | debug report => exact .observer htask (fun _ => rfl) (fun hs => by cases hs) hup

/-- A chain of stages does what its assembly does. -/
theorem drain_assembled (hduties : ∀ k ∈ kinds, (duty k).isSome) (c : Compilation) :
    let x := drain behaviour (chainBehind kinds) c
    let y := drain (assembled kinds).behaviour (assembled kinds).chain c
    (x.2.outcome.map fun _ => x.1, x.2.context) = (y.2.outcome.map fun _ => y.1, y.2.context) := by
  intro x y
  have hlength := length_duties hduties
  have hchain : (assembled kinds).chain.map (Stage.relabel (kindAt kinds)) = chainBehind kinds := by
    unfold Assembly.chain
    rw [hlength, relabel_fresh (Nat.le_refl _), List.take_length]
  have hplaces : ∀ st ∈ (assembled kinds).chain, st.kind ≤ kinds.length := fun st hst => by
    have hkind := List.mem_map_of_mem (f := Stage.kind) hst
    rw [Assembly.chain, hlength, Assembly.kinds_fresh, List.mem_reverse, List.mem_range] at hkind
    exact Nat.le_of_lt_succ hkind
  rw [drain_fold (ready_chainBehind hduties) c, drain_fold (assembled kinds).ready_chain c, ← hchain]
  exact (fold_relabel (g := kindAt kinds) rfl (fun st hst => ⟨task_assembled hduties (hplaces st hst), rfl⟩)
    collect [] c).symm

/-- The stages of a compilation behind the first one, with an observer behind every stage or
    without. -/
def compiledKinds (stagewise : Bool) : List StageKind :=
  if stagewise then .debug :: StageKind.ofCompilation.tail.flatMap fun k => [k, .debug] else StageKind.ofCompilation.tail

theorem chainOf_eq (stagewise : Bool) : chainOf stagewise = chainBehind (compiledKinds stagewise) := by
  cases stagewise <;> rfl

/-- The stages of a compilation, if none fails, work on the rules of the document in order, each
    rule that got so far once, and hand on those of which every slot succeeded. -/
theorem compiled_in_order (c : Compilation) (hok : (drain behaviour (chainOf c.options.ruleDebug) c).2.outcome = .ok ()) :
    ∃ h chain, (assembled (compiledKinds c.options.ruleDebug)).InOrder c h
      (drain behaviour (chainOf c.options.ruleDebug) c).1 chain
      (drain behaviour (chainOf c.options.ruleDebug) c).2.context := by
  have hduties : ∀ k ∈ compiledKinds c.options.ruleDebug, (duty k).isSome := by
    cases c.options.ruleDebug <;> decide
  have hsame := drain_assembled hduties c
  rw [chainOf_eq] at hok ⊢
  obtain ⟨houtcome, hcontext⟩ := Prod.mk.inj hsame
  rw [hok] at houtcome
  cases hassembled : (drain (assembled (compiledKinds c.options.ruleDebug)).behaviour
      (assembled (compiledKinds c.options.ruleDebug)).chain c).2.outcome with
  | error e =>
    rw [hassembled] at houtcome
    cases houtcome
  | ok _ =>
    rw [hassembled] at houtcome
    have hhanded : (drain behaviour (chainBehind (compiledKinds c.options.ruleDebug)) c).1 = _ := Except.ok.inj houtcome
    rw [hhanded, hcontext]
    exact ⟨_, _, Assembly.inOrder_of_ok hassembled⟩

end Compiler

end Portcullis

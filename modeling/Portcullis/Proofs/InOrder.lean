/-
  Portcullis.Proofs.InOrder — an assembly of stages hands its rules on in order, and then nothing.

  A stage does one of three things (`Duty`): it judges the slots of each rule, all of them even
  after one did not succeed, and drops the rule if any did not; or it does some work on each
  rule; or it reports all rules at once. An assembly is a source with any number of such stages
  behind it, in any order.
  - `settled_of_pulls`: a chain that had nothing to hand out is exhausted in all its stages, so it
    stays as it is however often it is asked again (`pull_settled`).
  - `flow_of_flows`: if nothing fails, each stage works once on each rule that the stages before
    it let through, in order; `mem_flow` says which rules these are.
  - `rules_in_order`: all of this for an assembly, call after call. Draining it ends, and nothing
    fails if no stage does.
-/

import Mathlib.Data.List.Flatten
import Mathlib.Data.List.Nodup
import Portcullis.Proofs.Flow
import Portcullis.Proofs.Loops

namespace Portcullis.Pipeline

variable {κ ρ σ ε : Type}

/-! ## Chains that are exhausted -/

inductive Settled (b : Behaviour κ ρ σ ε) : List (Stage κ ρ) → Prop
  | source {st : Stage κ ρ} {up : List (Stage κ ρ)} {items : σ → List ρ} (ht : b.task st.kind = .source items)
      (hq : st.queue = []) (hs : st.spent = true) : Settled b (st :: up)
  | filter {st : Stage κ ρ} {up : List (Stage κ ρ)} {work : ρ → σ → Except ε Bool × σ}
      (ht : b.task st.kind = .filter work) (hq : st.queue = []) (hup : Settled b up) : Settled b (st :: up)
  | observer {st : Stage κ ρ} {up : List (Stage κ ρ)} {report : String → List ρ → σ → Except ε Unit × σ}
      (ht : b.task st.kind = .observer report) (hq : st.queue = []) (hs : st.spent = true) : Settled b (st :: up)

variable {b : Behaviour κ ρ σ ε}

theorem map_true_ne (o : Except ε Unit) : (o.map fun _ => true) ≠ .ok false := by
  cases o <;> exact fun h => by cases h

mutual

/-- A stage that found nothing left is exhausted, and so is all that it pulls from. -/
theorem settled_of_pulls {chain : List (Stage κ ρ)} {s : σ} {m : Moved κ ρ σ ε (Option ρ)} :
    Pulls b chain s m → m.outcome = .ok none → Settled b m.chain
  | .handed _, hm => by cases hm
  | .again _ _ hrest, hm => settled_of_pulls hrest hm
  | .exhausted hq hturn, _ => settled_of_turns hturn hq rfl
  | .failed _ _, hm => by cases hm

theorem settled_of_turns {st : Stage κ ρ} {up : List (Stage κ ρ)} {s : σ} {m : Moved κ ρ σ ε Bool} :
    Turns b st up s m → st.queue = [] → m.outcome = .ok false → Settled b m.chain
  | .emptied ht hs, hq, _ => .source ht hq hs
  | .loaded ht hs, hq, hm => .source ht (by simpa using hm) rfl
  | .starved ht hup, hq, _ => .filter ht hq (settled_of_pulls hup rfl)
  | .watched ht hs, hq, _ => .observer ht hq hs
  | .unseen ht _ _, _, _ => .observer ht rfl rfl
  | .seen _ _ _ _ _, _, hm => absurd hm (map_true_ne _)
  | .broken _, _, hm => by cases hm
  | .unfed _ _, _, hm => by cases hm
  | .kept _ _ _, _, hm => by cases hm
  | .dropped _ _ _, _, hm => by cases hm
  | .stuck _ _ _, _, hm => by cases hm
  | .blinded _ _ _, _, hm => by cases hm

end

/-- A chain that is exhausted has nothing to hand out, and stays as it is. -/
theorem pull_settled {chain : List (Stage κ ρ)} (h : Settled b chain) (n : Nat) (hn : chain.length ≤ n) (u : σ) :
    pull b n chain u = ⟨.ok none, chain, u⟩ := by
  induction h generalizing n with
  | source ht hq hs =>
    obtain ⟨n, rfl⟩ := Nat.exists_eq_add_one_of_ne_zero (Nat.ne_of_gt (Nat.lt_of_lt_of_le (Nat.succ_pos _) hn))
    simp [pull, rounds, hq, round, ht, hs]
  | filter ht hq hup ih =>
    obtain ⟨n, rfl⟩ := Nat.exists_eq_add_one_of_ne_zero (Nat.ne_of_gt (Nat.lt_of_lt_of_le (Nat.succ_pos _) hn))
    simp [pull, rounds, hq, round, ht, ih n (Nat.le_of_succ_le_succ hn)]
  | observer ht hq hs =>
    obtain ⟨n, rfl⟩ := Nat.exists_eq_add_one_of_ne_zero (Nat.ne_of_gt (Nat.lt_of_lt_of_le (Nat.succ_pos _) hn))
    simp [pull, rounds, hq, round, ht, hs]

/-! ## One call after the other -/

def call (p : Puller κ ρ σ ε) : Nat → Puller κ ρ σ ε
  | 0, chain, s => p chain s
  | n + 1, chain, s => call p n (p chain s).chain (p chain s).context

theorem call_add (p : Puller κ ρ σ ε) (m n : Nat) (chain : List (Stage κ ρ)) (s : σ) :
    call p (m + 1 + n) chain s = call p n (call p m chain s).chain (call p m chain s).context := by
  induction m generalizing chain s with
  | zero => rw [Nat.zero_add, Nat.add_comm, call, call]
  | succ m ih => rw [Nat.add_right_comm, call, ih, call]

structure Calls (b : Behaviour κ ρ σ ε) (p : Puller κ ρ σ ε) (chain : List (Stage κ ρ)) (s : σ) (handed : List ρ)
    (c : List (Stage κ ρ)) (t : σ) : Prop where
  item : ∀ i r, handed[i]? = some r → (call p i chain s).outcome = .ok (some r)
  last : call p handed.length chain s = ⟨.ok none, c, t⟩
  settled : Settled b c
  length : c.length = chain.length

theorem Calls.cons {p : Puller κ ρ σ ε} {chain chain₁ c : List (Stage κ ρ)} {s s₁ t : σ} {r : ρ} {rs : List ρ}
    (hp : p chain s = ⟨.ok (some r), chain₁, s₁⟩) (hlength : chain₁.length = chain.length) (h : Calls b p chain₁ s₁ rs c t) :
    Calls b p chain s (r :: rs) c t where
  item i r' hr := by
    cases i with
    | zero =>
      cases hr
      rw [call, hp]
    | succ i =>
      rw [call, hp]
      exact h.item i r' hr
  last := by
    rw [List.length_cons, call, hp]
    exact h.last
  settled := h.settled
  length := h.length.trans hlength

theorem calls_pullAll {n : Nat} {p : Puller κ ρ σ ε} (hp : TakesOff b n p) (he : Ends b n p) (fuel : Nat) (queue : List ρ)
    (chain : List (Stage κ ρ)) (s : σ) (hr : Ready b chain) (hl : chain.length ≤ n) (hw : waiting b s chain < fuel)
    (hok : (pullAll p fuel queue chain s).2.outcome = .ok ()) :
    ∃ rs, (pullAll p fuel queue chain s).1 = queue ++ rs ∧
      Calls b p chain s rs (pullAll p fuel queue chain s).2.chain (pullAll p fuel queue chain s).2.context := by
  induction fuel generalizing queue chain s with
  | zero => omega
  | succ fuel ih =>
    have h := hp chain s hr hl
    have hends := he chain s hr hl
    unfold pullAll at hok ⊢
    generalize hm : p chain s = m at h hends hok ⊢
    cases h with
    | failed _ => cases hok
    | drained _ hk _ _ =>
      exact ⟨[], by simp, ⟨by simp, hm, settled_of_pulls hends rfl, length_of_kinds hk⟩⟩
    | @handed r c t hc hk hle _ =>
      have hlen := length_of_kinds hk
      have hless := hle t
      obtain ⟨rs, hrs, hcalls⟩ := ih (queue ++ [r]) c t hc (by omega) (by omega) hok
      refine ⟨r :: rs, ?_, hcalls.cons hm hlen⟩
      show (pullAll p fuel (queue ++ [r]) c t).1 = _
      rw [hrs, List.append_assoc]
      rfl

/-- The calls of the last stage of a chain that is drained without a failure. -/
theorem calls_drain {chain : List (Stage κ ρ)} (hr : Ready b chain) {s : σ} (hok : (drain b chain s).2.outcome = .ok ()) :
    Calls b (pull b chain.length) chain s (drain b chain s).1 (drain b chain s).2.chain (drain b chain s).2.context := by
  obtain ⟨rs, hrs, hcalls⟩ := calls_pullAll (pull_pulled b chain.length) (ends_pull b chain.length) (waiting b s chain + 1) []
    chain s hr (Nat.le_refl _) (Nat.lt_succ_self _) hok
  rw [List.nil_append] at hrs
  unfold drain
  rw [hrs]
  exact hcalls

/-- After the last item every call finds nothing and changes nothing. -/
theorem Calls.rest {chain c : List (Stage κ ρ)} {s t : σ} {handed : List ρ}
    (h : Calls b (pull b chain.length) chain s handed c t) (n : Nat) (hn : handed.length ≤ n) :
    call (pull b chain.length) n chain s = ⟨.ok none, c, t⟩ := by
  have hstay : ∀ n, call (pull b chain.length) n c t = ⟨.ok none, c, t⟩ := fun n => by
    have hpull := pull_settled h.settled chain.length (Nat.le_of_eq h.length) t
    induction n with
    | zero => exact hpull
    | succ n ih => rw [call, hpull, ih]
  rcases Nat.eq_or_lt_of_le hn with rfl | hlt
  · exact h.last
  · obtain ⟨j, rfl⟩ := Nat.exists_eq_add_of_lt hlt
    rw [Nat.add_right_comm, call_add, h.last]
    exact hstay j

/-! ## Stages that do not fail -/

def Task.Unfailing : Task ρ σ ε → Prop
  | .source _ => True
  | .filter work => ∀ r s, ∃ keep, (work r s).1 = .ok keep
  | .observer report => ∀ name q s, (report name q s).1 = .ok ()
  | .broken _ => False

theorem exists_next {α β : Type} {x : Except ε α × σ} {k : α → σ → Except ε β × σ} (hx : ∃ a, x.1 = .ok a)
    (hk : ∀ a s, ∃ b, (k a s).1 = .ok b) : ∃ b, (next x k).1 = .ok b := by
  obtain ⟨o, s⟩ := x
  obtain ⟨a, rfl⟩ := hx
  exact hk a s

theorem exists_through {α : Type} {f : Consumer ρ σ ε α} (hf : ∀ a r s, ∃ a', (f a r s).1 = .ok a') (q : List ρ) (a : α)
    (s : σ) : ∃ a', (through f a q s).1 = .ok a' := by
  induction q generalizing a s with
  | nil => exact ⟨a, rfl⟩
  | cons r q ih => exact exists_next (hf a r s) ih

/-- A chain of stages that never fail comes to its end. -/
theorem exists_fold {chain : List (Stage κ ρ)} (hr : Ready b chain) (hchain : ∀ st ∈ chain, (b.task st.kind).Unfailing)
    {α : Type} {f : Consumer ρ σ ε α} (hf : ∀ a r s, ∃ a', (f a r s).1 = .ok a') (a : α) (s : σ) :
    ∃ a', (fold b chain f a s).1 = .ok a' := by
  induction hr generalizing α f a s with
  | source ht hq =>
    simp only [fold, ht]
    exact exists_through hf _ a s
  | filter ht hq hr ih =>
    obtain ⟨hst, hup⟩ := List.forall_mem_cons.mp hchain
    rw [ht] at hst
    simp only [fold, ht, hq, through_nil, next_ok]
    refine ih hup (fun a r s => exists_next (hst r s) fun keep s => ?_) a s
    cases keep with
    | true => exact hf a r s
    | false => exact ⟨a, rfl⟩
  | observer ht hq hz hr ih =>
    obtain ⟨hst, hup⟩ := List.forall_mem_cons.mp hchain
    rw [ht] at hst
    simp only [fold, ht]
    split
    · exact exists_through hf _ a s
    · refine exists_next (ih hup (fun q r s => ⟨q ++ [r], rfl⟩) _ s) fun q s => ?_
      split
      · exact ⟨a, rfl⟩
      · exact exists_next ⟨(), hst _ q s⟩ fun _ s => exists_through hf q a s

theorem drain_ok {chain : List (Stage κ ρ)} (hr : Ready b chain) (hchain : ∀ st ∈ chain, (b.task st.kind).Unfailing)
    (s : σ) : (drain b chain s).2.outcome = .ok () := by
  obtain ⟨q, hq⟩ := exists_fold hr hchain (f := collect) (fun q r s => ⟨q ++ [r], rfl⟩) [] s
  rw [← drain_fold hr s] at hq
  generalize (drain b chain s).2.outcome = o at hq ⊢
  cases o with
  | error e => cases hq
  | ok _ => rfl

/-! ## What a stage does -/

/-- What a stage behind the source does: judge the slots of a rule, work on a rule, or report
    all rules together with the name of the stage before. -/
inductive Duty (ρ σ ε : Type) where
  | slots (process : List (ρ → σ → Except ε Bool × σ))
  | each (work : ρ → σ → Except ε Unit × σ)
  | debug (report : String → List ρ → σ → Except ε Unit × σ)

def slotResults : List (ρ → σ → Except ε Bool × σ) → ρ → σ → Except ε (List Bool) × σ
  | [], _, s => (.ok [], s)
  | p :: ps, r, s => next (p r s) fun ok s => next (slotResults ps r s) fun oks s => (.ok (ok :: oks), s)

def judged (process : List (ρ → σ → Except ε Bool × σ)) : ρ → σ → Except ε Bool × σ :=
  fun r s => next (slotResults process r s) fun oks s => (.ok (oks.all id), s)

def worked (work : ρ → σ → Except ε Unit × σ) : ρ → σ → Except ε Bool × σ :=
  fun r s => next (work r s) fun _ s => (.ok true, s)

def Turn.succeeds (process : List (ρ → σ → Except ε Bool × σ)) (t : Turn κ ρ σ) : Bool :=
  t.items.all fun r => match (slotResults process r t.before).1 with
    | .ok oks => oks.all id
    | .error _ => false

namespace Duty

def task : Duty ρ σ ε → Task ρ σ ε
  | slots process => .filter (judged process)
  | each work => .filter (worked work)
  | debug report => .observer report

def Unfailing : Duty ρ σ ε → Prop
  | slots process => ∀ p ∈ process, ∀ r s, ∃ ok, (p r s).1 = .ok ok
  | each work => ∀ r s, (work r s).1 = .ok ()
  | debug report => ∀ name rs s, (report name rs s).1 = .ok ()

/-- The turns that a stage has with the rules that reach it: one with each, or one with all. -/
def portions : Duty ρ σ ε → List ρ → List (List ρ)
  | slots _, rs => rs.map fun r => [r]
  | each _, rs => rs.map fun r => [r]
  | debug _, rs => if rs.isEmpty then [] else [rs]

def leaving : Duty ρ σ ε → List (Turn κ ρ σ) → List ρ
  | slots process, turns => (turns.filter fun t => t.succeeds process).flatMap Turn.items
  | each _, turns => turns.flatMap Turn.items
  | debug _, turns => turns.flatMap Turn.items

theorem Unfailing.task {d : Duty ρ σ ε} (h : d.Unfailing) : d.task.Unfailing := by
  cases d with
  | slots process =>
    have hresults : ∀ r s, ∃ oks, (slotResults process r s).1 = .ok oks := by
      induction process with
      | nil => exact fun r s => ⟨[], rfl⟩
      | cons p ps ih =>
        obtain ⟨hp, hps⟩ := List.forall_mem_cons.mp h
        exact fun r s => exists_next (hp r s) fun ok s => exists_next (ih hps r s) fun oks s => ⟨ok :: oks, rfl⟩
    exact fun r s => exists_next (hresults r s) fun oks s => ⟨oks.all id, rfl⟩
  | each work => exact fun r s => exists_next ⟨(), h r s⟩ fun _ s => ⟨true, rfl⟩
  | debug report => exact h

/-- Rules of which all go on. -/
theorem flatMap_turns {d : Duty ρ σ ε} {turns : List (Turn κ ρ σ)} {rs : List ρ}
    (h : turns.map Turn.items = d.portions rs) : turns.flatMap Turn.items = rs := by
  rw [List.flatMap_def, h]
  cases d with
  | debug report => cases rs <;> simp [portions]
  | _ => exact List.flatMap_singleton' rs

/-- Of the rules that had a turn, those whose turn is chosen are in order. -/
theorem filter_turns_sublist {d : Duty ρ σ ε} {turns : List (Turn κ ρ σ)} {rs : List ρ}
    (h : turns.map Turn.items = d.portions rs) (p : Turn κ ρ σ → Bool) :
    ((turns.filter p).flatMap Turn.items).Sublist rs := by
  have hsub := (List.filter_sublist (p := p) (l := turns)).flatMap Turn.items
  rwa [flatMap_turns h] at hsub

/-- Of rules that had a turn each, those whose turn is chosen. -/
theorem mem_filter_turns {turns : List (Turn κ ρ σ)} {rs : List ρ} (h : turns.map Turn.items = rs.map fun r => [r])
    (hnodup : rs.Nodup) (p : Turn κ ρ σ → Bool) (r : ρ) :
    r ∈ (turns.filter p).flatMap Turn.items ↔ r ∈ rs ∧ ∀ t ∈ turns, t.items = [r] → p t = true := by
  constructor
  · intro hr
    obtain ⟨t, hchosen, hrt⟩ := List.mem_flatMap.mp hr
    obtain ⟨ht, hp⟩ := List.mem_filter.mp hchosen
    obtain ⟨r', hr', hitems⟩ : ∃ r' ∈ rs, [r'] = t.items := List.mem_map.mp (h ▸ List.mem_map_of_mem ht)
    obtain rfl : r = r' := List.mem_singleton.mp (hitems ▸ hrt)
    refine ⟨hr', fun u hu huitems => ?_⟩
    -- The rule has no second turn.
    have hunique : (turns.map Turn.items).Nodup := h ▸ hnodup.map fun _ _ => List.singleton_inj.mp
    rw [List.inj_on_of_nodup_map hunique hu ht (huitems.trans hitems)]
    exact hp
  · rintro ⟨hr, hall⟩
    obtain ⟨t, ht, hitems⟩ : ∃ t ∈ turns, t.items = [r] := List.mem_map.mp (h ▸ List.mem_map_of_mem hr)
    exact List.mem_flatMap.mpr ⟨t, List.mem_filter.mpr ⟨ht, hall t ht hitems⟩, hitems ▸ List.mem_singleton_self r⟩

/-- A stage lets some of its rules through, in order: those that did not fail in a slot. -/
theorem mem_leaving {d : Duty ρ σ ε} {turns : List (Turn κ ρ σ)} {rs : List ρ}
    (h : turns.map Turn.items = d.portions rs) : (d.leaving turns).Sublist rs ∧
      (rs.Nodup → ∀ r, r ∈ d.leaving turns ↔ r ∈ rs ∧
        ∀ process, d = slots process → ∀ t ∈ turns, t.items = [r] → t.succeeds process = true) := by
  have hall := flatMap_turns h
  cases d with
  | slots process =>
    refine ⟨filter_turns_sublist h _, fun hnodup r =>
      (mem_filter_turns h hnodup (fun t => t.succeeds process) r).trans (and_congr_right fun _ => ?_)⟩
    exact ⟨fun hr process' heq => by cases heq; exact hr, fun hr => hr process rfl⟩
  | each work => simp [leaving, hall]
  | debug report => simp [leaving, hall]

end Duty

theorem passes_judged (process : List (ρ → σ → Except ε Bool × σ)) (t : Turn κ ρ σ) :
    t.passes (judged process) = t.succeeds process := by
  unfold Turn.passes Turn.succeeds
  congr 1
  funext r
  unfold judged
  generalize slotResults process r t.before = x
  obtain ⟨o, s⟩ := x
  cases o <;> rfl

/-- Work that does not fail lets its rule go on. -/
theorem passes_worked {work : ρ → σ → Except ε Unit × σ} {t : Turn κ ρ σ} (h : t.Completes (worked work)) :
    t.passes (worked work) = true := by
  refine List.all_eq_true.mpr fun r hr => ?_
  obtain ⟨keep, hkeep⟩ := h r hr
  unfold worked at hkeep ⊢
  generalize work r t.before = x at hkeep ⊢
  obtain ⟨o, s⟩ := x
  cases o with
  | error e => cases hkeep
  | ok _ => rfl

/-- What a stage with a duty takes, and what leaves it. -/
theorem Flows.duty [DecidableEq κ] {s : σ} {h : List (Turn κ ρ σ)} {k : κ} {ks : List κ} {rs : List ρ} {d : Duty ρ σ ε}
    (ht : b.task k = d.task) (hflows : Flows b s h (k :: ks) rs) :
    ∃ rs₀, Flows b s h ks rs₀ ∧ (turnsOf k h).map Turn.items = d.portions rs₀ ∧ rs = d.leaving (turnsOf k h) := by
  cases hflows with
  | source ht' =>
    rw [ht] at ht'
    cases d <;> cases ht'
  | filter ht' hup htaken hdone =>
    rw [ht] at ht'
    cases d with
    | slots process =>
      cases ht'
      refine ⟨_, hup, htaken, ?_⟩
      simp only [letThrough, passes_judged]
      rfl
    | each work =>
      cases ht'
      refine ⟨_, hup, htaken, ?_⟩
      rw [letThrough, List.filter_eq_self.mpr fun t ht => passes_worked (hdone t ht)]
      rfl
    | debug report => cases ht'
  | observer ht' hup htaken =>
    rw [ht] at ht'
    cases d with
    | slots process => cases ht'
    | each work => cases ht'
    | debug report =>
      refine ⟨_, hup, htaken, ?_⟩
      show rs = (turnsOf k h).flatMap Turn.items
      rw [List.flatMap_def, htaken]
      cases rs <;> simp

/-! ## Assemblies -/

/-- Stages at the places `0` to `n`, the last one first, before their first turn. -/
def fresh : Nat → List (Stage Nat ρ)
  | 0 => [{ kind := 0 }]
  | n + 1 => { kind := n + 1 } :: fresh n

/-- A source and the stages behind it, in order, with the failure of pulling from a stage that
    is not there. -/
structure Assembly (ρ σ ε : Type) where
  items : σ → List ρ
  duties : List (Duty ρ σ ε)
  name : Nat → String
  missing : ε

namespace Assembly

variable (a : Assembly ρ σ ε)

def behaviour : Behaviour Nat ρ σ ε where
  task
    | 0 => .source a.items
    | i + 1 => match a.duties[i]? with
      | some d => d.task
      | none => .broken a.missing
  name := a.name
  noPredecessor := a.missing

def chain : List (Stage Nat ρ) := fresh a.duties.length

def flow (s : σ) (h : List (Turn Nat ρ σ)) : Nat → List ρ
  | 0 => a.items s
  | i + 1 => match a.duties[i]? with
    | some d => d.leaving (turnsOf (i + 1) h)
    | none => []

variable {a}

theorem task_place {i : Nat} {d : Duty ρ σ ε} (hd : a.duties[i]? = some d) : a.behaviour.task (i + 1) = d.task := by
  simp only [behaviour, hd]

theorem flow_place {i : Nat} {d : Duty ρ σ ε} (hd : a.duties[i]? = some d) (s : σ) (h : List (Turn Nat ρ σ)) :
    a.flow s h (i + 1) = d.leaving (turnsOf (i + 1) h) := by
  simp only [flow, hd]

theorem exists_duty {i : Nat} (hi : i < a.duties.length) : ∃ d, a.duties[i]? = some d :=
  ⟨_, List.getElem?_eq_getElem hi⟩

theorem unused_fresh (n : Nat) : Unused (fresh n : List (Stage Nat ρ)) := by
  induction n with
  | zero => simp [Unused, fresh]
  | succ n ih => exact List.forall_mem_cons.mpr ⟨⟨rfl, rfl⟩, ih⟩

theorem kinds_fresh (n : Nat) : (fresh n : List (Stage Nat ρ)).map Stage.kind = (List.range (n + 1)).reverse := by
  induction n with
  | zero => rfl
  | succ n ih => rw [List.range_succ, List.reverse_append, ← ih]; rfl

theorem nodup_fresh (n : Nat) : ((fresh n : List (Stage Nat ρ)).map Stage.kind).Nodup := by
  rw [kinds_fresh]
  exact List.pairwise_reverse.mpr (List.nodup_range.imp Ne.symm)

theorem ready_fresh {n : Nat} (hn : n ≤ a.duties.length) : Ready a.behaviour (fresh n) := by
  induction n with
  | zero =>
    have htask : a.behaviour.task 0 = .source a.items := rfl
    exact .source htask fun _ => rfl
  | succ n ih =>
    obtain ⟨d, hd⟩ := exists_duty (a := a) hn
    have htask := task_place hd
    have hup := ih (Nat.le_of_succ_le hn)
    cases d with
    | slots process => exact .filter htask rfl hup
    | each work => exact .filter htask rfl hup
    | debug report => exact .observer htask (fun _ => rfl) (fun hs => by cases hs) hup

theorem unfailing_fresh (hduties : ∀ d ∈ a.duties, d.Unfailing) {n : Nat} (hn : n ≤ a.duties.length) :
    ∀ st ∈ (fresh n : List (Stage Nat ρ)), (a.behaviour.task st.kind).Unfailing := by
  induction n with
  | zero => exact List.forall_mem_cons.mpr ⟨trivial, by simp⟩
  | succ n ih =>
    obtain ⟨d, hd⟩ := exists_duty (a := a) hn
    refine List.forall_mem_cons.mpr ⟨?_, ih (Nat.le_of_succ_le hn)⟩
    show (a.behaviour.task (n + 1)).Unfailing
    rw [task_place hd]
    exact (hduties d (List.mem_of_getElem? hd)).task

/-- The flow of an assembly, place by place. -/
theorem flow_of_flows {s : σ} {h : List (Turn Nat ρ σ)} {n : Nat} (hn : n ≤ a.duties.length) {rs : List ρ}
    (hflows : Flows a.behaviour s h ((fresh n : List (Stage Nat ρ)).map Stage.kind) rs) :
    rs = a.flow s h n ∧
      ∀ i < n, ∀ d, a.duties[i]? = some d → (turnsOf (i + 1) h).map Turn.items = d.portions (a.flow s h i) := by
  induction n generalizing rs with
  | zero =>
    refine ⟨?_, by simp⟩
    cases hflows with
    | source ht => cases ht; rfl
    | filter ht hup _ _ => cases ht
    | observer ht hup _ => cases ht
  | succ n ih =>
    obtain ⟨d, hd⟩ := exists_duty (a := a) hn
    obtain ⟨rs₀, hup, htaken, rfl⟩ := hflows.duty (task_place hd)
    obtain ⟨rfl, hbefore⟩ := ih (Nat.le_of_succ_le hn) hup
    refine ⟨(flow_place hd s h).symm, fun i hi d' hd' => ?_⟩
    rcases Nat.lt_succ_iff_lt_or_eq.mp hi with hlt | rfl
    · exact hbefore i hlt d' hd'
    · rw [hd] at hd'
      cases hd'
      exact htaken

/-- What leaves a stage are the rules of the source that did not fail in a slot before. -/
theorem mem_flow {s : σ} {h : List (Turn Nat ρ σ)} {n : Nat} (hn : n ≤ a.duties.length)
    (htaken : ∀ i < n, ∀ d, a.duties[i]? = some d → (turnsOf (i + 1) h).map Turn.items = d.portions (a.flow s h i)) :
    (a.flow s h n).Sublist (a.items s) ∧ ((a.items s).Nodup → ∀ r, r ∈ a.flow s h n ↔ r ∈ a.items s ∧
      ∀ i < n, ∀ process, a.duties[i]? = some (.slots process) →
        ∀ t ∈ turnsOf (i + 1) h, t.items = [r] → t.succeeds process = true) := by
  induction n with
  | zero => simp [flow]
  | succ n ih =>
    obtain ⟨d, hd⟩ := exists_duty (a := a) hn
    obtain ⟨hsub, hmem⟩ := ih (Nat.le_of_succ_le hn) fun i hi => htaken i (Nat.lt_succ_of_lt hi)
    obtain ⟨hsub', hmem'⟩ := Duty.mem_leaving (htaken n (Nat.lt_succ_self n) d hd)
    rw [flow_place hd]
    refine ⟨hsub'.trans hsub, fun hnodup r => ?_⟩
    rw [hmem' (hsub.nodup hnodup), hmem hnodup, and_assoc]
    refine and_congr_right fun _ => ⟨fun ⟨hbefore, hlast⟩ i hi process hslots => ?_, fun hall => ⟨?_, ?_⟩⟩
    · rcases Nat.lt_succ_iff_lt_or_eq.mp hi with hlt | rfl
      · exact hbefore i hlt process hslots
      · rw [hd] at hslots
        exact hlast process (Option.some.inj hslots)
    · exact fun i hi => hall i (Nat.lt_succ_of_lt hi)
    · rintro process rfl
      exact hall n (Nat.lt_succ_self n) process hd

structure InOrder (a : Assembly ρ σ ε) (s : σ) (h : List (Turn Nat ρ σ)) (handed : List ρ) (c : List (Stage Nat ρ))
    (t : σ) : Prop where
  /-- The turns are what the stages did, one after the other, and nothing else was done. -/
  traced : Traced a.behaviour s h t
  /-- Each stage has its turns with what leaves the stage before, once and in order. -/
  taken : ∀ i d, a.duties[i]? = some d → (turnsOf (i + 1) h).map Turn.items = d.portions (a.flow s h i)
  /-- What leaves the last stage is handed out. -/
  delivered : handed = a.flow s h a.duties.length
  sublist : handed.Sublist (a.items s)
  /-- Rules are handed out if and only if every slot of every stage succeeded. -/
  succeeded : (a.items s).Nodup → ∀ r, r ∈ handed ↔ r ∈ a.items s ∧
    ∀ i process, a.duties[i]? = some (.slots process) →
      ∀ t ∈ turnsOf (i + 1) h, t.items = [r] → t.succeeds process = true
  /-- One rule with each call, and then nothing. -/
  calls : ∀ n, (call (pull a.behaviour a.chain.length) n a.chain s).outcome = .ok handed[n]?
  /-- A call that finds nothing is one that changes nothing. -/
  rest : ∀ n, handed.length ≤ n → call (pull a.behaviour a.chain.length) n a.chain s = ⟨.ok none, c, t⟩

theorem ready_chain (a : Assembly ρ σ ε) : Ready a.behaviour a.chain := ready_fresh (Nat.le_refl _)

/-- Draining an assembly, if nothing fails. -/
theorem inOrder_of_ok {s : σ} (hok : (drain a.behaviour a.chain s).2.outcome = .ok ()) :
    InOrder a s (drain a.behaviour.watched a.chain (s, [])).2.context.2 (drain a.behaviour a.chain s).1
      (drain a.behaviour a.chain s).2.chain (drain a.behaviour a.chain s).2.context := by
  obtain ⟨hhanded, htaken⟩ := flow_of_flows (Nat.le_refl _) (drain_flows a.ready_chain (unused_fresh _) (nodup_fresh _) hok)
  obtain ⟨hsub, hmem⟩ := mem_flow (Nat.le_refl _) htaken
  have hcalls := calls_drain a.ready_chain hok
  have hplace : ∀ {i d}, a.duties[i]? = some d → i < a.duties.length := fun hd => (List.getElem?_eq_some_iff.mp hd).1
  refine ⟨drain_traced a.ready_chain s, fun i d hd => htaken i (hplace hd) d hd, hhanded, hhanded ▸ hsub,
    fun hnodup r => ?_, fun n => ?_, hcalls.rest⟩
  · rw [hhanded, hmem hnodup r]
    exact and_congr_right fun _ => ⟨fun hr i process hd => hr i (hplace hd) process hd, fun hr i _ => hr i⟩
  · by_cases hn : n < (drain a.behaviour a.chain s).1.length
    · rw [List.getElem?_eq_getElem hn]
      exact hcalls.item n _ (List.getElem?_eq_getElem hn)
    · rw [hcalls.rest n (Nat.le_of_not_lt hn), List.getElem?_eq_none (Nat.le_of_not_lt hn)]

/-- Draining an assembly comes to an end, without a failure if no stage fails. Each stage then
    has worked once and in order on the rules that the stages before let through; the rules of
    which every slot succeeded are handed out, and after them nothing, however often a rule is
    asked for. -/
theorem rules_in_order (a : Assembly ρ σ ε) (s : σ) :
    PullsAll a.behaviour [] a.chain s (drain a.behaviour a.chain s) ∧
    ((∀ d ∈ a.duties, d.Unfailing) → (drain a.behaviour a.chain s).2.outcome = .ok ()) ∧
    ((drain a.behaviour a.chain s).2.outcome = .ok () →
      InOrder a s (drain a.behaviour.watched a.chain (s, [])).2.context.2 (drain a.behaviour a.chain s).1
        (drain a.behaviour a.chain s).2.chain (drain a.behaviour a.chain s).2.context) :=
  ⟨pullsAll_drain a.ready_chain s,
    fun hduties => drain_ok a.ready_chain (unfailing_fresh hduties (Nat.le_refl _)) s, inOrder_of_ok⟩

/-- Two slots of which one fails for `4` and the other for `6`, then a report, then some work; the
    context lists every rule that was touched. -/
def sample : Assembly Nat (List Nat) Unit where
  items _ := [3, 4, 5, 6]
  duties :=
    [.slots [fun r log => (.ok (r != 4), log ++ [r]), fun r log => (.ok (r != 6), log ++ [r])],
     .debug fun _ rs log => (.ok (), log ++ rs),
     .each fun r log => (.ok (), log ++ [r])]
  name _ := ""
  missing := ()

theorem rules_of_sample : ∃ h c, InOrder sample [] h [3, 5] c [3, 3, 4, 4, 5, 5, 6, 6, 3, 5, 3, 5] := by
  obtain ⟨-, hok, hrun⟩ := rules_in_order sample []
  have hduties : ∀ d ∈ sample.duties, d.Unfailing := by
    refine List.forall_mem_cons.mpr ⟨?_, List.forall_mem_cons.mpr ⟨fun _ _ _ => rfl,
      List.forall_mem_cons.mpr ⟨fun _ _ => rfl, by simp⟩⟩⟩
    exact List.forall_mem_cons.mpr ⟨fun r _ => ⟨r != 4, rfl⟩, List.forall_mem_cons.mpr ⟨fun r _ => ⟨r != 6, rfl⟩, by simp⟩⟩
  exact ⟨_, _, hrun (hok hduties)⟩

end Assembly

end Portcullis.Pipeline

/-
  Portcullis.Proofs.Pulling — what a chain of stages computes, without queues and pulling.

  A stage that pulls is a loop over what the stage before it hands out. `fold` says what the
  whole loop does when a consumer takes every item: a source gives its items in order, a
  filter works on an item just before the consumer sees it, and an observer lets everything
  before it run to the end first.
  - `pull_pulled`: one pull takes the first item off that loop. What is left of the chain is
    the rest of the loop, and the number of waiting items has gone down, so the fuel of the
    loops never runs out.
  - `drain_fold`: draining a chain is its loop with a consumer that keeps every item.
-/

import Portcullis.Pipeline

namespace Portcullis.Pipeline

variable {κ ρ σ ε : Type}

/-! ## Steps that may fail -/

/-- Goes on with the outcome of a step, unless the step failed. -/
def next {α β : Type} (x : Except ε α × σ) (k : α → σ → Except ε β × σ) : Except ε β × σ :=
  match x with
  | (.ok a, s) => k a s
  | (.error e, s) => (.error e, s)

@[simp] theorem next_ok {α β : Type} (a : α) (s : σ) (k : α → σ → Except ε β × σ) :
    next (.ok a, s) k = k a s := rfl

@[simp] theorem next_error {α β : Type} (e : ε) (s : σ) (k : α → σ → Except ε β × σ) :
    next (.error e, s) k = (.error e, s) := rfl

theorem next_of_error {α β : Type} {x : Except ε α × σ} {e : ε} (h : x.1 = .error e) (k : α → σ → Except ε β × σ) :
    next x k = (.error e, x.2) := by
  obtain ⟨o, s⟩ := x
  obtain rfl : o = .error e := h
  rfl

theorem next_next {α β γ : Type} (x : Except ε α × σ) (k : α → σ → Except ε β × σ) (l : β → σ → Except ε γ × σ) :
    next (next x k) l = next x fun a s => next (k a s) l := by
  obtain ⟨o, s⟩ := x
  cases o <;> rfl

/-- What a consumer does with an item, from what it has made of the items before. -/
abbrev Consumer (ρ σ ε α : Type) := α → ρ → σ → Except ε α × σ

def through {α : Type} (f : Consumer ρ σ ε α) : α → List ρ → σ → Except ε α × σ
  | a, [], s => (.ok a, s)
  | a, r :: rs, s => next (f a r s) fun a s => through f a rs s

@[simp] theorem through_nil {α : Type} (f : Consumer ρ σ ε α) (a : α) (s : σ) :
    through f a [] s = (.ok a, s) := rfl

@[simp] theorem through_cons {α : Type} (f : Consumer ρ σ ε α) (a : α) (r : ρ) (rs : List ρ) (s : σ) :
    through f a (r :: rs) s = next (f a r s) fun a s => through f a rs s := rfl

/-- Work on an item, which then reaches the consumer or is dropped. -/
def gated {α : Type} (work : ρ → σ → Except ε Bool × σ) (f : Consumer ρ σ ε α) : Consumer ρ σ ε α :=
  fun a r s => next (work r s) fun keep s => if keep then f a r s else (.ok a, s)

def collect : Consumer ρ σ ε (List ρ) := fun q r s => (.ok (q ++ [r]), s)

theorem through_collect (q rs : List ρ) (s : σ) :
    through (collect : Consumer ρ σ ε (List ρ)) q rs s = (.ok (q ++ rs), s) := by
  induction rs generalizing q with
  | nil => simp
  | cons r rs ih =>
    simp only [through_cons, collect, next_ok]
    rw [ih]
    simp

/-! ## The loop of a chain -/

def nameBefore (b : Behaviour κ ρ σ ε) (up : List (Stage κ ρ)) : String := (up.head?.map (b.name ·.kind)).getD ""

/-- A chain as a loop around a consumer. -/
def fold (b : Behaviour κ ρ σ ε) : List (Stage κ ρ) → {α : Type} → Consumer ρ σ ε α → α → σ → Except ε α × σ
  | [], _, _, _, s => (.error b.noPredecessor, s)
  | st :: up, _, f, a, s => match b.task st.kind with
    | .source items => through f a (st.queue ++ if st.spent then [] else items s) s
    | .filter work => next (through f a st.queue s) fun a s => fold b up (gated work f) a s
    | .observer report =>
      if st.spent then through f a st.queue s
      else next (fold b up collect st.queue s) fun q s =>
        if q.isEmpty then (.ok a, s)
        else next (report (nameBefore b up) q s) fun _ s => through f a q s
    | .broken e => (.error e, s)

/-- A chain with one source, at its far end, and nothing queued but in a source or an observer
    that had its turn; before such an observer nothing waits. A chain is so when it is built
    and after every pull. -/
inductive Ready (b : Behaviour κ ρ σ ε) : List (Stage κ ρ) → Prop
  | source {st : Stage κ ρ} {items : σ → List ρ} : b.task st.kind = .source items →
      (st.spent = false → st.queue = []) → Ready b [st]
  | filter {st : Stage κ ρ} {up : List (Stage κ ρ)} {work : ρ → σ → Except ε Bool × σ} :
      b.task st.kind = .filter work → st.queue = [] → Ready b up → Ready b (st :: up)
  | observer {st : Stage κ ρ} {up : List (Stage κ ρ)} {report : String → List ρ → σ → Except ε Unit × σ} :
      b.task st.kind = .observer report → (st.spent = false → st.queue = []) →
      (st.spent = true → ∀ u, waiting b u up = 0) → Ready b up → Ready b (st :: up)

/-- What a pull makes of a chain, told by the loop of the chain before and after. The number
    of items that wait afterwards does not depend on the context any more, and nothing waits
    in a chain that gave no item. -/
inductive Pulled (b : Behaviour κ ρ σ ε) (chain : List (Stage κ ρ)) (s : σ) : Moved κ ρ σ ε (Option ρ) → Prop
  | failed {e : ε} {c : List (Stage κ ρ)} {t : σ} :
      (∀ {α : Type} (f : Consumer ρ σ ε α) (a : α), fold b chain f a s = (.error e, t)) →
      Pulled b chain s ⟨.error e, c, t⟩
  | drained {c : List (Stage κ ρ)} {t : σ} : Ready b c → c.map Stage.kind = chain.map Stage.kind →
      (∀ u, waiting b u c = 0) →
      (∀ {α : Type} (f : Consumer ρ σ ε α) (a : α), fold b chain f a s = (.ok a, t)) →
      Pulled b chain s ⟨.ok none, c, t⟩
  | handed {r : ρ} {c : List (Stage κ ρ)} {t : σ} : Ready b c → c.map Stage.kind = chain.map Stage.kind →
      (∀ u, waiting b u c + 1 ≤ waiting b s chain) →
      (∀ {α : Type} (f : Consumer ρ σ ε α) (a : α),
        fold b chain f a s = next (f a r t) fun a t => fold b c f a t) →
      Pulled b chain s ⟨.ok (some r), c, t⟩

inductive PulledAll (b : Behaviour κ ρ σ ε) (queue : List ρ) (chain : List (Stage κ ρ)) (s : σ) :
    List ρ × Moved κ ρ σ ε Unit → Prop
  | failed {q : List ρ} {e : ε} {c : List (Stage κ ρ)} {t : σ} :
      fold b chain collect queue s = (.error e, t) → PulledAll b queue chain s (q, ⟨.error e, c, t⟩)
  | drained {q : List ρ} {c : List (Stage κ ρ)} {t : σ} : Ready b c → c.map Stage.kind = chain.map Stage.kind →
      (∀ u, waiting b u c = 0) → q.length ≤ queue.length + waiting b s chain →
      fold b chain collect queue s = (.ok q, t) → PulledAll b queue chain s (q, ⟨.ok (), c, t⟩)

/-- Whether a puller takes items off the loops of all chains of at most `n` stages. -/
def TakesOff (b : Behaviour κ ρ σ ε) (n : Nat) (p : Puller κ ρ σ ε) : Prop :=
  ∀ chain s, Ready b chain → chain.length ≤ n → Pulled b chain s (p chain s)

theorem length_of_kinds {c d : List (Stage κ ρ)} (h : c.map Stage.kind = d.map Stage.kind) :
    c.length = d.length := by
  simpa using congrArg List.length h

theorem nameBefore_of_kinds (b : Behaviour κ ρ σ ε) {c d : List (Stage κ ρ)}
    (h : c.map Stage.kind = d.map Stage.kind) :
    nameBefore b c = nameBefore b d := by
  have hh := congrArg List.head? h
  cases c <;> cases d <;> simp_all [nameBefore]

variable {b : Behaviour κ ρ σ ε} {n : Nat} {p : Puller κ ρ σ ε}

theorem pullAll_pulledAll (hp : TakesOff b n p) :
    ∀ (fuel : Nat) (queue : List ρ) (chain : List (Stage κ ρ)) (s : σ), Ready b chain → chain.length ≤ n →
      waiting b s chain < fuel → PulledAll b queue chain s (pullAll p fuel queue chain s) := by
  intro fuel
  induction fuel with
  | zero => intro _ _ _ _ _ h; omega
  | succ fuel ih =>
    intro queue chain s hr hl hw
    have h := hp chain s hr hl
    simp only [pullAll]
    generalize p chain s = m at h ⊢
    cases h with
    | failed hf => exact .failed (hf collect queue)
    | drained hc hk hz hf => exact .drained hc hk hz (Nat.le_add_right _ _) (hf collect queue)
    | @handed r c t hc hk hle hf =>
      have hlen := length_of_kinds hk
      have hstep : fold b chain collect queue s = fold b c collect (queue ++ [r]) t := by rw [hf]; rfl
      have hrest := ih (queue ++ [r]) c t hc (by omega) (by have := hle t; omega)
      show PulledAll b queue chain s (pullAll p fuel (queue ++ [r]) c t)
      generalize pullAll p fuel (queue ++ [r]) c t = m at hrest ⊢
      cases hrest with
      | failed he => exact .failed (hstep.trans he)
      | drained hc' hk' hz hle' he =>
        refine .drained hc' (hk'.trans hk) hz ?_ (hstep.trans he)
        have := hle t
        simp only [List.length_append, List.length_singleton] at hle'
        omega

/-! ## One pull -/

/-- A stage that has an item queued hands it out at once. -/
theorem rounds_queued (fuel : Nat) (st : Stage κ ρ) (r : ρ) (rest : List ρ) (hq : st.queue = r :: rest)
    (up : List (Stage κ ρ)) (s : σ) :
    rounds b p (fuel + 1) st up s = ⟨.ok (some r), { st with queue := rest } :: up, s⟩ := by
  simp only [rounds, hq]

theorem rounds_filter (hp : TakesOff b n p) {k : κ} {work : ρ → σ → Except ε Bool × σ}
    (ht : b.task k = .filter work)
    (spent : Bool) :
    ∀ (fuel : Nat) (up : List (Stage κ ρ)) (s : σ), Ready b up → up.length ≤ n → waiting b s up + 2 ≤ fuel →
      Pulled b (⟨k, [], spent⟩ :: up) s (rounds b p fuel ⟨k, [], spent⟩ up s) := by
  have hw : ∀ up s, waiting b s (⟨k, [], spent⟩ :: up) = waiting b s up := fun up s => by simp [waiting, ht]
  have hfold : ∀ {α : Type} up (f : Consumer ρ σ ε α) a s,
      fold b (⟨k, [], spent⟩ :: up) f a s = fold b up (gated work f) a s := fun up f a s => by simp [fold, ht]
  intro fuel
  induction fuel with
  | zero => intro _ _ _ _ h; omega
  | succ fuel ih =>
    intro up s hr hl hle
    have h := hp up s hr hl
    simp only [rounds, round, ht]
    generalize p up s = m at h ⊢
    cases h with
    | failed hf => exact .failed fun f a => (hfold up f a s).trans (hf _ a)
    | drained hc hk hz hf =>
      exact .drained (.filter ht rfl hc) (by simp [hk]) (fun u => (hw _ u).trans (hz u))
        fun f a => (hfold up f a s).trans (hf _ a)
    | @handed r c t hc hk hle' hf =>
      have hlen := length_of_kinds hk
      have hr' : Ready b (⟨k, [], spent⟩ :: c) := .filter ht rfl hc
      have hk' : (⟨k, [], spent⟩ :: c : List (Stage κ ρ)).map Stage.kind =
          (⟨k, [], spent⟩ :: up : List (Stage κ ρ)).map Stage.kind := by simp [hk]
      rcases hwork : work r t with ⟨outcome, t'⟩
      simp only [hwork]
      cases outcome with
      | error e =>
        refine .failed fun f a => ?_
        rw [hfold, hf]; simp only [gated, hwork, next_error]
      | ok keep =>
        cases keep with
        | true =>
          obtain ⟨fuel, rfl⟩ : ∃ k, fuel = k + 1 := ⟨fuel - 1, by omega⟩
          simp only [if_true, List.nil_append]
          rw [rounds_queued _ _ r [] rfl]
          refine .handed hr' hk' (fun u => by rw [hw, hw]; exact hle' u) fun f a => ?_
          rw [hfold, hf]; simp only [gated, hwork, next_ok, if_true, hfold]
        | false =>
          -- The item is dropped: what is left is the loop of the same stage over the rest.
          have hstep : ∀ {α : Type} (f : Consumer ρ σ ε α) a,
              fold b (⟨k, [], spent⟩ :: up) f a s = fold b (⟨k, [], spent⟩ :: c) f a t' := by
            intro α f a
            rw [hfold, hf]; simp only [gated, hwork, next_ok, Bool.false_eq_true, if_false, hfold]
          have hless := hle' t'
          have hrest := ih c t' hc (by omega) (by omega)
          simp only [Bool.false_eq_true, if_false]
          generalize rounds b p fuel ⟨k, [], spent⟩ c t' = m at hrest ⊢
          cases hrest with
          | failed hf' => exact .failed fun f a => (hstep f a).trans (hf' f a)
          | drained hc' hk'' hz hf' => exact .drained hc' (hk''.trans hk') hz fun f a => (hstep f a).trans (hf' f a)
          | handed hc' hk'' hle'' hf' =>
            refine .handed hc' (hk''.trans hk') (fun u => ?_) fun f a => (hstep f a).trans (hf' f a)
            have := hle'' u; rw [hw] at this ⊢; omega

theorem rounds_source {k : κ} {items : σ → List ρ} (ht : b.task k = .source items) {queue : List ρ} {spent : Bool}
    (hq : spent = false → queue = []) (fuel : Nat) (s : σ) :
    Pulled b [⟨k, queue, spent⟩] s (rounds b p (fuel + 2) ⟨k, queue, spent⟩ [] s) := by
  have hready : ∀ q, Ready b [⟨k, q, true⟩] := fun q => .source ht fun h => by cases h
  have hw : ∀ q u, waiting b u [⟨k, q, true⟩] = q.length := fun q u => by simp [waiting, ht]
  have hfold : ∀ {α : Type} q (f : Consumer ρ σ ε α) a s, fold b [⟨k, q, true⟩] f a s = through f a q s :=
    fun q f a s => by simp [fold, ht]
  cases spent with
  | true =>
    cases queue with
    | nil =>
      simp only [rounds, round, ht, if_true]
      exact .drained (hready _) rfl (fun u => by simp [hw]) fun f a => by rw [hfold]; rfl
    | cons r rest =>
      rw [rounds_queued _ _ _ _ rfl]
      exact .handed (hready rest) rfl (fun u => by simp [hw]) fun f a => by simp [hfold]
  | false =>
    obtain rfl := hq rfl
    have hfold' : ∀ {α : Type} (f : Consumer ρ σ ε α) a,
        fold b [⟨k, [], false⟩] f a s = through f a (items s) s := fun f a => by simp [fold, ht]
    have hw' : waiting b s [⟨k, [], false⟩] = (items s).length := by simp [waiting, ht]
    rw [rounds]
    cases hi : items s with
    | nil =>
      simp only [round, ht, hi, Bool.false_eq_true, if_false, List.append_nil, List.isEmpty_nil, Bool.not_true]
      refine .drained (hready _) rfl (fun u => by simp [hw]) fun f a => by rw [hfold', hi]; rfl
    | cons r rest =>
      simp only [round, ht, hi, Bool.false_eq_true, if_false, List.nil_append, List.isEmpty_cons, Bool.not_false]
      rw [rounds_queued _ _ _ _ rfl]
      refine .handed (hready rest) rfl (fun u => by rw [hw, hw', hi]; simp) fun f a => ?_
      simp [hfold, hfold', hi]

theorem rounds_observer (hp : TakesOff b n p) {k : κ} {report : String → List ρ → σ → Except ε Unit × σ}
    (ht : b.task k = .observer report) {queue : List ρ} {spent : Bool} (hq : spent = false → queue = [])
    {up : List (Stage κ ρ)} (hz : spent = true → ∀ u, waiting b u up = 0) (hr : Ready b up) (hl : up.length ≤ n)
    (fuel : Nat) (s : σ) :
    Pulled b (⟨k, queue, spent⟩ :: up) s (rounds b p (fuel + 2) ⟨k, queue, spent⟩ up s) := by
  have hready : ∀ q {c}, (∀ u, waiting b u c = 0) → Ready b c → Ready b (⟨k, q, true⟩ :: c) :=
    fun q _ hz h => .observer ht (fun h => by cases h) (fun _ => hz) h
  have hw : ∀ q c u, waiting b u (⟨k, q, true⟩ :: c) = q.length + waiting b u c := fun q c u => by simp [waiting, ht]
  have hfold : ∀ {α : Type} q c (f : Consumer ρ σ ε α) a s, fold b (⟨k, q, true⟩ :: c) f a s = through f a q s :=
    fun q c f a s => by simp [fold, ht]
  cases spent with
  | true =>
    cases queue with
    | nil =>
      simp only [rounds, round, ht, if_true]
      exact .drained (hready _ (hz rfl) hr) rfl (fun u => by simp [hw, hz rfl]) fun f a => by rw [hfold]; rfl
    | cons r rest =>
      rw [rounds_queued _ _ _ _ rfl]
      exact .handed (hready rest (hz rfl) hr) rfl (fun u => by simp [hw, hz rfl]) fun f a => by simp [hfold]
  | false =>
    obtain rfl := hq rfl
    have hfold' : ∀ {α : Type} (f : Consumer ρ σ ε α) a, fold b (⟨k, [], false⟩ :: up) f a s =
        next (fold b up collect [] s) fun q s => if q.isEmpty then (.ok a, s)
          else next (report (nameBefore b up) q s) fun _ s => through f a q s := fun f a => by simp [fold, ht]
    have hw' : waiting b s (⟨k, [], false⟩ :: up) = waiting b s up := by simp [waiting, ht]
    have h := pullAll_pulledAll hp (waiting b s up + 1) [] up s hr hl (by omega)
    rw [rounds]
    simp only [round, ht, Bool.false_eq_true, if_false]
    generalize pullAll p (waiting b s up + 1) [] up s = m at h ⊢
    cases h with
    | failed he => exact .failed fun f a => by rw [hfold', he]; rfl
    | @drained q c t hc hk hz hle he =>
      obtain ⟨before, rest, rfl⟩ : ∃ x xs, c = x :: xs := by cases hc <;> exact ⟨_, _, rfl⟩
      have hname : nameBefore b up = b.name before.kind := by rw [← nameBefore_of_kinds b hk]; rfl
      have hk' : ∀ q, (⟨k, q, true⟩ :: before :: rest : List (Stage κ ρ)).map Stage.kind =
          (⟨k, [], false⟩ :: up : List (Stage κ ρ)).map Stage.kind := fun q => by rw [List.map_cons, hk]; rfl
      cases q with
      | nil =>
        have hz' : ∀ u, waiting b u (⟨k, [], true⟩ :: before :: rest) = 0 := fun u => by rw [hw, hz]; rfl
        exact .drained (hready [] hz hc) (hk' _) hz' fun f a => by rw [hfold', he]; rfl
      | cons r q =>
        simp only [List.isEmpty_cons, Bool.false_eq_true, if_false]
        rcases hrep : report (b.name before.kind) (r :: q) t with ⟨outcome, t'⟩
        cases outcome with
        | error e => exact .failed fun f a => by rw [hfold', he, hname]; simp [hrep]
        | ok _ =>
          simp only [Except.map]
          rw [rounds_queued _ _ _ _ rfl]
          refine .handed (hready q hz hc) (hk' _) (fun u => ?_) fun f a => ?_
          · rw [hw, hw', hz]; simpa using hle
          · rw [hfold', he, hname]; simp [hrep, hfold]

/-- Pulling takes the first item off the loop of the chain. -/
theorem pull_pulled (b : Behaviour κ ρ σ ε) : ∀ n, TakesOff b n (pull b n) := by
  intro n
  induction n with
  | zero =>
    intro chain s hr hl
    obtain rfl := List.eq_nil_of_length_eq_zero (Nat.le_zero.mp hl)
    cases hr
  | succ n ih =>
    intro chain s hr hl
    cases hr with
    | source ht hq => exact rounds_source ht hq _ s
    | @filter st up work ht hq hr =>
      obtain ⟨k, queue, spent⟩ := st
      obtain rfl : queue = [] := hq
      refine rounds_filter ih ht spent _ up s hr (Nat.le_of_succ_le_succ hl) ?_
      simp [waiting, ht]
    | observer ht hq hz hr => exact rounds_observer ih ht hq hz hr (Nat.le_of_succ_le_succ hl) _ s

/-- Draining a chain is its loop with a consumer that keeps every item. -/
theorem drain_fold {chain : List (Stage κ ρ)} (hr : Ready b chain) (s : σ) :
    ((drain b chain s).2.outcome.map (fun _ => (drain b chain s).1), (drain b chain s).2.context) =
      fold b chain collect [] s := by
  have h := pullAll_pulledAll (pull_pulled b chain.length) (waiting b s chain + 1) [] chain s hr
    (Nat.le_refl _) (Nat.lt_succ_self _)
  unfold drain
  generalize pullAll (pull b chain.length) (waiting b s chain + 1) [] chain s = m at h ⊢
  cases h with
  | failed he => exact he.symm
  | drained _ _ _ _ he => exact he.symm

end Portcullis.Pipeline

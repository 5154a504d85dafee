/-
  Portcullis.Proofs.Flow — which items each stage of a chain takes, and which it lets through.

  In a run that does not fail, every stage takes exactly the items that the stage before it
  lets through, in order: a filter takes one in each of its turns, an observer takes all in one
  turn, or has none if there are no items. A filter lets through the items whose work said so,
  an observer all (`Flows`).
  - `fold_flows`: so it is for the loop of a chain with any consumer, which sees what leaves the
    last stage. The induction is on the chain: a filter with its consumer is a consumer for
    what stands before it, and what it has let through can be read off its turns (`Followed`).
  - `drain_flows`: what is handed out is what leaves the last stage.
-/

import Portcullis.Proofs.Watching

namespace Portcullis.Pipeline

variable {κ ρ σ ε : Type}

/-! ## Consumers that see one item after the other -/

theorem next_eq_ok {α β : Type} {x : Except ε α × σ} {k : α → σ → Except ε β × σ} {b : β} {t : σ} :
    next x k = (.ok b, t) ↔ ∃ a s, x = (.ok a, s) ∧ k a s = (.ok b, t) := by
  obtain ⟨o, s⟩ := x
  cases o with
  | error e => simp
  | ok a => simp [and_assoc]

/-- What is so of the items seen, of what the consumer made of them and of the context, is so
    with one more item, if it does not fail. -/
def Follows {α : Type} (R : List ρ → α → σ → Prop) (f : Consumer ρ σ ε α) : Prop :=
  ∀ seen a r s a' s', R seen a s → f a r s = (.ok a', s') → R (seen ++ [r]) a' s'

theorem Follows.through {α : Type} {R : List ρ → α → σ → Prop} {f : Consumer ρ σ ε α} (h : Follows R f) {q : List ρ}
    {seen : List ρ} {a a' : α} {s s' : σ} (hR : R seen a s) (hrun : through f a q s = (.ok a', s')) :
    R (seen ++ q) a' s' := by
  induction q generalizing seen a s with
  | nil =>
    cases hrun
    rwa [List.append_nil]
  | cons r q ih =>
    obtain ⟨a₁, s₁, hstep, hrest⟩ := next_eq_ok.mp hrun
    have hR := ih (h _ _ _ _ _ _ hR hstep) hrest
    rwa [List.append_assoc] at hR

/-! ## What a stage lets through -/

def granted : Except ε Bool → Bool
  | .ok keep => keep
  | .error _ => false

def Turn.passes (work : ρ → σ → Except ε Bool × σ) (t : Turn κ ρ σ) : Bool :=
  t.items.all fun r => granted (work r t.before).1

def Turn.Completes (work : ρ → σ → Except ε Bool × σ) (t : Turn κ ρ σ) : Prop :=
  ∀ r ∈ t.items, ∃ keep, (work r t.before).1 = .ok keep

def letThrough (work : ρ → σ → Except ε Bool × σ) (turns : List (Turn κ ρ σ)) : List ρ :=
  (turns.filter fun t => t.passes work).flatMap Turn.items

theorem letThrough_concat (work : ρ → σ → Except ε Bool × σ) (turns : List (Turn κ ρ σ)) {t : Turn κ ρ σ} {r : ρ}
    (hitems : t.items = [r]) {keep : Bool} (hkeep : (work r t.before).1 = .ok keep) :
    letThrough work (turns ++ [t]) = letThrough work turns ++ if keep then [r] else [] := by
  have hpasses : t.passes work = keep := by simp [Turn.passes, hitems, hkeep, granted]
  cases keep <;> simp [letThrough, List.filter_append, hpasses, hitems]

variable [DecidableEq κ]

/-- The turns of a chain of kinds that was given items: each stage takes what leaves the one
    before. The second list is what leaves the last stage. -/
inductive Flows (b : Behaviour κ ρ σ ε) (s : σ) (h : List (Turn κ ρ σ)) : List κ → List ρ → Prop
  | source {k : κ} {items : σ → List ρ} (ht : b.task k = .source items) : Flows b s h [k] (items s)
  | filter {k : κ} {ks : List κ} {work : ρ → σ → Except ε Bool × σ} {rs : List ρ} (ht : b.task k = .filter work)
      (hup : Flows b s h ks rs) (htaken : (turnsOf k h).map Turn.items = rs.map fun r => [r])
      (hdone : ∀ t ∈ turnsOf k h, t.Completes work) : Flows b s h (k :: ks) (letThrough work (turnsOf k h))
  | observer {k : κ} {ks : List κ} {report : String → List ρ → σ → Except ε Unit × σ} {rs : List ρ}
      (ht : b.task k = .observer report) (hup : Flows b s h ks rs)
      (htaken : (turnsOf k h).map Turn.items = if rs.isEmpty then [] else [rs]) : Flows b s h (k :: ks) rs

variable {b : Behaviour κ ρ σ ε}

/-- Only the turns of the chain count. -/
theorem Flows.congr {s : σ} {h h' : List (Turn κ ρ σ)} {ks : List κ} {rs : List ρ} (hflows : Flows b s h ks rs)
    (hsame : ∀ k ∈ ks, turnsOf k h' = turnsOf k h) : Flows b s h' ks rs := by
  induction hflows with
  | source ht => exact .source ht
  | @filter k ks work rs ht hup htaken hdone ih =>
    have hk := hsame k (by simp)
    rw [← hk]
    rw [← hk] at htaken hdone
    exact .filter ht (ih fun k' hk' => hsame k' (List.mem_cons_of_mem _ hk')) htaken hdone
  | observer ht hup htaken ih =>
    refine .observer ht (ih fun k' hk' => hsame k' (List.mem_cons_of_mem _ hk')) ?_
    rw [hsame _ (by simp)]
    exact htaken

/-! ## One stage with its consumer -/

/-- Consumers that leave alone the turns of a kind. -/
def Spares {α : Type} (k : κ) (f : Consumer ρ (Watched κ ρ σ) ε α) : Prop :=
  ∀ P : List (Turn κ ρ σ) → Prop, ∀ a r w, P (turnsOf k w.2) → P (turnsOf k (f a r w).2.2)

def turning (k : κ) (work : ρ → σ → Except ε Bool × σ) : ρ → Watched κ ρ σ → Except ε Bool × Watched κ ρ σ :=
  fun r w => turned k [r] w (work r w.1)

/-- A filter has taken some items, one in each turn, and `R` holds of those it let through. -/
def Followed {α : Type} (R : List ρ → α → Watched κ ρ σ → Prop) (k : κ) (work : ρ → σ → Except ε Bool × σ)
    (seen : List ρ) (a : α) (w : Watched κ ρ σ) : Prop :=
  ∃ turns, turnsOf k w.2 = turns ∧ (turns.map Turn.items = seen.map fun r => [r]) ∧
    (∀ t ∈ turns, t.Completes work) ∧ R (letThrough work turns) a w

/-- A filter in front of a consumer is a consumer. -/
theorem follows_gated {α : Type} {R : List ρ → α → Watched κ ρ σ → Prop} {f : Consumer ρ (Watched κ ρ σ) ε α}
    (h : Follows R f) {k : κ} {work : ρ → σ → Except ε Bool × σ} (hf : Spares k f)
    (hkeeps : ∀ seen a r w, R seen a w → R seen a (turning k work r w).2) :
    Follows (Followed R k work) (gated (turning k work) f) := by
  intro seen a r w a' w' hR hrun
  obtain ⟨turns, hturns, htaken, hdone, hR⟩ := hR
  obtain ⟨keep, w₁, hwork, hrest⟩ := next_eq_ok.mp hrun
  obtain ⟨hkeep, rfl⟩ := Prod.mk.inj hwork
  let t : Turn κ ρ σ := ⟨k, [r], w.1, (work r w.1).2⟩
  have hlet := letThrough_concat work turns (t := t) rfl hkeep
  have hturns₁ : turnsOf k (turning k work r w).2.2 = turns ++ [t] := by
    rw [← hturns]
    exact turnsOf_turned [r] w (work r w.1)
  have htaken₁ : (turns ++ [t]).map Turn.items = (seen ++ [r]).map fun r => [r] := by
    rw [List.map_append, htaken, List.map_append]
    rfl
  have hdone₁ : ∀ u ∈ turns ++ [t], u.Completes work := fun u hu => by
    rcases List.mem_append.mp hu with hu | hu
    · exact hdone u hu
    · rw [List.mem_singleton.mp hu]
      intro r' hr'
      rw [List.mem_singleton.mp hr']
      exact ⟨keep, hkeep⟩
  have hR₁ := hkeeps _ a r w hR
  cases keep with
  | true =>
    have hspared := hf (· = turns ++ [t]) a r _ hturns₁
    rw [if_pos rfl] at hrest hlet
    have hseen := h _ _ _ _ _ _ hR₁ hrest
    rw [← hlet] at hseen
    refine ⟨turns ++ [t], ?_, htaken₁, hdone₁, hseen⟩
    have hw' := congrArg (fun x => x.2.2) hrest
    exact (congrArg (turnsOf k) hw').symm.trans hspared
  | false =>
    rw [if_neg (by decide), List.append_nil] at hlet
    rw [if_neg (by decide)] at hrest
    cases hrest
    rw [← hlet] at hR₁
    exact ⟨turns ++ [t], hturns₁, htaken₁, hdone₁, hR₁⟩

/-- Stages of other kinds leave the record of a filter alone. -/
theorem followed_keeps {α : Type} {R : List ρ → α → Watched κ ρ σ → Prop} {k k' : κ} (hk : k' ≠ k)
    (work : ρ → σ → Except ε Bool × σ) (hR : ∀ seen a, (b.watched.task k').Keeps (R seen a)) (seen : List ρ) (a : α) :
    (b.watched.task k').Keeps (Followed R k work seen a) :=
  .any fun turns => (watched_keeps_turns hk (· = turns)).and
    ((Task.keeps_const _ _).and ((Task.keeps_const _ _).and (hR (letThrough work turns) a)))

/-- An observer that has all items reports them, and its consumer sees them all. -/
theorem flows_reported {α : Type} {R : List ρ → α → Watched κ ρ σ → Prop} {f : Consumer ρ (Watched κ ρ σ) ε α} {k : κ}
    {ks : List κ} {report : String → List ρ → σ → Except ε Unit × σ} (ht : b.task k = .observer report) (h : Follows R f)
    (hf : ∀ k' ∈ k :: ks, Spares k' f) {a a' : α}
    (hkeeps : ∀ name q w, R [] a w → R [] a (turned k q w (report name q w.1)).2) (hne : ∀ k' ∈ ks, k' ≠ k) {s : σ}
    {q : List ρ} {w w' : Watched κ ρ σ} (hup : Flows b s w.2 ks q) (hnone : turnsOf k w.2 = []) (hR : R [] a w)
    {name : String} (hrun : (if q.isEmpty then (.ok a, w)
      else next (turned k q w (report name q w.1)) fun _ w => through f a q w) = (.ok a', w')) :
    Flows b s w'.2 (k :: ks) q ∧ R q a' w' := by
  split at hrun
  · rename_i hempty
    cases hrun
    refine ⟨.observer ht hup ?_, ?_⟩
    · rw [hnone, if_pos hempty]
      rfl
    · rw [List.isEmpty_iff.mp hempty]
      exact hR
  · rename_i hsome
    obtain ⟨_, w₁, hreport, hthrough⟩ := next_eq_ok.mp hrun
    have hw₁ : (turned k q w (report name q w.1)).2 = w₁ := congrArg Prod.snd hreport
    have hR₁ : R [] a w₁ := hw₁ ▸ hkeeps name q w hR
    -- The turns of the chain stay as they were when the observer reported.
    have hstay : ∀ k' ∈ k :: ks, turnsOf k' w'.2 = turnsOf k' w₁.2 := fun k' hk' => by
      have hspared := through_keeps (hf k' hk' (· = turnsOf k' w₁.2)) q a (s := w₁) rfl
      rwa [hthrough] at hspared
    obtain ⟨hstayk, hstayks⟩ := List.forall_mem_cons.mp hstay
    refine ⟨.observer ht (hup.congr fun k' hk' => ?_) ?_, h.through hR₁ hthrough⟩
    · rw [hstayks k' hk', ← hw₁]
      exact turnsOf_turned_of_ne (Ne.symm (hne k' hk')) q w _
    · rw [hstayk, ← hw₁, turnsOf_turned, hnone, if_neg hsome]
      rfl

/-! ## A whole chain -/

/-- What a chain makes of a consumer, if nothing fails. -/
theorem fold_flows {chain : List (Stage κ ρ)} (hr : Ready b chain) (hu : Unused chain)
    (hnodup : (chain.map Stage.kind).Nodup) {α : Type} {R : List ρ → α → Watched κ ρ σ → Prop}
    {f : Consumer ρ (Watched κ ρ σ) ε α} (h : Follows R f) (hf : ∀ k ∈ chain.map Stage.kind, Spares k f)
    (hkeeps : ∀ k ∈ chain.map Stage.kind, ∀ seen a, (b.watched.task k).Keeps (R seen a)) {a a' : α}
    {w w' : Watched κ ρ σ} (hw : ∀ k ∈ chain.map Stage.kind, turnsOf k w.2 = []) (hR : R [] a w)
    (hrun : fold b.watched chain f a w = (.ok a', w')) :
    ∃ rs, Flows b w.1 w'.2 (chain.map Stage.kind) rs ∧ R rs a' w' := by
  induction hr generalizing α R f a a' w w' with
  | @source st items ht hq =>
    obtain ⟨hqueue, hspent⟩ := hu st (by simp)
    simp only [fold, task_watched, ht, Task.watched, hqueue, hspent, List.nil_append, Bool.false_eq_true, if_false] at hrun
    exact ⟨items w.1, .source ht, h.through hR hrun⟩
  | @filter st up work ht hq hr ih =>
    have hup : Unused up := fun x hx => hu x (List.mem_cons_of_mem _ hx)
    obtain ⟨hnew, hnodup⟩ := List.nodup_cons.mp hnodup
    have hne : ∀ k ∈ up.map Stage.kind, k ≠ st.kind := fun k hk heq => hnew (heq ▸ hk)
    obtain ⟨hfst, hfup⟩ := List.forall_mem_cons.mp hf
    obtain ⟨hkst, hkup⟩ := List.forall_mem_cons.mp hkeeps
    obtain ⟨hwst, hwup⟩ := List.forall_mem_cons.mp hw
    have htask : b.watched.task st.kind = .filter (turning st.kind work) := by rw [task_watched, ht]; rfl
    have hfold : fold b.watched (st :: up) f a w = fold b.watched up (gated (turning st.kind work) f) a w := by
      rw [fold]
      simp only [htask, hq, through_nil, next_ok]
    rw [htask] at hkst
    have hspares : ∀ k ∈ up.map Stage.kind, Spares k (gated (turning st.kind work) f) := fun k hk P => by
      have hturn := watched_keeps_turns (b := b) (Ne.symm (hne k hk)) P
      rw [htask] at hturn
      exact gated_keeps hturn (hfup k hk P)
    rw [hfold] at hrun
    obtain ⟨rs, hflows, turns, rfl, htaken, hdone, hR⟩ := ih hup hnodup (follows_gated h hfst fun seen a => hkst seen a)
      hspares (fun k hk => followed_keeps (hne k hk) work (hkup k hk)) hwup ⟨[], hwst, rfl, by simp, hR⟩ hrun
    exact ⟨_, .filter ht hflows htaken hdone, hR⟩
  | @observer st up report ht hq hz hr ih =>
    have hup : Unused up := fun x hx => hu x (List.mem_cons_of_mem _ hx)
    obtain ⟨hqueue, hspent⟩ := hu st (by simp)
    obtain ⟨hnew, hnodup⟩ := List.nodup_cons.mp hnodup
    have hne : ∀ k ∈ up.map Stage.kind, k ≠ st.kind := fun k hk heq => hnew (heq ▸ hk)
    obtain ⟨hfst, hfup⟩ := List.forall_mem_cons.mp hf
    obtain ⟨hkst, hkup⟩ := List.forall_mem_cons.mp hkeeps
    obtain ⟨hwst, hwup⟩ := List.forall_mem_cons.mp hw
    have htask : b.watched.task st.kind = .observer fun name q w => turned st.kind q w (report name q w.1) := by
      rw [task_watched, ht]
      rfl
    rw [htask] at hkst
    rw [fold] at hrun
    simp only [htask, hqueue, hspent, Bool.false_eq_true, if_false] at hrun
    obtain ⟨q, w₁, hcollected, hrest⟩ := next_eq_ok.mp hrun
    -- While the observer waits for all items, it has no turn, and the consumer behind it sees none.
    have hcollect : Follows (fun seen q w => q = seen ∧ turnsOf st.kind w.2 = [] ∧ R [] a w)
        (collect : Consumer ρ (Watched κ ρ σ) ε (List ρ)) := by
      rintro seen q r w q' w' ⟨rfl, hnone⟩ hstep
      cases hstep
      exact ⟨rfl, hnone⟩
    obtain ⟨rs, hflows, rfl, hnone, hR⟩ := ih hup hnodup hcollect (fun k _ P a r w hP => hP)
      (fun k hk seen q => (Task.keeps_const _ _).and ((watched_keeps_turns (hne k hk) (· = [])).and (hkup k hk [] a)))
      hwup ⟨rfl, hwst, hR⟩ hcollected
    obtain ⟨hflows, hR⟩ := flows_reported ht h hf (fun name q w hR => hkst [] a name q w hR) hne hflows hnone hR hrest
    exact ⟨q, hflows, hR⟩

/-- What a chain hands out is what leaves its last stage, if nothing fails. -/
theorem drain_flows {chain : List (Stage κ ρ)} (hr : Ready b chain) (hu : Unused chain)
    (hnodup : (chain.map Stage.kind).Nodup) {s : σ} (hok : (drain b chain s).2.outcome = .ok ()) :
    Flows b s (drain b.watched chain (s, [])).2.context.2 (chain.map Stage.kind) (drain b chain s).1 := by
  have hwatched := drain_fold hr.watched (s, [])
  have hplain : unwatched (fold b.watched chain collect [] (s, [])) =
      (.ok (drain b chain s).1, (drain b chain s).2.context) := by
    rw [unwatched_fold (b := b) chain (g := collect) (fun _ _ _ => rfl), ← drain_fold hr s, hok]
    rfl
  have hrun : fold b.watched chain collect [] (s, []) =
      (.ok (drain b chain s).1, (drain b.watched chain (s, [])).2.context) := by
    rw [← hwatched] at hplain ⊢
    exact Prod.ext (Prod.mk.inj hplain).1 rfl
  obtain ⟨rs, hflows, rfl⟩ := fold_flows hr hu hnodup (R := fun seen q _ => q = seen)
    (fun seen q r w q' w' hq hstep => by cases hq; cases hstep; rfl) (fun _ _ _ _ _ _ hP => hP)
    (fun k _ seen q => Task.keeps_const _ _) (fun _ _ => rfl) rfl hrun
  exact hflows

end Portcullis.Pipeline

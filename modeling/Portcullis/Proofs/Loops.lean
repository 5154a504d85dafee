/-
  Portcullis.Proofs.Loops — the loops of a chain come to an end by themselves.

  The loops of the stages count their rounds down. Here they stand without counting, as rules:
  one pull (`Pulls`), one round of a stage with an empty queue (`Turns`), and pulling until
  nothing is left (`PullsAll`). A run is a derivation, so there is one only where every loop in
  it ends.
  - `pullsAll_drain`: draining a chain is such a run, whatever the stages do and whether or not
    one fails. A round either queues an item, which the pull hands out, or takes one off what
    waits in the chain (`turns_round`).
-/

import Portcullis.Proofs.Pulling

namespace Portcullis.Pipeline

variable {κ ρ σ ε : Type}

/-! ## The loops without counting -/

mutual

/-- One pull: rounds until the queue has an item or the stage is exhausted. -/
inductive Pulls (b : Behaviour κ ρ σ ε) : List (Stage κ ρ) → σ → Moved κ ρ σ ε (Option ρ) → Prop
  | handed {st : Stage κ ρ} {up : List (Stage κ ρ)} {s : σ} {r : ρ} {rest : List ρ} : st.queue = r :: rest →
      Pulls b (st :: up) s ⟨.ok (some r), { st with queue := rest } :: up, s⟩
  | again {st st' : Stage κ ρ} {up up' : List (Stage κ ρ)} {s t : σ} {m : Moved κ ρ σ ε (Option ρ)} : st.queue = [] →
      Turns b st up s ⟨.ok true, st' :: up', t⟩ → Pulls b (st' :: up') t m → Pulls b (st :: up) s m
  | exhausted {st : Stage κ ρ} {up c : List (Stage κ ρ)} {s t : σ} : st.queue = [] →
      Turns b st up s ⟨.ok false, c, t⟩ → Pulls b (st :: up) s ⟨.ok none, c, t⟩
  | failed {st : Stage κ ρ} {up c : List (Stage κ ρ)} {s t : σ} {e : ε} : st.queue = [] →
      Turns b st up s ⟨.error e, c, t⟩ → Pulls b (st :: up) s ⟨.error e, c, t⟩

inductive Turns (b : Behaviour κ ρ σ ε) : Stage κ ρ → List (Stage κ ρ) → σ → Moved κ ρ σ ε Bool → Prop
  | broken {st : Stage κ ρ} {up : List (Stage κ ρ)} {s : σ} {e : ε} : b.task st.kind = .broken e →
      Turns b st up s ⟨.error e, st :: up, s⟩
  | emptied {st : Stage κ ρ} {up : List (Stage κ ρ)} {s : σ} {items : σ → List ρ} :
      b.task st.kind = .source items → st.spent = true → Turns b st up s ⟨.ok false, st :: up, s⟩
  | loaded {st : Stage κ ρ} {up : List (Stage κ ρ)} {s : σ} {items : σ → List ρ} :
      b.task st.kind = .source items → st.spent = false →
      Turns b st up s ⟨.ok (!(st.queue ++ items s).isEmpty),
        { st with queue := st.queue ++ items s, spent := true } :: up, s⟩
  | starved {st : Stage κ ρ} {up c : List (Stage κ ρ)} {s t : σ} {work : ρ → σ → Except ε Bool × σ} :
      b.task st.kind = .filter work → Pulls b up s ⟨.ok none, c, t⟩ → Turns b st up s ⟨.ok false, st :: c, t⟩
  | unfed {st : Stage κ ρ} {up c : List (Stage κ ρ)} {s t : σ} {work : ρ → σ → Except ε Bool × σ} {e : ε} :
      b.task st.kind = .filter work → Pulls b up s ⟨.error e, c, t⟩ → Turns b st up s ⟨.error e, st :: c, t⟩
  | kept {st : Stage κ ρ} {up c : List (Stage κ ρ)} {s t u : σ} {work : ρ → σ → Except ε Bool × σ} {r : ρ} :
      b.task st.kind = .filter work → Pulls b up s ⟨.ok (some r), c, t⟩ → work r t = (.ok true, u) →
      Turns b st up s ⟨.ok true, { st with queue := st.queue ++ [r] } :: c, u⟩
  | dropped {st : Stage κ ρ} {up c : List (Stage κ ρ)} {s t u : σ} {work : ρ → σ → Except ε Bool × σ} {r : ρ} :
      b.task st.kind = .filter work → Pulls b up s ⟨.ok (some r), c, t⟩ → work r t = (.ok false, u) →
      Turns b st up s ⟨.ok true, st :: c, u⟩
  | stuck {st : Stage κ ρ} {up c : List (Stage κ ρ)} {s t u : σ} {work : ρ → σ → Except ε Bool × σ} {r : ρ} {e : ε} :
      b.task st.kind = .filter work → Pulls b up s ⟨.ok (some r), c, t⟩ → work r t = (.error e, u) →
      Turns b st up s ⟨.error e, st :: c, u⟩
  | watched {st : Stage κ ρ} {up : List (Stage κ ρ)} {s : σ} {report : String → List ρ → σ → Except ε Unit × σ} :
      b.task st.kind = .observer report → st.spent = true → Turns b st up s ⟨.ok false, st :: up, s⟩
  | unseen {st : Stage κ ρ} {up c : List (Stage κ ρ)} {s t : σ} {report : String → List ρ → σ → Except ε Unit × σ} :
      b.task st.kind = .observer report → st.spent = false → PullsAll b st.queue up s ([], ⟨.ok (), c, t⟩) →
      Turns b st up s ⟨.ok false, { st with queue := [], spent := true } :: c, t⟩
  | seen {st before : Stage κ ρ} {up c : List (Stage κ ρ)} {s t u : σ}
      {report : String → List ρ → σ → Except ε Unit × σ} {q : List ρ} {outcome : Except ε Unit} :
      b.task st.kind = .observer report → st.spent = false →
      PullsAll b st.queue up s (q, ⟨.ok (), before :: c, t⟩) → q ≠ [] →
      report (b.name before.kind) q t = (outcome, u) →
      Turns b st up s ⟨outcome.map fun _ => true, { st with queue := q, spent := true } :: before :: c, u⟩
  | blinded {st : Stage κ ρ} {up c : List (Stage κ ρ)} {s t : σ} {report : String → List ρ → σ → Except ε Unit × σ}
      {q : List ρ} {e : ε} :
      b.task st.kind = .observer report → st.spent = false → PullsAll b st.queue up s (q, ⟨.error e, c, t⟩) →
      Turns b st up s ⟨.error e, { st with queue := q, spent := true } :: c, t⟩

inductive PullsAll (b : Behaviour κ ρ σ ε) : List ρ → List (Stage κ ρ) → σ → List ρ × Moved κ ρ σ ε Unit → Prop
  | drained {q : List ρ} {up c : List (Stage κ ρ)} {s t : σ} : Pulls b up s ⟨.ok none, c, t⟩ →
      PullsAll b q up s (q, ⟨.ok (), c, t⟩)
  | failed {q : List ρ} {up c : List (Stage κ ρ)} {s t : σ} {e : ε} : Pulls b up s ⟨.error e, c, t⟩ →
      PullsAll b q up s (q, ⟨.error e, c, t⟩)
  | more {q : List ρ} {up c : List (Stage κ ρ)} {s t : σ} {r : ρ} {x : List ρ × Moved κ ρ σ ε Unit} :
      Pulls b up s ⟨.ok (some r), c, t⟩ → PullsAll b (q ++ [r]) c t x → PullsAll b q up s x

end

/-! ## The counted loops are such runs -/

variable {b : Behaviour κ ρ σ ε} {n : Nat} {p : Puller κ ρ σ ε}

/-- Whether a puller of chains of at most `n` stages makes a run of each pull. -/
def Ends (b : Behaviour κ ρ σ ε) (n : Nat) (p : Puller κ ρ σ ε) : Prop :=
  ∀ chain s, Ready b chain → chain.length ≤ n → Pulls b chain s (p chain s)

theorem pullsAll_pullAll (hp : TakesOff b n p) (he : Ends b n p) :
    ∀ (fuel : Nat) (queue : List ρ) (chain : List (Stage κ ρ)) (s : σ), Ready b chain → chain.length ≤ n →
      waiting b s chain < fuel → PullsAll b queue chain s (pullAll p fuel queue chain s) := by
  intro fuel
  induction fuel with
  | zero => intro _ _ _ _ _ h; omega
  | succ fuel ih =>
    intro queue chain s hr hl hw
    have h := hp chain s hr hl
    have hends := he chain s hr hl
    simp only [pullAll]
    generalize p chain s = m at h hends ⊢
    cases h with
    | failed _ => exact .failed hends
    | drained _ _ _ _ => exact .drained hends
    | @handed r c t hc hk hle _ =>
      have hlen := length_of_kinds hk
      have hless := hle t
      exact .more hends (ih (queue ++ [r]) c t hc (by omega) (by omega))

/-- A stage with as many rounds left as it can need: one with an item in its queue, and
    otherwise two more than there are items waiting. -/
def Supplied (b : Behaviour κ ρ σ ε) (n : Nat) (st : Stage κ ρ) (up : List (Stage κ ρ)) (s : σ) (fuel : Nat) : Prop :=
  st.queue ≠ [] ∧ 1 ≤ fuel ∨
    st.queue = [] ∧ Ready b (st :: up) ∧ up.length ≤ n ∧ waiting b s (st :: up) + 2 ≤ fuel

def Leaves (b : Behaviour κ ρ σ ε) (n fuel : Nat) (m : Moved κ ρ σ ε Bool) : Prop :=
  m.outcome = .ok true → ∃ st up, m.chain = st :: up ∧ Supplied b n st up m.context fuel

theorem turns_source {st : Stage κ ρ} {items : σ → List ρ} (ht : b.task st.kind = .source items) (up : List (Stage κ ρ))
    (s : σ) {fuel : Nat} (hfuel : 1 ≤ fuel) :
    Turns b st up s (round b p st up s) ∧ Leaves b n fuel (round b p st up s) := by
  unfold round
  simp only [ht]
  cases hs : st.spent with
  | true =>
    rw [if_pos rfl]
    exact ⟨.emptied ht hs, fun h => by cases h⟩
  | false =>
    rw [if_neg (by decide)]
    refine ⟨.loaded ht hs, fun h => ⟨_, up, rfl, .inl ⟨fun hnil => ?_, hfuel⟩⟩⟩
    have hsome : (!(st.queue ++ items s).isEmpty) = true := Except.ok.inj h
    have hnil : st.queue ++ items s = [] := hnil
    rw [hnil] at hsome
    cases hsome

theorem turns_filter (hp : TakesOff b n p) (he : Ends b n p) {st : Stage κ ρ} {up : List (Stage κ ρ)}
    {work : ρ → σ → Except ε Bool × σ} (ht : b.task st.kind = .filter work) (hq : st.queue = []) (hr : Ready b up)
    (hl : up.length ≤ n) (s : σ) {fuel : Nat} (hfuel : waiting b s (st :: up) + 1 ≤ fuel) :
    Turns b st up s (round b p st up s) ∧ Leaves b n fuel (round b p st up s) := by
  have hw : ∀ up s, waiting b s (st :: up) = waiting b s up := fun up s => by simp [waiting, ht, hq]
  rw [hw] at hfuel
  have h := hp up s hr hl
  have hends := he up s hr hl
  unfold round
  simp only [ht]
  generalize p up s = m at h hends ⊢
  cases h with
  | failed _ => exact ⟨.unfed ht hends, fun h => by cases h⟩
  | drained _ _ _ _ => exact ⟨.starved ht hends, fun h => by cases h⟩
  | @handed r c t hc hk hle _ =>
    rcases hwork : work r t with ⟨outcome, u⟩
    simp only [hwork]
    cases outcome with
    | error e => exact ⟨.stuck ht hends hwork, fun h => by cases h⟩
    | ok keep =>
      cases keep with
      | true => exact ⟨.kept ht hends hwork, fun _ => ⟨_, c, rfl, .inl ⟨by simp, by omega⟩⟩⟩
      | false =>
        -- The item that was dropped does not wait any more.
        have hlen := length_of_kinds hk
        have hless := hle u
        refine ⟨.dropped ht hends hwork, fun _ => ⟨st, c, rfl, .inr ⟨hq, .filter ht hq hc, by omega, ?_⟩⟩⟩
        show waiting b u (st :: c) + 2 ≤ fuel
        rw [hw]
        omega

theorem turns_observer (hp : TakesOff b n p) (he : Ends b n p) {st : Stage κ ρ} {up : List (Stage κ ρ)}
    {report : String → List ρ → σ → Except ε Unit × σ} (ht : b.task st.kind = .observer report) (hq : st.queue = [])
    (hr : Ready b up) (hl : up.length ≤ n) (s : σ) {fuel : Nat} (hfuel : 1 ≤ fuel) :
    Turns b st up s (round b p st up s) ∧ Leaves b n fuel (round b p st up s) := by
  unfold round
  simp only [ht]
  cases hs : st.spent with
  | true =>
    rw [if_pos rfl]
    exact ⟨.watched ht hs, fun h => by cases h⟩
  | false =>
    rw [if_neg (by decide), hq]
    have h := pullAll_pulledAll hp (waiting b s up + 1) [] up s hr hl (by omega)
    have hends := pullsAll_pullAll hp he (waiting b s up + 1) [] up s hr hl (by omega)
    generalize pullAll p (waiting b s up + 1) [] up s = x at h hends ⊢
    cases h with
    | failed _ => exact ⟨.blinded ht hs (hq ▸ hends), fun h => by cases h⟩
    | @drained q c t hc _ _ _ _ =>
      obtain ⟨before, rest, rfl⟩ : ∃ x xs, c = x :: xs := by cases hc <;> exact ⟨_, _, rfl⟩
      cases q with
      | nil => exact ⟨.unseen ht hs (hq ▸ hends), fun h => by cases h⟩
      | cons r q =>
        have hne : r :: q ≠ [] := List.cons_ne_nil r q
        rcases hrep : report (b.name before.kind) (r :: q) t with ⟨outcome, u⟩
        simp only [List.isEmpty_cons, Bool.false_eq_true, if_false, hrep]
        exact ⟨.seen ht hs (hq ▸ hends) hne hrep, fun _ => ⟨_, _, rfl, .inl ⟨hne, hfuel⟩⟩⟩

/-- A round of a stage whose queue is empty. -/
theorem turns_round (hp : TakesOff b n p) (he : Ends b n p) {st : Stage κ ρ} {up : List (Stage κ ρ)}
    (hr : Ready b (st :: up)) (hl : up.length ≤ n) (hq : st.queue = []) (s : σ) {fuel : Nat}
    (hfuel : waiting b s (st :: up) + 1 ≤ fuel) :
    Turns b st up s (round b p st up s) ∧ Leaves b n fuel (round b p st up s) := by
  cases hr with
  | source ht _ => exact turns_source ht [] s (by omega)
  | filter ht _ hr => exact turns_filter hp he ht hq hr hl s hfuel
  | observer ht _ _ hr => exact turns_observer hp he ht hq hr hl s (by omega)

/-- The rounds of a stage that has enough of them. -/
theorem pulls_rounds (hp : TakesOff b n p) (he : Ends b n p) :
    ∀ (fuel : Nat) (st : Stage κ ρ) (up : List (Stage κ ρ)) (s : σ), Supplied b n st up s fuel →
      Pulls b (st :: up) s (rounds b p fuel st up s) := by
  intro fuel
  induction fuel with
  | zero =>
    intro st up s h
    rcases h with ⟨-, h⟩ | ⟨-, -, -, h⟩
    · omega
    · omega
  | succ fuel ih =>
    intro st up s h
    rcases h with ⟨hq, -⟩ | ⟨hq, hr, hl, hle⟩
    · obtain ⟨r, rest, hq⟩ := List.exists_cons_of_ne_nil hq
      rw [rounds_queued fuel st r rest hq]
      exact .handed hq
    · have hfuel : waiting b s (st :: up) + 1 ≤ fuel := by omega
      obtain ⟨hturn, hleaves⟩ := turns_round hp he hr hl hq s hfuel
      simp only [rounds, hq]
      generalize round b p st up s = m at hturn hleaves ⊢
      obtain ⟨outcome, chain, t⟩ := m
      cases outcome with
      | error e => exact .failed hq hturn
      | ok more =>
        cases more with
        | false => exact .exhausted hq hturn
        | true =>
          obtain ⟨st', up', rfl, hnext⟩ := hleaves rfl
          exact .again hq hturn (ih st' up' t hnext)

/-- A pull comes to an end. -/
theorem ends_pull (b : Behaviour κ ρ σ ε) : ∀ n, Ends b n (pull b n) := by
  intro n
  induction n with
  | zero =>
    intro chain s hr hl
    obtain rfl := List.eq_nil_of_length_eq_zero (Nat.le_zero.mp hl)
    cases hr
  | succ n ih =>
    intro chain s hr hl
    cases chain with
    | nil => cases hr
    | cons st up =>
      refine pulls_rounds (pull_pulled b n) ih _ st up s ?_
      by_cases hq : st.queue = []
      · exact .inr ⟨hq, hr, Nat.le_of_succ_le_succ hl, Nat.le_refl _⟩
      · exact .inl ⟨hq, by omega⟩

/-- Draining a chain comes to an end. -/
theorem pullsAll_drain {chain : List (Stage κ ρ)} (hr : Ready b chain) (s : σ) :
    PullsAll b [] chain s (drain b chain s) :=
  pullsAll_pullAll (pull_pulled b chain.length) (ends_pull b chain.length) _ [] chain s hr (Nat.le_refl _)
    (Nat.lt_succ_self _)

end Portcullis.Pipeline

/-
  Portcullis.Proofs.Watching — what a chain of stages does, turn by turn.

  A watched chain is the same chain over a context that also keeps a history. Each time a
  filter has worked on an item, or an observer has reported, a turn is added: the items, and
  the context before and after. A chain that fails has the turn that failed last.
  - `drain_watched`: watching changes nothing.
  - `drain_traced`: the turns follow one another without a gap, and each is what its stage does
    with its items.
  - `drain_taken`: a filter takes items in the order of the source, each at most as often as
    it is there, whatever stands before and behind it in the chain. So the turns of different
    stages may interleave in any way, but those of one stage come in order.
-/

import Portcullis.Proofs.Pulling

namespace Portcullis.Pipeline

variable {κ ρ σ ε : Type}

structure Turn (κ ρ σ : Type) where
  kind : κ
  items : List ρ
  before : σ
  after : σ

abbrev Watched (κ ρ σ : Type) := σ × List (Turn κ ρ σ)

def turned {α : Type} (kind : κ) (items : List ρ) (w : Watched κ ρ σ) (x : Except ε α × σ) :
    Except ε α × Watched κ ρ σ :=
  (x.1, (x.2, w.2 ++ [⟨kind, items, w.1, x.2⟩]))

def Task.watched (kind : κ) : Task ρ σ ε → Task ρ (Watched κ ρ σ) ε
  | .source items => .source fun w => items w.1
  | .filter work => .filter fun r w => turned kind [r] w (work r w.1)
  | .observer report => .observer fun name q w => turned kind q w (report name q w.1)
  | .broken e => .broken e

def Behaviour.watched (b : Behaviour κ ρ σ ε) : Behaviour κ ρ (Watched κ ρ σ) ε :=
  { task := fun k => (b.task k).watched k, name := b.name, noPredecessor := b.noPredecessor }

def unwatched {α : Type} (x : Except ε α × Watched κ ρ σ) : Except ε α × σ := (x.1, x.2.1)

inductive Turn.Of (b : Behaviour κ ρ σ ε) : Turn κ ρ σ → Prop
  | work {k : κ} {work : ρ → σ → Except ε Bool × σ} (h : b.task k = .filter work) (r : ρ) (s : σ) :
      Turn.Of b ⟨k, [r], s, (work r s).2⟩
  | report {k : κ} {report : String → List ρ → σ → Except ε Unit × σ} (h : b.task k = .observer report)
      (name : String) (q : List ρ) (s : σ) : Turn.Of b ⟨k, q, s, (report name q s).2⟩

inductive Traced (b : Behaviour κ ρ σ ε) (s : σ) : List (Turn κ ρ σ) → σ → Prop
  | nil : Traced b s [] s
  | snoc {h : List (Turn κ ρ σ)} {t : Turn κ ρ σ} : Traced b s h t.before → t.Of b → Traced b s (h ++ [t]) t.after

variable {b : Behaviour κ ρ σ ε}

/-! ## Watching changes nothing -/

theorem task_watched (k : κ) : b.watched.task k = (b.task k).watched k := rfl

theorem unwatched_next {α β : Type} {x : Except ε α × Watched κ ρ σ}
    {k : α → Watched κ ρ σ → Except ε β × Watched κ ρ σ} {l : α → σ → Except ε β × σ}
    (h : ∀ a w, unwatched (k a w) = l a w.1) : unwatched (next x k) = next (unwatched x) l := by
  obtain ⟨o, w⟩ := x
  cases o with
  | ok a => exact h a w
  | error e => rfl

theorem unwatched_through {α : Type} {f : Consumer ρ (Watched κ ρ σ) ε α} {g : Consumer ρ σ ε α}
    (h : ∀ a r w, unwatched (f a r w) = g a r w.1) (q : List ρ) (a : α) (w : Watched κ ρ σ) :
    unwatched (through f a q w) = through g a q w.1 := by
  induction q generalizing a w with
  | nil => rfl
  | cons r q ih =>
    rw [through_cons, through_cons, ← h a r w]
    exact unwatched_next fun a w => ih a w

/-- The loop of a watched chain is the loop of the chain. -/
theorem unwatched_fold (chain : List (Stage κ ρ)) {α : Type} {f : Consumer ρ (Watched κ ρ σ) ε α}
    {g : Consumer ρ σ ε α} (h : ∀ a r w, unwatched (f a r w) = g a r w.1) (a : α) (w : Watched κ ρ σ) :
    unwatched (fold b.watched chain f a w) = fold b chain g a w.1 := by
  induction chain generalizing α w with
  | nil => rfl
  | cons st up ih =>
    simp only [fold, Behaviour.watched, Task.watched]
    cases b.task st.kind with
    | source items => exact unwatched_through h _ a w
    | broken e => rfl
    | filter work =>
      have hgated : ∀ a r w, unwatched (gated (fun r w => turned st.kind [r] w (work r w.1)) f a r w) =
          gated work g a r w.1 := by
        intro a r w
        refine unwatched_next (x := turned st.kind [r] w (work r w.1)) fun keep w => ?_
        cases keep with
        | true => exact h a r w
        | false => rfl
      refine (unwatched_next fun a w => ih hgated a w).trans ?_
      rw [unwatched_through h]
    | observer report =>
      have hcollect : ∀ (q : List ρ) r (w : Watched κ ρ σ),
          unwatched ((collect : Consumer ρ (Watched κ ρ σ) ε (List ρ)) q r w) = collect q r w.1 := fun _ _ _ => rfl
      by_cases hs : st.spent = true
      · simp only [if_pos hs]
        exact unwatched_through h _ a w
      · simp only [if_neg hs]
        refine (unwatched_next (l := fun q s => if q.isEmpty then (.ok a, s)
          else next (report (nameBefore b up) q s) fun _ s => through g a q s) fun q w => ?_).trans ?_
        · by_cases hq : q.isEmpty = true
          · simp only [if_pos hq]
            rfl
          · simp only [if_neg hq]
            exact unwatched_next (x := turned st.kind q w (report _ q w.1)) fun _ w => unwatched_through h q a w
        · exact congrArg (next · _) (ih hcollect st.queue w)

theorem waiting_watched (chain : List (Stage κ ρ)) (w : Watched κ ρ σ) :
    waiting b.watched w chain = waiting b w.1 chain := by
  induction chain with
  | nil => rfl
  | cons st up ih =>
    rw [waiting, waiting, ih, task_watched]
    cases b.task st.kind <;> rfl

theorem Ready.watched {chain : List (Stage κ ρ)} (h : Ready b chain) : Ready b.watched chain := by
  induction h with
  | source ht hq => exact .source (by rw [task_watched, ht]; rfl) hq
  | filter ht hq _ ih => exact .filter (by rw [task_watched, ht]; rfl) hq ih
  | observer ht hq hz _ ih =>
    exact .observer (by rw [task_watched, ht]; rfl) hq (fun hs w => (waiting_watched _ w).trans (hz hs w.1)) ih

/-- A chain that is ready comes to the same context when it is watched. -/
theorem drain_watched {chain : List (Stage κ ρ)} (h : Ready b chain) (w : Watched κ ρ σ) :
    (drain b.watched chain w).2.context.1 = (drain b chain w.1).2.context := by
  have hwatched := congrArg Prod.snd (drain_fold h.watched w)
  have hplain := congrArg Prod.snd (drain_fold h w.1)
  have hfold := congrArg Prod.snd (unwatched_fold (b := b) chain (f := collect) (g := collect) (fun _ _ _ => rfl) [] w)
  exact (congrArg Prod.fst hwatched).trans (hfold.trans hplain.symm)

/-! ## Properties of contexts that a chain keeps -/

/-- A task that keeps a property, also where it fails. -/
def Task.Keeps (P : σ → Prop) : Task ρ σ ε → Prop
  | .filter work => ∀ r s, P s → P (work r s).2
  | .observer report => ∀ name q s, P s → P (report name q s).2
  | .source _ | .broken _ => True

theorem Task.keeps_const (t : Task ρ σ ε) (p : Prop) : t.Keeps fun _ => p := by
  cases t with
  | source items | broken e => trivial
  | filter work => exact fun _ _ hp => hp
  | observer report => exact fun _ _ _ hp => hp

theorem Task.Keeps.and {t : Task ρ σ ε} {P Q : σ → Prop} (hP : t.Keeps P) (hQ : t.Keeps Q) :
    t.Keeps fun s => P s ∧ Q s := by
  cases t with
  | source items | broken e => trivial
  | filter work => exact fun r s h => ⟨hP r s h.1, hQ r s h.2⟩
  | observer report => exact fun name q s h => ⟨hP name q s h.1, hQ name q s h.2⟩

theorem Task.Keeps.all {t : Task ρ σ ε} {ι : Type} {P : ι → σ → Prop} (h : ∀ i, t.Keeps (P i)) :
    t.Keeps fun s => ∀ i, P i s := by
  cases t with
  | source items | broken e => trivial
  | filter work => exact fun r s hs i => h i r s (hs i)
  | observer report => exact fun name q s hs i => h i name q s (hs i)

theorem Task.Keeps.any {t : Task ρ σ ε} {ι : Type} {P : ι → σ → Prop} (h : ∀ i, t.Keeps (P i)) :
    t.Keeps fun s => ∃ i, P i s := by
  cases t with
  | source items | broken e => trivial
  | filter work => exact fun r s ⟨i, hi⟩ => ⟨i, h i r s hi⟩
  | observer report => exact fun name q s ⟨i, hi⟩ => ⟨i, h i name q s hi⟩

theorem next_keeps {P : σ → Prop} {α β : Type} {x : Except ε α × σ} {k : α → σ → Except ε β × σ} (hx : P x.2)
    (hk : ∀ a s, P s → P (k a s).2) : P (next x k).2 := by
  obtain ⟨o, s⟩ := x
  cases o with
  | ok a => exact hk a s hx
  | error e => exact hx

theorem through_keeps {P : σ → Prop} {α : Type} {f : Consumer ρ σ ε α} (hf : ∀ a r s, P s → P (f a r s).2)
    (q : List ρ) (a : α) {s : σ} (h : P s) : P (through f a q s).2 := by
  induction q generalizing a s with
  | nil => exact h
  | cons r q ih => exact next_keeps (hf a r s h) fun a s hs => ih a hs

theorem gated_keeps {P : σ → Prop} {α : Type} {work : ρ → σ → Except ε Bool × σ} (hw : ∀ r s, P s → P (work r s).2)
    {f : Consumer ρ σ ε α} (hf : ∀ a r s, P s → P (f a r s).2) (a : α) (r : ρ) (s : σ) (h : P s) :
    P (gated work f a r s).2 := by
  refine next_keeps (hw r s h) fun keep s hs => ?_
  cases keep with
  | true => exact hf a r s hs
  | false => exact hs

/-- What every stage and the consumer keep is so at the end, also after a failure. -/
theorem fold_keeps {P : σ → Prop} {chain : List (Stage κ ρ)} (hchain : ∀ st ∈ chain, (b.task st.kind).Keeps P)
    {α : Type} {f : Consumer ρ σ ε α} (hf : ∀ a r s, P s → P (f a r s).2) (a : α) {s : σ} (h : P s) :
    P (fold b chain f a s).2 := by
  induction chain generalizing α s with
  | nil => exact h
  | cons st up ih =>
    have hup := fun x hx => hchain x (List.mem_cons_of_mem st hx)
    have hst := hchain st (by simp)
    unfold fold
    cases ht : b.task st.kind with
    | source items => exact through_keeps hf _ a h
    | broken e => exact h
    | filter work =>
      rw [ht] at hst
      exact next_keeps (through_keeps hf _ a h) fun a s hs => ih hup (gated_keeps hst hf) a hs
    | observer report =>
      rw [ht] at hst
      simp only
      split
      · exact through_keeps hf _ a h
      · refine next_keeps (ih hup (fun _ _ _ hs => hs) _ h) fun q s hs => ?_
        split
        · exact hs
        · exact next_keeps (hst _ q s hs) fun _ s hs => through_keeps hf q a hs

/-- The turns of a chain lead from its first context to its last one. -/
theorem drain_traced {chain : List (Stage κ ρ)} (h : Ready b chain) (s : σ) :
    Traced b s (drain b.watched chain (s, [])).2.context.2 (drain b chain s).2.context := by
  have hkeeps : ∀ st ∈ chain, (b.watched.task st.kind).Keeps fun w => Traced b s w.2 w.1 := by
    intro st _
    show ((b.task st.kind).watched st.kind).Keeps _
    cases ht : b.task st.kind with
    | source items => trivial
    | broken e => trivial
    | filter work => exact fun r w hw => .snoc (t := ⟨st.kind, [r], w.1, (work r w.1).2⟩) hw (.work ht r w.1)
    | observer report =>
      exact fun name q w hw => .snoc (t := ⟨st.kind, q, w.1, (report name q w.1).2⟩) hw (.report ht name q w.1)
  have hdrain : (drain b.watched chain (s, [])).2.context = (fold b.watched chain collect [] (s, [])).2 :=
    congrArg Prod.snd (drain_fold h.watched (s, []))
  have hfold := fold_keeps hkeeps (f := collect) (fun _ _ _ hw => hw) [] (s := (s, [])) (Traced.nil (b := b) (s := s))
  rw [← drain_watched h (s, []), hdrain]
  exact hfold

/-! ## The order in which a stage takes items -/

def supply (b : Behaviour κ ρ σ ε) (s : σ) : List (Stage κ ρ) → List ρ
  | [] => []
  | st :: up => match b.task st.kind with
    | .source items => items s
    | _ => supply b s up

def Unused (chain : List (Stage κ ρ)) : Prop := ∀ st ∈ chain, st.queue = [] ∧ st.spent = false

/-- A consumer that counts what it sees: `R` holds of what it has seen, of what it has made of
    that and of the context, and is not lost when something fails. -/
structure Counts {α : Type} (R : List ρ → Except ε α → σ → Prop) (f : Consumer ρ σ ε α) : Prop where
  step : ∀ {seen a r s}, R seen (.ok a) s → R (seen ++ [r]) (f a r s).1 (f a r s).2
  fail : ∀ {seen a s} (e : ε), R seen (.ok a) s → R seen (.error e) s

theorem Counts.through {α : Type} {R : List ρ → Except ε α → σ → Prop} {f : Consumer ρ σ ε α} (h : Counts R f)
    (q : List ρ) {seen : List ρ} {a : α} {s : σ} (hR : R seen (.ok a) s) :
    ∃ taken, taken.Sublist q ∧ R (seen ++ taken) (through f a q s).1 (through f a q s).2 := by
  induction q generalizing seen a s with
  | nil => exact ⟨[], .slnil, by rw [List.append_nil]; exact hR⟩
  | cons r q ih =>
    have hstep := h.step (r := r) hR
    rw [through_cons]
    generalize f a r s = x at hstep ⊢
    obtain ⟨o, s⟩ := x
    cases o with
    | error e => exact ⟨[r], by simp, hstep⟩
    | ok a =>
      obtain ⟨taken, hsub, htaken⟩ := ih hstep
      refine ⟨r :: taken, hsub.cons_cons r, ?_⟩
      rw [List.append_assoc] at htaken
      exact htaken

/-- Work in front of a consumer hands on some of what it sees. -/
theorem Counts.gated {α : Type} {R : List ρ → Except ε α → σ → Prop} {f : Consumer ρ σ ε α} (h : Counts R f)
    {work : ρ → σ → Except ε Bool × σ} (hw : ∀ seen o r s, R seen o s → R seen o (work r s).2) :
    Counts (fun seen o s => ∃ taken, taken.Sublist seen ∧ R taken o s) (gated work f) where
  step {seen a r s} hR := by
    obtain ⟨taken, hsub, hR⟩ := hR
    have hkept := hw taken _ r s hR
    unfold Pipeline.gated
    generalize work r s = x at hkept ⊢
    obtain ⟨o, s⟩ := x
    cases o with
    | error e => exact ⟨taken, hsub.trans (List.sublist_append_left _ _), h.fail e hkept⟩
    | ok keep => cases keep with
      | true => exact ⟨taken ++ [r], hsub.append (.refl _), h.step hkept⟩
      | false => exact ⟨taken, hsub.trans (List.sublist_append_left _ _), hkept⟩
  fail e hR := by
    obtain ⟨taken, hsub, hR⟩ := hR
    exact ⟨taken, hsub, h.fail e hR⟩

/-- A consumer sees what the source gives, in order, but for what was dropped on the way. -/
theorem fold_counts {chain : List (Stage κ ρ)} (hr : Ready b chain) (hu : Unused chain) {α : Type}
    {R : List ρ → Except ε α → σ → Prop} {f : Consumer ρ σ ε α} (h : Counts R f)
    (hchain : ∀ st ∈ chain, ∀ seen o, (b.task st.kind).Keeps (R seen o)) {a : α} {s : σ} (hR : R [] (.ok a) s) :
    ∃ taken, taken.Sublist (supply b s chain) ∧ R taken (fold b chain f a s).1 (fold b chain f a s).2 := by
  induction hr generalizing α R f a s with
  | @source st items ht hq =>
    obtain ⟨hqueue, hspent⟩ := hu st (by simp)
    simp only [fold, supply, ht, hqueue, hspent, List.nil_append, Bool.false_eq_true, if_false]
    exact h.through (items s) hR
  | @filter st up work ht hq hr ih =>
    have hup : Unused up := fun x hx => hu x (List.mem_cons_of_mem _ hx)
    have hwork := fun seen o => hchain st (by simp) seen o
    simp only [ht] at hwork
    have hfold : fold b (st :: up) f a s = fold b up (gated work f) a s := by
      rw [fold]
      simp only [ht, hq, through_nil, next_ok]
    have hsupply : supply b s (st :: up) = supply b s up := by simp only [supply, ht]
    rw [hfold, hsupply]
    have hkeeps : ∀ x ∈ up, ∀ seen o,
        (b.task x.kind).Keeps fun s => ∃ taken, taken.Sublist seen ∧ R taken o s := fun x hx seen o =>
      .any fun taken => (Task.keeps_const _ _).and (hchain x (List.mem_cons_of_mem _ hx) taken o)
    obtain ⟨taken, hsub, rest, hrest, hR⟩ := ih hup (h.gated hwork) hkeeps ⟨[], .slnil, hR⟩
    exact ⟨rest, hrest.trans hsub, hR⟩
  | @observer st up report ht hq hz hr ih =>
    have hup : Unused up := fun x hx => hu x (List.mem_cons_of_mem _ hx)
    obtain ⟨hqueue, hspent⟩ := hu st (by simp)
    have hreport := fun seen o => hchain st (by simp) seen o
    simp only [ht] at hreport
    have hsupply : supply b s (st :: up) = supply b s up := by simp only [supply, ht]
    -- While the observer waits for all items, the consumer behind it has seen none of them.
    have hcollect : Counts (fun seen o s => (∀ q, o = .ok q → q = seen) ∧ R [] (.ok a) s ∧ ∀ e, R [] (.error e) s)
        (collect : Consumer ρ σ ε (List ρ)) :=
      ⟨fun {seen q r s} hR => ⟨fun p hp => by cases hp; rw [hR.1 q rfl], hR.2⟩,
        fun e hR => ⟨fun q hq => (by cases hq), hR.2⟩⟩
    have hkeeps : ∀ x ∈ up, ∀ seen (o : Except ε (List ρ)), (b.task x.kind).Keeps fun s =>
        (∀ q, o = .ok q → q = seen) ∧ R [] (.ok a) s ∧ ∀ e, R [] (.error e) s := fun x hx seen o =>
      have hx := hchain x (List.mem_cons_of_mem _ hx) []
      (Task.keeps_const _ _).and ((hx (.ok a)).and (.all fun e => hx (.error e)))
    obtain ⟨taken, hsub, hseen, hR, hfail⟩ :=
      ih hup hcollect hkeeps ⟨fun q hq => by cases hq; rfl, hR, fun e => h.fail e hR⟩
    rw [hsupply]
    simp only [fold, ht, hqueue, hspent, Bool.false_eq_true, if_false]
    generalize fold b up collect [] s = x at hseen hR hfail ⊢
    obtain ⟨o, s⟩ := x
    cases o with
    | error e => exact ⟨[], List.nil_sublist _, hfail e⟩
    | ok q =>
      obtain rfl := hseen q rfl
      rw [next_ok]
      split
      · exact ⟨[], List.nil_sublist _, hR⟩
      · have hok := hreport [] (.ok a) (nameBefore b up) q s hR
        generalize report (nameBefore b up) q s = y at hok ⊢
        obtain ⟨o, s⟩ := y
        cases o with
        | error e => exact ⟨[], List.nil_sublist _, h.fail e hok⟩
        | ok _ =>
          obtain ⟨taken, hq, hR⟩ := h.through q hok
          exact ⟨taken, hq.trans hsub, hR⟩

def turnsOf [DecidableEq κ] (k : κ) (h : List (Turn κ ρ σ)) : List (Turn κ ρ σ) := h.filter fun t => t.kind = k

def itemsOf [DecidableEq κ] (k : κ) (h : List (Turn κ ρ σ)) : List ρ :=
  (h.filter fun t => t.kind = k).flatMap Turn.items

variable [DecidableEq κ] {k : κ}

theorem itemsOf_append (h h' : List (Turn κ ρ σ)) : itemsOf k (h ++ h') = itemsOf k h ++ itemsOf k h' := by
  simp [itemsOf]

theorem turnsOf_turned {α : Type} (r : List ρ) (w : Watched κ ρ σ) (x : Except ε α × σ) :
    turnsOf k (turned k r w x).2.2 = turnsOf k w.2 ++ [⟨k, r, w.1, x.2⟩] := by
  simp [turned, turnsOf]

theorem turnsOf_turned_of_ne {α : Type} {k' : κ} (hk : k' ≠ k) (r : List ρ) (w : Watched κ ρ σ) (x : Except ε α × σ) :
    turnsOf k (turned k' r w x).2.2 = turnsOf k w.2 := by
  simp [turned, turnsOf, hk]

theorem itemsOf_turned {α : Type} (r : List ρ) (w : Watched κ ρ σ) (x : Except ε α × σ) :
    itemsOf k (turned k r w x).2.2 = itemsOf k w.2 ++ r := by
  simp [turned, itemsOf]

/-- Stages of other kinds leave alone what is told by the turns of a kind. -/
theorem watched_keeps_turns {k' : κ} (hk : k' ≠ k) (P : List (Turn κ ρ σ) → Prop) :
    (b.watched.task k').Keeps fun w => P (turnsOf k w.2) := by
  rw [task_watched]
  cases b.task k' with
  | source items => trivial
  | broken e => trivial
  | filter work =>
    intro r w hw
    show P (turnsOf k (turned k' [r] w (work r w.1)).2.2)
    rw [turnsOf_turned_of_ne hk]
    exact hw
  | observer report =>
    intro name q w hw
    show P (turnsOf k (turned k' q w (report name q w.1)).2.2)
    rw [turnsOf_turned_of_ne hk]
    exact hw

/-- And so what is told by its items. -/
theorem watched_keeps {k' : κ} (hk : k' ≠ k) (P : List ρ → Prop) :
    (b.watched.task k').Keeps fun w => P (itemsOf k w.2) :=
  watched_keeps_turns hk fun turns => P (turns.flatMap Turn.items)

def Ignores {α : Type} (k : κ) (f : Consumer ρ (Watched κ ρ σ) ε α) : Prop :=
  ∀ P : List ρ → Prop, ∀ a r w, P (itemsOf k w.2) → P (itemsOf k (f a r w).2.2)

/-- The only filter of a kind, in front of any consumer. -/
theorem fold_filter_taken {st : Stage κ ρ} {up : List (Stage κ ρ)} (hr : Ready b.watched (st :: up))
    (hu : Unused (st :: up)) {work : ρ → σ → Except ε Bool × σ} (ht : b.task st.kind = .filter work)
    (hup : ∀ x ∈ up, x.kind ≠ st.kind) {α : Type} {f : Consumer ρ (Watched κ ρ σ) ε α} (hf : Ignores st.kind f) (a : α)
    {w : Watched κ ρ σ} (hw : itemsOf st.kind w.2 = []) :
    (itemsOf st.kind (fold b.watched (st :: up) f a w).2.2).Sublist (supply b.watched w (st :: up)) := by
  let turn : ρ → Watched κ ρ σ → Except ε Bool × Watched κ ρ σ := fun r w => turned st.kind [r] w (work r w.1)
  have htask : b.watched.task st.kind = .filter turn := by
    rw [task_watched, ht]
    rfl
  cases hr with
  | source ht' hq => rw [htask] at ht'; cases ht'
  | observer ht' hq hz hr => rw [htask] at ht'; cases ht'
  | filter ht' hq hr =>
    have hfold : fold b.watched (st :: up) f a w = fold b.watched up (gated turn f) a w := by
      rw [fold]
      simp only [htask, hq, through_nil, next_ok]
    have hsupply : supply b.watched w (st :: up) = supply b.watched w up := by simp only [supply, htask]
    have hcounts : Counts (fun seen (_ : Except ε α) (w : Watched κ ρ σ) => itemsOf st.kind w.2 = seen) (gated turn f) := by
      refine ⟨fun {seen a r w} hw => ?_, fun e hw => hw⟩
      have hturned : itemsOf st.kind (turn r w).2.2 = seen ++ [r] := hw ▸ itemsOf_turned [r] w (work r w.1)
      refine next_keeps (P := fun w : Watched κ ρ σ => itemsOf st.kind w.2 = seen ++ [r]) hturned ?_
      intro keep w hw
      cases keep with
      | true => exact hf (· = seen ++ [r]) a r w hw
      | false => exact hw
    obtain ⟨taken, hsub, htaken⟩ := fold_counts hr (fun x hx => hu x (List.mem_cons_of_mem _ hx)) hcounts
      (fun x hx seen o => watched_keeps (hup x hx) fun items => items = seen) hw
    rw [hfold, hsupply, htaken]
    exact hsub

/-- What a filter takes, if no other stage of the chain is of its kind, is taken in the order of
    the source. -/
theorem fold_taken {chain : List (Stage κ ρ)} (hr : Ready b.watched chain) (hu : Unused chain)
    (hone : (chain.map Stage.kind).count k = 1) {work : ρ → σ → Except ε Bool × σ} (ht : b.task k = .filter work)
    {α : Type} {f : Consumer ρ (Watched κ ρ σ) ε α} (hf : Ignores k f) (a : α) {w : Watched κ ρ σ}
    (hw : itemsOf k w.2 = []) :
    (itemsOf k (fold b.watched chain f a w).2.2).Sublist (supply b.watched w chain) := by
  induction chain generalizing α w with
  | nil => cases hr
  | cons st up ih =>
    rw [List.map_cons, List.count_cons] at hone
    have hunused : Unused up := fun x hx => hu x (List.mem_cons_of_mem _ hx)
    by_cases hk : st.kind = k
    · subst hk
      have hnone : (up.map Stage.kind).count st.kind = 0 := by simpa using hone
      exact fold_filter_taken hr hu ht (fun x hx heq => List.count_eq_zero.mp hnone (heq ▸ List.mem_map_of_mem hx)) hf a hw
    · have hone : (up.map Stage.kind).count k = 1 := by simpa [hk] using hone
      have hkeeps := watched_keeps (b := b) hk
      obtain ⟨hqueue, hspent⟩ := hu st (by simp)
      cases hr with
      | source ht' hq => simp at hone
      | filter ht' hq hr =>
        simp only [ht'] at hkeeps
        have hsupply : supply b.watched w (st :: up) = supply b.watched w up := by simp only [supply, ht']
        rw [hsupply, fold]
        simp only [ht', hq, through_nil, next_ok]
        exact ih hr hunused hone (fun P => gated_keeps (hkeeps P) (hf P)) a hw
      | observer ht' hq hz hr =>
        simp only [ht'] at hkeeps
        have hsupply : supply b.watched w (st :: up) = supply b.watched w up := by simp only [supply, ht']
        rw [hsupply, fold]
        simp only [ht', hqueue, hspent, Bool.false_eq_true, if_false]
        let inOrder : List ρ → Prop := fun items => items.Sublist (supply b.watched w up)
        refine next_keeps (P := fun x : Watched κ ρ σ => inOrder (itemsOf k x.2))
          (ih hr hunused hone (fun _ _ _ _ hP => hP) [] hw) fun q x hx => ?_
        split
        · exact hx
        · exact next_keeps (P := fun x : Watched κ ρ σ => inOrder (itemsOf k x.2)) (hkeeps inOrder _ q x hx)
            fun _ x hx => through_keeps (hf inOrder) q a hx

omit [DecidableEq κ] in
theorem supply_watched (chain : List (Stage κ ρ)) (w : Watched κ ρ σ) :
    supply b.watched w chain = supply b w.1 chain := by
  induction chain with
  | nil => rfl
  | cons st up ih =>
    rw [supply, supply, ih, task_watched]
    cases b.task st.kind <;> rfl

/-- The items that the only filter of a kind has in its turns come in the order of the source. -/
theorem drain_taken {chain : List (Stage κ ρ)} (hr : Ready b chain) (hu : Unused chain)
    (hone : (chain.map Stage.kind).count k = 1) {work : ρ → σ → Except ε Bool × σ} (ht : b.task k = .filter work)
    (s : σ) : (itemsOf k (drain b.watched chain (s, [])).2.context.2).Sublist (supply b s chain) := by
  have hdrain : (drain b.watched chain (s, [])).2.context = (fold b.watched chain collect [] (s, [])).2 :=
    congrArg Prod.snd (drain_fold hr.watched (s, []))
  rw [hdrain, ← supply_watched chain (s, [])]
  exact fold_taken hr.watched hu hone ht (fun _ _ _ _ hP => hP) [] rfl

end Portcullis.Pipeline

/-
  Portcullis.Proofs.Sweep — one stage, or several in a row, sent over a list of rules.

  What a stage does with a rule is a verdict about the rule and then something that it draws
  into the graph (`Handles`). Several stages that work on a rule before the next rule comes
  are again one such stage (`handles_judge_then`, `handles_draw_then`), so the chain that
  takes rules one by one and the chain that takes one stage after another are both runs of
  sweeps. A sweep over rules of different places judges each rule as it was at the start, and
  leaves the ones that go on, the complaints and the drawing in the order of the rules
  (`through_swept`).
-/

import Portcullis.Compiler.Stages
import Portcullis.Proofs.Course
import Portcullis.Proofs.Marks
import Portcullis.Proofs.Pulling

namespace Portcullis

namespace Journal

def note (j : Journal) (d : Diagnostic) : Journal := if d.severity = .error then j.abort.record d else j.record d

def noteAll (j : Journal) (ds : List Diagnostic) : Journal := ds.foldl note j

theorem noteAll_append (j : Journal) (ds es : List Diagnostic) : j.noteAll (ds ++ es) = (j.noteAll ds).noteAll es :=
  List.foldl_append

theorem entries_note (j : Journal) (d : Diagnostic) : (j.note d).entries = j.entries ++ [d] := by
  unfold note
  split <;> rfl

theorem entries_noteAll (j : Journal) (ds : List Diagnostic) : (j.noteAll ds).entries = j.entries ++ ds := by
  induction ds generalizing j with
  | nil => simp [noteAll]
  | cons d ds ih =>
    show ((j.note d).noteAll ds).entries = _
    rw [ih, entries_note, List.append_assoc]
    rfl

/-- A journal that is marked and has the status of an error if and only if it holds one, and
    that of a success if and only if it holds nothing. -/
structure Faithful (j : Journal) : Prop where
  aborted : j.aborted = true ↔ j.errors ≠ []
  status : j.status = .error ↔ j.errors ≠ []
  success : j.status = .success ↔ j.entries = []

theorem faithful_empty : Faithful {} := ⟨by simp [errors], by simp [errors], by simp⟩

theorem Faithful.note {j : Journal} (h : Faithful j) (d : Diagnostic) : Faithful (j.note d) := by
  have hj : (j.note d).errors = j.errors ++ if d.severity = .error then [d] else [] := by
    simp only [errors, entries_note, List.filter_append]
    by_cases hd : d.severity = .error <;> simp [hd]
  unfold Journal.note at hj ⊢
  constructor
  · rw [hj]
    by_cases hd : d.severity = .error
    · simp [hd, record, abort]
    · simpa [hd, record] using h.aborted
  · rw [hj]
    cases hd : d.severity with
    | error => simp [record, Status.after, hd]
    | warning =>
      have hs := h.status
      cases hst : j.status <;> simp_all [record, Status.after]
  · cases hd : d.severity with
    | error => simp [record, abort, Status.after, hd]
    | warning => cases hst : j.status <;> simp [record, Status.after, hd, hst]

/-- The status does not depend on the order of the entries. -/
theorem Faithful.status_congr {j j' : Journal} (h : j.Faithful) (h' : j'.Faithful) (hp : j.entries.Perm j'.entries) :
    j.status = j'.status := by
  have hperm := hp.filter fun d => decide (d.severity = .error)
  have herror : j.status = .error ↔ j'.status = .error := by
    rw [h.status, h'.status]
    exact not_congr ⟨fun he => List.Perm.eq_nil (he ▸ hperm.symm), fun he => List.Perm.eq_nil (he ▸ hperm)⟩
  have hsuccess : j.status = .success ↔ j'.status = .success := by
    rw [h.success, h'.success]
    exact ⟨fun he => List.Perm.eq_nil (he ▸ hp.symm), fun he => List.Perm.eq_nil (he ▸ hp)⟩
  cases hs : j.status <;> cases hs' : j'.status <;> simp_all

theorem Faithful.noteAll {j : Journal} (h : Faithful j) (ds : List Diagnostic) : Faithful (j.noteAll ds) := by
  induction ds generalizing j with
  | nil => exact h
  | cons d ds ih => exact ih (h.note d)

end Journal

namespace Compiler

open Pipeline

def tagged (index : Int) (cs : List Complaint) : List Diagnostic :=
  cs.map fun p => ⟨p.severity, p.message, some index, p.token⟩

theorem tagged_append (index : Int) (cs ds : List Complaint) :
    tagged index (cs ++ ds) = tagged index cs ++ tagged index ds :=
  List.map_append

namespace Compilation

theorem complain_eq (c : Compilation) (index : Int) (cs : List Complaint) :
    c.complain index cs = { c with journal := c.journal.noteAll (tagged index cs) } := by
  induction cs generalizing c with
  | nil => rfl
  | cons p cs ih =>
    have hstep : c.complain index (p :: cs) =
        ({ c with journal := c.journal.note ⟨p.severity, p.message, some index, p.token⟩ } : Compilation).complain
          index cs := by
      unfold complain
      rw [List.foldl_cons]
      unfold Journal.note
      congr 1
      by_cases hp : p.severity = .error <;> simp only [hp, if_true, if_false] <;> rfl
    rw [hstep, ih]
    rfl

structure Kept (c c' : Compilation) : Prop where
  options : c'.options = c.options
  membership : c'.membership = c.membership
  declaredTags : c'.declaredTags = c.declaredTags
  rules : c'.rules = c.rules
  length : c'.book.length = c.book.length

theorem Kept.refl (c : Compilation) : Kept c c := ⟨rfl, rfl, rfl, rfl, rfl⟩

theorem Kept.trans {a b c : Compilation} (h : Kept a b) (h' : Kept b c) : Kept a c where
  options := h'.options.trans h.options
  membership := h'.membership.trans h.membership
  declaredTags := h'.declaredTags.trans h.declaredTags
  rules := h'.rules.trans h.rules
  length := h'.length.trans h.length

end Compilation

/-! ## Verdicts in a row -/

def unjudged (r : Rule) : Verdict := { rule := r }

theorem unjudged_andThen (f : Rule → Verdict) : (fun r => (unjudged r).andThen f) = f := by
  funext r
  simp [unjudged, Verdict.andThen]

theorem andThen_unjudged (v : Verdict) : v.andThen unjudged = v := by
  obtain ⟨r, cs, o⟩ := v
  unfold Verdict.andThen
  split
  · rename_i h
    simp only at h
    subst h
    simp [unjudged]
  · rfl

theorem andThen_assoc (v : Verdict) (f g : Rule → Verdict) :
    (v.andThen f).andThen g = v.andThen fun r => (f r).andThen g := by
  obtain ⟨r, cs, o⟩ := v
  match o with
  | .error e => rfl
  | .ok false => rfl
  | .ok true =>
    rcases h : f r with ⟨r', cs', o'⟩
    match o' with
    | .error e => simp [Verdict.andThen, h]
    | .ok false => simp [Verdict.andThen, h]
    | .ok true => simp [Verdict.andThen, h, List.append_assoc]

/-! ## What is done with one rule -/

/-- A verdict about a rule, recorded, and then the drawing of the rule if it goes on. -/
def handled (f : Rule → Verdict) (draw : Graph → Rule → Graph × Rule) (id : RuleId) (r : Rule) (c : Compilation) :
    Except Failure Bool × Compilation :=
  let c' : Compilation :=
    { c with book := c.book.set id (f r).rule, journal := c.journal.noteAll (tagged r.index (f r).complaints) }
  if passes (f r).complaints then
    (.ok true, { c' with book := c.book.set id (draw c.graph (f r).rule).2, graph := (draw c.graph (f r).rule).1 })
  else (.ok false, c')

def undrawn (g : Graph) (r : Rule) : Graph × Rule := (g, r)

def drawnThen (a b : Graph → Rule → Graph × Rule) (g : Graph) (r : Rule) : Graph × Rule := b (a g r).1 (a g r).2

/-- Work that judges and draws the rules that `P` tells. -/
def Handles (m : Membership) (declared : List String) (P : Rule → Prop) (w : Work) (f : Rule → Verdict)
    (draw : Graph → Rule → Graph × Rule) : Prop :=
  ∀ id c r, c.membership = some m → c.declaredTags = declared → c.rule? id = some r → P r →
    w id c = handled f draw id r c

/-- Work on an item that is only done after other work has let the item pass. -/
def both (w w' : Work) : Work := fun id c => next (w id c) fun keep c => if keep then w' id c else (.ok false, c)

theorem gated_both {α : Type} (w w' : Work) (f : Consumer RuleId Compilation Failure α) :
    gated w (gated w' f) = gated (both w w') f := by
  funext a id c
  unfold gated both
  rw [next_next]
  rcases w id c with ⟨o, c'⟩
  cases o with
  | error e => rfl
  | ok keep => cases keep <;> rfl

variable {m : Membership} {declared : List String} {P Q S : Rule → Prop} {f g : Rule → Verdict}
  {d e : Graph → Rule → Graph × Rule}

theorem rule?_set {c : Compilation} {id : RuleId} {r : Rule} (h : c.rule? id = some r) (r' : Rule) :
    (c.book.set id r')[id]? = some r' := by
  obtain ⟨hlt, -⟩ := List.getElem?_eq_some_iff.mp h
  rw [List.getElem?_set_self hlt]

theorem handles_judge (hf : Judges f P Q)
    (hF : ∀ {c r}, c.membership = some m → c.declaredTags = declared → F c r = f r) :
    Handles m declared P (judge F) f undrawn := by
  intro id c r hm ht hr hP
  unfold judge handled
  simp only [hr, hF hm ht, hf.outcome hP, Compilation.setRule, Compilation.complain_eq]
  cases passes (f r).complaints <;> rfl

theorem handles_draw : Handles m declared P (draw d) unjudged d := by
  intro id c r hm ht hr hP
  unfold draw handled
  simp only [hr, unjudged, passes_nil, if_true, Compilation.setRule]
  rfl

theorem handles_judge_then (hf : Judges f P Q)
    (hF : ∀ {c r}, c.membership = some m → c.declaredTags = declared → F c r = f r)
    {w : Work} (hw : Handles m declared Q w g d) :
    Handles m declared P (both (judge F) w) (fun r => (f r).andThen g) d := by
  intro id c r hm ht hr hP
  have hindex : (f r).rule.index = r.index := congrArg AccessRule.index (hf.written hP)
  unfold both
  rw [handles_judge hf hF id c r hm ht hr hP]
  have hthen := andThen_of_passes (hf.outcome hP) g
  simp only [handled, hthen]
  cases h : passes (f r).complaints with
  | false => simp [h]
  | true =>
    simp only [if_true, next_ok, undrawn]
    have hnext := hw id { c with
      book := c.book.set id (f r).rule, journal := c.journal.noteAll (tagged r.index (f r).complaints) }
      (f r).rule hm ht (rule?_set hr _) (hf.next hP h)
    rw [hnext]
    simp only [handled, hindex, List.set_set, tagged_append, Journal.noteAll_append, passes_append, h, Bool.true_and]

theorem handles_draw_then {w : Work} (hd : ∀ {g r}, P r → Q (d g r).2) (hw : Handles m declared Q w unjudged e) :
    Handles m declared P (both (draw d) w) unjudged (drawnThen d e) := by
  intro id c r hm ht hr hP
  unfold both
  rw [handles_draw id c r hm ht hr hP]
  simp only [handled, unjudged, passes_nil, if_true, next_ok]
  have hnext := hw id { c with
    graph := (d c.graph r).1, book := c.book.set id (d c.graph r).2,
    journal := c.journal.noteAll (tagged r.index []) } (d c.graph r).2 hm ht (rule?_set hr _) (hd hP)
  rw [hnext]
  simp only [handled, unjudged, passes_nil, if_true, List.set_set, drawnThen]
  rfl

/-! ## What is done with a list of rules -/

abbrev Placed := RuleId × Rule

def passed (f : Rule → Verdict) (ps : List Placed) : List Placed :=
  (ps.filter fun p => passes (f p.2).complaints).map fun p => (p.1, (f p.2).rule)

def reported (f : Rule → Verdict) (ps : List Placed) : List Diagnostic :=
  ps.flatMap fun p => tagged p.2.index (f p.2).complaints

@[simp] theorem passed_unjudged (ps : List Placed) : passed unjudged ps = ps := by
  simp [passed, unjudged]

@[simp] theorem reported_unjudged (ps : List Placed) : reported unjudged ps = [] := by
  simp [reported, unjudged, tagged]

theorem passed_cons (f : Rule → Verdict) (p : Placed) (ps : List Placed) :
    passed f (p :: ps) = (if passes (f p.2).complaints then [(p.1, (f p.2).rule)] else []) ++ passed f ps := by
  unfold passed
  cases h : passes (f p.2).complaints <;> simp [h]

theorem reported_cons (f : Rule → Verdict) (p : Placed) (ps : List Placed) :
    reported f (p :: ps) = tagged p.2.index (f p.2).complaints ++ reported f ps := rfl

/-- What goes on after two verdicts has gone on after the first. -/
theorem passed_andThen (hf : Judges f P Q) {ps : List Placed} (hP : ∀ p ∈ ps, P p.2) :
    passed (fun r => (f r).andThen g) ps = passed g (passed f ps) := by
  induction ps with
  | nil => rfl
  | cons p ps ih =>
    have ih := ih fun x hx => hP x (List.mem_cons_of_mem _ hx)
    have hp := andThen_of_passes (hf.outcome (hP p (by simp))) g
    rw [passed_cons, passed_cons f, ih, hp]
    cases h : passes (f p.2).complaints with
    | false => simp [h]
    | true => simp [passed_cons, h]

def marked (f : Rule → Verdict) (ps : List Placed) : List (RuleId × Diagnostic) :=
  ps.flatMap fun p => (tagged p.2.index (f p.2).complaints).map (Prod.mk p.1)

theorem marked_cons (f : Rule → Verdict) (p : Placed) (ps : List Placed) :
    marked f (p :: ps) = (tagged p.2.index (f p.2).complaints).map (Prod.mk p.1) ++ marked f ps := rfl

@[simp] theorem marked_unjudged (ps : List Placed) : marked unjudged ps = [] := by
  simp [marked, unjudged, tagged]

theorem map_snd_marked (f : Rule → Verdict) (ps : List Placed) : (marked f ps).map Prod.snd = reported f ps := by
  induction ps with
  | nil => rfl
  | cons p ps ih =>
    rw [marked_cons, List.map_append, ih, List.map_map, reported_cons]
    simp [Function.comp_def]

/-- Nothing is marked with a place that is not in the list. -/
theorem under_marked_of_not_mem (f : Rule → Verdict) {ps : List Placed} {i : RuleId} (h : i ∉ ps.map Prod.fst) :
    under i (marked f ps) = [] := by
  induction ps with
  | nil => rfl
  | cons p ps ih =>
    simp only [List.map_cons, List.mem_cons, not_or] at h
    rw [marked_cons, under_append, under_map_mk, if_neg (Ne.symm h.1), ih h.2]
    rfl

/-- The complaints about the rule at a place, in order. -/
theorem under_marked (f : Rule → Verdict) {ps : List Placed} (hn : (ps.map Prod.fst).Nodup) {p : Placed} (hp : p ∈ ps) :
    under p.1 (marked f ps) = tagged p.2.index (f p.2).complaints := by
  induction ps with
  | nil => cases hp
  | cons x ps ih =>
    obtain ⟨hx, hn⟩ := List.nodup_cons.mp hn
    rw [marked_cons, under_append, under_map_mk]
    rcases List.mem_cons.mp hp with rfl | hp
    · rw [if_pos rfl, under_marked_of_not_mem f hx, List.append_nil]
    · have hne : x.1 ≠ p.1 := fun e => hx (List.mem_map.mpr ⟨p, hp, e.symm⟩)
      rw [if_neg hne, ih hn hp]
      rfl

/-- The complaints of two verdicts, rule by rule or one verdict after the other: those of each
    rule come in the same order. -/
theorem marked_andThen (hf : Judges f P Q) {ps : List Placed} (hP : ∀ p ∈ ps, P p.2) (hn : (ps.map Prod.fst).Nodup) :
    Alike (marked f ps ++ marked g (passed f ps)) (marked (fun r => (f r).andThen g) ps) := by
  induction ps with
  | nil => exact .refl _
  | cons p ps ih =>
    obtain ⟨hp, hn⟩ := List.nodup_cons.mp hn
    have ih := ih (fun x hx => hP x (List.mem_cons_of_mem _ hx)) hn
    have hthen := andThen_of_passes (hf.outcome (hP p (by simp))) g
    have hindex : (f p.2).rule.index = p.2.index := congrArg AccessRule.index (hf.written (hP p (by simp)))
    intro i
    have ih := ih i
    rw [under_append] at ih
    rw [marked_cons, marked_cons, passed_cons, under_append, under_append, under_append, under_map_mk, under_map_mk,
      ← ih, hthen]
    cases h : passes (f p.2).complaints with
    | false => simp
    | true =>
      simp only [if_true, List.cons_append, List.nil_append, marked_cons, under_append, under_map_mk, hindex,
        tagged_append]
      by_cases hi : p.1 = i
      · -- No later rule has this place, so the complaints of the first verdict end here.
        subst hi
        simp only [if_true, under_marked_of_not_mem f hp, List.append_nil, List.nil_append, List.append_assoc]
      · simp only [if_neg hi, List.nil_append]

def drawn (d : Graph → Rule → Graph × Rule) (g : Graph) (ps : List Placed) : Graph :=
  ps.foldl (fun g p => (d g p.2).1) g

@[simp] theorem drawn_undrawn (g : Graph) (ps : List Placed) : drawn undrawn g ps = g := by
  induction ps with
  | nil => rfl
  | cons p ps ih => exact ih

def seen {β : Type} (view : Rule → β) (ps : List Placed) : List (RuleId × β) := ps.map fun p => (p.1, view p.2)

theorem seen_id {ps qs : List Placed} (h : seen id qs = seen id ps) : qs = ps := by
  simpa [seen] using h

theorem map_fst_seen {β : Type} (view : Rule → β) (ps : List Placed) :
    (seen view ps).map Prod.fst = ps.map Prod.fst := by
  simp [seen, List.map_map, Function.comp_def]

/-- A view that shows less. -/
theorem seen_congr {β γ : Type} {view : Rule → β} {view' : Rule → γ}
    (h : ∀ {r r'}, view r = view r' → view' r = view' r')
    {ps qs : List Placed} (hq : seen view qs = seen view ps) : seen view' qs = seen view' ps := by
  induction qs generalizing ps with
  | nil =>
    cases ps with
    | nil => rfl
    | cons p ps => cases hq
  | cons q qs ih =>
    cases ps with
    | nil => cases hq
    | cons p ps =>
      simp only [seen, List.map_cons, List.cons.injEq, Prod.mk.injEq] at hq ⊢
      exact ⟨⟨hq.1.1, h hq.1.2⟩, ih hq.2⟩

/-- A drawing that sees no more of a rule than a view of it. -/
theorem drawn_congr {β : Type} {view : Rule → β} (hd : ∀ {r r'}, view r = view r' → ∀ g, (d g r).1 = (d g r').1)
    {ps qs : List Placed} (h : seen view qs = seen view ps) (g : Graph) : drawn d g qs = drawn d g ps := by
  induction qs generalizing ps g with
  | nil =>
    cases ps with
    | nil => rfl
    | cons p ps => cases h
  | cons q qs ih =>
    cases ps with
    | nil => cases h
    | cons p ps =>
      simp only [seen, List.map_cons, List.cons.injEq, Prod.mk.injEq] at h
      show drawn d (d g q.2).1 qs = drawn d (d g p.2).1 ps
      rw [hd h.1.2, ih h.2]

def Known (c : Compilation) (ps : List Placed) : Prop := ∀ p ∈ ps, c.rule? p.1 = some p.2

def treated (f : Rule → Verdict) (d : Graph → Rule → Graph × Rule) (g : Graph) (r : Rule) : Graph × Rule :=
  if passes (f r).complaints then d g (f r).rule else (g, (f r).rule)

def treatedAll (f : Rule → Verdict) (d : Graph → Rule → Graph × Rule) : Graph → List Placed → List Placed
  | _, [] => []
  | g, p :: ps => (p.1, (treated f d g p.2).2) :: treatedAll f d (treated f d g p.2).1 ps

/-- What a sweep makes of a compilation. The rules that go on are known up to what drawing
    changes. -/
structure Swept {β : Type} (view : Rule → β) (f : Rule → Verdict) (d : Graph → Rule → Graph × Rule) (ps : List Placed)
    (c : Compilation) (qs : List Placed) (c' : Compilation) : Prop where
  known : Known c' qs
  rules : seen view qs = seen view (passed f ps)
  treated : Known c' (treatedAll f d c.graph ps)
  journal : c'.journal = c.journal.noteAll (reported f ps)
  graph : c'.graph = drawn d c.graph (passed f ps)
  others : ∀ id, id ∉ ps.map Prod.fst → c'.rule? id = c.rule? id
  kept : c.Kept c'

/-- What the work on one rule makes of a compilation. -/
structure Handled (f : Rule → Verdict) (d : Graph → Rule → Graph × Rule) (id : RuleId) (r : Rule) (c c' : Compilation) :
    Prop where
  book : c'.book = c.book.set id (treated f d c.graph r).2
  graph : c'.graph = (treated f d c.graph r).1
  journal : c'.journal = c.journal.noteAll (tagged r.index (f r).complaints)
  kept : c.Kept c'

theorem handled_spec (f : Rule → Verdict) (d : Graph → Rule → Graph × Rule) (id : RuleId) (r : Rule) (c : Compilation) :
    ∃ c', handled f d id r c = (.ok (passes (f r).complaints), c') ∧ Handled f d id r c c' := by
  unfold handled
  cases hp : passes (f r).complaints with
  | true =>
    have ht : treated f d c.graph r = d c.graph (f r).rule := if_pos hp
    exact ⟨_, rfl, by rw [ht], by rw [ht], rfl, rfl, rfl, rfl, rfl, List.length_set⟩
  | false =>
    have ht : treated f d c.graph r = (c.graph, (f r).rule) := if_neg (by simp [hp])
    exact ⟨_, rfl, by rw [ht], by rw [ht], rfl, rfl, rfl, rfl, rfl, List.length_set⟩

theorem rule?_of_set {c c' : Compilation} {id : RuleId} {r r' : Rule} (hr : c.rule? id = some r)
    (hbook : c'.book = c.book.set id r') (i : RuleId) : c'.rule? i = if i = id then some r' else c.rule? i := by
  unfold Compilation.rule?
  rw [hbook]
  by_cases hi : i = id
  · rw [if_pos hi, hi, rule?_set hr]
  · rw [if_neg hi, List.getElem?_set_ne (Ne.symm hi)]

/-- What is written in one place leaves the rules in other places known. -/
theorem Known.of_set {c c' : Compilation} {id : RuleId} {r r' : Rule} {ps : List Placed} (hk : Known c ((id, r) :: ps))
    (hbook : c'.book = c.book.set id r') (hid : id ∉ ps.map Prod.fst) : Known c' ps := by
  intro x hx
  have hne : x.1 ≠ id := fun e => hid (List.mem_map.mpr ⟨x, hx, e⟩)
  rw [rule?_of_set (hk (id, r) (by simp)) hbook, if_neg hne]
  exact hk x (List.mem_cons_of_mem _ hx)

/-- A sweep begins with the work on its first rule. -/
theorem through_of_work {w : Work} {id : RuleId} {ids q : List RuleId} {c c1 : Compilation} {keep : Bool}
    (h : w id c = (.ok keep, c1)) :
    through (gated w collect) q (id :: ids) c = through (gated w collect) (if keep then q ++ [id] else q) ids c1 := by
  simp only [through_cons, gated, h, next_ok]
  cases keep with
  | true => rfl
  | false => rfl

theorem seen_passed_cons {β : Type} {view : Rule → β} (hd : ∀ g r, view (d g r).2 = view r) (id : RuleId) (r : Rule)
    (g : Graph) {ps qs : List Placed} (h : seen view qs = seen view (passed f ps)) :
    seen view (if passes (f r).complaints then (id, (treated f d g r).2) :: qs else qs) =
      seen view (passed f ((id, r) :: ps)) := by
  cases hp : passes (f r).complaints with
  | true => simpa [seen, passed, hp, treated, hd] using h
  | false => simpa [seen, passed, hp] using h

theorem drawn_passed_cons (id : RuleId) (r : Rule) (g : Graph) (ps : List Placed) :
    drawn d g (passed f ((id, r) :: ps)) = drawn d (treated f d g r).1 (passed f ps) := by
  cases hp : passes (f r).complaints with
  | true => simp [passed, hp, drawn, treated]
  | false => simp [passed, hp, treated]

/-- A sweep is the work on its first rule and a sweep over the others. -/
theorem Handled.swept {β : Type} {view : Rule → β} (hd : ∀ g r, view (d g r).2 = view r) {id : RuleId} {r : Rule}
    {ps qs : List Placed} {c c1 c' : Compilation} (hr : c.rule? id = some r) (hid : id ∉ ps.map Prod.fst)
    (h : Handled f d id r c c1) (hs : Swept view f d ps c1 qs c') :
    Swept view f d ((id, r) :: ps) c (if passes (f r).complaints then (id, (treated f d c.graph r).2) :: qs else qs)
      c' := by
  have hset := rule?_of_set hr h.book
  have hfirst : c'.rule? id = some (treated f d c.graph r).2 := by rw [hs.others id hid, hset, if_pos rfl]
  refine ⟨fun x hx => ?_, seen_passed_cons hd id r c.graph hs.rules, fun x hx => ?_, ?_, ?_, fun i hi => ?_,
    h.kept.trans hs.kept⟩
  · split at hx
    · rcases List.mem_cons.mp hx with rfl | hx
      · exact hfirst
      · exact hs.known x hx
    · exact hs.known x hx
  · rcases List.mem_cons.mp hx with rfl | hx
    · exact hfirst
    · exact hs.treated x (h.graph.symm ▸ hx)
  · rw [hs.journal, h.journal, ← Journal.noteAll_append]
    rfl
  · rw [hs.graph, h.graph, drawn_passed_cons]
  · simp only [List.map_cons, List.mem_cons, not_or] at hi
    rw [hs.others i hi.2, hset, if_neg hi.1]

/-- A sweep over rules in different places. -/
theorem through_swept {β : Type} (view : Rule → β) {w : Work} (hw : Handles m declared P w f d)
    (hd : ∀ g r, view (d g r).2 = view r) :
    ∀ (ps : List Placed) (c : Compilation) (q : List RuleId), c.membership = some m → c.declaredTags = declared →
      Known c ps → (ps.map Prod.fst).Nodup → (∀ p ∈ ps, P p.2) →
      ∃ qs c', through (gated w collect) q (ps.map Prod.fst) c = (.ok (q ++ qs.map Prod.fst), c') ∧
        Swept view f d ps c qs c' := by
  intro ps
  induction ps with
  | nil =>
    intro c q _ _ _ _ _
    have hnone : Known c [] := fun p hp => by cases hp
    exact ⟨[], c, by simp, hnone, rfl, hnone, rfl, rfl, fun _ _ => rfl, Compilation.Kept.refl c⟩
  | cons p ps ih =>
    intro c q hm ht hk hn hP
    obtain ⟨id, r⟩ := p
    obtain ⟨hid, hn⟩ := List.nodup_cons.mp hn
    have hr : c.rule? id = some r := hk (id, r) (by simp)
    obtain ⟨c1, hone, hc1⟩ := handled_spec f d id r c
    obtain ⟨qs, c2, hrest, hs⟩ := ih c1 (if passes (f r).complaints then q ++ [id] else q)
      (hc1.kept.membership.trans hm) (hc1.kept.declaredTags.trans ht) (hk.of_set hc1.book hid) hn
      fun x hx => hP x (List.mem_cons_of_mem _ hx)
    refine ⟨_, c2, ?_, hc1.swept hd hr hid hs⟩
    rw [List.map_cons, through_of_work ((hw id c r hm ht hr (hP (id, r) (by simp))).trans hone), hrest]
    cases passes (f r).complaints with
    | true => simp
    | false => rfl

/-- A sweep fails at the first rule at which its work fails. -/
theorem through_fails {w : Work} (hw : Handles m declared P w f d) (bad : Rule → Prop) {e : Failure}
    (hbad : ∀ id c r, c.rule? id = some r → bad r → (w id c).1 = .error e) :
    ∀ (ps : List Placed) (c : Compilation) (q : List RuleId), c.membership = some m → c.declaredTags = declared →
      Known c ps → (ps.map Prod.fst).Nodup → (∀ p ∈ ps, ¬ bad p.2 → P p.2) → (∃ p ∈ ps, bad p.2) →
      ∃ c', through (gated w collect) q (ps.map Prod.fst) c = (.error e, c') := by
  intro ps
  induction ps with
  | nil =>
    intro c q _ _ _ _ _ hsome
    simp at hsome
  | cons p ps ih =>
    intro c q hm ht hk hn hP hsome
    obtain ⟨id, r⟩ := p
    obtain ⟨hid, hn⟩ := List.nodup_cons.mp hn
    have hr : c.rule? id = some r := hk (id, r) (by simp)
    by_cases hbadr : bad r
    · refine ⟨(w id c).2, ?_⟩
      rw [List.map_cons, through_cons, gated, next_of_error (hbad id c r hr hbadr), next_error]
    · obtain ⟨c1, hone, hc1⟩ := handled_spec f d id r c
      obtain ⟨x, hx, hbadx⟩ := hsome
      have hx := (List.mem_cons.mp hx).resolve_left fun heq => hbadr (by rw [heq] at hbadx; exact hbadx)
      obtain ⟨c', hrest⟩ := ih c1 (if passes (f r).complaints then q ++ [id] else q) (hc1.kept.membership.trans hm)
        (hc1.kept.declaredTags.trans ht) (hk.of_set hc1.book hid) hn (fun y hy => hP y (List.mem_cons_of_mem _ hy))
        ⟨x, hx, hbadx⟩
      refine ⟨c', ?_⟩
      rw [List.map_cons, through_of_work ((hw id c r hm ht hr (hP (id, r) (by simp) hbadr)).trans hone)]
      exact hrest

end Compiler

end Portcullis

/-
  Portcullis.Proofs.Schedule — how the rules of a compilation go through its stages.

  Without logging, the chain is one sweep in which a rule goes through all stages before the
  next rule comes (`rulewise_reached`). With logging, an observer behind each stage makes a
  sweep of every stage (`stagewise_reached`). Either way, every rule runs its course, the
  complaints of all rules are recorded, and the graph is laid out from the rules that go on.
  A log line shows tokens, so the second run fails on tokens that are no texts. Either run fails
  at the first rule where the reading of a token stops (`looped_fails`); nothing else fails.
-/

import Portcullis.Compiler.Session
import Portcullis.Proofs.Drawing

namespace Portcullis

def AccessRule.Textual (a : AccessRule) : Prop :=
  (∀ t ∈ a.sources, ∃ s, t = .text s) ∧ ∀ t ∈ a.destinations, ∃ s, t = .text s

def Document.Textual (d : Document) : Prop := ∀ a ∈ d.rules, a.Textual

theorem Rule.texts?_isSome {ts : List Value} (h : ∀ t ∈ ts, ∃ s, t = .text s) : ∃ ss, Rule.texts? ts = some ss := by
  induction ts with
  | nil => exact ⟨[], rfl⟩
  | cons t ts ih =>
    obtain ⟨ss, hss⟩ := ih fun x hx => h x (List.mem_cons_of_mem _ hx)
    obtain ⟨s, rfl⟩ := h t (by simp)
    exact ⟨s :: ss, by simp [Rule.texts?, hss]⟩

namespace Compiler

open Pipeline

/-! ## Steps that fail only on tokens that are no texts -/

/-- A step that leads to `Q`, or fails and so shows that `T` does not hold. -/
def Leads {α : Type} (T : Prop) (Q : α → Compilation → Prop) (x : Except Failure α × Compilation) : Prop :=
  match x with
  | (.ok a, c) => Q a c
  | (.error _, _) => ¬ T

variable {T : Prop}

theorem Leads.next {α β : Type} {Q : α → Compilation → Prop} {S : β → Compilation → Prop}
    {x : Except Failure α × Compilation}
    {k : α → Compilation → Except Failure β × Compilation} (h : Leads T Q x) (hk : ∀ a c, Q a c → Leads T S (k a c)) :
    Leads T S (Pipeline.next x k) := by
  obtain ⟨o, c⟩ := x
  cases o with
  | ok a => exact hk a c h
  | error e => exact h

/-- A step that fails, and at a number where `T` holds. -/
def Fails {α : Type} (T : Prop) (x : Except Failure α × Compilation) : Prop :=
  ∃ e c, x = (.error e, c) ∧ (T → e = .notAPort)

theorem Fails.next {α β : Type} {x : Except Failure α × Compilation} (h : Fails T x)
    (k : α → Compilation → Except Failure β × Compilation) : Fails T (Pipeline.next x k) := by
  obtain ⟨e, c, rfl, he⟩ := h
  exact ⟨e, c, rfl, he⟩

/-- What fails behind a step fails, also where the step itself does. -/
theorem Leads.next_fails {α β : Type} {Q : α → Compilation → Prop} {x : Except Failure α × Compilation}
    {k : α → Compilation → Except Failure β × Compilation} (h : Leads T Q x) (hk : ∀ a c, Q a c → Fails T (k a c)) :
    Fails T (Pipeline.next x k) := by
  obtain ⟨o, c⟩ := x
  cases o with
  | ok a => exact hk a c h
  | error e => exact ⟨e, c, rfl, fun ht => absurd ht h⟩

theorem shownSide?_isSome (r : Rule) (side : Side) (h : ∀ t ∈ r.tokens side, ∃ s, t = .text s) :
    ∃ line, r.shownSide? side = some line := by
  obtain ⟨ss, hss⟩ := Rule.texts?_isSome h
  unfold Rule.shownSide?
  simp only [hss, Option.map_some]
  split <;> exact ⟨_, rfl⟩

theorem shownRule?_isSome {r : Rule} (h : r.written.Textual) (c : Compilation) :
    ∃ line, c.shownRule? r = some line := by
  obtain ⟨s, hs⟩ := shownSide?_isSome r .source h.1
  obtain ⟨d, hd⟩ := shownSide?_isSome r .destination h.2
  unfold Compilation.shownRule?
  rw [hs, hd]
  exact ⟨_, rfl⟩

theorem logRules_leads (ids : List RuleId) (c : Compilation)
    (h : T → ∀ id ∈ ids, ∀ r, c.rule? id = some r → r.written.Textual) :
    Leads T (fun _ c' => ∃ log, c' = { c with log }) (c.logRules ids) := by
  induction ids generalizing c with
  | nil => exact ⟨c.log, rfl⟩
  | cons id ids ih =>
    have ih' := ih c fun ht i hi => h ht i (List.mem_cons_of_mem _ hi)
    unfold Compilation.logRules
    cases hr : c.rule? id with
    | none => exact ih'
    | some r =>
      simp only
      split
      · cases hshown : c.shownRule? r with
        | none =>
          intro ht
          obtain ⟨line, hline⟩ := shownRule?_isSome (h ht id (by simp) r hr) c
          rw [hshown] at hline
          cases hline
        | some line =>
          have := ih (c.info line) fun ht i hi => h ht i (List.mem_cons_of_mem _ hi)
          simp only
          generalize (c.info line).logRules ids = x at this ⊢
          obtain ⟨o, c'⟩ := x
          cases o with
          | error e => exact this
          | ok u =>
            obtain ⟨log, rfl⟩ := this
            exact ⟨log, rfl⟩
      · exact ih'

/-! ## How far a run has come -/

def placed (rs : List Rule) : List Placed := rs.zipIdx.map fun x => (x.2, x.1)

theorem mem_placed {rs : List Rule} {p : Placed} : p ∈ placed rs ↔ rs[p.1]? = some p.2 := by
  simp only [placed, List.mem_map, List.mem_zipIdx_iff_getElem?]
  constructor
  · intro hex
    rcases hex with ⟨x, hx, rfl⟩
    exact hx
  · exact fun h => ⟨(p.2, p.1), h, rfl⟩

theorem map_fst_placed (rs : List Rule) : (placed rs).map Prod.fst = List.range rs.length := by
  simp [placed, List.map_map, Function.comp_def, List.zipIdx_map_snd, List.range_eq_range']

/-- A run from `c₀` in which the rules have come as far as the verdict `f` and the graph `g`:
    `queue` holds the rules that go on, known up to `view`. -/
structure Reached {β : Type} (view : Rule → β) (c₀ : Compilation) (ps : List Placed) (f : Rule → Verdict) (g : Graph)
    (queue : List RuleId) (c : Compilation) : Prop where
  rules : ∃ qs, queue = qs.map Prod.fst ∧ Known c qs ∧ seen view qs = seen view (passed f ps)
  journal : ∃ ms, c.journal = c₀.journal.noteAll (ms.map Prod.snd) ∧ Alike ms (marked f ps)
  graph : c.graph = g
  kept : c₀.Kept c

variable {m : Membership} {declared : List String} {c₀ : Compilation} {ps : List Placed} {P Q : Rule → Prop}
  {f f' : Rule → Verdict} {g : Graph}

theorem nodup_passed (hn : (ps.map Prod.fst).Nodup) (f : Rule → Verdict) : ((passed f ps).map Prod.fst).Nodup := by
  have h : (passed f ps).map Prod.fst = (ps.filter fun p => passes (f p.2).complaints).map Prod.fst := by
    simp [passed, List.map_map, Function.comp_def]
  rw [h]
  exact hn.sublist (List.filter_sublist.map _)

theorem Reached.nodup {β : Type} {view : Rule → β} {queue : List RuleId} {c : Compilation}
    (h : Reached view c₀ ps f g queue c) (hn : (ps.map Prod.fst).Nodup) : queue.Nodup := by
  obtain ⟨qs, rfl, -, hq⟩ := h.rules
  rw [← map_fst_seen view, hq, map_fst_seen]
  exact nodup_passed hn f

/-- The book has every rule that goes on, as far as the view shows it. -/
theorem Reached.exists_rule {β : Type} {view : Rule → β} {queue : List RuleId} {c : Compilation}
    (h : Reached view c₀ ps f g queue c) {p : Placed} (hp : p ∈ passed f ps) :
    ∃ r, c.rule? p.1 = some r ∧ view r = view p.2 := by
  obtain ⟨qs, -, hk, hq⟩ := h.rules
  have hseen : (p.1, view p.2) ∈ seen view qs := by
    rw [hq]
    exact List.mem_map.mpr ⟨p, hp, rfl⟩
  obtain ⟨q, hqm, he⟩ := List.mem_map.mp hseen
  obtain ⟨hi, hv⟩ := Prod.mk.inj he
  exact ⟨q.2, hi ▸ hk q hqm, hv⟩

theorem next_of_passed (hf : Judges f P Q) (hP : ∀ p ∈ ps, P p.2) : ∀ p ∈ passed f ps, Q p.2 := by
  intro p hp
  obtain ⟨x, hx, rfl⟩ := List.mem_map.mp hp
  obtain ⟨hx, hpass⟩ := List.mem_filter.mp hx
  exact hf.next (hP x hx) hpass

/-- What goes on stays as it was written. -/
theorem written_of_passed (hf : Judges f P Q) (hP : ∀ p ∈ ps, P p.2) {p : Placed} (hp : p ∈ passed f ps) :
    ∃ x ∈ ps, p.1 = x.1 ∧ p.2.written = x.2.written := by
  obtain ⟨x, hx, rfl⟩ := List.mem_map.mp hp
  have hx := (List.mem_filter.mp hx).1
  exact ⟨x, hx, rfl, hf.written (hP x hx)⟩

/-- A sweep of judging. -/
theorem Reached.judge (hn : (ps.map Prod.fst).Nodup) (hP : ∀ p ∈ ps, P p.2) (hm : c₀.membership = some m)
    (ht : c₀.declaredTags = declared) (hf : Judges f P Q) {w : Work} (hw : Handles m declared Q w f' undrawn)
    {queue : List RuleId} {c : Compilation} (h : Reached id c₀ ps f g queue c) :
    Leads T (Reached id c₀ ps (fun r => (f r).andThen f') g) (through (gated w collect) [] queue c) := by
  have hnq := h.nodup hn
  obtain ⟨qs, rfl, hk, hq⟩ := h.rules
  obtain rfl : qs = passed f ps := seen_id hq
  obtain ⟨qs', c', hrun, hs⟩ := through_swept id hw (fun _ _ => rfl) (passed f ps) c [] (h.kept.membership.trans hm)
    (h.kept.declaredTags.trans ht) hk hnq (next_of_passed hf hP)
  rw [hrun]
  obtain ⟨ms, hms, halike⟩ := h.journal
  refine ⟨⟨qs', rfl, hs.known, ?_⟩, ⟨ms ++ marked f' (passed f ps), ?_, ?_⟩, ?_, h.kept.trans hs.kept⟩
  · rw [passed_andThen hf hP]
    exact hs.rules
  · rw [hs.journal, hms, List.map_append, map_snd_marked, Journal.noteAll_append]
  · exact (halike.append (.refl _)).trans (marked_andThen hf hP hn)
  · rw [hs.graph, drawn_undrawn, h.graph]

/-- A sweep of drawing, which sees of a rule no more than the view. -/
theorem Reached.draw {β γ : Type} {view : Rule → β} {view' : Rule → γ} (hn : (ps.map Prod.fst).Nodup)
    (hm : c₀.membership = some m) (ht : c₀.declaredTags = declared) {d : Graph → Rule → Graph × Rule}
    (hd : ∀ g r, view' (d g r).2 = view' r) (hview : ∀ {r r'}, view r = view r' → view' r = view' r')
    (hsame : ∀ {r r'}, view r = view r' → ∀ g, (d g r).1 = (d g r').1)
    {queue : List RuleId} {c : Compilation} (h : Reached view c₀ ps f g queue c) :
    Leads T (Reached view' c₀ ps f (drawn d g (passed f ps))) (through (gated (Compiler.draw d) collect) [] queue c) := by
  have hnq := h.nodup hn
  obtain ⟨qs, rfl, hk, hq⟩ := h.rules
  have hw : Handles m declared (fun _ => True) (Compiler.draw d) unjudged d := handles_draw
  obtain ⟨qs', c', hrun, hs⟩ := through_swept view' hw hd qs c [] (h.kept.membership.trans hm)
    (h.kept.declaredTags.trans ht) hk hnq fun _ _ => trivial
  rw [hrun]
  obtain ⟨ms, hms, halike⟩ := h.journal
  refine ⟨⟨qs', rfl, hs.known, ?_⟩, ⟨ms, ?_, halike⟩, ?_, h.kept.trans hs.kept⟩
  · rw [hs.rules, passed_unjudged]
    exact seen_congr hview hq
  · rw [hs.journal, hms, reported_unjudged]
    rfl
  · rw [hs.graph, passed_unjudged, h.graph, drawn_congr hsame hq]

/-! ## The loop of the stages -/

def logged (stage : String) (queue : List RuleId) (c : Compilation) : Except Failure (List RuleId) × Compilation :=
  if queue.isEmpty then (.ok queue, c) else next (report stage queue c) fun _ c => (.ok queue, c)

def observed (up : Chain) (c : Compilation) : Except Failure (List RuleId) × Compilation :=
  next (fold behaviour up collect [] c) (logged (nameBefore behaviour up))

theorem fold_observer (up : Chain) {α : Type} (k : Consumer RuleId Compilation Failure α) (a : α)
    (c : Compilation) :
    fold behaviour ({ kind := .debug } :: up) k a c = next (observed up c) fun queue c => through k a queue c := by
  have h : fold behaviour ({ kind := .debug } :: up) k a c =
      next (fold behaviour up collect [] c) fun queue c =>
        if queue.isEmpty then (.ok a, c)
        else next (report (nameBefore behaviour up) queue c) fun _ c => through k a queue c := rfl
  rw [h]
  unfold observed
  rw [next_next]
  congr 1
  funext queue c
  unfold logged
  cases queue with
  | nil => rfl
  | cons id ids =>
    simp only [List.isEmpty_cons, Bool.false_eq_true, if_false, next_next, next_ok]

theorem observed_cons {kind : StageKind} {w : Work} (hw : task kind = .filter w) (up : Chain) (c : Compilation) :
    observed ({ kind } :: { kind := .debug } :: up) c =
      next (next (observed up c) fun queue c => through (gated w collect) [] queue c) (logged kind.name) := by
  unfold observed
  have h : fold behaviour ({ kind } :: { kind := .debug } :: up) collect [] c =
      fold behaviour ({ kind := .debug } :: up) (gated w collect) [] c := by
    rw [fold]
    simp only [behaviour, hw, through_nil, next_ok]
  rw [h, fold_observer]
  rfl

/-- Logging changes the log only. -/
theorem Reached.logged {β : Type} {view : Rule → β} (hview : ∀ {r r'}, view r = view r' → r.written = r'.written)
    (hP : ∀ p ∈ ps, P p.2) (hf : Judges f P Q) (hT : T → ∀ p ∈ ps, p.2.written.Textual) (stage : String)
    {queue : List RuleId} {c : Compilation} (h : Reached view c₀ ps f g queue c) :
    Leads T (Reached view c₀ ps f g) (logged stage queue c) := by
  have htextual : T → ∀ id ∈ queue, ∀ r, c.rule? id = some r → r.written.Textual := by
    intro ht id hid r hr
    obtain ⟨qs, rfl, hk, hq⟩ := h.rules
    obtain ⟨q, hq', rfl⟩ := List.mem_map.mp hid
    obtain rfl : q.2 = r := Option.some.inj ((hk q hq').symm.trans hr)
    have hmem : (q.1, q.2.written) ∈ seen Rule.written (passed f ps) := by
      rw [← seen_congr hview hq]
      exact List.mem_map.mpr ⟨q, hq', rfl⟩
    obtain ⟨p, hp, he⟩ := List.mem_map.mp hmem
    obtain ⟨x, hx, -, hw⟩ := written_of_passed hf hP hp
    rw [← (Prod.mk.inj he).2, hw]
    exact hT ht x hx
  unfold Compiler.logged
  split
  · exact h
  · apply Leads.next (logRules_leads queue (c.info (Compilation.stageHeader stage)) htextual)
    intro _ _ hex
    rcases hex with ⟨log, rfl⟩
    exact ⟨h.rules, h.journal, h.graph, h.kept.options, h.kept.membership, h.kept.declaredTags, h.kept.rules,
      h.kept.length⟩

structure Started (m : Membership) (declared : List String) (ps : List Placed) (c : Compilation) : Prop where
  membership : c.membership = some m
  declaredTags : c.declaredTags = declared
  rules : c.rules = ps.map Prod.fst
  known : Known c ps
  nodup : (ps.map Prod.fst).Nodup
  fresh : ∀ p ∈ ps, Fresh p.2

theorem Started.reached (hs : Started m declared ps c₀) : Reached id c₀ ps unjudged c₀.graph c₀.rules c₀ where
  rules := ⟨ps, hs.rules, hs.known, by rw [passed_unjudged]⟩
  journal := ⟨[], rfl, by rw [marked_unjudged]; exact .refl _⟩
  graph := rfl
  kept := Compilation.Kept.refl c₀

/-! ## One stage after another -/

theorem judges_unjudged (P : Rule → Prop) : Judges unjudged P P := ⟨fun _ => rfl, fun _ => rfl, fun h _ => h⟩

theorem observed_begin (hs : Started m declared ps c₀) (hT : T → ∀ p ∈ ps, p.2.written.Textual) :
    Leads T (Reached id c₀ ps unjudged c₀.graph) (observed [{ kind := .begin }] c₀) := by
  have h : observed [{ kind := .begin }] c₀ = logged StageKind.begin.name c₀.rules c₀ := by
    show next (through collect [] ([] ++ c₀.rules) c₀) (logged StageKind.begin.name) = _
    rw [through_collect]
    rfl
  rw [h]
  exact hs.reached.logged (fun e => congrArg Rule.written e) hs.fresh (judges_unjudged Fresh) hT _

theorem observed_judge (hs : Started m declared ps c₀) (hb : ∀ p ∈ ps, Tractable p.2)
    (hT : T → ∀ p ∈ ps, p.2.written.Textual) {up : Chain}
    (h : Leads T (Reached id c₀ ps f g) (observed up c₀))
    (hf : Judges f Tractable P) (hf' : Judges f' P Q) {kind : StageKind} {F : Compilation → Rule → Verdict}
    (hk : task kind = .filter (judge F))
    (hF : ∀ {c r}, c.membership = some m → c.declaredTags = declared → F c r = f' r) :
    Leads T (Reached id c₀ ps (fun r => (f r).andThen f') g) (observed ({ kind } :: { kind := .debug } :: up) c₀) := by
  rw [observed_cons hk]
  have hsweep : Leads T (Reached id c₀ ps (fun r => (f r).andThen f') g)
      (next (observed up c₀) fun queue c => through (gated (judge F) collect) [] queue c) :=
    h.next fun queue c hr =>
      hr.judge hs.nodup hb hs.membership hs.declaredTags hf (handles_judge hf' hF)
  exact hsweep.next fun queue c hr =>
    hr.logged (fun e => congrArg Rule.written e) hb (hf.andThen hf') hT _

theorem observed_draw (hs : Started m declared ps c₀) (hb : ∀ p ∈ ps, Tractable p.2)
    (hT : T → ∀ p ∈ ps, p.2.written.Textual) {up : Chain}
    {β γ : Type} {view : Rule → β} (view' : Rule → γ)
    (h : Leads T (Reached view c₀ ps f g) (observed up c₀)) (hf : Judges f Tractable P) {kind : StageKind}
    {d : Graph → Rule → Graph × Rule} (hk : task kind = .filter (draw d)) (hd : ∀ g r, view' (d g r).2 = view' r)
    (hview : ∀ {r r'}, view r = view r' → view' r = view' r')
    (hsame : ∀ {r r'}, view r = view r' → ∀ g, (d g r).1 = (d g r').1)
    (hwritten : ∀ {r r'}, view' r = view' r' → r.written = r'.written) :
    Leads T (Reached view' c₀ ps f (drawn d g (passed f ps))) (observed ({ kind } :: { kind := .debug } :: up) c₀) := by
  rw [observed_cons hk]
  have hsweep : Leads T (Reached view' c₀ ps f (drawn d g (passed f ps)))
      (next (observed up c₀) fun queue c => through (gated (draw d) collect) [] queue c) :=
    h.next fun queue c hr => hr.draw hs.nodup hs.membership hs.declaredTags hd hview hsame
  exact hsweep.next fun queue c hr => hr.logged hwritten hb hf hT _

theorem written_of_bare {r r' : Rule} (h : r.bare = r'.bare) : r.written = r'.written := by
  show r.bare.written = r'.bare.written
  rw [h]

theorem course_eq_stages (m : Membership) (declared : List String) :
    (fun r => ((((unjudged r).andThen classified).andThen (checked (some m) declared)).andThen originated).andThen
      (expanded (some m))) = course m declared := by
  funext r
  rw [congrFun (unjudged_andThen classified) r]
  simp only [andThen_assoc]
  rfl

def stagewiseChain : Chain :=
  [{ kind := .debug }, { kind := .resourcePolicies }, { kind := .debug }, { kind := .groupPolicies },
   { kind := .debug }, { kind := .registerNodes }, { kind := .debug }, { kind := .expandGroups },
   { kind := .debug }, { kind := .convertSources }, { kind := .debug }, { kind := .checkReferences },
   { kind := .debug }, { kind := .classifyEndpoints }, { kind := .debug }, { kind := .begin }]

theorem stagewise_reached (hs : Started m declared ps c₀) (hb : ∀ p ∈ ps, Tractable p.2)
    (hT : T → ∀ p ∈ ps, p.2.written.Textual) :
    Leads T (Reached Rule.bare c₀ ps (course m declared)
        (laidOut true c₀.graph ((passed (course m declared) ps).map Prod.snd)))
      (fold behaviour stagewiseChain collect [] c₀) := by
  have hj := judges_unjudged Tractable
  have h1 := observed_judge hs hb hT (observed_begin hs hT) hj judges_classified
    (show task .classifyEndpoints = _ from rfl) fun _ _ => rfl
  have hj1 := hj.andThen judges_classified
  have h2 := observed_judge hs hb hT h1 hj1 (judges_checked m declared) (show task .checkReferences = _ from rfl)
    fun hm ht => by rw [hm, ht]
  have hj2 := hj1.andThen (judges_checked m declared)
  have h3 := observed_judge hs hb hT h2 hj2 judges_originated (show task .convertSources = _ from rfl) fun _ _ => rfl
  have hj3 := hj2.andThen judges_originated
  have h4 := observed_judge hs hb hT h3 hj3 (judges_expanded m) (show task .expandGroups = _ from rfl)
    fun hm _ => by rw [hm]
  have hj4 := hj3.andThen (judges_expanded m)
  rw [course_eq_stages] at h4 hj4
  have h5 := observed_draw hs hb hT id h4 hj4 (show task .registerNodes = .filter (draw register) from rfl)
    (fun _ _ => rfl) (fun e => e) (fun {r r'} (e : r = r') g => by rw [e]) fun e => congrArg Rule.written e
  have h6 := observed_draw hs hb hT Rule.bare h5 hj4 (show task .groupPolicies = .filter (draw drawGroups) from rfl)
    (fun g r => (addPolicies_spec g r _).2) (fun e => congrArg Rule.bare e)
    (fun {r r'} (e : r = r') g => by rw [e]) written_of_bare
  have h7 := observed_draw hs hb hT Rule.bare h6 hj4
    (show task .resourcePolicies = .filter (draw drawResources) from rfl) (fun g r => (addPolicies_spec g r _).2)
    (fun e => e) (fun e g => by
      show (addPolicies _ _ _).1 = (addPolicies _ _ _).1
      rw [(addPolicies_spec _ _ _).1, (addPolicies_spec _ _ _).1, resourceEdges_bare e]) written_of_bare
  rw [laidOut_stagewise] at h7
  show Leads T _ (fold behaviour ({ kind := .debug } :: _) collect [] c₀)
  rw [fold_observer]
  apply Leads.next h7
  intro queue c hr
  rw [through_collect]
  exact hr

/-! ## One rule after another -/

def rulewiseChain : Chain :=
  [{ kind := .resourcePolicies }, { kind := .groupPolicies }, { kind := .registerNodes }, { kind := .expandGroups },
   { kind := .convertSources }, { kind := .checkReferences }, { kind := .classifyEndpoints }, { kind := .begin }]

def allStages : Work :=
  both (judge fun _ => classified) (both (judge fun c => checked c.membership c.declaredTags)
    (both (judge fun _ => originated) (both (judge fun c => expanded c.membership)
      (both (draw register) (both (draw drawGroups) (draw drawResources))))))

theorem handles_allStages (m : Membership) (declared : List String) :
    Handles m declared Tractable allStages (course m declared)
      (drawnThen register (drawnThen drawGroups drawResources)) := by
  have hd : Handles m declared (fun _ => True) (both (draw register) (both (draw drawGroups) (draw drawResources)))
      unjudged (drawnThen register (drawnThen drawGroups drawResources)) :=
    handles_draw_then (Q := fun _ => True) (fun _ => trivial)
      (handles_draw_then (Q := fun _ => True) (fun _ => trivial) handles_draw)
  have h4 := handles_judge_then (F := fun c => expanded c.membership) (judges_expanded m) (fun hm _ => by rw [hm]) hd
  simp only [andThen_unjudged] at h4
  have h3 := handles_judge_then (F := fun _ => originated) judges_originated (fun _ _ => rfl) h4
  have h2 := handles_judge_then (F := fun c => checked c.membership c.declaredTags) (judges_checked m declared)
    (fun hm ht => by rw [hm, ht]) h3
  exact handles_judge_then (F := fun _ => classified) judges_classified (fun _ _ => rfl) h2

theorem fold_rulewise (c : Compilation) :
    fold behaviour rulewiseChain collect [] c = through (gated allStages collect) [] c.rules c := by
  unfold allStages
  simp only [← gated_both]
  rfl

/-- The whole chain is one sweep. -/
theorem rulewise_swept (hs : Started m declared ps c₀) (hb : ∀ p ∈ ps, Tractable p.2) :
    ∃ qs c, fold behaviour rulewiseChain collect [] c₀ = (.ok (qs.map Prod.fst), c) ∧
      Swept Rule.bare (course m declared) (drawnThen register (drawnThen drawGroups drawResources)) ps c₀ qs c := by
  rw [fold_rulewise, hs.rules]
  exact through_swept Rule.bare (handles_allStages m declared) bare_drawn_rule ps c₀ [] hs.membership hs.declaredTags
    hs.known hs.nodup hb

theorem rulewise_reached (hs : Started m declared ps c₀) (hb : ∀ p ∈ ps, Tractable p.2) :
    Leads T (Reached Rule.bare c₀ ps (course m declared)
        (laidOut false c₀.graph ((passed (course m declared) ps).map Prod.snd)))
      (fold behaviour rulewiseChain collect [] c₀) := by
  obtain ⟨qs, c, hrun, hsw⟩ := rulewise_swept hs hb
  rw [hrun]
  refine ⟨⟨qs, rfl, hsw.known, hsw.rules⟩, ⟨marked (course m declared) ps, ?_, .refl _⟩, ?_, hsw.kept⟩
  · rw [hsw.journal, map_snd_marked]
  · rw [hsw.graph, laidOut_rulewise]

/-! ## Either way -/

def chainOf (stagewise : Bool) : Chain := if stagewise then stagewiseChain else rulewiseChain

theorem looped_reached (hs : Started m declared ps c₀) (hb : ∀ p ∈ ps, Tractable p.2) (stagewise : Bool)
    (hT : stagewise = true → T → ∀ p ∈ ps, p.2.written.Textual) :
    Leads T (Reached Rule.bare c₀ ps (course m declared)
        (laidOut stagewise c₀.graph ((passed (course m declared) ps).map Prod.snd)))
      (fold behaviour (chainOf stagewise) collect [] c₀) := by
  cases stagewise with
  | true => exact stagewise_reached hs hb (hT rfl)
  | false => exact rulewise_reached hs hb

/-! ## Where reading stops -/

theorem judge_classified_fails {id : RuleId} {c : Compilation} {r : Rule} (hr : c.rule? id = some r)
    (hbad : Fresh r ∧ ¬ Tractable r) : (judge (fun _ => classified) id c).1 = .error .notAPort := by
  have hhalts : ∃ side, ¬ Brief (r.tokens side) := by
    by_contra hnone
    exact hbad.2 ⟨hbad.1, fun side => not_not.mp fun h => hnone ⟨side, h⟩⟩
  unfold judge
  rw [hr]
  exact classified_halts r hbad.1.sources hbad.1.destinations hhalts

theorem rulewise_fails (hs : Started m declared ps c₀) (hsome : ∃ p ∈ ps, ¬ Tractable p.2) :
    Fails T (fold behaviour rulewiseChain collect [] c₀) := by
  obtain ⟨p, hp, hbad⟩ := hsome
  obtain ⟨c, hrun⟩ := through_fails (handles_allStages m declared) (fun r => Fresh r ∧ ¬ Tractable r)
    (e := .notAPort) (fun id c r hr hbadr => by
      rw [allStages, both, next_of_error (judge_classified_fails hr hbadr)])
    ps c₀ [] hs.membership hs.declaredTags hs.known hs.nodup
    (fun q hq hnot => not_not.mp fun h => hnot ⟨hs.fresh q hq, h⟩) ⟨p, hp, hs.fresh p hp, hbad⟩
  rw [fold_rulewise, hs.rules]
  exact ⟨_, c, hrun, fun _ => rfl⟩

theorem observed_fails {kind : StageKind} {w : Work} (hw : task kind = .filter w) {up : Chain} {c : Compilation}
    (h : Fails T (observed up c)) : Fails T (observed ({ kind } :: { kind := .debug } :: up) c) := by
  rw [observed_cons hw]
  exact (h.next _).next _

theorem stagewise_fails (hs : Started m declared ps c₀) (hT : T → ∀ p ∈ ps, p.2.written.Textual)
    (hsome : ∃ p ∈ ps, ¬ Tractable p.2) : Fails T (fold behaviour stagewiseChain collect [] c₀) := by
  obtain ⟨p, hp, hbad⟩ := hsome
  have h1 : Fails T (observed [{ kind := .classifyEndpoints }, { kind := .debug }, { kind := .begin }] c₀) := by
    rw [observed_cons (show task .classifyEndpoints = _ from rfl)]
    refine Fails.next ((observed_begin hs hT).next_fails fun queue c hr => ?_) _
    obtain ⟨qs, rfl, hk, hq⟩ := hr.rules
    rw [passed_unjudged] at hq
    obtain rfl : qs = ps := seen_id hq
    obtain ⟨c', hrun⟩ := through_fails (handles_judge (F := fun _ => classified) judges_classified fun _ _ => rfl)
      (fun r => Fresh r ∧ ¬ Tractable r) (fun _ _ _ => judge_classified_fails) qs c []
      (hr.kept.membership.trans hs.membership) (hr.kept.declaredTags.trans hs.declaredTags) hk hs.nodup
      (fun q hq hnot => not_not.mp fun h => hnot ⟨hs.fresh q hq, h⟩) ⟨p, hp, hs.fresh p hp, hbad⟩
    exact ⟨_, c', hrun, fun _ => rfl⟩
  have h2 := observed_fails (show task .checkReferences = _ from rfl) h1
  have h3 := observed_fails (show task .convertSources = _ from rfl) h2
  have h4 := observed_fails (show task .expandGroups = _ from rfl) h3
  have h5 := observed_fails (show task .registerNodes = _ from rfl) h4
  have h6 := observed_fails (show task .groupPolicies = _ from rfl) h5
  have h7 := observed_fails (show task .resourcePolicies = _ from rfl) h6
  show Fails T (fold behaviour ({ kind := .debug } :: _) collect [] c₀)
  rw [fold_observer]
  exact h7.next _

/-- The loop fails where the reading of a token stops. -/
theorem looped_fails (hs : Started m declared ps c₀) (stagewise : Bool)
    (hT : stagewise = true → T → ∀ p ∈ ps, p.2.written.Textual) (hsome : ∃ p ∈ ps, ¬ Tractable p.2) :
    Fails T (fold behaviour (chainOf stagewise) collect [] c₀) := by
  cases stagewise with
  | true => exact stagewise_fails hs (hT rfl) hsome
  | false => exact rulewise_fails hs hsome

theorem ready_chainOf (stagewise : Bool) : Ready behaviour (chainOf stagewise) := by
  have hbegin : Ready behaviour [({ kind := .begin } : Stage StageKind RuleId)] := .source rfl fun _ => rfl
  have filter : ∀ {kind : StageKind} {w : Work} {up : Chain}, task kind = .filter w → Ready behaviour up →
      Ready behaviour ({ kind } :: up) := fun hk hup => .filter hk rfl hup
  have observer : ∀ {up : Chain}, Ready behaviour up → Ready behaviour ({ kind := .debug } :: up) := fun hup =>
    .observer (show task .debug = .observer report from rfl) (fun _ => rfl) (fun h => by cases h) hup
  cases stagewise with
  | false => exact filter rfl (filter rfl (filter rfl (filter rfl (filter rfl (filter rfl (filter rfl hbegin))))))
  | true =>
    exact observer (filter rfl (observer (filter rfl (observer (filter rfl (observer (filter rfl (observer (filter rfl
      (observer (filter rfl (observer (filter rfl (observer hbegin))))))))))))))

end Compiler

end Portcullis

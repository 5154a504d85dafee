/-
  Portcullis.Proofs.Acts — a compilation as a sequence of small acts.

  An act changes one thing: it records a problem, writes a working rule back, adds a node, a link
  or a policy to the graph, notes the key of a policy in its rule, or adds a line to the log.
  Reading the tables comes to a list of acts (`opening`), and so does every turn of a stage
  (`Turn.acts`); the turns are those of the watched chain of the session.
  - `compile_acts`: doing the acts of a compilation one after the other ends where the
    compilation ends, whatever its outcome.
  - `Always`: what holds after every number of acts. A property that each act keeps always holds
    (`Always.of_step`).
-/

import Portcullis.Proofs.Outcome
import Portcullis.Proofs.Watching

namespace Portcullis.Compiler

open Pipeline

inductive Act where
  | readTable (m : Membership)
  | readTags (names : List String)
  /-- Loads the rules of the document. -/
  | load (rules : List Rule)
  | node (e : Endpoint)
  | link (source destination : Endpoint)
  | write (id : RuleId) (r : Rule)
  | abort
  | record (d : Diagnostic)
  | store (e : Edge)
  /-- Notes the key of a policy in its rule. -/
  | note (id : RuleId) (key : String)
  | line (l : LogLine)

def Act.run (c : Compilation) : Act → Compilation
  | .readTable m => { c with membership := some m }
  | .readTags names => { c with declaredTags := names }
  | .load rules =>
    let (c, ids) := c.enter rules
    { c with rules := ids }
  | .node e => { c with graph := c.graph.addNode e }
  | .link source destination => { c with graph := c.graph.link source destination }
  | .write id r => c.setRule id r
  | .abort => c.abort
  | .record d => c.record d
  | .store e => { c with graph := c.graph.addPolicy e }
  | .note id key => match c.rule? id with
    | none => c
    | some r => c.setRule id { r with policyKeys := r.policyKeys ++ [key] }
  | .line l => { c with log := c.log ++ [l] }

def afterActs (c : Compilation) (acts : List Act) : Compilation := acts.foldl Act.run c

/-! ## Before the stages -/

def introducing (group : Group) : List Act := .node group.self :: group.members.map fun e => .link e group.self

/-- An entry that is reported is recorded; another one stops the run. -/
def refusing (u : Unclassified) : List Act :=
  if u.cause.isReported then [.abort, .record (Compilation.badEntry u)] else []

def opening (d : Document) (o : Options) : List Act :=
  match Membership.ofTable d.groups o.expansionDepth with
  | .error u => refusing u
  | .ok m => .readTable m :: match Compilation.tagNames d.tagOwners.keys with
    | .error u => refusing u
    | .ok tags =>
      .readTags tags :: (m.groups.values.flatMap introducing ++ [.load (d.rules.map Rule.ofAccessRule)])

/-! ## One turn of a stage -/

def complaining (index : Int) (p : Complaint) : List Act :=
  let d : Diagnostic := ⟨p.severity, p.message, some index, p.token⟩
  if p.severity = .error then [.abort, .record d] else [.record d]

def judging (f : Compilation → Rule → Verdict) (id : RuleId) (c : Compilation) : List Act :=
  match c.rule? id with
  | none => []
  | some r => .write id (f c r).rule :: (f c r).complaints.flatMap (complaining r.index)

def registering (r : Rule) : List Act :=
  r.sources.values.flatMap fun s => .node s :: r.destinations.values.map fun e => .link s e

def storing (id : RuleId) : Graph → List Edge → List Act
  | _, [] => []
  | g, e :: es => .store e :: .note id (g.policyKey e) :: storing id (g.addPolicy e) es

def workActs (kind : StageKind) (id : RuleId) (c : Compilation) : List Act :=
  match kind with
  | .classifyEndpoints => judging (fun _ => classified) id c
  | .checkReferences => judging (fun c => checked c.membership c.declaredTags) id c
  | .convertSources => judging (fun _ => originated) id c
  | .expandGroups => judging (fun c => expanded c.membership) id c
  | .registerNodes => (c.rule? id).elim [] registering
  | .groupPolicies => (c.rule? id).elim [] fun r => storing id c.graph (groupEdges r)
  | .resourcePolicies => (c.rule? id).elim [] fun r => storing id c.graph (resourceEdges r)
  | _ => []

def newLines (c c' : Compilation) : List LogLine := c'.log.drop c.log.length

def turnActs (t : Turn StageKind RuleId Compilation) : List Act :=
  match t.kind with
  | .debug => (newLines t.before t.after).map .line
  | kind => t.items.flatMap fun id => workActs kind id t.before

/-! ## The whole run -/

def stageTurns (s : Session) : List (Turn StageKind RuleId Compilation) :=
  (drain behaviour.watched (StageKind.ofCompilation.foldl Session.add s).chain (s.state, [])).2.context.2

/-- The turns of a compilation; there are none if reading the tables aborts or stops. -/
def turns (d : Document) (o : Options) : List (Turn StageKind RuleId Compilation) :=
  let (s, loaded) := (Session.ofDocument d o).prolog
  match loaded with
  | .error _ => []
  | .ok _ => if s.state.journal.aborted then [] else stageTurns s

def acts (d : Document) (o : Options) : List Act := opening d o ++ (turns d o).flatMap turnActs

def reached (d : Document) (o : Options) (done : List Act) : Compilation :=
  afterActs { document := d, options := o } done

/-! ## What acts come to -/

variable {c : Compilation} {as bs : List Act}

theorem afterActs_append (c : Compilation) (as bs : List Act) :
    afterActs c (as ++ bs) = afterActs (afterActs c as) bs :=
  List.foldl_append

/-- Acts of which each draws one thing. -/
theorem afterActs_map {α : Type} {act : α → Act} {f : Graph → α → Graph}
    (h : ∀ c x, Act.run c (act x) = { c with graph := f c.graph x }) (xs : List α) (c : Compilation) :
    afterActs c (xs.map act) = { c with graph := xs.foldl f c.graph } := by
  induction xs generalizing c with
  | nil => rfl
  | cons x xs ih =>
    show afterActs (Act.run c (act x)) (xs.map act) = _
    rw [ih, h]
    rfl

/-- Lists of acts of which each draws something. -/
theorem afterActs_flatMap {α : Type} {act : α → List Act} {f : Graph → α → Graph}
    (h : ∀ c x, afterActs c (act x) = { c with graph := f c.graph x }) (xs : List α) (c : Compilation) :
    afterActs c (xs.flatMap act) = { c with graph := xs.foldl f c.graph } := by
  induction xs generalizing c with
  | nil => rfl
  | cons x xs ih =>
    rw [List.flatMap_cons, afterActs_append, ih, h]
    rfl

theorem afterActs_introducing (c : Compilation) (group : Group) : afterActs c (introducing group) =
    { c with graph := group.members.foldl (fun g e => g.link e group.self) (c.graph.addNode group.self) } :=
  afterActs_map (f := fun g e => g.link e group.self) (fun _ _ => rfl) group.members _

theorem afterActs_refusing (u : Unclassified) (c : Compilation) : afterActs c (refusing u) = (c.refuse u).1 := by
  unfold refusing Compilation.refuse
  split <;> rfl

/-- The opening of a compilation reads its tables. -/
theorem afterActs_opening (d : Document) (o : Options) :
    reached d o (opening d o) = (({ document := d, options := o } : Compilation).prolog).1 := by
  unfold reached opening Compilation.prolog
  cases Membership.ofTable d.groups o.expansionDepth with
  | error u => exact afterActs_refusing u _
  | ok m =>
    simp only
    cases Compilation.tagNames d.tagOwners.keys with
    | error u => exact afterActs_refusing u { document := d, options := o, membership := some m }
    | ok tags =>
      show afterActs { document := d, options := o, membership := some m, declaredTags := tags } (_ ++ [_]) = _
      rw [afterActs_append, afterActs_flatMap (f := fun g group =>
        group.members.foldl (fun g e => g.link e group.self) (g.addNode group.self)) afterActs_introducing]
      rfl

theorem afterActs_complaining (index : Int) (complaints : List Complaint) (c : Compilation) :
    afterActs c (complaints.flatMap (complaining index)) = c.complain index complaints := by
  unfold Compilation.complain
  induction complaints generalizing c with
  | nil => rfl
  | cons p complaints ih =>
    rw [List.flatMap_cons, afterActs_append, ih, List.foldl_cons]
    unfold complaining
    by_cases hp : p.severity = .error
    · rw [if_pos hp, if_pos hp]
      rfl
    · rw [if_neg hp, if_neg hp]
      rfl

theorem afterActs_judging (f : Compilation → Rule → Verdict) (id : RuleId) (c : Compilation) :
    afterActs c (judging f id c) = (judge f id c).2 := by
  unfold judging judge
  cases c.rule? id with
  | none => rfl
  | some r => exact afterActs_complaining r.index (f c r).complaints _

theorem setRule_self {id : RuleId} {r : Rule} (h : c.rule? id = some r) : c.setRule id r = c := by
  obtain ⟨hid, hr⟩ := List.getElem?_eq_some_iff.mp h
  unfold Compilation.setRule
  rw [← hr, List.set_getElem_self hid]

theorem afterActs_registering {id : RuleId} {r : Rule} (h : c.rule? id = some r) :
    afterActs c (registering r) = (draw (fun g r => (registered g r, r)) id c).2 := by
  have hsource : ∀ (c : Compilation) (s : Endpoint),
      afterActs c (.node s :: r.destinations.values.map fun e => .link s e) =
        { c with graph := r.destinations.values.foldl (fun g e => g.link s e) (c.graph.addNode s) } := fun c s =>
    afterActs_map (f := fun g e => g.link s e) (fun _ _ => rfl) r.destinations.values _
  unfold draw
  rw [h]
  show afterActs c _ = { c.setRule id r with graph := registered c.graph r }
  rw [setRule_self h]
  exact afterActs_flatMap hsource r.sources.values c

/-- Storing policies one after the other and noting their keys. -/
theorem afterActs_storing {id : RuleId} {r : Rule} (es : List Edge) (h : c.rule? id = some r) :
    afterActs c (storing id c.graph es) =
      { c.setRule id (addPolicies c.graph r es).2 with graph := (addPolicies c.graph r es).1 } := by
  induction es generalizing c r with
  | nil =>
    show c = { c.setRule id r with graph := c.graph }
    rw [setRule_self h]
  | cons e es ih =>
    let r' : Rule := { r with policyKeys := r.policyKeys ++ [c.graph.policyKey e] }
    let c' : Compilation := { c.setRule id r' with graph := c.graph.addPolicy e }
    have hnote : Act.run (Act.run c (.store e)) (.note id (c.graph.policyKey e)) = c' := by
      show (match c.rule? id with
        | none => _
        | some r => _) = _
      rw [h]
      rfl
    have hrule : c'.rule? id = some r' := by
      show (c.book.set id r')[id]? = some r'
      exact List.getElem?_set_self (List.getElem?_eq_some_iff.mp h).1
    have hset : ∀ x, c'.setRule id x = { c.setRule id x with graph := c.graph.addPolicy e } := fun x => by
      show ({ c with graph := _, book := (c.book.set id r').set id x } : Compilation) = _
      rw [List.set_set]
      rfl
    have hrest := ih hrule
    show afterActs (Act.run (Act.run c (.store e)) (.note id (c.graph.policyKey e))) (storing id c'.graph es) = _
    rw [hnote, hrest, hset]
    rfl

/-- Logging adds lines to the log. -/
theorem logRules_log (ids : List RuleId) (c : Compilation) :
    ∃ lines, (c.logRules ids).2 = { c with log := c.log ++ lines } := by
  induction ids generalizing c with
  | nil => exact ⟨[], by simp [Compilation.logRules]⟩
  | cons id ids ih =>
    unfold Compilation.logRules
    cases c.rule? id with
    | none => exact ih c
    | some r =>
      simp only
      split
      · cases c.shownRule? r with
        | none => exact ⟨[], by simp⟩
        | some line =>
          obtain ⟨lines, hlines⟩ := ih (c.info line)
          refine ⟨⟨.info, line⟩ :: lines, ?_⟩
          rw [hlines]
          simp [Compilation.info]
      · exact ih c

theorem afterActs_lines (lines : List LogLine) (c : Compilation) :
    afterActs c (lines.map .line) = { c with log := c.log ++ lines } := by
  induction lines generalizing c with
  | nil => simp [afterActs]
  | cons l lines ih =>
    show afterActs { c with log := c.log ++ [l] } (lines.map .line) = _
    rw [ih]
    simp

theorem afterActs_report (stage : String) (ids : List RuleId) (c : Compilation) :
    afterActs c ((newLines c (report stage ids c).2).map .line) = (report stage ids c).2 := by
  obtain ⟨lines, hlines⟩ := logRules_log ids (c.info (Compilation.stageHeader stage))
  have hreport : (report stage ids c).2 =
      { c with log := c.log ++ (⟨.info, Compilation.stageHeader stage⟩ :: lines) } := by
    unfold report
    rw [hlines]
    simp [Compilation.info]
  rw [afterActs_lines, newLines, hreport, List.drop_left]

/-- What a filter does with a rule is its acts. -/
theorem afterActs_work {kind : StageKind} {w : Work} (h : task kind = .filter w) (id : RuleId) (c : Compilation) :
    afterActs c (workActs kind id c) = (w id c).2 := by
  cases kind <;> cases h
  case classifyEndpoints => exact afterActs_judging (fun _ => classified) id c
  case checkReferences => exact afterActs_judging (fun c => checked c.membership c.declaredTags) id c
  case convertSources => exact afterActs_judging (fun _ => originated) id c
  case expandGroups => exact afterActs_judging (fun c => expanded c.membership) id c
  case registerNodes =>
    unfold workActs
    cases hr : c.rule? id with
    | none => simp [draw, hr, afterActs]
    | some r => exact afterActs_registering hr
  case groupPolicies =>
    unfold workActs
    cases hr : c.rule? id with
    | none => simp [draw, hr, afterActs]
    | some r =>
      refine (afterActs_storing (groupEdges r) hr).trans ?_
      simp [draw, hr]
  case resourcePolicies =>
    unfold workActs
    cases hr : c.rule? id with
    | none => simp [draw, hr, afterActs]
    | some r =>
      refine (afterActs_storing (resourceEdges r) hr).trans ?_
      simp [draw, hr]
  case bareSlots => rfl
  case barePolicies => rfl

theorem turnActs_single {kind : StageKind} {w : Work} (h : task kind = .filter w) (id : RuleId) (c c' : Compilation) :
    turnActs ⟨kind, [id], c, c'⟩ = workActs kind id c := by
  cases kind <;> first | exact List.append_nil _ | cases h

/-- The acts of a turn are what its stage does. -/
theorem afterActs_turn {t : Turn StageKind RuleId Compilation} (h : t.Of behaviour) :
    afterActs t.before (turnActs t) = t.after := by
  cases h with
  | @work kind w ht id s =>
    rw [turnActs_single ht]
    exact afterActs_work ht id s
  | @report kind rep ht name q s =>
    cases kind <;> cases ht
    exact afterActs_report name q s

/-- The acts of turns that follow one another lead from the first context to the last one. -/
theorem afterActs_traced {h : List (Turn StageKind RuleId Compilation)} {c' : Compilation}
    (ht : Traced behaviour c h c') : afterActs c (h.flatMap turnActs) = c' := by
  induction ht with
  | nil => rfl
  | @snoc h t _ hof ih =>
    rw [List.flatMap_append, afterActs_append, ih, List.flatMap_singleton]
    exact afterActs_turn hof

theorem snd_closed (x : Except Failure Unit × Compilation) : (closed x).2 = x.2 := by
  obtain ⟨outcome, c⟩ := x
  cases outcome with
  | error e => rfl
  | ok u =>
    unfold closed
    simp only
    cases c.epilog <;> rfl

/-- The turns of a session lead to the end of its stages. -/
theorem stageTurns_traced (c : Compilation) :
    Traced behaviour c (stageTurns { state := c }) (({ state := c } : Session).compile).2.state := by
  have hready := ready_chainOf c.options.ruleDebug
  have hloop : (({ state := c } : Session).compile).2.state = _ := congrArg Prod.snd (compile_loop c)
  have hdrain : (drain behaviour (chainOf c.options.ruleDebug) c).2.context = _ := congrArg Prod.snd (drain_fold hready c)
  rw [stageTurns, add_ofCompilation, hloop, ← hdrain]
  exact drain_traced hready c

/-- The turns of a compilation lead from the tables to its end. -/
theorem turns_traced (d : Document) (o : Options) :
    Traced behaviour (({ document := d, options := o } : Compilation).prolog).1 (turns d o) (compile d o).2 := by
  rw [congrArg Prod.snd (compile_closed d o), snd_closed]
  unfold turns Session.prolog Session.ofDocument staging
  rcases ({ document := d, options := o } : Compilation).prolog with ⟨c, loaded⟩
  cases loaded with
  | error e => exact .nil
  | ok n =>
    simp only [next_ok]
    by_cases ha : c.journal.aborted = true
    · rw [if_pos ha, if_pos ha]
      exact .nil
    · rw [if_neg ha, if_neg ha]
      exact stageTurns_traced c

/-- Doing the acts of a compilation ends where the compilation ends. -/
theorem compile_acts (d : Document) (o : Options) : reached d o (acts d o) = (compile d o).2 := by
  have hopening := afterActs_opening d o
  unfold reached at hopening ⊢
  rw [acts, afterActs_append, hopening]
  exact afterActs_traced (turns_traced d o)

/-! ## What always holds -/

/-- Whether a property holds after every number of acts. -/
def Always (P : Compilation → Prop) (c : Compilation) (as : List Act) : Prop :=
  ∀ done, done <+: as → P (afterActs c done)

variable {P : Compilation → Prop}

theorem Always.nil (h : P c) : Always P c [] := by
  intro done hdone
  rw [List.prefix_nil.mp hdone]
  exact h

theorem Always.cons {a : Act} (h : P c) (has : Always P (a.run c) as) : Always P c (a :: as) := by
  intro done hdone
  rcases List.prefix_cons_iff.mp hdone with rfl | ⟨rest, rfl, hrest⟩
  · exact h
  · exact has rest hrest

theorem Always.tail {a : Act} (h : Always P c (a :: as)) : Always P (a.run c) as := by
  intro done hdone
  exact h (a :: done) ((List.prefix_cons_inj a).mpr hdone)

theorem Always.earlier (h : Always P c bs) (has : as <+: bs) : Always P c as :=
  fun done hdone => h done (hdone.trans has)

theorem Always.last (h : Always P c as) : P (afterActs c as) := h as List.prefix_rfl

theorem Always.append (has : Always P c as) (hbs : Always P (afterActs c as) bs) : Always P c (as ++ bs) := by
  induction as generalizing c with
  | nil => exact hbs
  | cons a as ih => exact .cons (has [] List.nil_prefix) (ih has.tail hbs)

theorem Always.drop (h : Always P c (as ++ bs)) : Always P (afterActs c as) bs := by
  induction as generalizing c with
  | nil => exact h
  | cons a as ih => exact ih h.tail

/-- What each act keeps always holds. -/
theorem Always.of_step (hstep : ∀ a ∈ as, ∀ c, P c → P (a.run c)) (h : P c) : Always P c as := by
  induction as generalizing c with
  | nil => exact .nil h
  | cons a as ih => exact .cons h (ih (fun b hb => hstep b (List.mem_cons_of_mem _ hb)) (hstep a (by simp) c h))

end Portcullis.Compiler

/-
  Portcullis.Proofs.Outcome — what a compilation gives, told by the courses of its rules.

  - `compile_total`: there is a result, unless the reading of something stops, or rules are logged
    and a token is no text.
  - `compile_fails`: there is none where the reading of a token stops.
  - `errors_of_not_tables`: a table that cannot be read is an error.
  - `compile_spec`: with tables that can be read, the problems are those of the courses of the
    rules, the graph is laid out from the rules that go on, and there is output if and only if
    no problem is an error.
-/

import Portcullis.Proofs.Schedule

namespace Portcullis.Compiler

open Pipeline

/-! ## What the rules of a document come to -/

def verdictOf (m : Membership) (declared : List String) (a : AccessRule) : Verdict :=
  course m declared (Rule.ofAccessRule a)

def finished (m : Membership) (declared : List String) (rules : List AccessRule) : List Rule :=
  (rules.filter fun a => passes (verdictOf m declared a).complaints).map fun a => (verdictOf m declared a).rule

def problems (m : Membership) (declared : List String) (rules : List AccessRule) : List Diagnostic :=
  rules.flatMap fun a => tagged a.index (verdictOf m declared a).complaints

variable {m : Membership} {declared : List String}

theorem map_snd_passed_placed (f : Rule → Verdict) (rs : List Rule) :
    (passed f (placed rs)).map Prod.snd = (rs.filter fun r => passes (f r).complaints).map fun r => (f r).rule := by
  have h : ∀ (rs : List Rule) n, (passed f ((rs.zipIdx n).map fun x => (x.2, x.1))).map Prod.snd =
      (rs.filter fun r => passes (f r).complaints).map fun r => (f r).rule := by
    intro rs
    induction rs with
    | nil => intro n; rfl
    | cons r rs ih =>
      intro n
      rw [List.zipIdx_cons, List.map_cons, passed_cons, List.map_append, ih]
      cases h : passes (f r).complaints <;> simp [h]
  exact h rs 0

theorem reported_placed (f : Rule → Verdict) (rs : List Rule) :
    reported f (placed rs) = rs.flatMap fun r => tagged r.index (f r).complaints := by
  have h : ∀ (rs : List Rule) n, reported f ((rs.zipIdx n).map fun x => (x.2, x.1)) =
      rs.flatMap fun r => tagged r.index (f r).complaints := by
    intro rs
    induction rs with
    | nil => intro n; rfl
    | cons r rs ih =>
      intro n
      rw [List.zipIdx_cons, List.map_cons, reported_cons, ih]
      rfl
  exact h rs 0

theorem finished_eq (rules : List AccessRule) :
    (passed (course m declared) (placed (rules.map Rule.ofAccessRule))).map Prod.snd = finished m declared rules := by
  rw [map_snd_passed_placed, List.filter_map, List.map_map]
  rfl

theorem problems_eq (rules : List AccessRule) :
    reported (course m declared) (placed (rules.map Rule.ofAccessRule)) = problems m declared rules := by
  rw [reported_placed, List.flatMap_map]
  rfl

/-- The rules that reach the graph are all of them if and only if no problem is an error. -/
theorem passes_iff_problems {rules : List AccessRule} :
    (∀ a ∈ rules, passes (verdictOf m declared a).complaints = true) ↔
      (problems m declared rules).filter (fun d => d.severity = .error) = [] := by
  simp only [List.filter_eq_nil_iff, problems, List.mem_flatMap, tagged, List.mem_map, passes, List.all_eq_true,
    decide_eq_true_eq]
  constructor
  · intro h d hex
    rcases hex with ⟨a, ha, p, hp, rfl⟩
    exact h a ha p hp
  · exact fun h a ha p hp => h _ ⟨a, ha, p, hp, rfl⟩

theorem finished_of_passes {rules : List AccessRule}
    (h : ∀ a ∈ rules, passes (verdictOf m declared a).complaints = true) :
    finished m declared rules = rules.map fun a => (verdictOf m declared a).rule := by
  unfold finished
  rw [List.filter_eq_self.mpr h]

theorem finished_append (m : Membership) (declared : List String) (as bs : List AccessRule) :
    finished m declared (as ++ bs) = finished m declared as ++ finished m declared bs := by
  simp [finished]

/-- A rule keeps its index on its course. -/
theorem index_verdictOf (m : Membership) (declared : List String) (a : AccessRule) :
    (verdictOf m declared a).rule.index = a.index :=
  congrArg Rule.index (frame_course m declared (Rule.ofAccessRule a))

/-! ## Before the stages -/

structure Tables (d : Document) (o : Options) (m : Membership) (declared : List String) : Prop where
  membership : Membership.ofTable d.groups o.expansionDepth = .ok m
  tags : Compilation.tagNames d.tagOwners.keys = .ok declared

def entered (d : Document) (o : Options) (m : Membership) (declared : List String) : Compilation :=
  { document := d, options := o, graph := Compilation.foldMembership {} m, membership := some m,
    declaredTags := declared, book := d.rules.map Rule.ofAccessRule, rules := List.range d.rules.length }

theorem prolog_entered {d : Document} {o : Options} (h : Tables d o m declared) :
    ({ document := d, options := o } : Compilation).prolog = (entered d o m declared, .ok d.rules.length) := by
  simp only [Compilation.prolog, h.membership, h.tags, Compilation.enter, entered]
  simp

theorem started_entered (d : Document) (o : Options) (m : Membership) (declared : List String) :
    Started m declared (placed (d.rules.map Rule.ofAccessRule)) (entered d o m declared) where
  membership := rfl
  declaredTags := rfl
  rules := by rw [map_fst_placed, List.length_map]; rfl
  known p hp := mem_placed.mp hp
  nodup := by rw [map_fst_placed]; exact List.nodup_range
  fresh p hp := by
    obtain ⟨a, -, ha⟩ := List.mem_map.mp (List.mem_of_getElem? (mem_placed.mp hp))
    rw [← ha]
    exact fresh_ofAccessRule a

def Refused (d : Document) (o : Options) (u : Unclassified) : Prop :=
  Membership.ofTable d.groups o.expansionDepth = .error u ∨
    (∃ m, Membership.ofTable d.groups o.expansionDepth = .ok m) ∧ Compilation.tagNames d.tagOwners.keys = .error u

theorem exists_refused {d : Document} {o : Options} (h : ∀ m declared, ¬ Tables d o m declared) : ∃ u, Refused d o u := by
  cases hm : Membership.ofTable d.groups o.expansionDepth with
  | error u => exact ⟨u, .inl hm⟩
  | ok m =>
    cases ht : Compilation.tagNames d.tagOwners.keys with
    | error u => exact ⟨u, .inr ⟨⟨m, hm⟩, ht⟩⟩
    | ok declared => exact absurd ⟨hm, ht⟩ (h m declared)

/-- A table that cannot be read is refused before anything is recorded or drawn. -/
theorem prolog_refused {d : Document} {o : Options} {u : Unclassified} (h : Refused d o u) :
    ∃ c : Compilation, ({ document := d, options := o } : Compilation).prolog = c.refuse u ∧ c.journal = {} ∧
      c.graph = {} := by
  unfold Compilation.prolog
  rcases h with h | ⟨⟨m, hm⟩, h⟩
  · exact ⟨{ document := d, options := o }, by simp only [h], rfl, rfl⟩
  · exact ⟨{ document := d, options := o, membership := some m }, by simp only [hm, h], rfl, rfl⟩

/-! ## Documents whose reading does not stop -/

def BriefRules (d : Document) : Prop := ∀ a ∈ d.rules, BriefRule a

instance (d : Document) : Decidable (BriefRules d) := inferInstanceAs (Decidable (∀ a ∈ d.rules, BriefRule a))

structure BriefDocument (d : Document) : Prop where
  groups : halts (Membership.ofTable d.groups none) = false
  tags : halts (Compilation.tagNames d.tagOwners.keys) = false
  rules : BriefRules d

theorem Refused.reported {d : Document} {o : Options} {u : Unclassified} (h : Refused d o u) (hb : BriefDocument d) :
    u.cause.isReported = true := by
  have hgroups : halts (Membership.ofTable d.groups o.expansionDepth) = false := by
    have hb := hb.groups
    unfold Membership.ofTable at hb ⊢
    rw [halts_map] at hb ⊢
    exact hb
  rcases h with h | ⟨-, h⟩
  · rw [h] at hgroups
    simpa [halts] using hgroups
  · have htags := hb.tags
    rw [h] at htags
    simpa [halts] using htags

theorem tractable_placed {d : Document} (hb : BriefRules d) :
    ∀ p ∈ placed (d.rules.map Rule.ofAccessRule), Tractable p.2 := by
  intro p hp
  obtain ⟨a, ha, hpa⟩ := List.mem_map.mp (List.mem_of_getElem? (mem_placed.mp hp))
  rw [← hpa]
  exact tractable_ofAccessRule (hb a ha)

theorem textual_placed {d : Document} (h : d.Textual) :
    ∀ p ∈ placed (d.rules.map Rule.ofAccessRule), p.2.written.Textual := by
  intro p hp
  obtain ⟨a, ha, hpa⟩ := List.mem_map.mp (List.mem_of_getElem? (mem_placed.mp hp))
  rw [← hpa, Rule.written_ofAccessRule]
  exact h a ha

/-! ## The stages of a session -/

theorem add_ofCompilation (c : Compilation) :
    StageKind.ofCompilation.foldl Session.add { state := c } =
      { state := c, chain := chainOf c.options.ruleDebug } := by
  cases h : c.options.ruleDebug <;> simp [StageKind.ofCompilation, Session.add, h, chainOf, stagewiseChain, rulewiseChain]

/-- The stages of a session run as a loop. -/
theorem compile_loop (c : Compilation) :
    let x := fold behaviour (chainOf c.options.ruleDebug) collect [] c
    ((({ state := c } : Session).compile).1, (({ state := c } : Session).compile).2.state) =
      (x.1.map fun _ => (), x.2) := by
  intro x
  have hx := drain_fold (ready_chainOf c.options.ruleDebug) c
  have hrun : ({ state := c, chain := chainOf c.options.ruleDebug } : Session).runStages =
      ((drain behaviour (chainOf c.options.ruleDebug) c).2.outcome,
        { state := (drain behaviour (chainOf c.options.ruleDebug) c).2.context,
          chain := (drain behaviour (chainOf c.options.ruleDebug) c).2.chain }) := by
    cases c.options.ruleDebug <;> rfl
  unfold Session.compile
  rw [add_ofCompilation, hrun]
  show _ = (Except.map _ (fold _ _ collect [] c).1, (fold _ _ collect [] c).2)
  rw [← hx]
  generalize (drain behaviour (chainOf c.options.ruleDebug) c).2 = y
  obtain ⟨o, chain, t⟩ := y
  cases o <;> rfl

/-! ## The result -/

theorem groupDeclarations_isSome (m : Membership) (nodes : List (String × Node)) :
    ∃ ds, Graph.groupDeclarations (some m) nodes = some ds := by
  induction nodes with
  | nil => exact ⟨[], rfl⟩
  | cons x nodes ih =>
    obtain ⟨key, n⟩ := x
    obtain ⟨ds, hds⟩ := ih
    unfold Graph.groupDeclarations
    rw [hds]
    split
    · unfold Graph.groupDeclaration
      cases n.endpoint.target <;> exact ⟨_, rfl⟩
    · exact ⟨_, rfl⟩

/-- A compilation of a document whose tables can be read: the rules that go on are in the
    book, the problems are those of the rules, and the graph is laid out from what goes on. -/
structure Compiled (d : Document) (o : Options) (m : Membership) (declared : List String) (c : Compilation) : Prop where
  book : ∀ {i : Nat} {a : AccessRule}, d.rules[i]? = some a → passes (verdictOf m declared a).complaints = true →
    ∃ r : Rule, c.book[i]? = some r ∧ r.bare = (verdictOf m declared a).rule.bare
  order : ∃ ms, c.journal.entries = ms.map Prod.snd ∧
    Alike ms (marked (course m declared) (placed (d.rules.map Rule.ofAccessRule)))
  faithful : c.journal.Faithful
  graph : c.graph = laidOut o.ruleDebug (Compilation.foldMembership {} m) (finished m declared d.rules)
  membership : c.membership = some m
  options : c.options = o
  length : c.book.length = d.rules.length
  brief : BriefRules d

theorem looped_compiled {d : Document} (hb : BriefRules d) (o : Options) (m : Membership) (declared : List String) :
    Leads (o.ruleDebug = true → d.Textual) (fun _ c => Compiled d o m declared c)
      (fold behaviour (chainOf o.ruleDebug) collect [] (entered d o m declared)) := by
  have h := looped_reached (T := o.ruleDebug = true → d.Textual) (started_entered d o m declared) (tractable_placed hb)
    o.ruleDebug fun hdebug ht => textual_placed (ht hdebug)
  rw [finished_eq] at h
  generalize fold behaviour (chainOf o.ruleDebug) collect [] (entered d o m declared) = x at h ⊢
  obtain ⟨outcome, c⟩ := x
  cases outcome with
  | error e => exact h
  | ok queue =>
    have h : Reached Rule.bare _ _ _ _ queue c := h
    obtain ⟨ms, hms, halike⟩ := h.journal
    refine ⟨fun {i a} ha hpass => ?_, ?_, ?_, h.graph, h.kept.membership, h.kept.options,
      h.kept.length.trans (List.length_map _), hb⟩
    · have hmem : (i, (verdictOf m declared a).rule) ∈
          passed (course m declared) (placed (d.rules.map Rule.ofAccessRule)) := by
        refine List.mem_map.mpr ⟨(i, Rule.ofAccessRule a), List.mem_filter.mpr ⟨mem_placed.mpr ?_, hpass⟩, rfl⟩
        rw [List.getElem?_map, ha]
        rfl
      exact h.exists_rule hmem
    · exact ⟨ms, by rw [hms, Journal.entries_noteAll]; rfl, halike⟩
    · rw [hms]
      exact Journal.faithful_empty.noteAll _

/-- The problems of the rules, but for the order among different rules. -/
theorem Compiled.journal {d : Document} {o : Options} {c : Compilation} (h : Compiled d o m declared c) :
    c.journal.entries.Perm (problems m declared d.rules) := by
  obtain ⟨ms, hms, halike⟩ := h.order
  rw [hms, ← problems_eq, ← map_snd_marked]
  exact halike.perm.map _

theorem Compiled.mem_entries {d : Document} {o : Options} {c : Compilation} (h : Compiled d o m declared c)
    {x : Diagnostic} : x ∈ c.journal.entries ↔
      ∃ a ∈ d.rules, ∃ p ∈ (verdictOf m declared a).complaints, ⟨p.severity, p.message, some a.index, p.token⟩ = x := by
  simp only [h.journal.mem_iff, problems, List.mem_flatMap, tagged, List.mem_map]

/-- The nodes are those of the group table and then those of the rules that go on. -/
theorem Compiled.nodes_eq {d : Document} {o : Options} {c : Compilation} (h : Compiled d o m declared c) :
    c.graph.nodes = ((finished m declared d.rules).foldl registered (Compilation.foldMembership {} m)).nodes := by
  rw [h.graph, nodes_laidOut]

def closed (x : Except Failure Unit × Compilation) : Except Failure Result × Compilation :=
  match x with
  | (.error e, c) => (.error e, c)
  | (.ok _, c) => match c.epilog with
    | .error e => (.error e, c)
    | .ok output => (.ok (({ state := c } : Session).result output), c)

def staging (c : Compilation) : Except Failure Unit × Compilation :=
  if c.journal.aborted then (.ok (), c)
  else ((({ state := c } : Session).compile).1, (({ state := c } : Session).compile).2.state)

theorem run_closed (s : Session) (hchain : s.chain = []) :
    (s.run.1, s.run.2.state) = closed (next (s.state.prolog.2, s.state.prolog.1) fun _ => staging) := by
  obtain ⟨state, chain⟩ := s
  obtain rfl : chain = [] := hchain
  unfold Session.run Session.prolog staging
  rcases state.prolog with ⟨c, loaded⟩
  cases loaded with
  | error e => rfl
  | ok n =>
    simp only [next_ok]
    by_cases ha : c.journal.aborted = true
    · rw [if_pos ha, if_pos ha]
      simp only [closed]
      cases c.epilog <;> rfl
    · rw [if_neg ha, if_neg ha]
      rcases ({ state := c } : Session).compile with ⟨outcome, c⟩
      cases outcome with
      | error e => rfl
      | ok u =>
        simp only [closed]
        cases c.state.epilog <;> rfl

/-- A compilation reads the tables, runs the stages and declares the outcome. -/
theorem compile_closed (d : Document) (o : Options) :
    compile d o =
      let x := ({ document := d, options := o } : Compilation).prolog
      closed (next (x.2, x.1) fun _ => staging) :=
  run_closed (Session.ofDocument d o) rfl

theorem compile_of_tables {d : Document} {o : Options} (h : Tables d o m declared) :
    compile d o = closed (((fold behaviour (chainOf o.ruleDebug) collect [] (entered d o m declared)).1.map fun _ => ()),
      (fold behaviour (chainOf o.ruleDebug) collect [] (entered d o m declared)).2) := by
  have hl := compile_loop (entered d o m declared)
  simp only at hl
  have hstaging : staging (entered d o m declared) = _ := hl
  rw [compile_closed, prolog_entered h]
  simp only [next_ok, hstaging]
  rfl

/-- Without logging, a compilation is one sweep over the rules. -/
theorem compile_swept {d : Document} {o : Options} (h : Tables d o m declared) (hb : BriefRules d)
    (ho : o.ruleDebug = false) :
    ∃ qs, Swept Rule.bare (course m declared) (drawnThen register (drawnThen drawGroups drawResources))
      (placed (d.rules.map Rule.ofAccessRule)) (entered d o m declared) qs (compile d o).2 := by
  obtain ⟨qs, c, hrun, hs⟩ := rulewise_swept (started_entered d o m declared) (tractable_placed hb)
  refine ⟨qs, ?_⟩
  have hfold : fold behaviour (chainOf o.ruleDebug) collect [] (entered d o m declared) = (.ok (qs.map Prod.fst), c) := by
    rw [ho]
    exact hrun
  rw [compile_of_tables h, hfold]
  unfold closed
  simp only [Except.map]
  cases c.epilog <;> exact hs

/-- The book when every rule goes on: the courses of the rules, in the order of the document. -/
theorem Compiled.book_bare {d : Document} {o : Options} {c : Compilation} (hc : Compiled d o m declared c)
    (h : ∀ a ∈ d.rules, passes (verdictOf m declared a).complaints = true) :
    c.book.map Rule.bare = d.rules.map fun a => (verdictOf m declared a).rule.bare := by
  refine List.ext_getElem? ?_
  intro i
  rw [List.getElem?_map, List.getElem?_map]
  cases ha : d.rules[i]? with
  | none =>
    have hi : c.book[i]? = none := by
      rw [List.getElem?_eq_none_iff] at ha ⊢
      rw [hc.length]
      exact ha
    rw [hi]
    rfl
  | some a =>
    obtain ⟨r, hr, hb⟩ := hc.book ha (h a (List.mem_of_getElem? ha))
    rw [hr]
    exact congrArg some hb

/-- An error has the index of each rule that is stopped, and of no other. -/
theorem Compiled.error_of_index {d : Document} {o : Options} {c : Compilation} (hc : Compiled d o m declared c)
    (i : Int) :
    (∃ e ∈ c.journal.errors, e.ruleIndex = some i) ↔
      ∃ a ∈ d.rules, a.index = i ∧ ¬ passes (verdictOf m declared a).complaints = true := by
  constructor
  · intro h
    rcases h with ⟨e, he, hi⟩
    obtain ⟨he, hsev⟩ := List.mem_filter.mp he
    obtain ⟨a, ha, p, hp, rfl⟩ := hc.mem_entries.mp he
    refine ⟨a, ha, Option.some.inj hi, fun hpass => ?_⟩
    have hno := List.all_eq_true.mp hpass p hp
    exact of_decide_eq_true hno (of_decide_eq_true hsev)
  · intro h
    rcases h with ⟨a, ha, rfl, hstopped⟩
    have hsome : ∃ p ∈ (verdictOf m declared a).complaints, p.severity = .error := by
      simpa [passes, List.all_eq_true] using hstopped
    obtain ⟨p, hp, hsev⟩ := hsome
    exact ⟨_, List.mem_filter.mpr ⟨hc.mem_entries.mpr ⟨a, ha, p, hp, rfl⟩, by simpa using hsev⟩, rfl⟩

/-- A graph can be declared once the group table is read. -/
theorem emit?_some (g : Graph) (m : Membership) (o : Options) :
    ∃ out, g.emit? (some m) o = some out ∧
      out.policies = g.sortedPolicies.map fun e => Graph.policyDeclaration o e.2 := by
  obtain ⟨groups, hgroups⟩ := groupDeclarations_isSome m g.sortedNodes
  unfold Graph.emit?
  rw [hgroups]
  exact ⟨_, rfl, rfl⟩

/-- The end of a run without failure. -/
theorem epilog_eq {d : Document} {o : Options} {c : Compilation} (h : Compiled d o m declared c) :
    c.epilog = .ok (if c.journal.errors = [] then c.graph.emit? (some m) o else none) := by
  unfold Compilation.epilog
  by_cases he : c.journal.errors = []
  · have ha : c.journal.aborted = false := by simpa [he] using h.faithful.aborted
    have hs : c.journal.status ≠ .error := by simpa [he] using h.faithful.status
    obtain ⟨out, hout, -⟩ := emit?_some c.graph m o
    simp [ha, hs, he, h.membership, h.options, hout]
  · have ha : c.journal.aborted = true := h.faithful.aborted.mpr he
    simp [ha, he]

/-- Where the reading of a token stops, a compilation fails; without tokens that are no texts in
    the log, it fails there. -/
theorem compile_fails {d : Document} {o : Options} (ht : Tables d o m declared) (hb : ¬ BriefRules d) :
    ∃ e, (compile d o).1 = .error e ∧ ((o.ruleDebug = true → d.Textual) → e = .notAPort) := by
  have hsome : ∃ p ∈ placed (d.rules.map Rule.ofAccessRule), ¬ Tractable p.2 := by
    obtain ⟨a, ha, hlong⟩ : ∃ a ∈ d.rules, ¬ BriefRule a := by simpa [BriefRules] using hb
    obtain ⟨i, hi⟩ := List.getElem?_of_mem ha
    refine ⟨(i, Rule.ofAccessRule a), mem_placed.mpr (by simp [hi]), fun h => hlong ⟨h.brief .source, h.brief .destination⟩⟩
  obtain ⟨e, c, hrun, he⟩ := looped_fails (T := o.ruleDebug = true → d.Textual) (started_entered d o m declared)
    o.ruleDebug (fun hdebug ht => textual_placed (ht hdebug)) hsome
  refine ⟨e, ?_, he⟩
  rw [compile_of_tables ht, hrun]
  rfl

/-- There is a result only if the reading of every token comes to an end. -/
theorem brief_of_compile {d : Document} {o : Options} {res : Result} (ht : Tables d o m declared)
    (h : (compile d o).1 = .ok res) : BriefRules d := by
  by_contra hb
  obtain ⟨e, he, -⟩ := compile_fails ht hb
  rw [he] at h
  cases h

/-- Without logging, nothing is asked of the tokens. -/
theorem textual_of_quiet {d : Document} {o : Options} (ho : o.ruleDebug = false) (h : o.ruleDebug = true) : d.Textual := by
  rw [ho] at h
  cases h

/-- With tables that are read, and tokens that are texts where rules are logged, there is a result if
    and only if the reading of no token stops. -/
theorem compile_ok_iff {d : Document} {o : Options} (ht : Tables d o m declared)
    (h : o.ruleDebug = true → d.Textual) : (∃ res, (compile d o).1 = .ok res) ↔ BriefRules d := by
  constructor
  · intro hex
    rcases hex with ⟨res, hres⟩
    exact brief_of_compile ht hres
  · intro hb
    have hl := looped_compiled hb o m declared
    rw [compile_of_tables ht]
    generalize fold behaviour (chainOf o.ruleDebug) collect [] (entered d o m declared) = x at hl ⊢
    obtain ⟨outcome, c⟩ := x
    cases outcome with
    | error e => exact absurd h hl
    | ok queue =>
      have hc : Compiled d o m declared c := hl
      simp only [Except.map, closed, epilog_eq hc]
      exact ⟨_, rfl⟩

/-- What a document with readable tables compiles to. -/
theorem compile_spec {d : Document} {o : Options} {res : Result} (ht : Tables d o m declared)
    (h : (compile d o).1 = .ok res) :
    Compiled d o m declared (compile d o).2 ∧
      res = ({ state := (compile d o).2 } : Session).result
        (if (compile d o).2.journal.errors = [] then (compile d o).2.graph.emit? (some m) o else none) := by
  have hl := looped_compiled (brief_of_compile ht h) o m declared
  rw [compile_of_tables ht] at h ⊢
  generalize fold behaviour (chainOf o.ruleDebug) collect [] (entered d o m declared) = x at hl h ⊢
  obtain ⟨outcome, c⟩ := x
  cases outcome with
  | error e => cases h
  | ok queue =>
    have hc : Compiled d o m declared c := hl
    simp only [Except.map, closed, epilog_eq hc] at h ⊢
    cases h
    exact ⟨hc, rfl⟩

theorem errors_eq {d : Document} {o : Options} {res : Result} (ht : Tables d o m declared)
    (h : (compile d o).1 = .ok res) : res.errors = (compile d o).2.journal.errors := by
  rw [(compile_spec ht h).2]
  rfl

theorem warnings_eq {d : Document} {o : Options} {res : Result} (ht : Tables d o m declared)
    (h : (compile d o).1 = .ok res) : res.warnings = (compile d o).2.journal.warnings := by
  rw [(compile_spec ht h).2]
  rfl

/-- No error is recorded if and only if every rule reaches the graph. -/
theorem errors_eq_nil_iff {d : Document} {o : Options} {res : Result} (ht : Tables d o m declared)
    (h : (compile d o).1 = .ok res) :
    res.errors = [] ↔ ∀ a ∈ d.rules, passes (verdictOf m declared a).complaints = true := by
  have hperm := (compile_spec ht h).1.journal.filter fun d => decide (d.severity = .error)
  rw [errors_eq ht h, passes_iff_problems]
  exact ⟨fun he => List.Perm.eq_nil (he ▸ hperm.symm), fun he => List.Perm.eq_nil (he ▸ hperm)⟩

/-- The output of a compilation without errors. -/
theorem output_eq {d : Document} {o : Options} {res : Result} (ht : Tables d o m declared)
    (h : (compile d o).1 = .ok res) (he : res.errors = []) :
    res.output = (compile d o).2.graph.emit? (some m) o := by
  have hj := errors_eq ht h
  rw [(compile_spec ht h).2]
  show (if _ then _ else _) = _
  rw [if_pos (hj.symm.trans he)]

/-- There is an output if and only if there is no error. -/
theorem output_eq_none_iff {d : Document} {o : Options} {res : Result} (ht : Tables d o m declared)
    (h : (compile d o).1 = .ok res) : res.output = none ↔ res.errors ≠ [] := by
  constructor
  · intro hnone he
    obtain ⟨out, hout, -⟩ := emit?_some (compile d o).2.graph m o
    rw [output_eq ht h he, hout] at hnone
    cases hnone
  · intro he
    rw [errors_eq ht h] at he
    rw [(compile_spec ht h).2]
    exact if_neg he

def unread (u : Unclassified) : Result :=
  { status := .error, output := none, errors := [Compilation.badEntry u], warnings := [],
    sourceRuleCount := Graph.sourceRuleCount {}, destinationRuleTotal := Graph.destinationRuleTotal {} }

/-- What a document with a table that cannot be read compiles to, unless the reading stops. -/
theorem compile_refused {d : Document} {o : Options} {u : Unclassified} (h : Refused d o u) :
    (compile d o).1 = (if u.cause.isReported then .ok (unread u) else .error .notAPort) ∧
      (compile d o).2.journal.entries = if u.cause.isReported then [Compilation.badEntry u] else [] := by
  obtain ⟨c, hprolog, hjournal, hgraph⟩ := prolog_refused h
  rw [compile_closed, hprolog]
  unfold Compilation.refuse
  cases hu : u.cause.isReported with
  | false => exact ⟨rfl, congrArg Journal.entries hjournal⟩
  | true =>
    have habort : (c.abortWith (Compilation.badEntry u)).journal =
        { entries := [Compilation.badEntry u], status := .error, aborted := true } := by
      simp only [Compilation.abortWith, Compilation.record, Compilation.abort, hjournal]
      rfl
    have hdrawn : (c.abortWith (Compilation.badEntry u)).graph = {} := hgraph
    simp only [if_true, next_ok, staging, habort, closed, Compilation.epilog, Bool.true_or, Session.result, hdrawn, unread]
    exact ⟨rfl, trivial⟩

/-- There is a result, unless something makes the reading stop, or rules are logged and a token is
    no text. -/
theorem compile_total {d : Document} {o : Options} (h : o.ruleDebug = true → d.Textual) (hb : BriefDocument d) :
    ∃ res, (compile d o).1 = .ok res := by
  by_cases ht : ∃ m declared, Tables d o m declared
  · obtain ⟨m, declared, ht⟩ := ht
    exact (compile_ok_iff ht h).mpr hb.rules
  · obtain ⟨u, hu⟩ := exists_refused (d := d) (o := o) fun m declared h => ht ⟨m, declared, h⟩
    exact ⟨_, (compile_refused hu).1.trans (if_pos (hu.reported hb))⟩

/-- The result where a table cannot be read. -/
theorem eq_unread {d : Document} {o : Options} {res : Result} {u : Unclassified} (hu : Refused d o u)
    (h : (compile d o).1 = .ok res) : u.cause.isReported = true ∧ res = unread u := by
  have hres := (compile_refused hu).1.symm.trans h
  split at hres
  · rename_i hreported
    exact ⟨hreported, (Except.ok.inj hres).symm⟩
  · cases hres

/-- A table that cannot be read is an error. -/
theorem errors_of_not_tables {d : Document} {o : Options} {res : Result}
    (ht : ∀ m declared, ¬ Tables d o m declared)
    (h : (compile d o).1 = .ok res) : res.errors ≠ [] := by
  obtain ⟨u, hu⟩ := exists_refused ht
  rw [(eq_unread hu h).2]
  exact List.cons_ne_nil _ _

/-- The tables can be read when a compilation records no error. -/
theorem exists_tables {d : Document} {o : Options} {res : Result} (h : (compile d o).1 = .ok res)
    (he : res.errors = []) :
    ∃ m declared, Tables d o m declared := by
  by_cases ht : ∃ m declared, Tables d o m declared
  · exact ht
  · exact absurd he (errors_of_not_tables (fun m declared hm => ht ⟨m, declared, hm⟩) h)

/-! ## Documents without groups -/

def noGroups : Membership := ⟨∅, some 1⟩

/-- A document without groups whose rules all go on compiles without errors. -/
theorem compile_noGroups {rules : List AccessRule} (hb : ∀ a ∈ rules, BriefRule a)
    (hp : ∀ a ∈ rules, passes (verdictOf noGroups [] a).complaints = true) :
    ∃ res, (compile { rules }).1 = .ok res ∧ res.errors = [] := by
  have ht : Tables { rules } {} noGroups [] := ⟨rfl, rfl⟩
  obtain ⟨res, h⟩ := compile_total (d := { rules }) (o := {}) (fun hdebug => by cases hdebug) ⟨rfl, rfl, hb⟩
  exact ⟨res, h, (errors_eq_nil_iff ht h).mpr hp⟩

/-- A document of one rule that goes on compiles without errors. -/
theorem compile_single {a : AccessRule} (hb : BriefRule a) (hp : passes (verdictOf noGroups [] a).complaints = true) :
    ∃ res r, (compile { rules := [a] }).1 = .ok res ∧ res.errors = [] ∧ (compile { rules := [a] }).2.book = [r] ∧
      r.bare = (verdictOf noGroups [] a).rule.bare := by
  have ht : Tables { rules := [a] } {} noGroups [] := ⟨rfl, rfl⟩
  have hpass : ∀ b ∈ [a], passes (verdictOf noGroups [] b).complaints = true := fun b hb => List.mem_singleton.mp hb ▸ hp
  obtain ⟨res, h, he⟩ := compile_noGroups (fun b hmem => List.mem_singleton.mp hmem ▸ hb) hpass
  obtain ⟨r, hr, hbare⟩ := List.map_eq_singleton_iff.mp ((compile_spec ht h).1.book_bare hpass)
  exact ⟨res, r, h, he, hr, hbare⟩

end Portcullis.Compiler

/-
  Portcullis.Proofs.Debugging — logging the rules changes nothing but the log.

  Without logging, a rule goes through all stages before the next one comes. With logging, an
  observer behind each stage pulls all rules before it hands one on, so that each stage is done
  with all rules before the next stage starts.
  - `compile_logged`: that comes to an end and gives the same status, output and counts; the
    errors and the warnings are the same, and those of each rule come in the same order. Where
    the reading stops at a number of too many digits, it stops either way.

  Rules are judged without looking at one another. Nodes are registered in the order of the
  rules either way, and of the policies only those of one key meet, which come in that order
  as well (`get?_scheduled`).
-/

import Portcullis.Proofs.Composition
import Portcullis.Proofs.Loops

namespace Portcullis.Compiler

open Pipeline

/-! ## The stages of a document come to an end -/

def staged (d : Document) (o : Options) : Session :=
  StageKind.ofCompilation.foldl Session.add (Session.ofDocument d o).prolog.1

def Terminates (d : Document) (o : Options) : Prop :=
  PullsAll behaviour [] (staged d o).chain (staged d o).state (drain behaviour (staged d o).chain (staged d o).state)

theorem terminates (d : Document) (o : Options) : Terminates d o := by
  have hstaged : staged d o = _ := add_ofCompilation (({ document := d, options := o } : Compilation).prolog).1
  unfold Terminates
  rw [hstaged]
  exact pullsAll_drain (ready_chainOf _) _

/-! ## Diagnostics in another order -/

/-- Whether lists of diagnostics differ in nothing but how the rules take turns: those of the
    rule at each place are the same in the same order. -/
structure Rearranged (own : Nat → List Diagnostic) (ds ds' : List Diagnostic) : Prop where
  perm : ds'.Perm ds
  order : ∃ ms ms' : List (Option Nat × Diagnostic), ms.map Prod.snd = ds ∧ ms'.map Prod.snd = ds' ∧ ms'.Perm ms ∧
    ∀ i, under (some i) ms = own i ∧ under (some i) ms' = own i

def ownDiagnostics (d : Document) (o : Options) (i : Nat) : List Diagnostic :=
  match d.rules[i]? with
  | none => []
  | some a => (compile { d with rules := [a] } o).2.journal.ofRule a.index

structure Unaltered (own : Nat → List Diagnostic) (res res' : Result) : Prop where
  status : res'.status = res.status
  output : res'.output = res.output
  sourceRuleCount : res'.sourceRuleCount = res.sourceRuleCount
  destinationRuleTotal : res'.destinationRuleTotal = res.destinationRuleTotal
  errors : Rearranged (fun i => (own i).filter fun d => d.severity = .error) res.errors res'.errors
  warnings : Rearranged (fun i => (own i).filter fun d => d.severity = .warning) res.warnings res'.warnings

variable {m : Membership} {declared : List String} {d : Document} {o o' : Options} {c c' : Compilation}

/-- Records that are alike rule by rule, also when only some of the diagnostics are kept. -/
theorem rearranged_of_alike {own : Nat → List Diagnostic} {ms ms' : List (Nat × Diagnostic)}
    (h : ∀ i, under i ms = own i) (h' : ∀ i, under i ms' = own i) (p : Diagnostic → Bool) :
    Rearranged (fun i => (own i).filter p) ((ms.map Prod.snd).filter p) ((ms'.map Prod.snd).filter p) := by
  have halike : Alike ms' ms := fun i => (h' i).trans (h i).symm
  have hperm := (halike.filter p).perm
  have hsnd : ∀ ms : List (Nat × Diagnostic),
      ((ms.filter fun x => p x.2).map fun x => ((some x.1, x.2) : Option Nat × Diagnostic)).map Prod.snd =
        (ms.map Prod.snd).filter p := by
    intro ms
    rw [List.map_map, List.filter_map]
    rfl
  refine ⟨?_, _, _, hsnd ms, hsnd ms', hperm.map _, fun i => ⟨?_, ?_⟩⟩
  · rw [← hsnd, ← hsnd]
    exact (hperm.map _).map _
  · rw [under_map_some, under_filter, h]
  · rw [under_map_some, under_filter, h']

/-- The complaints about the rule at a place are what is reported when it is compiled alone. -/
theorem under_marked_course (ht : Tables d o m declared) (hb : BriefRules d) (ho : o.ruleDebug = false) (i : Nat) :
    under i (marked (course m declared) (placed (d.rules.map Rule.ofAccessRule))) = ownDiagnostics d o i := by
  have hnodup : ((placed (d.rules.map Rule.ofAccessRule)).map Prod.fst).Nodup := by
    rw [map_fst_placed]
    exact List.nodup_range
  unfold ownDiagnostics
  cases ha : d.rules[i]? with
  | none =>
    refine under_marked_of_not_mem _ fun hi => ?_
    rw [map_fst_placed, List.length_map, List.mem_range] at hi
    rw [List.getElem?_eq_none_iff] at ha
    omega
  | some a =>
    have hmem : (i, Rule.ofAccessRule a) ∈ placed (d.rules.map Rule.ofAccessRule) :=
      mem_placed.mpr (by rw [List.getElem?_map, ha]; rfl)
    have hall : ∀ e ∈ tagged a.index (verdictOf m declared a).complaints, e.ruleIndex = some a.index := by
      intro e he
      obtain ⟨p, -, rfl⟩ := List.mem_map.mp he
      rfl
    refine (under_marked _ hnodup hmem).trans ?_
    show tagged a.index (verdictOf m declared a).complaints =
      (compile { d with rules := [a] } o).2.journal.entries.filter _
    rw [entries_alone ht ho (hb a (List.mem_of_getElem? ha)), List.filter_eq_self.mpr]
    intro e he
    exact decide_eq_true (hall e he)

/-! ## Two runs of a document -/

/-- Two compilations whose options differ in nothing that is declared. -/
theorem unaltered_of_compiled {own : Nat → List Diagnostic}
    (hown : ∀ i, under i (marked (course m declared) (placed (d.rules.map Rule.ofAccessRule))) = own i)
    (hc : Compiled d o m declared c) (hc' : Compiled d o' m declared c')
    (ho : Graph.policyDeclaration o = Graph.policyDeclaration o') :
    Unaltered own
      (({ state := c } : Session).result (if c.journal.errors = [] then c.graph.emit? (some m) o else none))
      (({ state := c' } : Session).result (if c'.journal.errors = [] then c'.graph.emit? (some m) o' else none)) := by
  obtain ⟨ms, hms, halike⟩ := hc.order
  obtain ⟨ms', hms', halike'⟩ := hc'.order
  have hdiagnostics : ∀ p : Diagnostic → Bool,
      Rearranged (fun i => (own i).filter p) (c.journal.entries.filter p) (c'.journal.entries.filter p) := by
    intro p
    rw [hms, hms']
    exact rearranged_of_alike (fun i => (halike i).trans (hown i)) (fun i => (halike' i).trans (hown i)) p
  have hperm : c'.journal.entries.Perm c.journal.entries := hc'.journal.trans hc.journal.symm
  have hnodes : c'.graph.nodes = c.graph.nodes := by
    rw [hc'.nodes_eq, hc.nodes_eq]
  have hpolicies : ∀ k, c'.graph.policies.get? k = c.graph.policies.get? k := fun k =>
    (hc'.get?_policies k).trans (hc.get?_policies k).symm
  have herrors : c'.journal.errors = [] ↔ c.journal.errors = [] := by
    have herror := (hdiagnostics fun d => d.severity = .error).perm
    exact ⟨fun he => List.Perm.eq_nil (he ▸ herror.symm), fun he => List.Perm.eq_nil (he ▸ herror)⟩
  refine ⟨hc'.faithful.status_congr hc.faithful hperm, ?_, ?_, ?_, hdiagnostics _, hdiagnostics _⟩
  · show (if _ then _ else _ : Option Output) = if _ then _ else _
    simp only [herrors, Graph.emit?_of_lookups hnodes hpolicies ho.symm m]
  · show c'.graph.sourceRuleCount = c.graph.sourceRuleCount
    unfold Graph.sourceRuleCount Graph.roots
    rw [hnodes]
  · show c'.graph.destinationRuleTotal = c.graph.destinationRuleTotal
    unfold Graph.destinationRuleTotal
    rw [hnodes]

/-- A document with a table that cannot be read has one error either way, and it is of no rule. -/
theorem unaltered_unread (ht : ∀ m declared, ¬ Tables d o m declared) (u : Unclassified) :
    Unaltered (ownDiagnostics d o) (unread u) (unread u) := by
  have hnone : ∀ i, ownDiagnostics d o i = [] := by
    intro i
    unfold ownDiagnostics
    cases ha : d.rules[i]? with
    | none => rfl
    | some a =>
      obtain ⟨v, hv⟩ := exists_refused (d := { d with rules := [a] }) (o := o) fun m declared h =>
        ht m declared ⟨h.membership, h.tags⟩
      simp only
      rw [Journal.ofRule, (compile_refused hv).2]
      cases v.cause.isReported <;> rfl
  refine ⟨rfl, rfl, rfl, rfl, ⟨.refl _, [(none, Compilation.badEntry u)], _, rfl, rfl, .refl _, fun i => ?_⟩,
    ⟨.refl _, [], _, rfl, rfl, .refl _, fun i => ?_⟩⟩
  · rw [hnone]
    exact ⟨rfl, rfl⟩
  · rw [hnone]
    exact ⟨rfl, rfl⟩

/-- Logging the rules of a document whose tokens are texts, all rules or one, changes nothing
    but the order among the diagnostics of different rules. If the reading of something stops, for
    a number of too many digits, then it does either way. -/
theorem compile_logged (hd : d.Textual) (o : Options) (rule : Int) :
    Terminates d { o with ruleDebug := true, debugRule := rule } ∧
      ((∃ res res', (compile d { o with ruleDebug := false }).1 = .ok res ∧
          (compile d { o with ruleDebug := true, debugRule := rule }).1 = .ok res' ∧
          Unaltered (ownDiagnostics d { o with ruleDebug := false }) res res') ∨
        ¬ d.Short ∧ (compile d { o with ruleDebug := false }).1 = .error .notAPort ∧
          (compile d { o with ruleDebug := true, debugRule := rule }).1 = .error .notAPort) := by
  refine ⟨terminates d _, ?_⟩
  by_cases htables : ∃ m declared, Tables d { o with ruleDebug := false } m declared
  · obtain ⟨m, declared, ht⟩ := htables
    have ht' : Tables d { o with ruleDebug := true, debugRule := rule } m declared := ⟨ht.membership, ht.tags⟩
    by_cases hb : BriefRules d
    · obtain ⟨res, h⟩ := (compile_ok_iff ht fun _ => hd).mpr hb
      obtain ⟨res', h'⟩ := (compile_ok_iff ht' fun _ => hd).mpr hb
      obtain ⟨hc, hres⟩ := compile_spec ht h
      obtain ⟨hc', hres'⟩ := compile_spec ht' h'
      refine .inl ⟨res, res', h, h', ?_⟩
      rw [hres, hres']
      exact unaltered_of_compiled (under_marked_course ht hb rfl) hc hc' rfl
    · obtain ⟨e, he, hfailure⟩ := compile_fails ht hb
      obtain ⟨e', he', hfailure'⟩ := compile_fails ht' hb
      refine .inr ⟨fun hshort => hb hshort.brief.rules, ?_, ?_⟩
      · rw [he, hfailure fun _ => hd]
      · rw [he', hfailure' fun _ => hd]
  · have hno : ∀ m declared, ¬ Tables d { o with ruleDebug := false } m declared := fun m declared ht =>
      htables ⟨m, declared, ht⟩
    obtain ⟨u, hu⟩ := exists_refused hno
    have hu' : Refused d { o with ruleDebug := true, debugRule := rule } u := hu
    rw [(compile_refused hu).1, (compile_refused hu').1]
    by_cases hreported : u.cause.isReported = true
    · simp only [hreported, if_true]
      exact .inl ⟨unread u, unread u, rfl, rfl, unaltered_unread hno u⟩
    · simp only [hreported]
      exact .inr ⟨fun hshort => hreported (hu.reported hshort.brief), rfl, rfl⟩

def astray : AccessRule := { index := 0, action := .accept, sources := [.text "group:x"], destinations := [.text "tag:y"] }

def faulty : AccessRule := { astray with index := 1, sources := [.text "tag:"] }

theorem logged_astray : ∃ res res', (compile { rules := [astray, faulty] }).1 = .ok res ∧
    (compile { rules := [astray, faulty] } { ruleDebug := true }).1 = .ok res' ∧
    Unaltered (ownDiagnostics { rules := [astray, faulty] } {}) res res' := by
  have hd : Document.Textual { rules := [astray, faulty] } := by
    intro a ha
    have hcases : a = astray ∨ a = faulty := by simpa using ha
    rcases hcases with rfl | rfl
    · exact ⟨fun t ht => ⟨_, List.mem_singleton.mp ht⟩, fun t ht => ⟨_, List.mem_singleton.mp ht⟩⟩
    · exact ⟨fun t ht => ⟨_, List.mem_singleton.mp ht⟩, fun t ht => ⟨_, List.mem_singleton.mp ht⟩⟩
  have ht : Tables { rules := [astray, faulty] } {} noGroups [] := ⟨rfl, rfl⟩
  rcases (compile_logged hd {} (-1)).2 with hresults | ⟨-, hfails, -⟩
  · exact hresults
  · obtain ⟨res, h⟩ := (compile_ok_iff (o := {}) ht nofun).mpr (by decide +kernel)
    have hok : (compile { rules := [astray, faulty] }).1 = .ok res := h
    rw [show (compile { rules := [astray, faulty] }).1 = .error .notAPort from hfails] at hok
    cases hok

/-- With logging, tokens are read in all rules before references are looked up in any. -/
example : (compile { rules := [
    { index := 0, action := .accept, sources := [.text "group:x"], destinations := [.text "tag:y"] },
    { index := 1, action := .accept, sources := [.text "tag:"], destinations := [.text "tag:y"] }] }
    { ruleDebug := true }).1.map (fun res => res.errors.map Diagnostic.ruleIndex) = .ok [some 1, some 0] := rfl

end Portcullis.Compiler

/-
  Portcullis.Proofs.FailClosed — a document with a problem gives no output, and nothing fails.

  The status of a journal is told by what was recorded: it is an error if an error was, a
  warning if only warnings were, a success if nothing was (`Status.Tells`). Recording keeps this
  and nothing else touches the journal, so it is so in every state of a compilation.
  - `tells_of_acts`: after any acts at all, in any order, the status tells what was recorded.
  - `result_of_compile`: a result has the journal and the graph of the last state.
  - `fails_closed`: every document has a result whose tokens are texts and in which no number has
    too many digits to be read. Its output is missing if and only if there is an error, and asking
    for the output then gives the errors in the order in which they were recorded.
-/

import Portcullis.Proofs.Acts
import Portcullis.Proofs.Brevity

namespace Portcullis

structure Status.Tells (s : Status) (errors warnings : List Diagnostic) : Prop where
  error : s = .error ↔ errors ≠ []
  warning : s = .warning ↔ errors = [] ∧ warnings ≠ []
  success : s = .success ↔ errors = [] ∧ warnings = []

namespace Journal

def Tells (j : Journal) : Prop := j.status.Tells j.errors j.warnings

theorem tells_empty : Tells {} := by
  constructor <;> decide

theorem tells_of_eq {j : Journal} {errors warnings : List Diagnostic} (hs : j.errors = errors)
    (hw : j.warnings = warnings) (h : j.status.Tells errors warnings) : j.Tells := by
  unfold Tells
  rw [hs, hw]
  exact h

/-- One more problem: an error decides the status, a warning only if there was none before. -/
theorem Tells.record {j : Journal} (h : j.Tells) (d : Diagnostic) : (j.record d).Tells := by
  cases hd : d.severity with
  | error =>
    have herrors : (j.record d).errors = j.errors ++ [d] := by simp [Journal.record, errors, hd]
    have hwarnings : (j.record d).warnings = j.warnings := by simp [Journal.record, warnings, hd]
    refine tells_of_eq herrors hwarnings ?_
    show (j.status.after d.severity).Tells _ _
    rw [hd]
    constructor <;> simp [Status.after]
  | warning =>
    have herrors : (j.record d).errors = j.errors := by simp [Journal.record, errors, hd]
    have hwarnings : (j.record d).warnings = j.warnings ++ [d] := by simp [Journal.record, warnings, hd]
    refine tells_of_eq herrors hwarnings ?_
    show (j.status.after d.severity).Tells _ _
    obtain ⟨herror, hwarning, hsuccess⟩ := h
    rw [hd]
    unfold Status.after
    cases hs : j.status with
    | success =>
      have hnone := (hsuccess.mp hs).1
      constructor <;> simp [hnone]
    | warning =>
      have hnone := (hwarning.mp hs).1
      constructor <;> simp [hnone]
    | error =>
      have hsome := herror.mp hs
      constructor <;> simp [hsome]

/-- The status tells what was recorded, whatever was recorded in whatever order. -/
theorem tells_of_records (ds : List Diagnostic) : (ds.foldl Journal.record {}).Tells := by
  suffices h : ∀ j : Journal, j.Tells → (ds.foldl Journal.record j).Tells from h {} tells_empty
  induction ds with
  | nil => exact fun j hj => hj
  | cons d ds ih => exact fun j hj => ih (j.record d) (hj.record d)

end Journal

namespace Compiler

open Journal

variable {d : Document} {o : Options}

/-! ## Every state of a compilation -/

/-- An act leaves the journal alone or records a problem or marks the compilation as aborted. -/
theorem tells_run {c : Compilation} (h : c.journal.Tells) (a : Act) : (a.run c).journal.Tells := by
  cases a with
  | record d => exact h.record d
  | note id key =>
    simp only [Act.run]
    split <;> exact h
  | readTable | readTags | load | node | link | write | abort | store | line => exact h

/-- After any acts at all the status tells what was recorded. -/
theorem tells_of_acts (d : Document) (o : Options) (as : List Act) : (reached d o as).journal.Tells :=
  (Always.of_step (P := fun c => c.journal.Tells) (fun a _ _ hc => tells_run hc a) tells_empty).last

/-! ## The result -/

theorem result_of_closed {x : Except Failure Unit × Compilation} {res : Result} (h : (closed x).1 = .ok res) :
    ∃ output, (closed x).2.epilog = .ok output ∧ res = ({ state := (closed x).2 } : Session).result output := by
  rw [snd_closed]
  obtain ⟨outcome, c⟩ := x
  cases outcome with
  | error e => cases h
  | ok u =>
    unfold closed at h
    cases he : c.epilog with
    | error e => simp only [he] at h; cases h
    | ok output =>
      simp only [he] at h
      exact ⟨output, rfl, (Except.ok.inj h).symm⟩

/-- A result is made from the last state of a compilation. -/
theorem result_of_compile {res : Result} (h : (compile d o).1 = .ok res) :
    ∃ output, (compile d o).2.epilog = .ok output ∧ res = ({ state := (compile d o).2 } : Session).result output := by
  rw [compile_closed] at h ⊢
  exact result_of_closed h

/-- There is an output if and only if there is no error, also where a table cannot be read. -/
theorem no_output_iff {res : Result} (h : (compile d o).1 = .ok res) : res.output = none ↔ res.errors ≠ [] := by
  by_cases ht : ∃ m declared, Tables d o m declared
  · obtain ⟨m, declared, ht⟩ := ht
    exact output_eq_none_iff ht h
  · obtain ⟨u, hu⟩ := exists_refused fun m declared hm => ht ⟨m, declared, hm⟩
    obtain ⟨-, rfl⟩ := eq_unread hu h
    exact iff_of_true rfl (List.cons_ne_nil _ _)

structure Result.Sealed (r : Result) (j : Journal) : Prop where
  errors : r.errors = j.errors
  warnings : r.warnings = j.warnings
  status : r.status.Tells r.errors r.warnings
  withheld : r.output = none ↔ r.errors ≠ []
  refused : r.errors ≠ [] → r.outputOrErrors = .error r.errors
  granted : r.errors = [] → ∃ out, r.output = some out ∧ r.outputOrErrors = .ok out

/-- Every result is sealed. -/
theorem sealed_of_compile {res : Result} (h : (compile d o).1 = .ok res) :
    res.Sealed (compile d o).2.journal := by
  obtain ⟨output, -, hres⟩ := result_of_compile h
  have hoff := no_output_iff h
  have hstatus : res.status.Tells res.errors res.warnings := by
    rw [hres]
    show (compile d o).2.journal.Tells
    rw [← compile_acts]
    exact tells_of_acts d o _
  refine ⟨by rw [hres]; rfl, by rw [hres]; rfl, hstatus, hoff, fun he => ?_, fun he => ?_⟩
  · unfold Result.outputOrErrors
    rw [hoff.mpr he]
  · cases hout : res.output with
    | none => exact absurd he (hoff.mp hout)
    | some out =>
      refine ⟨out, rfl, ?_⟩
      unfold Result.outputOrErrors
      rw [hout]

/-- A document without numbers of too many digits, whose tokens are texts, has a result, which fails
    closed. In every state on the way there the status tells what was recorded, as it does after
    any records whatsoever. -/
theorem fails_closed (h : o.ruleDebug = true → d.Textual) (hshort : d.Short) :
    (∃ res, (compile d o).1 = .ok res ∧ res.Sealed (compile d o).2.journal) ∧
      Always (fun c => c.journal.Tells) { document := d, options := o } (acts d o) ∧
      reached d o (acts d o) = (compile d o).2 ∧
      ∀ ds : List Diagnostic, (ds.foldl Journal.record {}).Tells := by
  obtain ⟨res, hres⟩ := compile_total h hshort.brief
  exact ⟨⟨res, hres, sealed_of_compile hres⟩, fun done _ => tells_of_acts d o done, compile_acts d o, tells_of_records⟩

def sourceless : AccessRule := { index := 4, action := .drop, sources := [], destinations := [.text "10.0.0.1"] }

theorem fails_closed_sourceless :
    Always (fun c => c.journal.Tells) { document := { rules := [sourceless] }, options := { ruleDebug := true } }
        (acts { rules := [sourceless] } { ruleDebug := true }) ∧
      ∃ res, (compile { rules := [sourceless] } { ruleDebug := true }).1 = .ok res ∧ res.output = none ∧
        res.outputOrErrors = .error [⟨.error, "Rule has no sources", some 4, none⟩] := by
  have htextual : Document.Textual { rules := [sourceless] } := by
    intro a ha
    rw [List.mem_singleton.mp ha]
    exact ⟨fun t ht => (List.not_mem_nil ht).elim, fun t ht => ⟨_, List.mem_singleton.mp ht⟩⟩
  have hshort : Document.Short { rules := [sourceless] } := by
    refine ⟨fun v hv => (List.not_mem_nil hv).elim, fun name hname => (List.not_mem_nil hname).elim, fun a ha t ht => ?_⟩
    rw [List.mem_singleton.mp ha] at ht
    rw [List.mem_singleton.mp ht]
    exact .of_length (by decide)
  obtain ⟨⟨res, hres, hsealed⟩, halways, -⟩ :=
    fails_closed (d := { rules := [sourceless] }) (o := { ruleDebug := true }) (fun _ => htextual) hshort
  have herrors : res.errors = [⟨.error, "Rule has no sources", some 4, none⟩] := by
    have hmap : (compile { rules := [sourceless] } { ruleDebug := true }).1.map Result.errors =
        .ok [⟨.error, "Rule has no sources", some 4, none⟩] := by rfl
    rw [hres] at hmap
    exact Except.ok.inj hmap
  have hsome : res.errors ≠ [] := by
    rw [herrors]
    exact List.cons_ne_nil _ _
  exact ⟨halways, res, hres, hsealed.withheld.mpr hsome, herrors ▸ hsealed.refused hsome⟩

end Compiler

end Portcullis

/-
  Portcullis.Compiler.Stages — the stages of the compiler: what each one does with one rule
  and with the state of the compilation.
-/

import Portcullis.Compiler.Compilation
import Portcullis.Compiler.Policies
import Portcullis.Pipeline

namespace Portcullis.Compiler

open Pipeline

inductive StageKind where
  | begin
  | classifyEndpoints
  | checkReferences
  | convertSources
  | expandGroups
  | registerNodes
  | groupPolicies
  | resourcePolicies
  | debug
  /-- Hands out a given list of rules. -/
  | feeder (rules : List RuleId)
  /-- Stages without work: a plain one, one for slots and one for policies. -/
  | bare
  | bareSlots
  | barePolicies
  deriving DecidableEq, Repr

namespace StageKind

def name : StageKind → String
  | .begin => "Begin"
  | .classifyEndpoints => "Classify endpoints"
  | .checkReferences => "Check group references"
  | .convertSources => "Convert network sources to groups"
  | .expandGroups => "Expand groups"
  | .registerNodes => "Register nodes"
  | .groupPolicies => "Group to group policies"
  | .resourcePolicies => "Group to resource policies"
  | .debug => "Debug"
  | .feeder _ => "Feeder"
  | .bareSlots => "Slots"
  | .bare | .barePolicies => ""

/-- The stages of a compilation, in order. -/
def ofCompilation : List StageKind :=
  [.begin, .classifyEndpoints, .checkReferences, .convertSources, .expandGroups, .registerNodes,
   .groupPolicies, .resourcePolicies]

end StageKind

/-- What one stage does with one rule. -/
abbrev Work := RuleId → Compilation → Except Failure Bool × Compilation

/-- Judges a rule, writes it back and records the complaints. -/
def judge (f : Compilation → Rule → Verdict) : Work := fun id c =>
  match c.rule? id with
  | none => (.ok true, c)
  | some r =>
    let v := f c r
    (v.outcome, (c.setRule id v.rule).complain r.index v.complaints)

/-- Changes the graph and the rule; the rule always goes on. -/
def draw (f : Graph → Rule → Graph × Rule) : Work := fun id c =>
  match c.rule? id with
  | none => (.ok true, c)
  | some r =>
    let (g, r) := f c.graph r
    (.ok true, { c.setRule id r with graph := g })

/-- Logs the rules that leave a stage. -/
def report (stage : String) (ids : List RuleId) (c : Compilation) : Except Failure Unit × Compilation :=
  (c.info (Compilation.stageHeader stage)).logRules ids

def task : StageKind → Task RuleId Compilation Failure
  | .begin => .source Compilation.rules
  | .classifyEndpoints => .filter (judge fun _ => classified)
  | .checkReferences => .filter (judge fun c => checked c.membership c.declaredTags)
  | .convertSources => .filter (judge fun _ => originated)
  | .expandGroups => .filter (judge fun c => expanded c.membership)
  | .registerNodes => .filter (draw fun g r => (registered g r, r))
  | .groupPolicies => .filter (draw fun g r => addPolicies g r (groupEdges r))
  | .resourcePolicies => .filter (draw fun g r => addPolicies g r (resourceEdges r))
  | .debug => .observer report
  | .feeder ids => .source fun _ => ids
  | .bare => .broken .notImplemented
  | .bareSlots | .barePolicies => .filter fun _ c => (.error .notImplemented, c)

def behaviour : Behaviour StageKind RuleId Compilation Failure :=
  { task, name := StageKind.name, noPredecessor := .noPredecessor }

end Portcullis.Compiler

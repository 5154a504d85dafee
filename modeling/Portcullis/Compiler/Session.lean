/-
  Portcullis.Compiler.Session — a compilation with the chain of its stages, and its result.

  `compile` reads the group table, sends every rule through the stages and declares what the
  rule graph holds. A document is never half compiled: with an error there is no output.
-/

import Portcullis.Compiler.Stages

namespace Portcullis.Compiler

open Pipeline

/-- A chain of stages, the last one first. -/
abbrev Chain := List (Stage StageKind RuleId)

/-- A compilation together with the chain of its stages. -/
structure Session where
  state : Compilation
  chain : Chain := []

namespace Session

def ofDocument (document : Document) (options : Options := {}) : Session := { state := { document, options } }

/-- Adds a stage at the end of the chain, and an observer behind it if rules are logged. -/
def add (c : Session) (kind : StageKind) : Session :=
  let chain := { kind } :: c.chain
  { c with chain := if c.state.options.ruleDebug then { kind := .debug } :: chain else chain }

/-- Runs the chain until its last stage is exhausted. -/
def runStages (c : Session) : Except Failure Unit × Session :=
  match c.chain with
  | [] => (.ok (), c)
  | chain =>
    let m := (drain behaviour chain c.state).2
    (m.outcome, { state := m.context, chain := m.chain })

/-- Runs one stage on its own, fed with a list of rules: the rules that it hands on. The
    chain of the session is not touched. -/
def runStage (c : Session) (kind : StageKind) (rules : List RuleId) : Except Failure (List RuleId) × Session :=
  let (handed, m) := drain behaviour [{ kind }, { kind := .feeder rules }] c.state
  (m.outcome.map fun _ => handed, { c with state := m.context })

/-- Takes the chain apart. -/
def dropStages (c : Session) : Session := { c with chain := [] }

/-- The session after its tables are read, with the number of rules to compile. -/
def prolog (c : Session) : Session × Except Failure Nat :=
  let (state, loaded) := c.state.prolog
  ({ c with state }, loaded)

/-- Adds the stages of a compilation, runs them and takes the chain apart; the chain stays
    if a stage fails. -/
def compile (c : Session) : Except Failure Unit × Session :=
  let (outcome, c) := (StageKind.ofCompilation.foldl add c).runStages
  match outcome with
  | .error e => (.error e, c)
  | .ok _ => (.ok (), c.dropStages)

end Session

/-- The outcome of a compilation. There is no output if an error was recorded: a part of the
    policies could let traffic through that the rest was meant to stop. -/
structure Result where
  status : Status
  output : Option Output
  errors : List Diagnostic
  warnings : List Diagnostic
  sourceRuleCount : Nat
  destinationRuleTotal : Nat
  deriving DecidableEq

namespace Result

def ok (r : Result) : Bool := r.status != .error

/-- The message that stands for all errors of a compilation. -/
def failureMessage (errors : List Diagnostic) : String :=
  "Compilation failed with " ++ toString errors.length ++ " error(s):\n" ++
    "\n".intercalate (errors.map Diagnostic.text)

/-- The output, or the errors if there is none. -/
def outputOrErrors (r : Result) : Except (List Diagnostic) Output :=
  match r.output with
  | some o => .ok o
  | none => .error r.errors

end Result

namespace Session

def result (c : Session) (output : Option Output) : Result :=
  { status := c.state.journal.status, output, errors := c.state.journal.errors,
    warnings := c.state.journal.warnings, sourceRuleCount := c.state.graph.sourceRuleCount,
    destinationRuleTotal := c.state.graph.destinationRuleTotal }

/-- Reads the tables, runs the stages unless that aborted, and declares the outcome. -/
def run (c : Session) : Except Failure Result × Session :=
  let (c, loaded) := c.prolog
  match loaded with
  | .error e => (.error e, c)
  | .ok _ =>
    let (outcome, c) := if c.state.journal.aborted then (.ok (), c) else c.compile
    match outcome with
    | .error e => (.error e, c)
    | .ok _ => match c.state.epilog with
      | .error e => (.error e, c)
      | .ok output => (.ok (c.result output), c)

end Session

/-- Compiles a document. -/
def compile (document : Document) (options : Options := {}) : Except Failure Result × Compilation :=
  let (outcome, c) := (Session.ofDocument document options).run
  (outcome, c.state)

end Portcullis.Compiler

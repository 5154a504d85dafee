/-
  Portcullis.Journal — the problems found during one compilation.

  Entries are kept in the order in which they were recorded. The status is the worst severity
  so far. An aborted compilation goes on to the end, so that every problem is reported, but
  gives no result.
-/

import Portcullis.Text.Quoted

namespace Portcullis

inductive Severity where
  | error
  | warning
  deriving DecidableEq, Repr

def Severity.text : Severity → String
  | .error => "error"
  | .warning => "warning"

inductive Status where
  | success
  | warning
  | error
  deriving DecidableEq, Repr

namespace Status

def text : Status → String
  | .success => "SUCCESS"
  | .warning => "WARNING"
  | .error => "ERROR"

def code : Status → Nat
  | .success => 0
  | .warning => 1
  | .error => 2

def all : List Status := [.success, .warning, .error]

/-- The status after one more problem. -/
def after (s : Status) : Severity → Status
  | .error => .error
  | .warning => if s = .success then .warning else s

end Status

/-- One problem, with the rule and the token it belongs to, if any. -/
structure Diagnostic where
  severity : Severity
  message : String
  ruleIndex : Option Int := none
  token : Option String := none
  deriving DecidableEq, Repr

def Diagnostic.text (d : Diagnostic) : String :=
  let inToken := d.token.elim d.message fun t => d.message ++ " (in " ++ Text.quote t ++ ")"
  d.ruleIndex.elim inToken fun i => "Rule " ++ toString i ++ ": " ++ inToken

structure Journal where
  entries : List Diagnostic := []
  status : Status := .success
  aborted : Bool := false
  deriving DecidableEq, Repr

namespace Journal

def record (j : Journal) (d : Diagnostic) : Journal :=
  { j with entries := j.entries ++ [d], status := j.status.after d.severity }

def abort (j : Journal) : Journal := { j with aborted := true }

def errors (j : Journal) : List Diagnostic := j.entries.filter fun d => d.severity = .error

def warnings (j : Journal) : List Diagnostic := j.entries.filter fun d => d.severity = .warning

/-- The errors and warnings of one rule. -/
def ofRule (j : Journal) (index : Int) : List Diagnostic :=
  j.entries.filter fun d => d.ruleIndex = some index

end Journal

end Portcullis

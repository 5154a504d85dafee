/-
  Portcullis.Compiler.Failure — what can stop a run of stages. None of it is a problem of the
  document; such problems are diagnostics.
-/

namespace Portcullis.Compiler

inductive Failure where
  /-- A stage needs the group table before it was read. -/
  | noGroupTable
  /-- A stage pulls from a stage that is not there. -/
  | noPredecessor
  /-- A log line would show tokens that are not texts. -/
  | tokenNotText
  /-- A number that cannot be read: an end of a port that is none, in a restriction that was
      made by hand, or an end of too many digits. -/
  | notAPort
  /-- A stage without any work of its own. -/
  | notImplemented
  deriving DecidableEq, Repr

end Portcullis.Compiler

/-
  Portcullis.Log — the lines that reading, compiling and writing leave in the log.
-/

namespace Portcullis

inductive Level where
  | info
  | warning
  deriving DecidableEq, Repr

def Level.text : Level → String
  | .info => "INFO"
  | .warning => "WARNING"

structure LogLine where
  level : Level
  message : String
  deriving DecidableEq, Repr

end Portcullis

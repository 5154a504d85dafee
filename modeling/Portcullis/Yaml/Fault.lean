/-
  Portcullis.Yaml.Fault — why a YAML text has no value.
-/

namespace Portcullis.Yaml

inductive Fault where
  /-- The text is no document, or something in it has a type that nothing is made of. -/
  | malformed
  /-- An escape gives the number of a character that does not exist. -/
  | noSuchCharacter (code : Nat)
  /-- A number without any digit. -/
  | emptyNumber
  /-- A text that should be a number and is none. -/
  | notANumber
  /-- A number in base 60 with more places than a floating-point number can weigh. -/
  | tooManyPlaces
  /-- A text that should be a boolean and is none. -/
  | notABoolean
  /-- A text that should be a timestamp and does not look like one. -/
  | notATimestamp
  /-- A timestamp that is written well and names no point in time. -/
  | noSuchTime
  /-- A map that should be a timestamp. -/
  | timestampOfMap
  /-- A map that should be a scalar and is a default value of its own. -/
  | endless
  deriving DecidableEq, Repr

end Portcullis.Yaml

/-
  Portcullis.Yaml.Content — the values of scalars.

  A scalar has a type, from its tag or by its text alone, and its text is read as one of that
  type. Whole numbers are decimal, binary, octal or hexadecimal, or have places to the base
  60; underscores in numbers do not count.
-/

import Portcullis.Number.Decimal
import Portcullis.Text.Base64
import Portcullis.Value
import Portcullis.Yaml.Fault
import Portcullis.Yaml.Tag

namespace Portcullis.Yaml

open Portcullis.Number Portcullis.Text

namespace Content

/-! ## Booleans -/

def booleans : List (String × Bool) :=
  [("yes", true), ("no", false), ("true", true), ("false", false), ("on", true), ("off", false)]

def bool (cs : List Char) : Except Fault Bool :=
  let word := String.ofList (cs.map Char.toLower)
  ((booleans.find? fun e => e.1 = word).map Prod.snd).elim (.error .notABoolean) .ok

/-! ## Numbers -/

/-- A number without underscores behind its sign, and whether that is a minus. -/
def unsigned (cs : List Char) : Except Fault (Bool × List Char) :=
  match cs.filter (· != '_') with
  | [] => .error .emptyNumber
  | cs => .ok (takeSign cs)

def orNotANumber (x : Option α) : Except Fault α := x.elim (.error .notANumber) .ok

/-- Reads all places between colons. -/
def places (read : List Char → Option α) (cs : List Char) : Except Fault (List α) :=
  orNotANumber ((pieces ':' cs).mapM read)

/-- The number with the given places to the base 60. -/
def ofPlaces60 (ps : List Int) : Int := ps.foldl (fun n p => 60 * n + p) 0

/-- The magnitude of a whole number. -/
def magnitude (cs : List Char) : Except Fault Int :=
  match cs with
  | [] => .error .emptyNumber
  | '0' :: [] => .ok 0
  | '0' :: 'b' :: r => orNotANumber (readInt? 2 r)
  | '0' :: 'x' :: r => orNotANumber (readInt? 16 r)
  | '0' :: r => orNotANumber (readInt? 8 ('0' :: r))
  | cs =>
    if cs.contains ':' then (places (readInt? 10) cs).map ofPlaces60
    else orNotANumber (readInt? 10 cs)

def int (cs : List Char) : Except Fault Int := do
  let (negative, cs) ← unsigned cs
  let n ← magnitude cs
  return if negative then -n else n

/-- The sum of places weighed with powers of 60, from the last place on; every step is
    rounded. -/
def sum60 (weight : Nat) (sum : Binary64) : List Binary64 → Except Fault Binary64
  | [] => .ok sum
  | p :: ps =>
    let w := Binary64.ofInt weight
    if w.isInfinite then .error .tooManyPlaces else sum60 (weight * 60) (sum.add (p.mul w)) ps

def floatMagnitude (cs : List Char) : Except Fault Binary64 :=
  match String.ofList cs with
  | ".inf" => .ok (.infinite false)
  | ".nan" => .ok .nan
  | _ =>
    if cs.contains ':' then do sum60 1 .zero (← places Decimal.ofChars? cs).reverse
    else orNotANumber (Decimal.ofChars? cs)

def float (cs : List Char) : Except Fault Binary64 := do
  let (negative, cs) ← unsigned (cs.map Char.toLower)
  let x ← floatMagnitude cs
  return if negative then x.neg else x

/-! ## Dates and times -/

def orNoSuchTime (x : Option α) : Except Fault α := x.elim (.error .noSuchTime) .ok

/-- The parts of a second in millionths; further digits are cut off. -/
def micros (fraction : List Char) : Nat :=
  let digits := fraction.take 6
  digitsValue (digits ++ List.replicate (6 - digits.length) '0')

/-- An offset in minutes; without a sign it is universal time. -/
def offset : Option Char × List Char × List Char → Int
  | (none, _, _) => 0
  | (some sign, hours, minutes) => signed (sign = '-') (digitsValue hours * 60 + digitsValue minutes)

def timestamp (cs : List Char) : Except Fault Value :=
  match TimestampText.ofChars? (withoutFinalBreak cs) with
  | none => .error .notATimestamp
  | some t => do
    let date ← orNoSuchTime (Date.of? (digitsValue t.year) (digitsValue t.month) (digitsValue t.day))
    match t.time with
    | none => return .date date
    | some (hour, minute, second) =>
      let moment : Moment :=
        { date, hour := digitsValue hour, minute := digitsValue minute, second := digitsValue second,
          micro := micros t.fraction, offset := t.zone.map offset }
      orNoSuchTime (if moment.valid then some (.moment moment) else none)

/-- Bytes in base 64, written in ASCII. -/
def bytes (cs : List Char) : Except Fault (List UInt8) :=
  if cs.all fun c => c.toNat < 0x80 then (Base64.decode? cs).elim (.error .malformed) .ok else .error .malformed

/-! ## Scalars of every type -/

/-- The value of a text as a scalar of a type. Collections and types that nothing is made of
    have no scalars. -/
def scalar (tag : Tag) (cs : List Char) : Except Fault Value :=
  match tag with
  | .null => .ok .null
  | .bool => (bool cs).map .bool
  | .int => (int cs).map .int
  | .float => (float cs).map .float
  | .text => .ok (.text (String.ofList cs))
  | .timestamp => timestamp cs
  | .binary => (bytes cs).map .bytes
  | .seq | .map | .set | .omap | .pairs | .merge | .value | .unknown _ => .error .malformed

end Content

end Portcullis.Yaml

/-
  Portcullis.Number.Integer — reading whole numbers from text.

  A numeral may stand between blanks and after one sign. Its digits may be of any script,
  and single underscores may separate them. For the bases 2, 8 and 16 a letter after a
  leading zero may name the base (`0b`, `0o`, `0x`).

  A decimal of more than 4300 digits is neither read nor written, zeros in front counted. The
  other bases have no such limit.
-/

import Portcullis.Text.Blank
import Portcullis.Text.Digit
import Portcullis.Text.Hex

namespace Portcullis.Number

open Portcullis.Text

/-- The most digits that a decimal may have to be read or written. -/
def longest : Nat := 4300

/-- Whether the decimal of a number can be written. -/
def isWritable (n : Int) : Bool := (Nat.toDigits 10 n.natAbs).length ≤ longest

def signed (negative : Bool) (n : Nat) : Int := if negative then -(n : Int) else n

/-- Splits a leading sign off: whether it is a minus, and what follows. -/
def takeSign : List Char → Bool × List Char
  | '-' :: r => (true, r)
  | '+' :: r => (false, r)
  | r => (false, r)

/-- The value of a digit in a base up to 16. -/
def digitIn? (base : Nat) (c : Char) : Option Nat :=
  match digit? c, Hex.value? c with
  | some d, _ => if d < base then some d else none
  | none, some d => if d < base then some d else none
  | none, none => none

/-- Continues a numeral whose digits so far make `n`; `fresh` says that the last character
    was an underscore, after which a digit has to follow. -/
def readDigits (base : Nat) (n : Nat) (fresh : Bool) : List Char → Option Nat
  | [] => if fresh then none else some n
  | '_' :: r => if fresh then none else readDigits base n true r
  | c :: r => (digitIn? base c).bind fun d => readDigits base (base * n + d) false r

/-- The letter that names a base in front of its digits. -/
def baseLetters : Nat → List Char
  | 2 => ['b', 'B']
  | 8 => ['o', 'O']
  | 16 => ['x', 'X']
  | _ => []

/-- Drops a base mark, and one underscore after it. -/
def dropBaseMark (base : Nat) : List Char → List Char
  | '0' :: c :: r =>
    if (baseLetters base).contains c then
      match r with
      | '_' :: r' => r'
      | _ => r
    else '0' :: c :: r
  | r => r

def readNat? (base : Nat) (cs : List Char) : Option Nat :=
  match cs with
  | [] => none
  | _ => readDigits base 0 true cs

/-- Counts the digits that a text goes on with after `n` digits, single underscores between
    them. The count is taken before anything behind the digits is looked at. -/
def countDigits (n : Nat) (fresh : Bool) : List Char → Option Nat
  | [] => if fresh then none else some n
  | '_' :: r => if fresh then none else countDigits n true r
  | c :: r => if isDigit c then countDigits (n + 1) false r else if fresh then none else some n

/-- The number of digits of a decimal that has too many. -/
def excess? (cs : List Char) : Option Nat :=
  (countDigits 0 true (takeSign (trimBy isMargin cs)).2).filter (longest < ·)

/-- Reads a whole number in the given base. -/
def readInt? (base : Nat) (cs : List Char) : Option Int :=
  if base = 10 && (excess? cs).isSome then none
  else
    let (negative, body) := takeSign (trimBy isMargin cs)
    (readNat? base (dropBaseMark base body)).map (signed negative)

/-- The characters that bytes stand for; beyond ASCII they stand for none that a number has. -/
def charsOfBytes (bs : List UInt8) : List Char :=
  bs.map fun b => if b < 0x80 then Char.ofNat b.toNat else '\uFFFD'

example : readInt? 10 " -1_000 ".toList = some (-1000) ∧ readInt? 10 "1__0".toList = none ∧ readInt? 10 [] = none := by
  decide +kernel

end Portcullis.Number

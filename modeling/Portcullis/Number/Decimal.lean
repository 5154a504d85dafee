/-
  Portcullis.Number.Decimal — reading a floating-point number from text.

  The text is a decimal with an optional sign, point and exponent, or one of the words
  `inf`, `infinity` and `nan` in any case. Digits may be of any script, underscores may
  separate them, and blanks may stand around the whole. The result is the nearest number.
-/

import Portcullis.Number.Binary64
import Portcullis.Number.Integer

namespace Portcullis.Number.Decimal

open Portcullis.Text

/-- Removes underscores; each has to stand between two digits. -/
def dropSeparators (cs : List Char) : Option (List Char) :=
  let rec go : Bool → List Char → Option (List Char)
    | _, [] => some []
    | before, '_' :: c :: r => if before && isDigit c then go false (c :: r) else none
    | _, '_' :: [] => none
    | _, c :: r => (go (isDigit c) r).map (c :: ·)
  go false cs

/-- The optional exponent at the end of a decimal. -/
def readExponent? : List Char → Option Int
  | [] => some 0
  | c :: r =>
    if c = 'e' || c = 'E' then
      let (negative, ds) := takeSign r
      if ds ≠ [] && ds.all isDigit then some (signed negative (digitsValue ds)) else none
    else none

/-- A decimal without sign. An exponent far outside the range of floating point is cut off
    where it no longer matters. -/
def readUnsigned? (negative : Bool) (cs : List Char) : Option Binary64 :=
  let whole := cs.takeWhile isDigit
  let afterWhole := cs.dropWhile isDigit
  let (fraction, tail) := match afterWhole with
    | '.' :: r => (r.takeWhile isDigit, r.dropWhile isDigit)
    | r => ([], r)
  if whole ++ fraction = [] then none
  else
    (readExponent? tail).map fun exponent =>
      let digits := digitsValue (whole ++ fraction)
      let limit : Int := 2000 + (whole ++ fraction).length
      let power := max (-limit) (min limit exponent) - fraction.length
      Binary64.ofDecimal negative digits power

def ofChars? (cs : List Char) : Option Binary64 :=
  let (negative, body) := takeSign (trimBy isMargin cs)
  match String.ofList (body.map Char.toLower) with
  | "inf" => some (.infinite negative)
  | "infinity" => some (.infinite negative)
  | "nan" => some .nan
  | _ => (dropSeparators body).bind (readUnsigned? negative)

def ofText? (s : String) : Option Binary64 := ofChars? s.toList

end Portcullis.Number.Decimal

/-
  Portcullis.Number.Shortest — the shortest decimal that reads back as a given number.

  For one digit, two digits and so on up to seventeen, the two neighbours of the number on
  that decimal grid are tried; the first grid with a hit wins, and of two hits the nearer one,
  an exact tie going to the even digit. The text is positional for decimal exponents from -4
  to 15 and keeps a trailing `.0`; otherwise it has an exponent of at least two digits.
-/

import Portcullis.Number.Binary64

namespace Portcullis.Number.Shortest

/-- The decimal exponent of `num / den`: the power of ten that is at most the number and more
    than a tenth of it. Counts up or down from an estimate by the binary size. -/
def decimalExponent (num den : Nat) : Int :=
  let estimate : Int := (((Nat.log2 num : Int) - Nat.log2 den) * 30103) / 100000
  let atLeast (k : Int) : Bool :=
    if 0 ≤ k then den * Nat.pow 10 k.toNat ≤ num else den ≤ num * Nat.pow 10 (-k).toNat
  let tries := [estimate + 2, estimate + 1, estimate, estimate - 1, estimate - 2]
  (tries.find? atLeast).getD (estimate - 3)

/-- A whole number of units of `10 ^ power`. -/
structure Candidate where
  digits : Nat
  power : Int
  deriving DecidableEq, Repr

/-- The decimal with `count` digits that reads back as the number `num / den = x`, if one
    of the two neighbours on that grid does. -/
def onGrid (x : Binary64) (num den : Nat) (count : Nat) : Option Candidate :=
  let power : Int := decimalExponent num den - count + 1
  let (n, d) := if 0 ≤ power then (num, den * Nat.pow 10 power.toNat) else (num * Nat.pow 10 (-power).toNat, den)
  let low := n / d
  let rest := n % d
  let hits (k : Nat) : Bool := Binary64.ofDecimal false k power = x
  let upper := low + 1
  let preferLow : Bool := 2 * rest < d || (2 * rest = d && low % 2 = 0)
  match hits low, hits upper with
  | true, true => some ⟨if preferLow then low else upper, power⟩
  | true, false => some ⟨low, power⟩
  | false, true => some ⟨upper, power⟩
  | false, false => none

/-- Drops the zeros at the end of the digits. -/
def dropZeros (fuel : Nat) (c : Candidate) : Candidate :=
  match fuel with
  | 0 => c
  | f + 1 => if c.digits % 10 = 0 && c.digits != 0 then dropZeros f ⟨c.digits / 10, c.power + 1⟩ else c

/-- The shortest decimal for a positive magnitude. -/
def shortest (m : Nat) (e : Int) : Candidate :=
  let (num, den) := Binary64.ratio m e
  let x := Binary64.finite false m e
  let grids := (List.range 17).map (· + 1)
  dropZeros 20 ((grids.findSome? (onGrid x num den)).getD ⟨m, e⟩)

/-- Where positional notation begins and ends. -/
def positionalFrom : Int := -4

def positionalBelow : Int := 16

/-- The text of the digits `ds`, whose first stands for units of `10 ^ top`. -/
def layout (ds : List Char) (top : Int) : List Char :=
  if positionalFrom ≤ top && top < positionalBelow then
    if top < 0 then '0' :: '.' :: List.replicate (-top - 1).toNat '0' ++ ds
    else
      let whole := top.toNat + 1
      let head := ds.take whole ++ List.replicate (whole - ds.length) '0'
      let tail := ds.drop whole
      head ++ '.' :: (if tail = [] then ['0'] else tail)
  else
    let mantissa := ds.take 1 ++ (if ds.length = 1 then [] else '.' :: ds.drop 1)
    let exponent := (toString top.natAbs).toList
    let padded := if exponent.length = 1 then '0' :: exponent else exponent
    mantissa ++ ['e', if top < 0 then '-' else '+'] ++ padded

/-- The text of a floating-point number. -/
def text : Binary64 → String
  | .nan => "nan"
  | .infinite false => "inf"
  | .infinite true => "-inf"
  | .finite s m e =>
    let body : List Char :=
      if m = 0 then ['0', '.', '0']
      else
        let c := shortest m e
        let ds := (toString c.digits).toList
        layout ds (c.power + ds.length - 1)
    String.ofList (if s then '-' :: body else body)

end Portcullis.Number.Shortest

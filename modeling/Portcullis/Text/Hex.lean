/-
  Portcullis.Text.Hex — hexadecimal digits: numbers of a fixed width in either case, and
  reading a digit back.
-/

namespace Portcullis.Text.Hex

def lowerDigit (n : Nat) : Char := "0123456789abcdef".toList.getD n '0'

def upperDigit (n : Nat) : Char := "0123456789ABCDEF".toList.getD n '0'

/-- The last `width` digits of `n` in base 16, written with the given digits. -/
def fixed (digit : Nat → Char) : (width : Nat) → (n : Nat) → List Char
  | 0, _ => []
  | w + 1, n => fixed digit w (n / 16) ++ [digit (n % 16)]

def lower (width n : Nat) : List Char := fixed lowerDigit width n

def upper (width n : Nat) : List Char := fixed upperDigit width n

def value? (c : Char) : Option Nat :=
  if '0' ≤ c && c ≤ '9' then some (c.toNat - '0'.toNat)
  else if 'a' ≤ c && c ≤ 'f' then some (c.toNat - 'a'.toNat + 10)
  else if 'A' ≤ c && c ≤ 'F' then some (c.toNat - 'A'.toNat + 10)
  else none

def isDigit (c : Char) : Bool := (value? c).isSome

/-- The number written by a run of hexadecimal digits. -/
def value (cs : List Char) : Nat := cs.foldl (fun n c => 16 * n + (value? c).getD 0) 0

theorem length_fixed (digit : Nat → Char) (w n : Nat) : (fixed digit w n).length = w := by
  induction w generalizing n with
  | zero => rfl
  | succ w ih => simp [fixed, ih]

end Portcullis.Text.Hex

/-
  Portcullis.Text.Base64 — reading bytes that are written in base 64.

  Characters outside the alphabet do not count. Four letters make three bytes; a last group
  may be shorter and is filled up with equals signs, behind which nothing is read.
-/

namespace Portcullis.Text.Base64

def alphabet : List Char :=
  "ABCDEFGHIJKLMNOPQRSTUVWXYZabcdefghijklmnopqrstuvwxyz0123456789+/".toList

/-- The six bits of a letter. -/
def sextet? (c : Char) : Option Nat := alphabet.findIdx? (· = c)

/-- Reads on behind `filled` letters of a group; `carry` holds the bits of the last of them
    that are not in a byte yet, and `pads` counts the equals signs since then. -/
def readFrom (filled carry pads : Nat) : List Char → Option (List UInt8)
  | [] => if filled = 0 then some [] else none
  | c :: r =>
    if c = '=' then
      if 2 ≤ filled then
        if 4 ≤ filled + (pads + 1) then some [] else readFrom filled carry (pads + 1) r
      else readFrom filled carry pads r
    else match sextet? c with
      | none => readFrom filled carry pads r
      | some d => match filled with
        | 0 => readFrom 1 d 0 r
        | 1 => (readFrom 2 (d % 16) 0 r).map (UInt8.ofNat (carry * 4 + d / 16) :: ·)
        | 2 => (readFrom 3 (d % 4) 0 r).map (UInt8.ofNat (carry * 16 + d / 4) :: ·)
        | _ => (readFrom 0 0 0 r).map (UInt8.ofNat (carry * 64 + d) :: ·)

def decode? (cs : List Char) : Option (List UInt8) := readFrom 0 0 0 cs

example : decode? "aGk=".toList = some [0x68, 0x69] := by decide +kernel

end Portcullis.Text.Base64

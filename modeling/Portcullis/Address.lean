/-
  Portcullis.Address — blocks of IPv4 addresses.

  A block is written as an address of four decimal octets, a slash and a mask. The mask is a
  number of bits up to 32, or an address whose bits are ones then zeros (a netmask) or zeros
  then ones (a hostmask). Bits of the address outside the mask are allowed.
-/

import Portcullis.Number.Integer
import Portcullis.Text.Quoted
import Portcullis.Text.Split

namespace Portcullis

open Portcullis.Text Portcullis.Number

namespace Address

/-- What is wrong with one octet. -/
inductive OctetFault where
  | empty
  | notDecimal (octet : String)
  | tooLong (octet : String)
  | leadingZero (octet : String)
  | tooLarge (value : Nat)
  deriving DecidableEq, Repr

/-- What is wrong with a block. -/
inductive Fault where
  | severalSlashes (block : String)
  | empty
  | octetCount (address : String)
  | octet (fault : OctetFault) (address : String)
  | mask (mask : String)
  deriving DecidableEq, Repr

def OctetFault.message : OctetFault → String
  | .empty => "Empty octet not permitted"
  | .notDecimal p => "Only decimal digits permitted in " ++ quote p
  | .tooLong p => "At most 3 characters permitted in " ++ quote p
  | .leadingZero p => "Leading zeros are not permitted in " ++ quote p
  | .tooLarge n => "Octet " ++ toString n ++ " (> 255) not permitted"

def Fault.message : Fault → String
  | .severalSlashes b => "Only one '/' permitted in " ++ quote b
  | .empty => "Address cannot be empty"
  | .octetCount a => "Expected 4 octets in " ++ quote a
  | .octet f a => f.message ++ " in " ++ quote a
  | .mask m => quote m ++ " is not a valid netmask"

/-- One of the four numbers of an address. -/
def octet (cs : List Char) : Except OctetFault Nat :=
  let shown := String.ofList cs
  if cs = [] then .error .empty
  else if !cs.all isAsciiDigit then .error (.notDecimal shown)
  else if 3 < cs.length then .error (.tooLong shown)
  else if cs ≠ ['0'] && cs.head? = some '0' then .error (.leadingZero shown)
  else if 255 < digitsValue cs then .error (.tooLarge (digitsValue cs))
  else .ok (digitsValue cs)

/-- The octets of an address as one number of 32 bits, or the first fault. -/
def octets (n : Nat) : List (List Char) → Except OctetFault Nat
  | [] => .ok n
  | cs :: r => match octet cs with
    | .error e => .error e
    | .ok d => octets (256 * n + d) r

def number (cs : List Char) : Except Fault Nat :=
  let shown := String.ofList cs
  if cs = [] then .error .empty
  else
    let parts := pieces '.' cs
    if parts.length ≠ 4 then .error (.octetCount shown)
    else (octets 0 parts).mapError fun e => .octet e shown

/-- The number of 32 bits that starts with `length` ones and goes on with zeros. -/
def netmask (length : Nat) : Nat := Nat.pow 2 32 - Nat.pow 2 (32 - length)

/-- The lengths a mask can have. -/
def lengths : List Nat := List.range 33

/-- The length of a netmask or, failing that, of a hostmask. -/
def maskLength? (n : Nat) : Option Nat :=
  (lengths.find? fun l => netmask l = n).or (lengths.find? fun l => netmask l = Nat.pow 2 32 - 1 - n)

/-- Digits are the number of bits, unless there are too many to be read. -/
def mask (cs : List Char) : Except Fault Nat :=
  let bad : Except Fault Nat := .error (.mask (String.ofList cs))
  if cs ≠ [] && cs.all isAsciiDigit && cs.length ≤ longest && digitsValue cs ≤ 32 then .ok (digitsValue cs)
  else match number cs with
    | .error _ => bad
    | .ok n => (maskLength? n).elim bad .ok

end Address

/-- A block: an address of 32 bits and the number of leading bits it fixes. -/
structure Block where
  address : Nat
  length : Nat
  deriving DecidableEq, Repr

namespace Block

/-- The number of addresses in the block. -/
def size (b : Block) : Nat := Nat.pow 2 (32 - b.length)

/-- Reads a block. -/
def parse (cs : List Char) : Except Address.Fault Block :=
  match pieces '/' cs with
  | [a, m] => match Address.number a with
    | .error e => .error e
    | .ok n => (Address.mask m).map (Block.mk n)
  | [a] => (Address.number a).map (Block.mk · 32)
  | _ => .error (.severalSlashes (String.ofList cs))

end Block

end Portcullis

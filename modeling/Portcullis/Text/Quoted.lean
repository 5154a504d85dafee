/-
  Portcullis.Text.Quoted — the quoted form in which messages show a text or a run of bytes.

  A text stands in single quotes, or in double quotes when it holds a single quote and no
  double quote. A backslash and the chosen quote are escaped with a backslash; a character
  that is not printable is written as a named escape or by its code point in hexadecimal.
-/

import Portcullis.Text.Hex
import Portcullis.Text.Printable

namespace Portcullis.Text

/-- The quote that needs the fewest escapes, the single one if both do. -/
def quoteMark (hasSingle hasDouble : Bool) : Char :=
  if hasSingle && !hasDouble then '"' else '\''

/-- The shortest hexadecimal escape of a code point. -/
def hexEscape (n : Nat) : List Char :=
  if n < 0x100 then '\\' :: 'x' :: Hex.lower 2 n
  else if n < 0x10000 then '\\' :: 'u' :: Hex.lower 4 n
  else '\\' :: 'U' :: Hex.lower 8 n

def quoteChar (mark c : Char) : List Char :=
  if c = mark || c = '\\' then ['\\', c]
  else if c = '\n' then ['\\', 'n']
  else if c = '\r' then ['\\', 'r']
  else if c = '\t' then ['\\', 't']
  else if isPrintable c then [c]
  else hexEscape c.toNat

def quoteChars (cs : List Char) : List Char :=
  let mark := quoteMark (cs.contains '\'') (cs.contains '"')
  mark :: cs.flatMap (quoteChar mark) ++ [mark]

/-- The quoted form of a text. -/
def quote (s : String) : String := String.ofList (quoteChars s.toList)

/-- The quoted form of a run of bytes: the same rules, with every byte above the tilde
    escaped, after the letter `b`. -/
def quoteBytes (bs : List UInt8) : String :=
  let cs := bs.map fun b => Char.ofNat b.toNat
  let mark := quoteMark (cs.contains '\'') (cs.contains '"')
  let shown := cs.flatMap fun c => if c.toNat < 0x7F then quoteChar mark c else hexEscape c.toNat
  String.ofList ('b' :: mark :: shown ++ [mark])

end Portcullis.Text

/-
  Portcullis.Yaml.Token.Property — anchors, aliases, tags and directives.

  A tag is given in full between angle brackets or by a handle: `!`, `!!` or a word between
  exclamation marks. Percent signs in it escape the bytes of UTF-8.
-/

import Portcullis.Text.Digit
import Portcullis.Text.Hex
import Portcullis.Yaml.Token
import Portcullis.Yaml.Token.Gap

namespace Portcullis.Yaml

open Portcullis.Text

/-- A word of at least one character. -/
def readWord (cs : List Char) : Except Fault (String × List Char) :=
  match cs.takeWhile isWord with
  | [] => .error .malformed
  | word => .ok (String.ofList word, cs.dropWhile isWord)

/-- Fails unless a character of a class or the end comes next. -/
def expectNext (p : Char → Bool) (cs : List Char) : Except Fault Unit :=
  if p (cs.headD endMark) then .ok () else .error .malformed

/-! ## Anchors and aliases -/

/-- Whether a character may follow the name of an anchor. -/
def endsName (c : Char) : Bool :=
  isBlankOrEnd c || ['?', ':', ',', ']', '}', '%', '@', Char.ofNat 0x60].contains c

/-- The name of an anchor or alias, behind its sign. -/
def readName (cs : List Char) : Except Fault (String × List Char) := do
  let (name, r) ← readWord cs
  expectNext endsName r
  return (name, r)

/-! ## Tags -/

/-- The characters that a tag may hold beside letters and digits. -/
def uriMarks : List Char :=
  ['-', ';', '/', '?', ':', '@', '&', '=', '+', '$', ',', '_', '.', '!', '~', '*', '\'', '(', ')', '[', ']']

def isUriCharacter (c : Char) : Bool := isWord c || uriMarks.contains c

/-- The bytes of a tag; what is escaped has two hexadecimal digits. -/
def uriBytes : List Char → Except Fault (List UInt8 × List Char)
  | [] => .ok ([], [])
  | '%' :: a :: b :: r =>
    match Hex.value? a, Hex.value? b with
    | some m, some n => (uriBytes r).map fun (bs, rest) => (UInt8.ofNat (16 * m + n) :: bs, rest)
    | _, _ => .error .malformed
  | c :: r =>
    if c = '%' then .error .malformed
    else if isUriCharacter c then (uriBytes r).map fun (bs, rest) => (UInt8.ofNat c.toNat :: bs, rest)
    else .ok ([], c :: r)

/-- A tag or a part of one, not empty. -/
def readUri (cs : List Char) : Except Fault (String × List Char) := do
  let (bytes, r) ← uriBytes cs
  match bytes, String.fromUTF8? bytes.toByteArray with
  | _ :: _, some s => return (s, r)
  | _, _ => .error .malformed

/-- A tag handle: an exclamation mark that a blank follows, or a word, which may be empty,
    between two of them. -/
def readHandle : List Char → Except Fault (String × List Char)
  | '!' :: ' ' :: r => .ok ("!", ' ' :: r)
  | '!' :: r => match r.dropWhile isWord with
    | '!' :: rest => .ok (String.ofList ('!' :: r.takeWhile isWord ++ ['!']), rest)
    | _ => .error .malformed
  | _ => .error .malformed

/-- A tag behind its exclamation mark. -/
def readTagText : List Char → Except Fault (TagText × List Char)
  | [] => .ok (.whole "!", [])
  | '<' :: r => do
    let (uri, r) ← readUri r
    match r with
    | '>' :: r => return (.whole uri, r)
    | _ => .error .malformed
  | c :: r => do
    if isBlankOrEnd c then return (.whole "!", c :: r)
    -- A second exclamation mark before the next gap ends a handle.
    let (handle, r) ← if ((c :: r).takeWhile (!isGap ·)).contains '!' then readHandle ('!' :: c :: r) else .ok ("!", c :: r)
    let (rest, r) ← readUri r
    return (.short handle rest, r)

def readTag (cs : List Char) : Except Fault (TagText × List Char) := do
  let (t, r) ← readTagText cs
  expectNext isGap r
  return (t, r)

/-! ## Directives -/

def skipSpaces (cs : List Char) : List Char := cs.dropWhile (· = ' ')

/-- A number of decimal digits. -/
def readNumber (cs : List Char) : Except Fault (Nat × List Char) :=
  match cs.takeWhile isAsciiDigit with
  | [] => .error .malformed
  | digits => .ok (digitsValue digits, cs.dropWhile isAsciiDigit)

def readVersion (cs : List Char) : Except Fault (Directive × List Char) := do
  let (major, r) ← readNumber (skipSpaces cs)
  match r with
  | '.' :: r =>
    let (_, r) ← readNumber r
    expectNext isGap r
    return (.version major, r)
  | _ => .error .malformed

def readHandleDirective (cs : List Char) : Except Fault (Directive × List Char) := do
  let (name, r) ← readHandle (skipSpaces cs)
  expectNext (· = ' ') r
  let (uri, r) ← readUri (skipSpaces r)
  expectNext isGap r
  return (.handle name uri, r)

/-- The rest of a line that may hold blanks and a comment, with its break. -/
def skipLine (cs : List Char) : Except Fault (List Char) :=
  let r := skipSpaces cs
  let r := if r.head? = some '#' then r.dropWhile (!isBreak ·) else r
  match r with
  | [] => .ok []
  | c :: r => if isBreak c then .ok r else .error .malformed

/-- A directive behind its percent sign, with its line. -/
def readDirective (cs : List Char) : Except Fault (Directive × List Char) := do
  let (name, r) ← readWord cs
  expectNext isGap r
  let (d, r) ← match name with
    | "YAML" => readVersion r
    | "TAG" => readHandleDirective r
    | _ => .ok (.other, r.dropWhile (!isBreak ·))
  return (d, ← skipLine r)

end Portcullis.Yaml

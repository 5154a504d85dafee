/-
  Portcullis.Yaml.Token.Quoted — scalars in quotes.

  In single quotes a doubled quote stands for one. In double quotes a backslash begins an
  escape; before a line break it takes the break away, together with the blanks that follow.
  Elsewhere white space is folded. A marker between documents may not start a line.
-/

import Portcullis.Text.Hex
import Portcullis.Yaml.Fault
import Portcullis.Yaml.Token.Gap

namespace Portcullis.Yaml

open Portcullis.Text

inductive QuoteKind where
  | single
  | double
  deriving DecidableEq, Repr

def QuoteKind.char : QuoteKind → Char
  | .single => '\''
  | .double => '"'

/-- What single letters stand for behind a backslash. -/
def unescapes : List (Char × Char) :=
  [('0', Char.ofNat 0), ('a', Char.ofNat 7), ('b', Char.ofNat 8), ('t', '\t'), ('\t', '\t'), ('n', '\n'),
   ('v', Char.ofNat 11), ('f', Char.ofNat 12), ('r', '\r'), ('e', Char.ofNat 27), (' ', ' '), ('"', '"'),
   ('\\', '\\'), ('/', '/'), ('N', nextLine), ('_', Char.ofNat 0xA0), ('L', lineSeparator),
   ('P', paragraphSeparator)]

/-- How many hexadecimal digits follow a letter that gives a character by its number. -/
def codeWidth? : Char → Option Nat
  | 'x' => some 2
  | 'u' => some 4
  | 'U' => some 8
  | _ => none

/-- Where the reading of a quoted scalar stands. -/
inductive QuoteState where
  /-- Behind white space, which may be none. -/
  | text (gap : Gap)
  /-- Behind a single quote, which closes the scalar unless another one follows. -/
  | quote (gap : Gap)
  /-- Behind a backslash. -/
  | escape
  /-- Inside the number of a character: the digits to come and the value so far. -/
  | code (digits value : Nat)
  /-- Behind a break that was escaped. -/
  | continued
  deriving DecidableEq, Repr

/-- The largest number of a character. -/
def lastCharacter : Nat := 0x10FFFF

/-- The text of a scalar and what follows its closing quote. -/
abbrev Quoted := Except Fault (List Char × List Char)

/-- Puts characters in front of what is read next. -/
def Quoted.after (cs : List Char) (q : Quoted) : Quoted := q.map fun (text, rest) => (cs ++ text, rest)

/-- Reads from the inside of a quoted scalar up to its closing quote. -/
def readQuoted (q : QuoteKind) : QuoteState → List Char → Quoted
  | .quote gap, [] => .ok (gap.folded, [])
  | _, [] => .error .malformed
  | .text gap, c :: r =>
    if isSpaceOrTab c then readQuoted q (.text (gap.blank c)) r
    else if isBreak c then if isMarker r then .error .malformed else readQuoted q (.text (gap.newLine c)) r
    else if c = q.char then
      if q = .single then readQuoted q (.quote gap) r else .ok (gap.folded, r)
    else if c = '\\' && q = .double then Quoted.after gap.folded (readQuoted q .escape r)
    else Quoted.after (gap.folded ++ [c]) (readQuoted q (.text .empty) r)
  | .quote gap, c :: r =>
    if c = '\'' then Quoted.after (gap.folded ++ [c]) (readQuoted q (.text .empty) r) else .ok (gap.folded, c :: r)
  | .escape, c :: r =>
    match (unescapes.find? fun e => e.1 = c), codeWidth? c with
    | some e, _ => Quoted.after [e.2] (readQuoted q (.text .empty) r)
    | none, some width => readQuoted q (.code width 0) r
    | none, none =>
      if isBreak c && !isMarker r then readQuoted q .continued r else .error .malformed
  | .code digits n, c :: r =>
    match Hex.value? c with
    | none => .error .malformed
    | some d =>
      let n := 16 * n + d
      if 1 < digits then readQuoted q (.code (digits - 1) n) r
      else if lastCharacter < n then .error (.noSuchCharacter n)
      else Quoted.after [Char.ofNat n] (readQuoted q (.text .empty) r)
  | .continued, c :: r =>
    if isSpaceOrTab c then readQuoted q .continued r
    else if isBreak c then
      if isMarker r then .error .malformed else Quoted.after [readBreak c] (readQuoted q .continued r)
    else if c = q.char then .ok ([], r)
    else if c = '\\' then readQuoted q .escape r
    else Quoted.after [c] (readQuoted q (.text .empty) r)

end Portcullis.Yaml

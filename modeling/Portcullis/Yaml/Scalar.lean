/-
  Portcullis.Yaml.Scalar — writing one text as a YAML scalar.

  A text is written plain, in single quotes or in double quotes. `Shape` holds what decides
  which of them are possible. In single quotes a quote is doubled, and a line break is a
  break with an empty line; in double quotes everything special is escaped. A text that runs
  past the line width is folded at a space, unless it is a key on one line.
-/

import Portcullis.Text.Hex
import Portcullis.Yaml.Character

namespace Portcullis.Yaml

inductive Style where
  | plain
  | single
  | double
  deriving DecidableEq, Repr

/-- Lines are folded beyond this column. -/
def lineWidth : Nat := 4096

/-! ## What a text allows -/

/-- The characters that begin something else than a plain scalar. -/
def leadingIndicators : List Char :=
  ['#', ',', '[', ']', '{', '}', '&', '*', '!', '|', '>', '\'', '"', '%', '@', Char.ofNat 0x60]

/-- Neither printable in a stream as it is nor a line feed. The last code point and the byte
    order mark count as special although a stream may hold them. -/
def isSpecial (c : Char) : Bool :=
  let n := c.toNat
  !(c = '\n' || (0x20 ≤ n && n ≤ 0x7E)) &&
    !((n = 0x85 || (0xA0 ≤ n && n ≤ 0xD7FF) || (0xE000 ≤ n && n ≤ 0xFFFD) || (0x10000 ≤ n && n < 0x10FFFF)) &&
      c ≠ byteOrderMark)

/-- Whether a text begins like a marker between documents. -/
def beginsLikeMarker (cs : List Char) : Bool :=
  ['-', '-', '-'].isPrefixOf cs || ['.', '.', '.'].isPrefixOf cs

/-- Whether a first character, before the rest of the text, would not begin a plain scalar. -/
def isFirstIndicator (c : Char) (r : List Char) : Bool :=
  leadingIndicators.contains c || ((c = '?' || c = ':' || c = '-') && isBlankOrEnd (r.headD endMark))

/-- Whether a colon before a blank or a hash behind one follows the character `before`. -/
def hasInnerIndicator (before : Char) : List Char → Bool
  | [] => false
  | c :: r =>
    (c = ':' && isBlankOrEnd (r.headD endMark)) || (c = '#' && isBlankOrEnd before) || hasInnerIndicator c r

/-- Whether the text holds something that a plain scalar in block context cannot hold. -/
def hasIndicators : List Char → Bool
  | [] => false
  | c :: r => beginsLikeMarker (c :: r) || isFirstIndicator c r || hasInnerIndicator c r

/-- Whether a character of one class stands directly before one of another. -/
def hasPair (p q : Char → Bool) : List Char → Bool
  | c :: d :: r => (p c && q d) || hasPair p q (d :: r)
  | _ => false

/-- What decides how a text may be written. -/
structure Shape where
  multiline : Bool
  plain : Bool
  single : Bool
  deriving DecidableEq, Repr

def shape (cs : List Char) : Shape :=
  if cs = [] then ⟨false, true, true⟩
  else
    let isSpace (c : Char) : Bool := c = ' '
    let edge (c : Char) : Bool := isSpace c || isBreak c
    let multiline := cs.any isBreak
    let single := !(hasPair isBreak isSpace cs || hasPair isSpace isBreak cs || cs.any isSpecial)
    let plain := single && !multiline && !(cs.head?.any edge) && !(cs.getLast?.any edge) && !hasIndicators cs
    ⟨multiline, plain, single⟩

/-! ## The three styles -/

/-- The column behind a text written at a column. -/
structure Written where
  chars : List Char
  column : Nat

def spaces (n : Nat) : List Char := List.replicate n ' '

/-- A new line, indented. -/
def newLine (indent : Nat) : List Char := '\n' :: spaces indent

/-- The classes whose runs are written together. -/
inductive RunClass where
  | space
  | breaks
  | other
  deriving DecidableEq, Repr

def runClass (c : Char) : RunClass :=
  if c = ' ' then .space else if isBreak c then .breaks else .other

/-- The maximal runs of one class. -/
def runs : List Char → List (RunClass × List Char)
  | [] => []
  | c :: r => match runs r with
    | (k, cs) :: rest => if k = runClass c then (k, c :: cs) :: rest else (runClass c, [c]) :: (k, cs) :: rest
    | [] => [(runClass c, [c])]

/-- Breaks in single quotes: a leading line feed needs an empty line. -/
def writeBreaks (indent : Nat) (cs : List Char) : List Char :=
  (if cs.head? = some '\n' then ['\n'] else []) ++ cs ++ spaces indent

def doubleQuotes (cs : List Char) : List Char := cs.flatMap fun c => if c = '\'' then ['\'', '\''] else [c]

/-- The runs of a text in single quotes; `inner` says that something stands before. -/
def writeSingleRuns (indent : Nat) (fold inner : Bool) (column : Nat) : List (RunClass × List Char) → List Char
  | [] => []
  | (.space, cs) :: rest =>
    if fold && inner && rest ≠ [] && cs.length = 1 && lineWidth < column then
      newLine indent ++ writeSingleRuns indent fold true indent rest
    else cs ++ writeSingleRuns indent fold true (column + cs.length) rest
  | (.breaks, cs) :: rest => writeBreaks indent cs ++ writeSingleRuns indent fold true indent rest
  | (.other, cs) :: rest =>
    doubleQuotes cs ++ writeSingleRuns indent fold true (column + (doubleQuotes cs).length) rest

/-- A text in single quotes, beginning at a column. -/
def writeSingle (indent : Nat) (fold : Bool) (column : Nat) (cs : List Char) : List Char :=
  '\'' :: writeSingleRuns indent fold false (column + 1) (runs cs) ++ ['\'']

/-- The characters that have an escape of their own. -/
def escapes : List (Char × Char) :=
  [(Char.ofNat 0, '0'), (Char.ofNat 7, 'a'), (Char.ofNat 8, 'b'), ('\t', 't'), ('\n', 'n'), (Char.ofNat 11, 'v'),
   (Char.ofNat 12, 'f'), ('\r', 'r'), (Char.ofNat 27, 'e'), ('"', '"'), ('\\', '\\'), (nextLine, 'N'),
   (Char.ofNat 0xA0, '_'), (lineSeparator, 'L'), (paragraphSeparator, 'P')]

/-- Whether a character is written as it is in double quotes. -/
def isOpen (c : Char) : Bool :=
  let n := c.toNat
  c ≠ '"' && c ≠ '\\' && c ≠ nextLine && c ≠ lineSeparator && c ≠ paragraphSeparator && c ≠ byteOrderMark &&
    ((0x20 ≤ n && n ≤ 0x7E) || (0xA0 ≤ n && n ≤ 0xD7FF) || (0xE000 ≤ n && n ≤ 0xFFFD))

def escape (c : Char) : List Char :=
  match (escapes.find? fun e => e.1 = c) with
  | some e => ['\\', e.2]
  | none =>
    let n := c.toNat
    if n ≤ 0xFF then '\\' :: 'x' :: Text.Hex.upper 2 n
    else if n ≤ 0xFFFF then '\\' :: 'u' :: Text.Hex.upper 4 n
    else '\\' :: 'U' :: Text.Hex.upper 8 n

/-- A fold in double quotes, before the rest of a text: the break is escaped, and so is a
    space that follows it. -/
def foldDouble (indent : Nat) (next : Option Char) : Written :=
  if next = some ' ' then ⟨'\\' :: newLine indent ++ ['\\'], indent + 1⟩ else ⟨'\\' :: newLine indent, indent⟩

/-- The inside of a text in double quotes. A fold is possible at a space and next to an
    escape; `inner` says that a character stands before, `fresh` that it was escaped or that
    a fold was just made. -/
def writeDoubleChars (indent : Nat) (fold inner fresh : Bool) (column : Nat) : List Char → List Char
  | [] => []
  | c :: r =>
    let mayFold := fold && inner && r ≠ []
    if isOpen c then
      if mayFold && (c = ' ' || fresh) && lineWidth < column then
        let w := foldDouble indent (some c)
        w.chars ++ c :: writeDoubleChars indent fold true false (w.column + 1) r
      else c :: writeDoubleChars indent fold true false (column + 1) r
    else
      let written := escape c
      let column := column + written.length
      if mayFold && lineWidth < column - 1 then
        let w := foldDouble indent r.head?
        written ++ w.chars ++ writeDoubleChars indent fold true true w.column r
      else written ++ writeDoubleChars indent fold true true column r

/-- A text in double quotes, beginning at a column. -/
def writeDouble (indent : Nat) (fold : Bool) (column : Nat) (cs : List Char) : List Char :=
  '"' :: writeDoubleChars indent fold false true (column + 1) cs ++ ['"']

/-- The runs of a plain text, which has no breaks. -/
def writePlainRuns (indent : Nat) (fold : Bool) (column : Nat) : List (RunClass × List Char) → List Char
  | [] => []
  | (k, cs) :: rest =>
    if fold && k = .space && cs.length = 1 && lineWidth < column then
      newLine indent ++ writePlainRuns indent fold indent rest
    else cs ++ writePlainRuns indent fold (column + cs.length) rest

/-- A text in a given style, beginning at a column; further lines have the given indent. -/
def writeScalar (style : Style) (indent : Nat) (fold : Bool) (column : Nat) (cs : List Char) : List Char :=
  match style with
  | .plain => writePlainRuns indent fold column (runs cs)
  | .single => writeSingle indent fold column cs
  | .double => writeDouble indent fold column cs

end Portcullis.Yaml

/-
  Portcullis.Yaml.Token.Stream — the tokens of a whole stream.

  A stream is read from token to token. Whether something is a key shows only at the colon
  behind it, so the place where a key may have started is kept as a candidate: one for the
  block and one for every open bracket. A candidate counts on its own line and for a limited
  number of characters. At the colon the key token, and the start of the block map if it is
  the first key, are put in where the candidate began.
-/

import Portcullis.Yaml.Token.Block
import Portcullis.Yaml.Token.Plain
import Portcullis.Yaml.Token.Quoted

namespace Portcullis.Yaml

/-- A place in a text, with the text behind it. -/
structure Position where
  rest : List Char
  index : Nat := 0
  line : Nat := 0
  column : Nat := 0
  deriving DecidableEq, Repr

namespace Position

/-- Counts a character; a byte order mark takes no column. -/
def count (p : Position) (c : Char) : Position :=
  if isBreak c then { p with index := p.index + 1, line := p.line + 1, column := 0 }
  else { p with index := p.index + 1, column := if c = byteOrderMark then p.column else p.column + 1 }

/-- The place where a given end of the text is left. -/
def moveTo (p : Position) (rest : List Char) : Position :=
  { (p.rest.take (p.rest.length - rest.length)).foldl count p with rest }

end Position

/-- A place where a key may have started. -/
structure Candidate where
  /-- How many tokens stand before it. -/
  number : Nat
  index : Nat
  line : Nat
  column : Nat
  /-- Nothing else than a key can stand there. -/
  required : Bool
  deriving DecidableEq, Repr

/-- A key ends at most so many characters behind its start. -/
def keyReach : Nat := 1024

/-- Whether a candidate still counts at a place. -/
def Candidate.counts (c : Candidate) (p : Position) : Bool := c.line = p.line && p.index - c.index ≤ keyReach

/-- The reading of a stream. -/
structure Stream where
  place : Position
  /-- The tokens so far, the newest first. -/
  tokens : List Token := []
  /-- The columns of the open block collections, the innermost first. -/
  indents : List Nat := []
  /-- Whether a key may start at the next token. -/
  keyAllowed : Bool := true
  /-- The candidate of the innermost bracket, or of the block if none is open. -/
  candidate : Option Candidate := none
  /-- The candidates around the open brackets, the innermost first. -/
  outer : List (Option Candidate) := []
  deriving DecidableEq, Repr

namespace Stream

def ofChars (cs : List Char) : Stream := { place := ⟨cs, 0, 0, 0⟩ }

/-- Whether a bracket is open. -/
def inFlow (s : Stream) : Bool := !s.outer.isEmpty

/-- The least column of what belongs to the innermost block collection. -/
def innerIndent (s : Stream) : Nat := s.indents.head?.elim 0 (· + 1)

def emit (s : Stream) (t : Token) : Stream := { s with tokens := t :: s.tokens }

/-- Leaves the given end of the text to be read. -/
def moveTo (s : Stream) (rest : List Char) : Stream := { s with place := s.place.moveTo rest }

/-! ## Blocks -/

/-- Closes the innermost block collections whose column is of a kind; inside brackets none
    is closed. -/
def closeBlocks (s : Stream) (closes : Nat → Bool) : Stream :=
  if s.inFlow then s
  else
    let closed := List.replicate (s.indents.takeWhile closes).length Token.blockEnd
    { s with indents := s.indents.dropWhile closes, tokens := closed ++ s.tokens }

/-- Whether a block collection opens at a column. -/
def opens (s : Stream) (column : Nat) : Bool := s.indents.head?.all (· < column)

/-- Opens a block collection at the current column, unless it is open already. -/
def openBlock (s : Stream) (start : Token) : Stream :=
  if s.opens s.place.column then { s.emit start with indents := s.place.column :: s.indents } else s

/-! ## Candidates -/

/-- Gives the candidate up; one that had to be a key is an error. -/
def dropCandidate (s : Stream) : Except Fault Stream :=
  if s.candidate.any (·.required) then .error .malformed else .ok { s with candidate := none }

/-- Takes the current place as a candidate, where a key is allowed. -/
def addCandidate (s : Stream) : Except Fault Stream :=
  if s.keyAllowed then do
    let s ← s.dropCandidate
    let p := s.place
    let required := !s.inFlow && s.indents.head? = some p.column
    return { s with candidate := some ⟨s.tokens.length, p.index, p.line, p.column, required⟩ }
  else .ok s

def allCandidates (s : Stream) : List Candidate := (s.candidate :: s.outer).filterMap id

/-- Gives all candidates up that do not count any more. -/
def dropStale (s : Stream) : Except Fault Stream :=
  if s.allCandidates.any fun c => c.required && !c.counts s.place then .error .malformed
  else
    let fresh (c : Option Candidate) : Option Candidate := c.filter (·.counts s.place)
    .ok { s with candidate := fresh s.candidate, outer := s.outer.map fresh }

/-! ## Between tokens -/

/-- Skips spaces, comments and breaks; `comment` says that a comment has begun. Gives what
    follows and whether there was a break. -/
def skipGap (comment : Bool) : List Char → List Char × Bool
  | [] => ([], false)
  | c :: r =>
    if isBreak c then ((skipGap false r).1, true)
    else if comment then skipGap true r
    else if c = ' ' then skipGap false r
    else if c = '#' then skipGap true r
    else (c :: r, false)

/-- Goes to the next token. At the very start a byte order mark is skipped. -/
def advance (s : Stream) : Except Fault Stream := do
  let cs := s.place.rest
  let cs := if s.place.index = 0 && cs.head? = some byteOrderMark then cs.tail else cs
  let (rest, broken) := skipGap false cs
  let s := { s.moveTo rest with keyAllowed := s.keyAllowed || (broken && !s.inFlow) }
  let s ← s.dropStale
  return s.closeBlocks (s.place.column < ·)

/-! ## The tokens -/

/-- A token that may be or begin a key. -/
def addContent (s : Stream) (t : Token) (rest : List Char) : Except Fault Stream := do
  let s ← s.addCandidate
  return { (s.emit t).moveTo rest with keyAllowed := false }

/-- A token at the margin that ends all blocks. -/
def addMark (s : Stream) (t : Token) (rest : List Char) : Except Fault Stream := do
  let s ← (s.closeBlocks fun _ => true).dropCandidate
  return { (s.emit t).moveTo rest with keyAllowed := false }

def openBracket (s : Stream) (t : Token) (rest : List Char) : Except Fault Stream := do
  let s ← s.addCandidate
  return { (s.emit t).moveTo rest with keyAllowed := true, candidate := none, outer := s.candidate :: s.outer }

def closeBracket (s : Stream) (t : Token) (rest : List Char) : Except Fault Stream := do
  let s ← s.dropCandidate
  match s.outer with
  | [] => .error .malformed
  | candidate :: outer => return { (s.emit t).moveTo rest with keyAllowed := false, candidate, outer }

def addComma (s : Stream) (rest : List Char) : Except Fault Stream := do
  let s ← s.dropCandidate
  return { (s.emit .comma).moveTo rest with keyAllowed := true }

/-- The sign of an item or of a key. In a block it may open a collection and stands where a
    key is allowed. -/
def addSign (s : Stream) (start sign : Token) (allowed : Bool) (rest : List Char) : Except Fault Stream := do
  if !s.inFlow && !s.keyAllowed then .error .malformed
  else
    let s := if s.inFlow then s else s.openBlock start
    let s ← s.dropCandidate
    return { (s.emit sign).moveTo rest with keyAllowed := allowed }

/-- Puts tokens in, the newest first, behind the first `number` ones. -/
def putIn (s : Stream) (number : Nat) (new : List Token) : Stream :=
  let behind := s.tokens.length - number
  { s with tokens := s.tokens.take behind ++ new ++ s.tokens.drop behind }

/-- A colon. It makes a key of the candidate, or stands for a value whose key is empty or
    has a sign of its own. -/
def addValue (s : Stream) (rest : List Char) : Except Fault Stream :=
  match s.candidate with
  | some c =>
    let first := !s.inFlow && s.opens c.column
    let s := s.putIn c.number (if first then [.key, .blockMapStart] else [.key])
    let indents := if first then c.column :: s.indents else s.indents
    .ok { (s.emit .value).moveTo rest with keyAllowed := false, candidate := none, indents }
  | none => s.addSign .blockMapStart .value (!s.inFlow) rest

def addBlockScalar (s : Stream) (folded : Bool) (rest : List Char) : Except Fault Stream := do
  let s ← s.dropCandidate
  let (header, rest) ← BlockHeader.read folded rest
  let (text, rest) := header.readText (max 1 s.innerIndent) rest
  return { (s.emit (.scalar text false)).moveTo rest with keyAllowed := true }

def addQuoted (s : Stream) (q : QuoteKind) (rest : List Char) : Except Fault Stream := do
  let (text, rest) ← readQuoted q (.text .empty) rest
  s.addContent (.scalar text false) rest

def addPlain (s : Stream) (c : Char) (r : List Char) : Except Fault Stream :=
  if beginsPlain s.inFlow c (r.headD endMark) then do
    let p := readPlain s.inFlow s.innerIndent .empty (c :: r)
    let s ← s.addContent (.scalar p.text true) p.rest
    return { s with keyAllowed := p.broken }
  else .error .malformed

/-- Reads the token that begins with `c`, which `r` follows. -/
def next (s : Stream) (c : Char) (r : List Char) : Except Fault Stream :=
  let isSign := s.inFlow || isBlankOrEnd (r.headD endMark)
  if c = '%' && s.place.column = 0 then do
    let (d, rest) ← readDirective r
    s.addMark (.directive d) rest
  else if s.place.column = 0 && isMarker (c :: r) then
    s.addMark (if c = '-' then .documentStart else .documentEnd) (r.drop 2)
  else match c with
    | '[' => s.openBracket .flowListStart r
    | '{' => s.openBracket .flowMapStart r
    | ']' => s.closeBracket .flowListEnd r
    | '}' => s.closeBracket .flowMapEnd r
    | ',' => s.addComma r
    | '-' => if isBlankOrEnd (r.headD endMark) then s.addSign .blockListStart .item true r else s.addPlain c r
    | '?' => if isSign then s.addSign .blockMapStart .key (!s.inFlow) r else s.addPlain c r
    | ':' => if isSign then s.addValue r else s.addPlain c r
    | '*' => do
      let (name, rest) ← readName r
      s.addContent (.alias name) rest
    | '&' => do
      let (name, rest) ← readName r
      s.addContent (.anchor name) rest
    | '!' => do
      let (t, rest) ← readTag r
      s.addContent (.tag t) rest
    | '\'' => s.addQuoted .single r
    | '"' => s.addQuoted .double r
    | '|' => if s.inFlow then .error .malformed else s.addBlockScalar false r
    | '>' => if s.inFlow then .error .malformed else s.addBlockScalar true r
    | c => s.addPlain c r

/-- The tokens of a stream that ends here. -/
def ended (s : Stream) : Except Fault (List Token) := do
  let s ← (s.closeBlocks fun _ => true).dropCandidate
  return (s.emit .streamEnd).tokens.reverse

/-- The tokens of a stream that cannot be read on. What stands behind a candidate that still
    counts is not known, since a token may have to be put in there. -/
def broken (s : Stream) (f : Fault) : List Token :=
  let known := (s.allCandidates.filter (·.counts s.place)).foldl (fun n c => min n c.number) s.tokens.length
  s.tokens.reverse.take known ++ [.fault f]

/-- Reads at most `n` tokens more. -/
def run : (n : Nat) → Stream → List Token
  | 0, s => s.broken .malformed
  | n + 1, s =>
    match s.advance with
    | .error f => s.broken f
    | .ok s' =>
      match s'.place.rest with
      | [] => match s'.ended with
        | .error f => s.broken f
        | .ok tokens => tokens
      | c :: r => match s'.next c r with
        | .error f => s.broken f
        | .ok s' => run n s'

end Stream

/-- The tokens of a text. Every token but the last takes a character. -/
def tokensOf (cs : List Char) : List Token := (Stream.ofChars cs).run (cs.length + 1)

end Portcullis.Yaml

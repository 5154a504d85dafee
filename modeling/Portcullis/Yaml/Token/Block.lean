/-
  Portcullis.Yaml.Token.Block — block scalars: the lines behind a bar or a greater-than sign.

  Every line has the same indent, which the header may give and the first line gives
  otherwise. Behind a bar breaks are kept; behind a greater-than sign a single line feed
  between two lines that do not begin with a blank is folded to a space. The header also
  says what becomes of the breaks at the end.
-/

import Portcullis.Yaml.Token.Property

namespace Portcullis.Yaml

/-- What becomes of the breaks at the end: none, the first or all are kept. -/
inductive Chomping where
  | strip
  | clip
  | keep
  deriving DecidableEq, Repr

structure BlockHeader where
  folded : Bool
  chomping : Chomping := .clip
  /-- The indent in addition to that of the collection around. -/
  increment : Option Nat := none
  deriving DecidableEq, Repr

namespace BlockHeader

def chomping? : Char → Option Chomping
  | '+' => some .keep
  | '-' => some .strip
  | _ => none

/-- A digit gives the increment; zero is none. -/
def increment? (c : Char) : Option (Option Nat) :=
  if '0' ≤ c && c ≤ '9' then some (if c = '0' then none else some (c.toNat - '0'.toNat)) else none

/-- Reads the digit, if there is one. -/
def readIncrement (h : BlockHeader) : List Char → Except Fault (BlockHeader × List Char)
  | [] => .ok (h, [])
  | c :: r => match increment? c with
    | none => .ok (h, c :: r)
    | some none => .error .malformed
    | some n => .ok ({ h with increment := n }, r)

/-- Reads the sign, if there is one. -/
def readChomping (h : BlockHeader) : List Char → BlockHeader × List Char
  | [] => (h, [])
  | c :: r => match chomping? c with
    | none => (h, c :: r)
    | some chomping => ({ h with chomping }, r)

/-- Reads a header up to the end of its line: a sign and a digit in either order. -/
def read (folded : Bool) (cs : List Char) : Except Fault (BlockHeader × List Char) := do
  let (h, r) := readChomping { folded } cs
  let (h, r) ← readIncrement h r
  let (h, r) := if h.chomping = .clip then readChomping h r else (h, r)
  if isGap (r.headD endMark) then return (h, ← skipLine r) else .error .malformed

end BlockHeader

/-- The blank lines before the first line of a block scalar. -/
structure BlockLead where
  breaks : List Char
  /-- The column of the first character that is no blank. -/
  column : Nat
  /-- The largest column reached. -/
  deepest : Nat
  rest : List Char

/-- Reads blanks and breaks to find the indent out. -/
def BlockLead.read (column deepest : Nat) : List Char → BlockLead
  | [] => ⟨[], column, deepest, []⟩
  | c :: r =>
    if c = ' ' then read (column + 1) (max deepest (column + 1)) r
    else if isBreak c then
      let more := read 0 deepest r
      { more with breaks := readBreak c :: more.breaks }
    else ⟨[], column, deepest, c :: r⟩

/-- Where the reading of a block scalar stands. -/
inductive BlockState where
  /-- On a line; `flush` says that the line begins without a blank. -/
  | line (flush : Bool)
  /-- Before a line: the break that ended the last one and whether that one was flush, if
      there was one; the breaks since then; and the column. -/
  | between (last : Option (Char × Bool)) (breaks : List Char) (column : Nat)
  deriving DecidableEq, Repr

namespace BlockHeader

/-- What stands between two lines; `flush` says that the second begins without a blank. -/
def joint (h : BlockHeader) (last : Option (Char × Bool)) (breaks : List Char) (flush : Bool) : List Char :=
  match last with
  | none => breaks
  | some (c, before) =>
    if h.folded && c = '\n' && before && flush then (if breaks = [] then [' '] else breaks) else c :: breaks

/-- What stands behind the last line. -/
def ending (h : BlockHeader) (last : Option (Char × Bool)) (breaks : List Char) : List Char :=
  (if h.chomping = .strip then [] else (last.map Prod.fst).toList) ++ (if h.chomping = .keep then breaks else [])

/-- Reads the lines of a block scalar of a given indent: the text, and what follows. -/
def readLines (h : BlockHeader) (indent : Nat) : BlockState → List Char → List Char × List Char
  | .line _, [] => ([], [])
  | .line flush, c :: r =>
    if isBreak c then readLines h indent (.between (some (readBreak c, flush)) [] 0) r
    else
      let (text, rest) := readLines h indent (.line flush) r
      (c :: text, rest)
  | .between last breaks _, [] => (h.ending last breaks, [])
  | .between last breaks column, c :: r =>
    if c = ' ' && column < indent then readLines h indent (.between last breaks (column + 1)) r
    else if isBreak c then readLines h indent (.between last (breaks ++ [readBreak c]) 0) r
    else if column = indent then
      let flush := !isSpaceOrTab c
      let (text, rest) := readLines h indent (.line flush) r
      (h.joint last breaks flush ++ c :: text, rest)
    else (h.ending last breaks, c :: r)

/-- Reads a block scalar behind its header; its lines are indented by `least` at least. -/
def readText (h : BlockHeader) (least : Nat) (cs : List Char) : List Char × List Char :=
  match h.increment with
  | some n => h.readLines (least + n - 1) (.between none [] 0) cs
  | none =>
    let lead := BlockLead.read 0 0 cs
    h.readLines (max least lead.deepest) (.between none lead.breaks lead.column) lead.rest

end BlockHeader

end Portcullis.Yaml

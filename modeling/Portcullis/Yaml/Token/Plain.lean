/-
  Portcullis.Yaml.Token.Plain — scalars without quotes.

  A plain scalar ends before a colon that a blank follows, before a comment, and inside
  brackets before an indicator. It goes on over lines that are indented enough.
-/

import Portcullis.Yaml.Token.Gap

namespace Portcullis.Yaml

/-- The characters that stand for themselves nowhere at the start of a plain scalar. -/
def indicators : List Char :=
  ['-', '?', ':', ',', '[', ']', '{', '}', '#', '&', '*', '!', '|', '>', '\'', '"', '%', '@', Char.ofNat 0x60]

/-- Whether a plain scalar begins with `c` before `next`; `flow` says whether brackets are
    open. -/
def beginsPlain (flow : Bool) (c next : Char) : Bool :=
  !(isBlankOrEnd c || indicators.contains c) ||
    (!isBlankOrEnd next && (c = '-' || (!flow && (c = '?' || c = ':'))))

/-- Whether a plain scalar ends before `c`, which `next` follows. -/
def endsPlain (flow : Bool) (c next : Char) : Bool :=
  isBlankOrEnd c || (c = ':' && (isBlankOrEnd next || (flow && [',', '[', ']', '{', '}'].contains next))) ||
    (flow && [',', '?', '[', ']', '{', '}'].contains c)

/-- A plain scalar, what follows it, and whether a line ended in between. -/
structure PlainText where
  text : List Char
  rest : List Char
  broken : Bool
  deriving DecidableEq, Repr

/-- Reads a plain scalar whose further lines need `indent` columns; `gap` is the white space
    since its last character. -/
def readPlain (flow : Bool) (indent : Nat) (gap : Gap) : List Char → PlainText
  | [] => ⟨[], [], gap.broken⟩
  | c :: r =>
    if c = ' ' then readPlain flow indent (gap.blank c) r
    else if isBreak c then
      if isMarker r then ⟨[], r, true⟩ else readPlain flow indent (gap.newLine c) r
    else if (!gap.isEmpty && c = '#') || endsPlain flow c (r.headD endMark) ||
        (!flow && gap.broken && gap.column < indent) then
      ⟨[], c :: r, gap.broken⟩
    else
      let more := readPlain flow indent .empty r
      { more with text := gap.folded ++ c :: more.text }

end Portcullis.Yaml

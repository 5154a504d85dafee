/-
  Portcullis.Yaml.Character — the classes of characters that YAML distinguishes.

  Line breaks in a stream have been unified to line feeds before, so a carriage return is no
  break here. The NUL character stands for the end of the stream, which no stream can hold.
-/

namespace Portcullis.Yaml

/-- What peeking beyond the end gives. -/
def endMark : Char := Char.ofNat 0

/-- Next line, line separator and paragraph separator. -/
def nextLine : Char := Char.ofNat 0x85

def lineSeparator : Char := Char.ofNat 0x2028

def paragraphSeparator : Char := Char.ofNat 0x2029

def byteOrderMark : Char := Char.ofNat 0xFEFF

def isBreak (c : Char) : Bool :=
  c = '\n' || c = nextLine || c = lineSeparator || c = paragraphSeparator

def isBreakOrEnd (c : Char) : Bool := c = endMark || isBreak c

def isSpaceOrTab (c : Char) : Bool := c = ' ' || c = '\t'

/-- A space, a break or the end. -/
def isGap (c : Char) : Bool := c = ' ' || isBreakOrEnd c

/-- A space, a tab, a break or the end. -/
def isBlankOrEnd (c : Char) : Bool := c = '\t' || isGap c

/-- The break that a break is read as: a next line counts as a line feed. -/
def readBreak (c : Char) : Char := if c = nextLine then '\n' else c

/-- The characters that a stream may hold. -/
def isAllowed (c : Char) : Bool :=
  let n := c.toNat
  n = 0x09 || n = 0x0A || n = 0x0D || (0x20 ≤ n && n ≤ 0x7E) || n = 0x85 || (0xA0 ≤ n && n ≤ 0xD7FF) ||
    (0xE000 ≤ n && n ≤ 0xFFFD) || (0x10000 ≤ n && n ≤ 0x10FFFF)

/-- The characters of names of anchors, directives and tag handles. -/
def isWord (c : Char) : Bool :=
  ('0' ≤ c && c ≤ '9') || ('A' ≤ c && c ≤ 'Z') || ('a' ≤ c && c ≤ 'z') || c = '-' || c = '_'

end Portcullis.Yaml

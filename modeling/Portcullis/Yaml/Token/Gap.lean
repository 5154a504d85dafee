/-
  Portcullis.Yaml.Token.Gap — the white space between two words of one scalar.

  On one line it is kept as it is. Over lines it is folded: a single line feed becomes a
  space, of several the first is dropped, and blanks next to a break do not count.
-/

import Portcullis.Yaml.Character

namespace Portcullis.Yaml

/-- A marker between documents: three hyphens or dots and then a blank or the end. It counts
    at the start of a line. -/
def isMarker : List Char → Bool
  | a :: b :: c :: r => ((a = '-' && b = '-' && c = '-') || (a = '.' && b = '.' && c = '.')) &&
      isBlankOrEnd (r.headD endMark)
  | _ => false

/-- White space that has been read: the blanks before the first break, all breaks, and the
    number of characters since the last break. -/
structure Gap where
  blanks : List Char := []
  breaks : List Char := []
  column : Nat := 0
  deriving DecidableEq, Repr

namespace Gap

def empty : Gap := {}

def isEmpty (g : Gap) : Bool := g.blanks.isEmpty && g.breaks.isEmpty

/-- Whether it goes over more than one line. -/
def broken (g : Gap) : Bool := !g.breaks.isEmpty

/-- One more blank. -/
def blank (g : Gap) (c : Char) : Gap :=
  if g.broken then { g with column := g.column + 1 } else { g with blanks := g.blanks ++ [c] }

/-- One more break. -/
def newLine (g : Gap) (c : Char) : Gap := { g with breaks := g.breaks ++ [readBreak c], column := 0 }

/-- What the scalar holds in its place. -/
def folded (g : Gap) : List Char :=
  match g.breaks with
  | [] => g.blanks
  | ['\n'] => [' ']
  | '\n' :: more => more
  | breaks => breaks

end Gap

end Portcullis.Yaml

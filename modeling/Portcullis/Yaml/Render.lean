/-
  Portcullis.Yaml.Render — writing plain data as a YAML document in block style.

  Texts are quoted; keys are plain where the text allows it and would be read as a text. A
  key that is empty, long or of several lines stands behind a question mark, and its value
  behind a colon on the next line. Lists are indented inside tables. What is nested directly
  behind a hyphen or such a colon begins on the same line.
-/

import Portcullis.Tree
import Portcullis.Yaml.Scalar
import Portcullis.Yaml.Tag

namespace Portcullis.Yaml

/-- How far a level is indented; what is out of range counts as two. -/
def indentStep (n : Int) : Nat := if 2 ≤ n && n ≤ 9 then n.toNat else 2

/-- A key on one line is shorter than this. -/
def simpleKeyLimit : Nat := 123

def isSimpleKey (cs : List Char) : Bool :=
  cs.length < simpleKeyLimit && cs ≠ [] && !(shape cs).multiline

/-- The style of a key that is not restricted to one line. -/
def keyStyle (cs : List Char) : Style :=
  let s := shape cs
  if implicitTag cs = .text && s.plain then .plain else if s.single then .single else .double

def valueStyle (cs : List Char) : Style := if (shape cs).single then .single else .double

/-- Where a value stands: the indent of the collection around it, the column that the line
    has reached, and whether a nested collection begins on this line. -/
structure Place where
  indent : Nat
  column : Nat
  compact : Bool

/-- What comes before the first item of a collection at an indent. -/
def Place.lead (p : Place) (indent : Nat) : List Char :=
  if p.compact then spaces (indent - p.column) else newLine indent

/-- A key with its colon, at an indent, and the place of its value. -/
def writeKey (step indent : Nat) (cs : List Char) : List Char × Place :=
  if isSimpleKey cs then
    let key := writeScalar (keyStyle cs) (indent + step) false indent cs
    (key ++ [':'], ⟨indent, indent + key.length + 1, false⟩)
  else
    let key := writeScalar (keyStyle cs) (indent + step) true (indent + 2) cs
    ('?' :: ' ' :: key ++ newLine indent ++ [':'], ⟨indent, indent + 1, true⟩)

mutual

/-- A value with the space or break before it. -/
def writeTree (step : Nat) (p : Place) : Tree → List Char
  | .text s => ' ' :: writeScalar (valueStyle s.toList) (p.indent + step) true (p.column + 1) s.toList
  | .flag b => ' ' :: (if b then "true" else "false").toList
  | .list [] => [' ', '[', ']']
  | .table [] => [' ', '{', '}']
  | .list (t :: ts) =>
    let indent := p.indent + step
    p.lead indent ++ '-' :: writeTree step ⟨indent, indent + 1, true⟩ t ++ writeItems step indent ts
  | .table ((k, t) :: es) =>
    let indent := p.indent + step
    let (key, place) := writeKey step indent k.toList
    p.lead indent ++ key ++ writeTree step place t ++ writeEntries step indent es

/-- The further items of a list. -/
def writeItems (step indent : Nat) : List Tree → List Char
  | [] => []
  | t :: ts => newLine indent ++ '-' :: writeTree step ⟨indent, indent + 1, true⟩ t ++ writeItems step indent ts

/-- The further entries of a table. -/
def writeEntries (step indent : Nat) : List (String × Tree) → List Char
  | [] => []
  | (k, t) :: es =>
    let (key, place) := writeKey step indent k.toList
    newLine indent ++ key ++ writeTree step place t ++ writeEntries step indent es

end

/-- The entries of a table at the margin. -/
def writeDocument (step : Nat) : List (String × Tree) → List Char
  | [] => "{}\n".toList
  | (k, t) :: es =>
    let (key, place) := writeKey step 0 k.toList
    key ++ writeTree step place t ++ writeEntries step 0 es ++ ['\n']

end Portcullis.Yaml

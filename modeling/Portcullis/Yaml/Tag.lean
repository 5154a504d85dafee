/-
  Portcullis.Yaml.Tag — the types that tags name, and the type that a plain scalar has by its
  text alone.

  The rules are those of YAML 1.1: `yes` and `off` are booleans, `017` is octal, `1_000` and
  `1:30` are numbers, `2020-01-01` is a date. A scalar that fits none of them is a text.
-/

import Portcullis.Text.Digit
import Portcullis.Text.Hex
import Portcullis.Text.Split

namespace Portcullis.Yaml

open Portcullis.Text

inductive Tag where
  | null
  | bool
  | int
  | float
  | text
  | timestamp
  | binary
  | seq
  | map
  | set
  | omap
  | pairs
  | merge
  | value
  /-- A type that nothing is made of. -/
  | unknown (name : String)
  deriving DecidableEq, Repr

namespace Tag

def known : List (String × Tag) :=
  [("null", .null), ("bool", .bool), ("int", .int), ("float", .float), ("str", .text),
   ("timestamp", .timestamp), ("binary", .binary), ("seq", .seq), ("map", .map), ("set", .set),
   ("omap", .omap), ("pairs", .pairs), ("merge", .merge), ("value", .value)]

/-- What the names of YAML's own types start with. -/
def standard : String := "tag:yaml.org,2002:"

/-- The type of a full tag. -/
def ofName (name : String) : Tag :=
  ((known.find? fun e => standard ++ e.1 = name).map Prod.snd).getD (.unknown name)

end Tag

/-! ## Timestamps -/

/-- The parts of a timestamp as they are written. -/
structure TimestampText where
  year : List Char
  month : List Char
  day : List Char
  /-- Hour, minute and second. -/
  time : Option (List Char × List Char × List Char) := none
  fraction : List Char := []
  /-- The sign, hours and minutes of an offset; no sign stands for universal time. -/
  zone : Option (Option Char × List Char × List Char) := none
  deriving DecidableEq, Repr

namespace TimestampText

/-- From `min` to `max` digits, as many as there are. -/
def digits? (min max : Nat) (cs : List Char) : Option (List Char × List Char) :=
  let ds := (cs.take max).takeWhile isAsciiDigit
  if min ≤ ds.length then some (ds, cs.drop ds.length) else none

def expect? (c : Char) : List Char → Option (List Char)
  | [] => none
  | d :: r => if d = c then some r else none

def zone? (cs : List Char) : Option (Option (Option Char × List Char × List Char)) :=
  match cs with
  | [] => some none
  | 'Z' :: [] => some (some (none, [], []))
  | sign :: r =>
    if sign = '+' || sign = '-' then
      match digits? 1 2 r with
      | none => none
      | some (hours, []) => some (some (some sign, hours, []))
      | some (hours, r) => match (expect? ':' r).bind (digits? 2 2) with
        | some (minutes, []) => some (some (some sign, hours, minutes))
        | _ => none
    else none

/-- What separates the date from the time: a letter or blanks. -/
def afterDate? : List Char → Option (List Char)
  | 'T' :: r | 't' :: r => some r
  | ' ' :: r | '\t' :: r => some (r.dropWhile fun c => c = ' ' || c = '\t')
  | _ => none

def clock? (t : TimestampText) (cs : List Char) : Option TimestampText := do
  let (hour, r) ← digits? 1 2 cs
  let (minute, r) ← (expect? ':' r).bind (digits? 2 2)
  let (second, r) ← (expect? ':' r).bind (digits? 2 2)
  let (fraction, r) := match r with
    | '.' :: r => (r.takeWhile isAsciiDigit, r.dropWhile isAsciiDigit)
    | r => ([], r)
  let blanks := r.takeWhile fun c => c = ' ' || c = '\t'
  let zone ← zone? (r.drop blanks.length)
  -- Blanks at the end belong to nothing.
  if zone.isNone && blanks ≠ [] then none
  else return { t with time := some (hour, minute, second), fraction, zone }

def ofChars? (cs : List Char) : Option TimestampText := do
  let (year, r) ← digits? 4 4 cs
  let (month, r) ← (expect? '-' r).bind (digits? 1 2)
  let (day, r) ← (expect? '-' r).bind (digits? 1 2)
  let date : TimestampText := { year, month, day }
  match r with
  | [] => return date
  | r => clock? date (← afterDate? r)

end TimestampText

/-! ## Numbers -/

def isDigitOrBar (c : Char) : Bool := isAsciiDigit c || c = '_'

def dropSign : List Char → List Char
  | '+' :: r | '-' :: r => r
  | r => r

/-- A digit and then digits and underscores. -/
def isGrouped : List Char → Bool
  | [] => false
  | c :: r => isAsciiDigit c && r.all isDigitOrBar

/-- A place of a number in base 60: one digit, or two of which the first is below 6. -/
def isPlace60 : List Char → Bool
  | [c] => isAsciiDigit c
  | [c, d] => '0' ≤ c && c ≤ '5' && isAsciiDigit d
  | _ => false

/-- The places of a number in base 60, two at least. -/
def isBase60 (cs : List Char) : Bool :=
  match pieces ':' cs with
  | first :: second :: rest => isGrouped first && (second :: rest).all isPlace60
  | _ => false

def isIntText (cs : List Char) : Bool :=
  let body := dropSign cs
  match body with
  | '0' :: 'b' :: r => r ≠ [] && r.all fun c => c = '0' || c = '1' || c = '_'
  | '0' :: 'x' :: r => r ≠ [] && r.all fun c => Hex.isDigit c || c = '_'
  | ['0'] => true
  | '0' :: r => r.all fun c => ('0' ≤ c && c ≤ '7') || c = '_'
  | r => isGrouped r || isBase60 r

/-- An optional exponent, which has a sign. -/
def isExponent : List Char → Bool
  | [] => true
  | e :: s :: r => (e = 'e' || e = 'E') && (s = '+' || s = '-') && r ≠ [] && r.all isAsciiDigit
  | _ => false

def infinityWords : List String := [".inf", ".Inf", ".INF"]

def nanWords : List String := [".nan", ".NaN", ".NAN"]

def isFloatText (cs : List Char) : Bool :=
  let body := dropSign cs
  let whole := before '.' body
  match after? '.' body with
  | none => false
  | some fraction =>
    let tail := fraction.dropWhile isDigitOrBar
    (isGrouped whole && isExponent tail) ||
      (cs.head? = some '.' && (isGrouped (fraction.takeWhile isDigitOrBar)) && isExponent tail) ||
      (isBase60 whole && tail = []) ||
      infinityWords.contains (String.ofList body) || nanWords.contains (String.ofList cs)

/-! ## The type of a plain scalar -/

def boolWords : List String :=
  ["yes", "Yes", "YES", "no", "No", "NO", "true", "True", "TRUE", "false", "False", "FALSE", "on", "On", "ON",
   "off", "Off", "OFF"]

def nullWords : List String := ["~", "null", "Null", "NULL"]

/-- Texts of single indicators, which are set aside. -/
def reservedWords : List String := ["!", "&", "*"]

/-- One line break at the end does not count. -/
def withoutFinalBreak (cs : List Char) : List Char :=
  if cs.getLast? = some '\n' then cs.dropLast else cs

def isTimestampText (cs : List Char) : Bool :=
  match TimestampText.ofChars? cs with
  | none => false
  | some t => t.time.isSome || (t.month.length = 2 && t.day.length = 2)

/-- The type of a plain scalar. -/
def implicitTag (cs : List Char) : Tag :=
  let body := withoutFinalBreak cs
  let word := String.ofList body
  if cs = [] then .null
  else if boolWords.contains word then .bool
  else if isFloatText body then .float
  else if isIntText body then .int
  else if word = "<<" then .merge
  else if nullWords.contains word then .null
  else if isTimestampText body then .timestamp
  else if word = "=" then .value
  else if reservedWords.contains word then .unknown (Tag.standard ++ "yaml")
  else .text

end Portcullis.Yaml

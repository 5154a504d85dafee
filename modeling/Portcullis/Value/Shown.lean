/-
  Portcullis.Value.Shown — the text of a value in a message.

  `shown` is the form inside a message: texts in quotes, lists in square brackets, maps and
  sets in curly ones. `plain` is the value's own text, which differs for a text (without
  quotes) and for dates and times (in the international form). A value is `writable` if no
  number in it has too many digits for either.
-/

import Portcullis.Number.Integer
import Portcullis.Number.Shortest
import Portcullis.Text.Quoted
import Portcullis.Value

namespace Portcullis

/-- A number with at least `width` digits, filled up with zeros. -/
def zeroFilled (width n : Nat) : String :=
  let s := toString n
  String.ofList (List.replicate (width - s.length) '0') ++ s

namespace Date

def plain (d : Date) : String :=
  zeroFilled 4 d.year ++ "-" ++ zeroFilled 2 d.month ++ "-" ++ zeroFilled 2 d.day

def shown (d : Date) : String :=
  "datetime.date(" ++ toString d.year ++ ", " ++ toString d.month ++ ", " ++ toString d.day ++ ")"

end Date

namespace Moment

/-- An offset as a signed distance of hours and minutes. -/
def plainOffset (o : Int) : String :=
  (if o < 0 then "-" else "+") ++ zeroFilled 2 (o.natAbs / 60) ++ ":" ++ zeroFilled 2 (o.natAbs % 60)

def plain (m : Moment) : String :=
  m.date.plain ++ " " ++ zeroFilled 2 m.hour ++ ":" ++ zeroFilled 2 m.minute ++ ":" ++ zeroFilled 2 m.second ++
    (if m.micro = 0 then "" else "." ++ zeroFilled 6 m.micro) ++ (m.offset.elim "" plainOffset)

/-- An offset as a duration: whole days toward the past, and the seconds that remain. -/
def shownOffset (o : Int) : String :=
  if o = 0 then "datetime.timezone.utc"
  else
    let days := if o < 0 then "days=-1, " else ""
    let seconds := ((if o < 0 then o + minutesPerDay else o) * 60).toNat
    "datetime.timezone(datetime.timedelta(" ++ days ++ "seconds=" ++ toString seconds ++ "))"

/-- Seconds and microseconds are left out where they are zero. -/
def shown (m : Moment) : String :=
  let always := [m.date.year, m.date.month, m.date.day, m.hour, m.minute]
  let rest := if m.micro = 0 then (if m.second = 0 then [] else [m.second]) else [m.second, m.micro]
  let offset := m.offset.elim "" fun o => ", tzinfo=" ++ shownOffset o
  "datetime.datetime(" ++ ", ".intercalate ((always ++ rest).map toString) ++ offset ++ ")"

end Moment

namespace Value

mutual

/-- The form of a value inside a message. -/
def shown : Value → String
  | .null => "None"
  | .bool true => "True"
  | .bool false => "False"
  | .int n => toString n
  | .float x => Number.Shortest.text x
  | .text s => Text.quote s
  | .bytes bs => Text.quoteBytes bs
  | .date d => d.shown
  | .moment m => m.shown
  | .list vs => "[" ++ ", ".intercalate (shownItems vs) ++ "]"
  | .pair v w => "(" ++ shown v ++ ", " ++ shown w ++ ")"
  | .map es => "\x7b" ++ ", ".intercalate (shownEntries es) ++ "\x7d"
  | .set [] => "set()"
  | .set vs => "\x7b" ++ ", ".intercalate (shownItems vs) ++ "\x7d"
  | .loop .square => "[...]"
  | .loop .curly => "\x7b...\x7d"

def shownItems : List Value → List String
  | [] => []
  | v :: vs => shown v :: shownItems vs

def shownEntries : List (Value × Value) → List String
  | [] => []
  | (k, v) :: es => (shown k ++ ": " ++ shown v) :: shownEntries es

end

mutual

def writable : Value → Bool
  | .int n => Number.isWritable n
  | .list vs | .set vs => areWritable vs
  | .pair v w => writable v && writable w
  | .map es => entriesWritable es
  | _ => true

def areWritable : List Value → Bool
  | [] => true
  | v :: vs => writable v && areWritable vs

def entriesWritable : List (Value × Value) → Bool
  | [] => true
  | (k, v) :: es => writable k && writable v && entriesWritable es

end

/-- The text of a value on its own. -/
def plain : Value → String
  | .text s => s
  | .date d => d.plain
  | .moment m => m.plain
  | v => v.shown

end Value

end Portcullis

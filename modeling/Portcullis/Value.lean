/-
  Portcullis.Value — the dynamic values that a document or an option mapping is made of.

  A map keeps its entries in order and holds no key twice. Keys are compared as values, not
  as texts: 1, 1.0 and true are one key. `loop` stands where a list or a map contains itself.
-/

import Portcullis.Calendar
import Portcullis.Number.Binary64

namespace Portcullis

open Portcullis.Number

/-- Which kind of container is met again inside itself. -/
inductive Bracket where
  | square
  | curly
  deriving DecidableEq, Repr

inductive Value where
  | null
  | bool (b : Bool)
  | int (n : Int)
  | float (x : Binary64)
  | text (s : String)
  | bytes (bs : List UInt8)
  | date (d : Date)
  | moment (m : Moment)
  | list (items : List Value)
  | pair (first second : Value)
  | map (entries : List (Value × Value))
  | set (members : List Value)
  | loop (b : Bracket)
  deriving Repr, Inhabited

namespace Value

/-- The number that a scalar stands for when it is compared as a key. -/
def asInt? : Value → Option Int
  | .bool b => some (if b then 1 else 0)
  | .int n => some n
  | _ => none

/-- Whether two scalars are one and the same key of a map. -/
def sameKey : Value → Value → Bool
  | .null, .null => true
  | .text s, .text t => s = t
  | .bytes a, .bytes b => a = b
  | .date a, .date b => a = b
  | .moment a, .moment b => a.same b
  | .float x, .float y => x = y || x.sameNumber y
  | .float x, v => v.asInt?.any fun n => exactly x n
  | v, .float x => v.asInt?.any fun n => exactly x n
  | v, w => v.asInt?.any fun n => w.asInt? = some n
where
  /-- Whether a float is exactly the whole number `n`. -/
  exactly : Binary64 → Int → Bool
    | .finite s m e, n =>
      let (a, b) := Binary64.ratio m e
      (if s then -(a : Int) else a) = n * b
    | _, _ => false

/-- Whether a value is set to something: not null, false, zero or empty. -/
def isTruthy : Value → Bool
  | .null => false
  | .bool b => b
  | .int n => n != 0
  | .float x => !x.isZero
  | .text s => s != ""
  | .bytes bs => !bs.isEmpty
  | .list vs => !vs.isEmpty
  | .map es => !es.isEmpty
  | .set vs => !vs.isEmpty
  | _ => true

/-- The name of the value's type, as messages give it. -/
def typeName : Value → String
  | .null => "NoneType"
  | .bool _ => "bool"
  | .int _ => "int"
  | .float _ => "float"
  | .text _ => "str"
  | .bytes _ => "bytes"
  | .date _ => "date"
  | .moment _ => "datetime"
  | .list _ | .loop .square => "list"
  | .pair _ _ => "tuple"
  | .map _ | .loop .curly => "dict"
  | .set _ => "set"

/-! ## Entries -/

variable {α : Type}

/-- The entries of a map with one more: a key that is there keeps its place and its spelling
    and takes the new value, a new key goes last. -/
def insertEntry (k : Value) (v : α) : List (Value × α) → List (Value × α)
  | [] => [(k, v)]
  | (k', v') :: r => if sameKey k' k then (k', v) :: r else (k', v') :: insertEntry k v r

/-- The entries of a map from a list of entries in which keys may repeat. -/
def mapOf (entries : List (Value × α)) : List (Value × α) :=
  entries.foldl (fun es e => insertEntry e.1 e.2 es) []

/-- What is stored under a text key. -/
def get? (name : String) (entries : List (Value × α)) : Option α :=
  (entries.find? fun e => sameKey e.1 (.text name)).map Prod.snd

end Value

end Portcullis

/-
  Portcullis.Value.Layer — values that are looked at one level at a time.

  A layer is a value with its parts left closed: of each part it has only what the part is
  found by. A reader that opens layer after layer works alike for trees and for values that
  share parts or contain themselves, and it never looks at more than it needs.
-/

import Portcullis.Value

namespace Portcullis

/-- The outermost level of a value. Keys and members are scalars and stand open. -/
inductive Layer (α : Type) where
  | scalar (v : Value)
  | list (items : List α)
  | pair (first second : α)
  | map (entries : List (Value × α))
  | set (members : List Value)
  deriving Repr

namespace Layer

variable {α β : Type}

def isScalar : Layer α → Bool
  | .scalar _ => true
  | _ => false

/-- The name of the value's type, as messages give it. -/
def typeName : Layer α → String
  | .scalar v => v.typeName
  | .list _ => "list"
  | .pair _ _ => "tuple"
  | .map _ => "dict"
  | .set _ => "set"

/-- The layer with other parts. -/
def mapParts (f : α → β) : Layer α → Layer β
  | .scalar v => .scalar v
  | .list items => .list (items.map f)
  | .pair a b => .pair (f a) (f b)
  | .map entries => .map (entries.map fun e => (e.1, f e.2))
  | .set members => .set members

end Layer

/-- Types whose terms stand for values that can be opened layer by layer. -/
class Layered (α : Type) where
  layer : α → Layer α
  /-- The whole value, as a tree. -/
  value : α → Value

namespace Value

def layer : Value → Layer Value
  | .list items => .list items
  | .pair a b => .pair a b
  | .map entries => .map entries
  | .set members => .set members
  | v => .scalar v

instance : Layered Value := ⟨layer, id⟩

end Value

end Portcullis

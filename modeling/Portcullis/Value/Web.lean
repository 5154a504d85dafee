/-
  Portcullis.Value.Web — values that may have parts in common and may contain themselves.

  A web has a layer at each place, and the parts of a layer are places. Two parts are one
  and the same where they are at one place. As a tree, a value is unfolded until a list or a
  map would stand inside itself; there it is a loop. So the tree depends on where one starts:
  a value inside a loop starts the loop at itself.
-/

import Portcullis.Value.Layer

namespace Portcullis

structure Web where
  layers : Array (Layer Nat)

namespace Web

def layer (w : Web) (place : Nat) : Layer Nat := w.layers.getD place (.scalar .null)

/-- The value at a place inside the lists and maps at other places. A way down the tree goes
    through no place twice before it ends in a loop, so the places of the web bound its
    length. -/
def unfold (w : Web) : (depth : Nat) → (around : List Nat) → (place : Nat) → Value
  | 0, _, _ => .null
  | depth + 1, around, place =>
    match w.layer place with
    | .scalar v => v
    | .set members => .set members
    | .pair a b => .pair (unfold w depth around a) (unfold w depth around b)
    | .list items =>
      if around.contains place then .loop .square
      else .list (items.map (unfold w depth (place :: around)))
    | .map entries =>
      if around.contains place then .loop .curly
      else .map (entries.map fun e => (e.1, unfold w depth (place :: around) e.2))

end Web

/-- A value in a web. -/
structure Strand where
  web : Web
  place : Nat

namespace Strand

def layer (s : Strand) : Layer Strand := (s.web.layer s.place).mapParts (Strand.mk s.web)

def value (s : Strand) : Value := s.web.unfold (s.web.layers.size + 1) [] s.place

instance : Layered Strand := ⟨layer, value⟩

end Strand

end Portcullis

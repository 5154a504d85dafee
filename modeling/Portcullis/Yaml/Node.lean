/-
  Portcullis.Yaml.Node — the nodes of a YAML document: scalars, lists and maps with the types
  that their tags give them.

  A node has a number, and the parts of a collection are given by their numbers. An alias is
  the number of the node that it stands for, so a node may be a part of several collections,
  and of itself.
-/

import Portcullis.Yaml.Fault
import Portcullis.Yaml.Tag

namespace Portcullis.Yaml

/-- The number of a node. -/
abbrev Ref := Nat

inductive Node where
  | scalar (tag : Tag) (text : List Char)
  | list (tag : Tag) (items : List Ref)
  | map (tag : Tag) (entries : List (Ref × Ref))
  deriving DecidableEq, Repr

namespace Node

/-- The scalar that stands where nothing is written. -/
def nothing : Node := .scalar .null []

def tag : Node → Tag
  | .scalar t _ => t
  | .list t _ => t
  | .map t _ => t

def withTag (t : Tag) : Node → Node
  | .scalar _ text => .scalar t text
  | .list _ items => .list t items
  | .map _ entries => .map t entries

/-- The entries of a map; another node has none. -/
def entries : Node → List (Ref × Ref)
  | .map _ es => es
  | _ => []

def isMap : Node → Bool
  | .map _ _ => true
  | _ => false

end Node

/-- The nodes of a document, by their numbers. -/
structure Nodes where
  all : Array Node := #[]
  deriving Repr

namespace Nodes

def size (ns : Nodes) : Nat := ns.all.size

def get (ns : Nodes) (r : Ref) : Node := ns.all.getD r .nothing

def tag (ns : Nodes) (r : Ref) : Tag := (ns.get r).tag

/-- Adds a node, which gets the next number. -/
def add (ns : Nodes) (n : Node) : Ref × Nodes := (ns.size, ⟨ns.all.push n⟩)

/-- Puts a node in the place of another one. -/
def set (ns : Nodes) (r : Ref) (n : Node) : Nodes := ⟨ns.all.setIfInBounds r n⟩

/-- The entries of all maps. -/
def entries (ns : Nodes) : List (Ref × Ref) := ns.all.toList.flatMap Node.entries

/-- The text of a node as a scalar: that of a map is the text of its default value. There is
    no end to it if a map is a default value of its own, and then more steps are taken than
    there are nodes. -/
def text (ns : Nodes) : (steps : Nat) → Ref → Except Fault (List Char)
  | 0, _ => .error .endless
  | steps + 1, r => match ns.get r with
    | .scalar _ text => .ok text
    | .list _ _ => .error .malformed
    | .map _ entries => match entries.find? fun e => ns.tag e.1 = .value with
      | some e => text ns steps e.2
      | none => .error .malformed

end Nodes

end Portcullis.Yaml

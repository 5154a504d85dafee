/-
  Portcullis.Yaml.Built — the values of the nodes of a document.

  Every node has one value, whichever way it is reached. Values are made from the outside in:
  the parts of a collection are made when all collections that were met before it have theirs.
  A part that is itself a collection is empty until its turn comes, so a collection may
  contain itself. Of several faults the one that is met first counts.
-/

import Portcullis.Value.Web
import Portcullis.Yaml.Content
import Portcullis.Yaml.Node.Merge

namespace Portcullis.Yaml

/-- What has been made so far. -/
structure Built where
  nodes : Nodes
  /-- The value of each node that has been met, and behind them the pairs of ordered lists. -/
  layers : Array (Option (Layer Ref))
  /-- The collections that have no parts yet, the latest first. -/
  waiting : List Ref := []

namespace Built

def ofNodes (nodes : Nodes) : Built := { nodes, layers := Array.replicate nodes.size none }

def layer (b : Built) (r : Ref) : Layer Ref := (b.layers.getD r none).getD (.scalar .null)

/-- The value of a scalar. -/
def scalar (b : Built) (r : Ref) : Value :=
  match b.layer r with
  | .scalar v => v
  | _ => .null

def put (b : Built) (r : Ref) (l : Layer Ref) : Built := { b with layers := b.layers.setIfInBounds r (some l) }

/-- Adds a pair. -/
def pair (b : Built) (first second : Ref) : Ref × Built :=
  (b.layers.size, { b with layers := b.layers.push (some (.pair first second)) })

/-- The collection of a type, without parts. -/
def empty? : Tag → Option (Layer Ref)
  | .seq | .omap | .pairs => some (.list [])
  | .map => some (.map [])
  | .set => some (.set [])
  | _ => none

/-- The value of a node that has the type of a scalar. A map may have it, with a default
    value, but a timestamp is not read from there. -/
def scalarOf (nodes : Nodes) (r : Ref) : Except Fault Value := do
  let text ← nodes.text (nodes.size + 1) r
  match nodes.get r with
  | .map .timestamp _ => .error .timestampOfMap
  | n => Content.scalar n.tag text

/-- Makes a node when it is met for the first time. -/
def meet (b : Built) (r : Ref) : Except Fault Built :=
  if (b.layers.getD r none).isSome then .ok b
  else match empty? (b.nodes.tag r) with
    | some l => .ok { b.put r l with waiting := r :: b.waiting }
    | none => (scalarOf b.nodes r).map fun v => b.put r (.scalar v)

/-- Makes a key and its value. A collection cannot be a key. -/
def meetEntry (b : Built) (e : Ref × Ref) : Except Fault Built := do
  let b ← b.meet e.1
  if (b.layer e.1).isScalar then b.meet e.2 else .error .malformed

/-- Makes a pair of an ordered list, which is written as a map with one entry. -/
def meetPair (b : Built) (r : Ref) : Except Fault (Ref × Built) :=
  match b.nodes.get r with
  | .map _ [(k, v)] => do
    let b ← b.meet k
    let b ← b.meet v
    return b.pair k v
  | _ => .error .malformed

def meetPairs (b : Built) : List Ref → Except Fault (List Ref × Built)
  | [] => .ok ([], b)
  | r :: rs => do
    let (p, b) ← b.meetPair r
    let (ps, b) ← b.meetPairs rs
    return (p :: ps, b)

/-- The entries of a map, once they have been met. -/
def entries (b : Built) (es : List (Ref × Ref)) : List (Value × Ref) :=
  Value.mapOf (es.map fun e => (b.scalar e.1, e.2))

/-- Replaces the merge keys of a map and makes its entries. -/
def meetEntries (b : Built) (steps : Nat) (r : Ref) : Except Fault (List (Value × Ref) × Built) := do
  let nodes ← b.nodes.flatten steps r
  let es := (nodes.get r).entries
  let b ← es.foldlM meetEntry { b with nodes }
  return (b.entries es, b)

/-- Gives a collection its parts. What has the type of a collection and is not written as
    one is a fault. -/
def fill (steps : Nat) (b : Built) (r : Ref) : Except Fault Built :=
  match b.nodes.get r with
  | .list .seq items => do
    let b ← items.foldlM meet b
    return b.put r (.list items)
  | .list .omap items | .list .pairs items => do
    let (pairs, b) ← b.meetPairs items
    return b.put r (.list pairs)
  | .map .map _ => do
    let (entries, b) ← b.meetEntries steps r
    return b.put r (.map entries)
  | .map .set _ => do
    let (entries, b) ← b.meetEntries steps r
    return b.put r (.set (entries.map Prod.fst))
  | _ => .error .malformed

/-- Gives the waiting collections their parts, in the order in which they were met, then
    those that have been met meanwhile, and so on. Each node waits once only. -/
def settle (steps : Nat) : (rounds : Nat) → Built → Except Fault Built
  | 0, b => .ok b
  | rounds + 1, b => match b.waiting with
    | [] => .ok b
    | waiting => do
      let b ← waiting.reverse.foldlM (fill steps) { b with waiting := [] }
      settle steps rounds b

def web (b : Built) : Web := ⟨b.layers.map (·.getD (.scalar .null))⟩

end Built

/-- The value of a node. -/
def Nodes.value (nodes : Nodes) (root : Ref) : Except Fault Strand := do
  let b ← (Built.ofNodes nodes).meet root
  let b ← b.settle (nodes.entries.length + 1) (nodes.size + 1)
  return ⟨b.web, root⟩

end Portcullis.Yaml

/-
  Portcullis.Yaml.Node.Merge — merge keys.

  An entry under a merge key stands for the entries of the map that is its value, or of all
  maps of the list that is its value, the last one first. What is merged comes before the
  entries of the map itself, and the entries of an earlier merge key before those of a later
  one.

  A map that is merged loses its own merge keys first. If it is a map around the one into
  which it is merged, it gives the entries that it has by then. A key with the type of
  default values becomes a text once its map has no merge keys any more.
-/

import Portcullis.Yaml.Node

namespace Portcullis.Yaml.Nodes

/-- Takes the first entry under a merge key out of a map: its value, and the other
    entries. -/
def takeMerge? (ns : Nodes) : List (Ref × Ref) → Option (Ref × List (Ref × Ref))
  | [] => none
  | e :: es =>
    if ns.tag e.1 = .merge then some (e.2, es)
    else (takeMerge? ns es).map fun (v, rest) => (v, e :: rest)

/-- Makes a key a text if it has the type of default values. -/
def keepKey (ns : Nodes) (key : Ref) : Nodes :=
  if ns.tag key = .value then ns.set key ((ns.get key).withTag .text) else ns

/-- The maps that a merge key stands for, in the order in which they are written. -/
def merged (ns : Nodes) (value : Ref) : Except Fault (List Ref) :=
  match ns.get value with
  | .map _ _ => .ok [value]
  | .list _ items => if items.all fun r => (ns.get r).isMap then .ok items else .error .malformed
  | .scalar _ _ => .error .malformed

/-- Replaces the merge keys of a map. Each step takes one merge key out of the document and
    none is put back, so no more steps lie one inside the other than there are entries. -/
def flatten : (steps : Nat) → Ref → Nodes → Except Fault Nodes
  | 0, _, ns => .ok ns
  | steps + 1, r, ns =>
    match takeMerge? ns (ns.get r).entries with
    | none => .ok ((ns.get r).entries.foldl (fun ns e => ns.keepKey e.1) ns)
    | some (value, rest) => do
      let ns := ns.set r (.map (ns.tag r) rest)
      let maps ← ns.merged value
      let ns ← maps.foldlM (fun ns m => flatten steps m ns) ns
      let given := maps.reverse.flatMap fun m => (ns.get m).entries
      let ns ← flatten steps r ns
      return ns.set r (.map (ns.tag r) (given ++ (ns.get r).entries))

end Portcullis.Yaml.Nodes

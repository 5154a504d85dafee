/-
  Portcullis.Compiler.Policies — the nodes and policies that a finished rule puts into the
  rule graph.

  The groups among the destinations give one policy for each port restriction, in the order
  of the restrictions, the unrestricted one first. Each host or network gives a policy of its
  own, in the order of the keys.
-/

import Portcullis.Graph
import Portcullis.Rule

namespace Portcullis.Compiler

/-- Puts every endpoint of a rule into the graph, each source leading to each destination. -/
def registered (g : Graph) (r : Rule) : Graph :=
  r.sources.values.foldl
    (fun g source => r.destinations.values.foldl (fun g e => g.link source e) (g.addNode source)) g

/-- The keys of a list of ports; a text that is no port has none. -/
def portKeys (ports : List String) : List (Int × Int) := ports.filterMap Ports.sortKey?

/-- The order of port restrictions among the policies of a rule. -/
def restrictionBefore : Ports → Ports → Bool
  | none, none => false
  | none, some _ => true
  | some _, none => false
  | some a, some b => Ports.listBefore (portKeys a) (portKeys b)

/-- The keys of the group destinations by port restriction, in order of first appearance. -/
def partition (es : List Endpoint) : List (Ports × List String) :=
  es.foldl (fun parts e => go e parts) []
where
  go (e : Endpoint) : List (Ports × List String) → List (Ports × List String)
    | [] => [(e.ports, [e.key])]
    | (p, keys) :: rest => if p = e.ports then (p, keys ++ [e.key]) :: rest else (p, keys) :: go e rest

def edge (r : Rule) (kind : PolicyKind) (destinations : List String) (ports : Ports) : Edge :=
  let sources := Key.sorted r.sources.keys
  let destinations := Key.sorted destinations
  { key := Key.composite kind.text sources destinations, kind, ruleIndex := r.index, action := r.action,
    protocol := r.protocol, sources, destinations, ports }

def groupEdges (r : Rule) : List Edge :=
  let parts := (partition (r.groups .destination)).mergeSort fun a b => !restrictionBefore b.1 a.1
  parts.map fun part => edge r .groupToGroup part.2 part.1

def resourceEdges (r : Rule) : List Edge :=
  let resources := (r.resources .destination).mergeSort fun a b => decide (a.key ≤ b.key)
  resources.map fun e => edge r .groupToResource [e.key] e.ports

/-- Stores policies one after the other and notes their keys in the rule. -/
def addPolicies (g : Graph) (r : Rule) (edges : List Edge) : Graph × Rule :=
  edges.foldl
    (fun (g, r) e => (g.addPolicy e, { r with policyKeys := r.policyKeys ++ [g.policyKey e] })) (g, r)

end Portcullis.Compiler

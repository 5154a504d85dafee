/-
  Portcullis.Graph — the rule graph: one node for each participant, and the policies.

  A node never carries ports and remembers the first endpoint it was made for. An edge from
  one node to another says that traffic of some rule, or membership, leads there; a node has
  no edge to itself. A policy whose key is taken is stored under the key with the index of
  its rule behind it.
-/

import Portcullis.Document
import Portcullis.Endpoint

namespace Portcullis

/-- What a policy leads to: groups, or one host or network. -/
inductive PolicyKind where
  | groupToGroup
  | groupToResource
  deriving DecidableEq, Repr

def PolicyKind.text : PolicyKind → String
  | .groupToGroup => "policy-gtg"
  | .groupToResource => "policy-gtn"

def PolicyKind.ofText? (s : String) : Option PolicyKind :=
  [PolicyKind.groupToGroup, .groupToResource].find? fun k => k.text = s

structure Node where
  endpoint : Endpoint
  destinations : List String
  deriving DecidableEq, Repr

/-- One policy of one rule. -/
structure Edge where
  key : String
  kind : PolicyKind
  ruleIndex : Int
  action : Action
  protocol : Option Protocol
  sources : List String
  destinations : List String
  ports : Ports
  deriving DecidableEq, Repr

structure Graph where
  nodes : Table Node := ∅
  policies : Table Edge := ∅
  deriving DecidableEq

namespace Graph

/-- Makes sure that an endpoint has a node. -/
def addNode (g : Graph) (e : Endpoint) : Graph :=
  { g with nodes := g.nodes.insertNew e.key ⟨e.withPorts none, []⟩ }

/-- Records a key among the destinations of a node. -/
def Node.addDestination (n : Node) (key : String) : Node :=
  if n.destinations.contains key then n else { n with destinations := n.destinations ++ [key] }

def addEdge (g : Graph) (source destination : String) : Graph :=
  match g.nodes.get? source with
  | none => g
  | some n => { g with nodes := g.nodes.insert source (Node.addDestination n destination) }

/-- Makes sure that two endpoints have nodes, and leads from the first to the second unless
    they are one. -/
def link (g : Graph) (source destination : Endpoint) : Graph :=
  let g := (g.addNode source).addNode destination
  if source.key = destination.key then g else g.addEdge source.key destination.key

/-- The key under which a policy is stored. -/
def policyKey (g : Graph) (e : Edge) : String :=
  if g.policies.contains e.key then Key.disambiguate e.key e.ruleIndex else e.key

def addPolicy (g : Graph) (e : Edge) : Graph :=
  let key := g.policyKey e
  { g with policies := g.policies.insert key { e with key } }

/-- The keys of the nodes that lead somewhere, in order. -/
def roots (g : Graph) : List String :=
  Key.sorted ((g.nodes.toList.filter fun e => !e.2.destinations.isEmpty).map Prod.fst)

def sourceRuleCount (g : Graph) : Nat := g.roots.length

def destinationRuleTotal (g : Graph) : Nat :=
  (g.nodes.values.flatMap fun n => n.destinations).length

end Graph

end Portcullis

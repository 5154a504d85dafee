/-
  Portcullis.Declaration.Emit — the declarations of a finished rule graph.

  Nodes and policies are declared in the order of their keys. The protocol default is applied
  here and nowhere earlier. The members of a group come from the group table, which has to
  have been read if the graph has a named node at all.
-/

import Portcullis.Declaration
import Portcullis.Membership
import Portcullis.Options

namespace Portcullis

namespace Graph

/-- What a policy leads to, in words. -/
def PolicyKind.words : PolicyKind → String
  | .groupToGroup => "group to group"
  | .groupToResource => "group to resource"

/-- The nodes in the order of their keys. -/
def sortedNodes (g : Graph) : List (String × Node) :=
  g.nodes.toList.mergeSort fun a b => decide (a.1 ≤ b.1)

def sortedPolicies (g : Graph) : List (String × Edge) :=
  g.policies.toList.mergeSort fun a b => decide (a.1 ≤ b.1)

def groupDeclaration (table : Option Membership) (key : String) (n : Node) : Option GroupDeclaration :=
  match n.endpoint.target with
  | .named _ name => table.map fun m =>
    { key, name, members := (m.membersOf n.endpoint.key).map Endpoint.name }
  | .block _ name address => some { key, name, resources := [address] }

def resourceDeclaration (key : String) (n : Node) : Option ResourceDeclaration :=
  match n.endpoint.target with
  | .named _ _ => none
  | .block role name address => some { key, name, address, kind := role.kind }

def policyDeclaration (o : Options) (e : Edge) : PolicyDeclaration :=
  let rule : PolicyRule :=
    { name := e.key, action := e.action, protocol := e.protocol.getD o.defaultProtocol, sources := e.sources,
      destinations := e.destinations, ports := e.ports.getD [], bidirectional := o.bidirectional }
  { key := e.key, name := e.key, kind := e.kind, rules := [rule],
    description := "ACL rule " ++ toString e.ruleIndex ++ ": " ++ PolicyKind.words e.kind }

/-- The groups among the nodes, or nothing if the group table is missing and needed. -/
def groupDeclarations (table : Option Membership) : List (String × Node) → Option (List GroupDeclaration)
  | [] => some []
  | (key, n) :: rest =>
    if n.endpoint.isGroup then
      match groupDeclaration table key n, groupDeclarations table rest with
      | some d, some ds => some (d :: ds)
      | _, _ => none
    else groupDeclarations table rest

def emit? (g : Graph) (table : Option Membership) (o : Options) : Option Output :=
  (groupDeclarations table g.sortedNodes).map fun groups =>
    { groups
      resources := (g.sortedNodes.filter fun e => !e.2.endpoint.isGroup).filterMap fun e =>
        resourceDeclaration e.1 e.2
      policies := g.sortedPolicies.map fun e => policyDeclaration o e.2 }

end Graph

end Portcullis

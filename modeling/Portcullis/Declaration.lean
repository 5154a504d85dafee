/-
  Portcullis.Declaration — the objects that a compilation declares: groups, resources and
  policies, each under a key.
-/

import Portcullis.Graph
import Portcullis.Tree

namespace Portcullis

structure GroupDeclaration where
  key : String
  name : String
  members : List String := []
  /-- The blocks of an origin of traffic. -/
  resources : List String := []
  deriving DecidableEq, Repr

structure ResourceDeclaration where
  key : String
  name : String
  address : String
  kind : Kind
  deriving DecidableEq, Repr

structure PolicyRule where
  name : String
  action : Action
  protocol : Protocol
  sources : List String
  destinations : List String
  /-- No ports mean no restriction. -/
  ports : List String := []
  bidirectional : Bool := false
  enabled : Bool := true
  deriving DecidableEq, Repr

structure PolicyDeclaration where
  key : String
  name : String
  kind : PolicyKind
  rules : List PolicyRule
  description : String := ""
  enabled : Bool := true
  deriving DecidableEq, Repr

inductive Declaration where
  | group (g : GroupDeclaration)
  | resource (r : ResourceDeclaration)
  | policy (p : PolicyDeclaration)
  deriving DecidableEq, Repr

namespace Declaration

def key : Declaration → String
  | .group g => g.key
  | .resource r => r.key
  | .policy p => p.key

def name : Declaration → String
  | .group g => g.name
  | .resource r => r.name
  | .policy p => p.name

/-- Declarations in the order of their keys; those of one key keep their order. -/
def sorted (ds : List Declaration) : List Declaration := ds.mergeSort fun a b => decide (a.key ≤ b.key)

end Declaration

open Portcullis.Tree (texts)

def PolicyRule.toTree (r : PolicyRule) : Tree :=
  .table [("name", .text r.name), ("action", .text r.action.text), ("protocol", .text r.protocol.text),
    ("bidirectional", .flag r.bidirectional), ("enabled", .flag r.enabled), ("ports", texts r.ports),
    ("sources", texts r.sources), ("destinations", texts r.destinations)]

/-- A declaration as plain data. -/
def Declaration.toTree : Declaration → Tree
  | .group g =>
    .table ([("type", .text "Group"), ("name", .text g.name), ("members", texts g.members)] ++
      (if g.resources = [] then [] else [("resources", texts g.resources)]))
  | .resource r =>
    .table [("type", .text "NetworkResource"), ("name", .text r.name), ("address", .text r.address)]
  | .policy p =>
    .table [("type", .text "Policy"), ("name", .text p.name), ("description", .text p.description),
      ("enabled", .flag p.enabled), ("rules", .list (p.rules.map PolicyRule.toTree))]

/-- What one compilation declares. -/
structure Output where
  groups : List GroupDeclaration := []
  resources : List ResourceDeclaration := []
  policies : List PolicyDeclaration := []
  deriving DecidableEq, Repr

namespace Output

/-- All declarations: groups, then resources, then policies. -/
def declarations (o : Output) : List Declaration :=
  o.groups.map .group ++ o.resources.map .resource ++ o.policies.map .policy

def keys (o : Output) : List String := o.declarations.map Declaration.key

/-- The first declaration under a key. -/
def get? (o : Output) (key : String) : Option Declaration := o.declarations.find? fun d => d.key = key

/-- The declarations as plain data by key; of several under one key the last one counts. -/
def toTable (o : Output) : Table Tree :=
  Table.ofList ((Declaration.sorted o.declarations).map fun d => (d.key, d.toTree))

end Output

end Portcullis

/-
  Portcullis.Document — a policy document: a table of groups, a table of tag owners and an
  ordered list of access rules.

  Tokens and members are kept as they were written; nothing in them is read here.
-/

import Portcullis.Table
import Portcullis.Value

namespace Portcullis

inductive Action where
  | accept
  | drop
  deriving DecidableEq, Repr

def Action.text : Action → String
  | .accept => "accept"
  | .drop => "drop"

def Action.all : List Action := [.accept, .drop]

def Action.ofText? (s : String) : Option Action := Action.all.find? fun a => a.text = s

inductive Protocol where
  | tcp
  | udp
  | icmp
  | all
  deriving DecidableEq, Repr

def Protocol.text : Protocol → String
  | .tcp => "tcp"
  | .udp => "udp"
  | .icmp => "icmp"
  | .all => "all"

def Protocol.every : List Protocol := [.tcp, .udp, .icmp, .all]

def Protocol.ofText? (s : String) : Option Protocol := Protocol.every.find? fun p => p.text = s

/-- One rule as written. A rule that names no protocol has none here. -/
structure AccessRule where
  index : Int
  action : Action
  sources : List Value
  destinations : List Value
  protocol : Option Protocol := none

/-- A table of names, each with its entries in order. -/
abbrev NameTable := Table (List Value)

structure Document where
  groups : NameTable := ∅
  rules : List AccessRule := []
  tagOwners : NameTable := ∅

end Portcullis

/-
  Portcullis.Declaration.Program — the infrastructure program that declares an output.

  Every declaration becomes an entry of one table, in the order of the keys. A policy refers
  to other entries by expressions; a policy that leads to a resource names its one
  destination together with the type that the destination is declared with.
-/

import Portcullis.Declaration
import Portcullis.Log
import Portcullis.Options
import Portcullis.Yaml.Render

namespace Portcullis

namespace Program

open Portcullis.Tree (texts)

/-- Why an output cannot be written. -/
inductive Fault where
  /-- A policy that leads to a resource has no destination, or several. -/
  | destinationCount
  /-- A policy leads to a group as if it were a resource. -/
  | destinationIsGroup
  /-- A policy leads to something that is neither a host nor a network. -/
  | destinationKind
  deriving DecidableEq, Repr

/-- An expression for the identity of a declared object. -/
def reference (key : String) : String := "$\x7b" ++ key ++ ".id\x7d"

def typeToken (o : Options) (name : String) : Tree := .text (o.typePrefix ++ ":" ++ name)

def object (o : Options) (type : String) (properties : List (String × Tree)) : Tree :=
  .table [("type", typeToken o type), ("properties", .table properties)]

def group (o : Options) (g : GroupDeclaration) : Tree :=
  object o "Group"
    ([("name", .text g.name), ("peers", texts g.members)] ++
      (if g.resources = [] then [] else [("resources", texts g.resources)]))

/-- The network that resources are put into; an empty name counts as none. -/
def network (o : Options) : List (String × Tree) :=
  match o.networkRef with
  | none => []
  | some n => if n = "" then [] else [("network_id", .text (reference n))]

def resource (o : Options) (r : ResourceDeclaration) : Tree :=
  object o "NetworkResource"
    ([("name", .text r.name), ("address", .text r.address), ("enabled", .flag true)] ++ network o)

/-- The type that a destination has in a program. -/
def destinationType : Option Declaration → Except Fault String
  | none => .ok "host"
  | some (.group _) => .error .destinationIsGroup
  | some (.resource r) => match r.kind with
    | .host => .ok "host"
    | .network => .ok "subnet"
    | .group | .origin => .error .destinationKind
  | some (.policy _) => .error .destinationKind

def missingDestination (key : String) : LogLine := ⟨.warning, "No declaration for destination " ++ key⟩

/-- A result together with the log lines that led to it. -/
abbrev Logged (α : Type) := List LogLine × Except Fault α

/-- Where a rule of a policy leads. -/
def destinations (out : Output) (kind : PolicyKind) (r : PolicyRule) : Logged (String × Tree) :=
  match kind with
  | .groupToGroup => ([], .ok ("destinations", texts (r.destinations.map reference)))
  | .groupToResource => match r.destinations with
    | [key] =>
      let target := out.get? key
      let log := if target.isNone then [missingDestination key] else []
      (log, (destinationType target).map fun type =>
        ("destinationResource", .table [("id", .text (reference key)), ("type", .text type)]))
    | _ => ([], .error .destinationCount)

def policyRule (out : Output) (kind : PolicyKind) (r : PolicyRule) : Logged Tree :=
  let (log, outcome) := destinations out kind r
  (log, outcome.map fun target =>
    .table ([("name", .text r.name), ("action", .text r.action.text), ("enabled", .flag r.enabled),
      ("bidirectional", .flag r.bidirectional), ("protocol", .text r.protocol.text)] ++
      (if r.ports = [] then [] else [("ports", texts r.ports)]) ++
      [("sources", texts (r.sources.map reference)), target]))

/-- The results of a list, up to the first fault. -/
def logEach (f : α → Logged β) : List α → Logged (List β)
  | [] => ([], .ok [])
  | x :: xs =>
    let (log, outcome) := f x
    match outcome with
    | .error e => (log, .error e)
    | .ok y =>
      let (rest, outcome) := logEach f xs
      (log ++ rest, outcome.map (y :: ·))

def policy (o : Options) (out : Output) (p : PolicyDeclaration) : Logged Tree :=
  let (log, outcome) := logEach (policyRule out p.kind) p.rules
  (log, outcome.map fun rules =>
    object o "Policy"
      [("name", .text p.name), ("description", .text p.description), ("enabled", .flag p.enabled),
       ("rules", .list rules)])

def entry (o : Options) (out : Output) (d : Declaration) : Logged (String × Tree) :=
  match d with
  | .group g => ([], .ok (g.key, group o g))
  | .resource r => ([], .ok (r.key, resource o r))
  | .policy p =>
    let (log, outcome) := policy o out p
    (log, outcome.map fun t => (p.key, t))

end Program

/-- The program that declares an output, as the entries of its outermost table. -/
def Output.toProgram (out : Output) (o : Options) : Program.Logged (List (String × Tree)) :=
  let (log, outcome) := Program.logEach (Program.entry o out) (Declaration.sorted out.declarations)
  (log, outcome.map fun entries => [("resources", .table (Table.ofList entries).toList)])

/-- The text of the program. -/
def Output.render (out : Output) (o : Options) : Program.Logged String :=
  let (log, outcome) := out.toProgram o
  (log, outcome.map fun entries => String.ofList (Yaml.writeDocument (Yaml.indentStep o.yamlIndent) entries))

end Portcullis

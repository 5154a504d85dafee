/-
  Portcullis.Compiler.Verdict — what the stages make of one rule.

  Each of these functions takes a rule and gives the rule as it is afterwards, the complaints
  about it in order, and whether the rule goes on. An error always stops the rule; the other
  side is looked at all the same, so that the problems of both sides are reported together.
  - `classified` reads the tokens of both sides.
  - `checked` looks the references up; a group has to be in the table, a tag should have an
    owner if the document names tag owners at all.
  - `originated` makes origins of the blocks among the sources and drops ports there.
  - `expanded` puts the groups below each reference into its side.
-/

import Portcullis.Compiler.Failure
import Portcullis.Journal
import Portcullis.Membership
import Portcullis.Rule

namespace Portcullis.Compiler

open Portcullis.Text

/-- A problem of a rule; an error aborts the compilation. -/
structure Complaint where
  severity : Severity
  message : String
  token : Option String := none
  deriving DecidableEq, Repr

structure Verdict where
  rule : Rule
  complaints : List Complaint := []
  outcome : Except Failure Bool := .ok true

namespace Verdict

def reject (v : Verdict) (c : Complaint) : Verdict :=
  { v with complaints := v.complaints ++ [c], outcome := .ok false }

def warn (v : Verdict) (c : Complaint) : Verdict := { v with complaints := v.complaints ++ [c] }

def fail (v : Verdict) (f : Failure) : Verdict := { v with outcome := .error f }

/-- Adds an endpoint to a side of the rule. -/
def add (v : Verdict) (side : Side) (e : Endpoint) : Verdict :=
  match v.rule.add? side e with
  | some r => { v with rule := r }
  | none => v.fail .notAPort

/-- Goes on only where nothing has failed. -/
def unlessFailed (v : Verdict) (f : Verdict → Verdict) : Verdict :=
  match v.outcome with
  | .error _ => v
  | .ok _ => f v

/-- Works through a list, up to the first failure. -/
def each (v : Verdict) (xs : List α) (f : Verdict → α → Verdict) : Verdict :=
  xs.foldl (fun v x => v.unlessFailed (f · x)) v

/-- Judges the source side, then the destination side; the rule goes on if both sides do. -/
def ofBothSides (f : Side → Rule → Verdict) (r : Rule) : Verdict :=
  let first := f .source r
  match first.outcome with
  | .error _ => first
  | .ok a =>
    let second := f .destination first.rule
    { second with
      complaints := first.complaints ++ second.complaints
      outcome := second.outcome.map (a && ·) }

end Verdict

def noTokens (side : Side) : Complaint := ⟨.error, "Rule has no " ++ side.plural, none⟩

def malformed (u : Unclassified) : Complaint := ⟨.error, u.cause.message, some u.token⟩

def undefinedGroup (m : MissingGroup) : Complaint :=
  ⟨.error, "Group " ++ quote m.group ++ " is not defined", some m.token⟩

def unownedTag (name token : String) : Complaint :=
  ⟨.warning, "Tag " ++ quote name ++ " has no entry in tagOwners", some token⟩

def uselessPorts (token : String) : Complaint :=
  ⟨.warning, "Ports on a source have no effect and are ignored", some token⟩

/-- Reads one token of a side. -/
def classifyToken (side : Side) (v : Verdict) (token : Value) : Verdict :=
  match classify token with
  | .error u => if u.cause.isReported then v.reject (malformed u) else v.fail .notAPort
  | .ok e => v.add side e

def classifiedSide (side : Side) (r : Rule) : Verdict :=
  let v : Verdict := { rule := r }
  if r.tokens side = [] then v.reject (noTokens side) else v.each (r.tokens side) (classifyToken side)

def classified (r : Rule) : Verdict := Verdict.ofBothSides classifiedSide r

/-- Looks one endpoint up. -/
def checkEndpoint (table : Option Membership) (declared : List String) (v : Verdict) (e : Endpoint) : Verdict :=
  match e.target with
  | .block _ _ _ => v
  | .named .tag name =>
    if !declared.isEmpty && !declared.contains name then v.warn (unownedTag name e.token) else v
  | .named .group _ => match table with
    | none => v.fail .noGroupTable
    | some m => match m.require e with
      | .ok _ => v
      | .error missing => v.reject (undefinedGroup missing)

def checked (table : Option Membership) (declared : List String) (r : Rule) : Verdict :=
  Verdict.ofBothSides
    (fun side r => ({ rule := r } : Verdict).each (r.slot side).values (checkEndpoint table declared)) r

/-- A source as an origin of traffic on all ports. -/
def asOrigin (e : Endpoint) : Endpoint := (e.asOrigin?).getD (e.withPorts none)

def originate (v : Verdict) (e : Endpoint) : Verdict :=
  let v := if e.ports = none then v else v.warn (uselessPorts e.token)
  v.add .source (asOrigin e)

def originated (r : Rule) : Verdict :=
  ({ rule := r.withSlot .source ∅ } : Verdict).each r.sources.values originate

/-- The endpoints that stand for one endpoint of a side. -/
def expandEndpoint (table : Option Membership) (side : Side) (v : Verdict) (e : Endpoint) : Verdict :=
  match e.target with
  | .block _ _ _ => v.add side e
  | .named _ _ => match table with
    | none => v.fail .noGroupTable
    | some m => v.each (m.expand e) (·.add side ·)

def expanded (table : Option Membership) (r : Rule) : Verdict :=
  Verdict.ofBothSides
    (fun side r =>
      ({ rule := r.withSlot side ∅ } : Verdict).each (r.slot side).values (expandEndpoint table side)) r

end Portcullis.Compiler

/-
  Portcullis.Compiler.Compilation — the state of one compilation, and what it does outside
  the chain of stages: reading the group table before, declaring objects afterwards.

  `book` holds every working rule that was ever made; a rule is known by its place there.
-/

import Portcullis.Compiler.Verdict
import Portcullis.Declaration.Emit
import Portcullis.Log

namespace Portcullis.Compiler

/-- The place of a working rule in the book. -/
abbrev RuleId := Nat

structure Compilation where
  document : Document
  options : Options := {}
  graph : Graph := {}
  /-- The group table, once it is read. -/
  membership : Option Membership := none
  /-- The names of the tags that have owners. -/
  declaredTags : List String := []
  book : List Rule := []
  /-- The rules of the document, once they are loaded. -/
  rules : List RuleId := []
  journal : Journal := {}
  log : List LogLine := []

namespace Compilation

def record (c : Compilation) (d : Diagnostic) : Compilation := { c with journal := c.journal.record d }

/-- Marks the compilation as aborted. -/
def abort (c : Compilation) : Compilation := { c with journal := c.journal.abort }

/-- Records an error and marks the compilation as aborted. -/
def abortWith (c : Compilation) (d : Diagnostic) : Compilation := c.abort.record d

def info (c : Compilation) (message : String) : Compilation :=
  { c with log := c.log ++ [⟨.info, message⟩] }

/-- Records the complaints about a rule. -/
def complain (c : Compilation) (index : Int) (complaints : List Complaint) : Compilation :=
  complaints.foldl
    (fun c p =>
      let d : Diagnostic := ⟨p.severity, p.message, some index, p.token⟩
      if p.severity = .error then c.abortWith d else c.record d) c

/-- Writes working rules into the book. -/
def enter (c : Compilation) (rules : List Rule) : Compilation × List RuleId :=
  ({ c with book := c.book ++ rules }, (List.range rules.length).map (c.book.length + ·))

def rule? (c : Compilation) (id : RuleId) : Option Rule := c.book[id]?

def setRule (c : Compilation) (id : RuleId) (r : Rule) : Compilation := { c with book := c.book.set id r }

/-! ## Before the stages -/

/-- The names of the tags among the entries of the tag owners. -/
def tagNames : List String → Except Unclassified (List String)
  | [] => .ok []
  | name :: rest =>
    if (Classify.marker .tag).isPrefixOf name.toList then
      match classifyMemberText name with
      | .error u => .error u
      | .ok e => (tagNames rest).map (e.name :: ·)
    else tagNames rest

/-- Records membership: every group of the table and every member becomes a node, and each
    member leads to its groups. -/
def foldMembership (g : Graph) (m : Membership) : Graph :=
  m.groups.values.foldl
    (fun g group => group.members.foldl (fun g e => g.link e group.self) (g.addNode group.self)) g

def badEntry (u : Unclassified) : Diagnostic :=
  { severity := .error
    message := "Invalid group table entry " ++ Text.quote u.token ++ ": " ++ u.cause.message }

/-- An entry that cannot be read aborts, or it stops the compilation. -/
def refuse (c : Compilation) (u : Unclassified) : Compilation × Except Failure Nat :=
  if u.cause.isReported then (c.abortWith (badEntry u), .ok 0) else (c, .error .notAPort)

/-- Reads the group table and the tag owners and loads the rules. Gives the number of rules to
    compile. -/
def prolog (c : Compilation) : Compilation × Except Failure Nat :=
  match Membership.ofTable c.document.groups c.options.expansionDepth with
  | .error u => c.refuse u
  | .ok m =>
    let c := { c with membership := some m }
    match tagNames c.document.tagOwners.keys with
    | .error u => c.refuse u
    | .ok tags =>
      let c := { c with declaredTags := tags, graph := foldMembership c.graph m }
      let (c, ids) := c.enter (c.document.rules.map Rule.ofAccessRule)
      ({ c with rules := ids }, .ok ids.length)

/-! ## After the stages -/

/-- The declarations, or nothing after an error. -/
def epilog (c : Compilation) : Except Failure (Option Output) :=
  if c.journal.aborted || c.journal.status = .error then .ok none
  else match c.graph.emit? c.membership c.options with
    | some o => .ok (some o)
    | none => .error .noGroupTable

/-! ## Log lines -/

/-- A rule in one line, with one more line for each problem of it. -/
def shownRule? (c : Compilation) (r : Rule) : Option String :=
  match r.shownSide? .source, r.shownSide? .destination with
  | some source, some destination =>
    let protocol := r.protocol.elim "-" Protocol.text
    let head := r.label ++ " " ++ r.action.text ++ " " ++ protocol ++ " src=[" ++ source ++ "] dst=[" ++
      destination ++ "]"
    let policies := if r.policyKeys = [] then "" else " policies=[" ++ " ".intercalate r.policyKeys ++ "]"
    let problems := (c.journal.ofRule r.index).map fun d => "\n    " ++ d.severity.text ++ ": " ++ d.message
    some (head ++ policies ++ String.join problems)
  | _, _ => none

/-- The line above the rules that leave a stage. -/
def stageHeader (stage : String) : String :=
  "--- " ++ stage ++ " " ++ String.ofList (List.replicate (max 1 (74 - stage.length)) '-')

/-- Logs the selected ones of a list of rules. -/
def logRules (c : Compilation) : List RuleId → Except Failure Unit × Compilation
  | [] => (.ok (), c)
  | id :: rest => match c.rule? id with
    | none => logRules c rest
    | some r =>
      if c.options.debugRule = -1 || c.options.debugRule = r.index then
        match c.shownRule? r with
        | none => (.error .tokenNotText, c)
        | some line => logRules (c.info line) rest
      else logRules c rest

end Compilation

end Portcullis.Compiler

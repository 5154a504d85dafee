/-
  Portcullis.Document.Reader — reading a policy document from a value, and from the bytes of
  a file.

  Only the shape is looked at: which parts are tables, lists and texts, and which words name
  actions and protocols. The first part that has another shape is named by its place; only
  where a message would show a number of too many digits, nothing is reported. A section with
  an unknown name is passed over with a warning.

  The value is opened layer by layer, and no deeper than a document goes. So a value may well
  contain itself.
-/

import Portcullis.Document
import Portcullis.Log
import Portcullis.Text.Lines
import Portcullis.Value.Layer
import Portcullis.Value.Shown
import Portcullis.Yaml.Read

namespace Portcullis

namespace Document

/-! ## Faults -/

/-- One step into a value: to an entry of a map or an item of a list. -/
inductive Step where
  | field (name : String)
  | item (index : Nat)
  deriving DecidableEq, Repr

/-- A place in a document, from the root on. -/
abbrev Path := List Step

namespace Path

/-- The steps after the first one. -/
def textInside : Path → String
  | [] => ""
  | .field name :: p => "." ++ name ++ textInside p
  | .item i :: p => "[" ++ toString i ++ "]" ++ textInside p

def text : Path → String
  | .field name :: p => name ++ textInside p
  | p => textInside p

end Path

/-- What a part of a document should have been. -/
inductive Problem where
  | rootNotMap
  /-- A part of another type than the one wanted. -/
  | notA (wanted found : String)
  | invalidName (found : Value)
  | invalidAction (found : Value)
  | invalidProtocol (found : Value)
  /-- A value in place of one of these, and its text cannot be written. -/
  | unwritable

namespace Problem

/-- Whether the problem is reported with its place; the other one stops whoever reads. -/
def isReported : Problem → Bool
  | .unwritable => false
  | _ => true

def message : Problem → String
  | .rootNotMap => "document root must be a mapping"
  | .notA wanted found => "expected a " ++ wanted ++ ", got " ++ found
  | .invalidName found => "invalid name " ++ found.shown
  | .invalidAction found => "invalid action " ++ found.shown
  | .invalidProtocol found => "invalid protocol " ++ found.shown
  | .unwritable => ""

end Problem

/-- A part of a document that has not the shape it should have. -/
structure ShapeFault where
  path : Path
  problem : Problem

namespace ShapeFault

def message (f : ShapeFault) : String :=
  if f.path.text = "" then f.problem.message else f.path.text ++ ": " ++ f.problem.message

end ShapeFault

/-- What is read from a part of a document. -/
abbrev Shaped (α : Type) := Except ShapeFault α

def misshapen (path : Path) (problem : Problem) : Shaped α := .error ⟨path, problem⟩

/-! ## Parts -/

variable {α : Type} [Layered α]

open Layered (layer value)

/-- The items of a list of texts, the first of which has an index. -/
def textItems (path : Path) (index : Nat) : List α → Shaped (List Value)
  | [] => .ok []
  | v :: vs => match layer v with
    | .scalar (.text s) => return .text s :: (← textItems path (index + 1) vs)
    | l => misshapen (path ++ [.item index]) (.notA "string" l.typeName)

def textList (path : Path) (v : α) : Shaped (List Value) :=
  match layer v with
  | .list items => textItems path 0 items
  | l => misshapen path (.notA "list" l.typeName)

/-- The entries of a table of names. -/
def nameEntries (path : Path) : List (Value × α) → Shaped (List (String × List Value))
  | [] => .ok []
  | (.text name, v) :: es =>
    if name = "" then misshapen path (.invalidName (.text name))
    else do
      let items ← textList (path ++ [.field name]) v
      return (name, items) :: (← nameEntries path es)
  | (k, _) :: _ => misshapen path (if k.writable then .invalidName k else .unwritable)

/-- A table of names; nothing stands for an empty one. -/
def nameTable (path : Path) : Option α → Shaped NameTable
  | none => .ok ∅
  | some v => match layer v with
    | .scalar .null => .ok ∅
    | .map entries => (nameEntries path entries).map Table.ofList
    | l => misshapen path (.notA "mapping" l.typeName)

/-- The text of a value, without regard to case. No letter outside ASCII has a letter of an
    action or a protocol as its small form. -/
def wordOf (v : Value) : String := String.ofList (v.plain.toList.map Char.toLower)

/-- Reads the word that a value is written as. -/
def word {β : Type} (path : Path) (read : String → Option β) (invalid : Value → Problem) (v : Value) : Shaped β :=
  if v.writable then (read (wordOf v)).elim (misshapen path (invalid v)) .ok else misshapen path .unwritable

def action (path : Path) (v : Option Value) : Shaped Action :=
  word (path ++ [.field "action"]) Action.ofText? .invalidAction (v.getD .null)

/-- The protocol of a rule; a value that is not set stands for none. -/
def protocol (path : Path) (v : Option Value) : Shaped (Option Protocol) :=
  match v.filter Value.isTruthy with
  | none => .ok none
  | some v => (word (path ++ [.field "proto"]) Protocol.ofText? .invalidProtocol v).map some

/-- The tokens of one side of a rule; a side that is missing has none. -/
def side (path : Path) (name : String) (v : Option α) : Shaped (List Value) :=
  v.elim (.ok []) (textList (path ++ [.field name]))

def rule (index : Nat) (v : α) : Shaped AccessRule :=
  let path : Path := [.field "acls", .item index]
  match layer v with
  | .map entries => do
    let action ← action path ((Value.get? "action" entries).map value)
    let protocol ← protocol path ((Value.get? "proto" entries).map value)
    let sources ← side path "src" (Value.get? "src" entries)
    let destinations ← side path "dst" (Value.get? "dst" entries)
    return { index, action, sources, destinations, protocol }
  | l => misshapen path (.notA "mapping" l.typeName)

/-- The rules of a list, the first of which has an index. -/
def rulesFrom (index : Nat) : List α → Shaped (List AccessRule)
  | [] => .ok []
  | v :: vs => do return (← rule index v) :: (← rulesFrom (index + 1) vs)

/-- The list of rules; nothing stands for an empty one. -/
def rulesOf : Option α → Shaped (List AccessRule)
  | none => .ok []
  | some v => match layer v with
    | .scalar .null => .ok []
    | .list vs => rulesFrom 0 vs
    | l => misshapen [.field "acls"] (.notA "list" l.typeName)

/-! ## Documents -/

def sections : List String := ["groups", "tagOwners", "acls"]

/-- The warnings about sections that have no known name. There is none where the name cannot be
    written. -/
def unknownSections (entries : List (Value × α)) : List LogLine :=
  let unknown := (entries.map Prod.fst).filter fun k => !sections.any fun s => Value.sameKey k (.text s)
  (unknown.filter Value.writable).map fun k => ⟨.warning, "Ignoring unknown top-level section: " ++ k.plain⟩

/-- Reads a document from the entries of its root. -/
def ofEntries (entries : List (Value × α)) : Shaped Document := do
  let groups ← nameTable [.field "groups"] (Value.get? "groups" entries)
  let tagOwners ← nameTable [.field "tagOwners"] (Value.get? "tagOwners" entries)
  let rules ← rulesOf (Value.get? "acls" entries)
  return { groups, rules, tagOwners }

/-- Reads a document from a value, with warnings. -/
def ofValue (v : α) : List LogLine × Shaped Document :=
  match layer v with
  | .map entries => (unknownSections entries, ofEntries entries)
  | _ => ([], misshapen [] .rootNotMap)

/-! ## Files -/

/-- Why a file holds no document. -/
inductive FileFault where
  /-- The bytes are no text. -/
  | encoding
  | yaml (f : Yaml.Fault)
  | shape (f : ShapeFault)

/-- The message about a file that cannot be parsed at all. -/
def unparsable (name : String) : String := name ++ ": cannot parse document"

/-- Reads a document from the bytes of a file, with warnings. -/
def ofBytes (bytes : ByteArray) : List LogLine × Except FileFault Document :=
  match String.fromUTF8? bytes with
  | none => ([], .error .encoding)
  | some text => match Yaml.read (Text.unifyBreaks text.toList) with
    | .error f => ([], .error (.yaml f))
    | .ok v =>
      let (log, d) := ofValue v
      (log, d.mapError .shape)

end Document

end Portcullis

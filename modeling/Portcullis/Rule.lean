/-
  Portcullis.Rule — the working copy of a rule during compilation.

  Each side of a rule holds the tokens as written and, once they are read, the endpoints by
  key in the order of their first token. Endpoints of one key are one entry: the first one
  stays, with the union of the port restrictions.
-/

import Portcullis.Document
import Portcullis.Endpoint

namespace Portcullis

inductive Side where
  | source
  | destination
  deriving DecidableEq, Repr

/-- What stands on a side, in messages. -/
def Side.plural : Side → String
  | .source => "sources"
  | .destination => "destinations"

/-- The endpoints on one side of a rule. -/
abbrev Slot := Table Endpoint

namespace Slot

/-- Adds an endpoint; `none` if the port restrictions cannot be united. -/
def add? (slot : Slot) (e : Endpoint) : Option Slot :=
  match slot.get? e.key with
  | none => some (slot.insert e.key e)
  | some old => (Ports.merge? old.ports e.ports).map fun ports =>
    if ports = old.ports then slot else slot.insert e.key (old.withPorts ports)

end Slot

structure Rule where
  index : Int
  action : Action
  protocol : Option Protocol
  sourceTokens : List Value
  destinationTokens : List Value
  sources : Slot := ∅
  destinations : Slot := ∅
  /-- The keys of the policies that the rule produced. -/
  policyKeys : List String := []

namespace Rule

def ofAccessRule (r : AccessRule) : Rule :=
  { index := r.index, action := r.action, protocol := r.protocol, sourceTokens := r.sources,
    destinationTokens := r.destinations }

def label (r : Rule) : String := "#" ++ toString r.index

def tokens (r : Rule) : Side → List Value
  | .source => r.sourceTokens
  | .destination => r.destinationTokens

def slot (r : Rule) : Side → Slot
  | .source => r.sources
  | .destination => r.destinations

def withSlot (r : Rule) (side : Side) (slot : Slot) : Rule :=
  match side with
  | .source => { r with sources := slot }
  | .destination => { r with destinations := slot }

def add? (r : Rule) (side : Side) (e : Endpoint) : Option Rule :=
  (Slot.add? (r.slot side) e).map (r.withSlot side)

def groups (r : Rule) (side : Side) : List Endpoint := (r.slot side).values.filter Endpoint.isGroup

def resources (r : Rule) (side : Side) : List Endpoint :=
  (r.slot side).values.filter fun e => !e.isGroup

/-- The texts of a list of tokens, if all of them are texts. -/
def texts? : List Value → Option (List String)
  | [] => some []
  | .text s :: vs => (texts? vs).map (s :: ·)
  | _ :: _ => none

/-- What a log line shows of a side: the keys of its endpoints or, while it has none, its
    tokens. There is no such line for tokens that are not texts. -/
def shownSide? (r : Rule) (side : Side) : Option String :=
  let keys := (r.slot side).keys
  if keys = [] then (texts? (r.tokens side)).map (" ".intercalate ·) else some (" ".intercalate keys)

end Rule

end Portcullis

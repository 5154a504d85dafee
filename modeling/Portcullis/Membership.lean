/-
  Portcullis.Membership — the group table of a document, read and merged, and the expansion
  of a reference along it.

  Entries whose names have one key are one group. A group keeps the first spelling of its
  name and lists each member once, in the order of the table.
  - `expand` lists a reference and the groups below it, depth first, each group once. A group
    is visited where it is first met, so a bound on the depth cuts off what lies below that
    place. Everything listed has the port restriction of the reference.
-/

import Portcullis.Classify
import Portcullis.Document

namespace Portcullis

/-- A group with its members; none of them carries ports. -/
structure Group where
  self : Endpoint
  members : List Endpoint
  deriving DecidableEq, Repr

/-- A member is listed where its key first occurs. -/
def Group.addMember (g : Group) (e : Endpoint) : Group :=
  if g.members.any fun m => m.key = e.key then g else { g with members := g.members ++ [e] }

/-- The groups of a table by key, and how deep a reference is expanded. -/
structure Membership where
  groups : Table Group
  depth : Option Nat

/-- A reference to a group that the table does not have. -/
structure MissingGroup where
  token : String
  group : String
  deriving DecidableEq, Repr

def MissingGroup.message (m : MissingGroup) : String :=
  "Group " ++ Text.quote m.group ++ " referenced by " ++ Text.quote m.token ++ " is not defined"

namespace Membership

/-- Reads entries of the table in order; the first one that is malformed decides the error. -/
def readMembers : List Value → Except Unclassified (List Endpoint)
  | [] => .ok []
  | v :: vs => match classifyMember v with
    | .error u => .error u
    | .ok e => (readMembers vs).map (e :: ·)

/-- Adds one line of the table. -/
def addEntry (groups : Table Group) (name : String) (members : List Value) :
    Except Unclassified (Table Group) :=
  match classifyMemberText name with
  | .error u => .error u
  | .ok parent => (readMembers members).map fun es =>
    let group := (groups.get? parent.key).getD ⟨parent, []⟩
    groups.insert parent.key (es.foldl Group.addMember group)

def addEntries (groups : Table Group) : List (String × List Value) → Except Unclassified (Table Group)
  | [] => .ok groups
  | (name, members) :: rest => match addEntry groups name members with
    | .error u => .error u
    | .ok groups => addEntries groups rest

def ofTable (table : NameTable) (depth : Option Nat) : Except Unclassified Membership :=
  (addEntries ∅ table.toList).map fun groups => ⟨groups, depth⟩

def hasGroup (m : Membership) (e : Endpoint) : Bool := m.groups.contains e.key

/-- The immediate members of a group; none for what is not in the table. -/
def membersOf (m : Membership) (key : String) : List Endpoint :=
  ((m.groups.get? key).map Group.members).getD []

/-- Passes a reference that names a group of the table. -/
def require (m : Membership) (e : Endpoint) : Except MissingGroup Unit :=
  if m.hasGroup e then .ok () else .error ⟨e.token, e.name⟩

/-- The keys of all members of all groups. -/
def memberKeys (m : Membership) : List String := (m.groups.values.flatMap Group.members).map Endpoint.key

/-- Whether what is `level` steps below the reference may be expanded further. -/
def mayDescend (m : Membership) (level : Nat) : Bool := m.depth.all (level < ·)

/-- The members of a group as pending visits one step further down. -/
def below (m : Membership) (key : String) (level : Nat) : List (Endpoint × Nat) :=
  if m.mayDescend level then (m.membersOf key).map fun e => (e, level + 1) else []

def without (keys : List String) (key : String) : List String := keys.filter (· ≠ key)

theorem length_without_lt {keys : List String} {key : String} (h : key ∈ keys) :
    (without keys key).length < keys.length :=
  List.length_filter_lt_length_iff_exists.2 ⟨key, h, by simp⟩

/-- Visits pending members in order, each with its distance from the reference. `free` holds
    the keys that were not visited yet; what is below a member is visited before the next. -/
def visit (m : Membership) (free : List String) (pending : List (Endpoint × Nat)) : List Endpoint :=
  match pending with
  | [] => []
  | (e, level) :: rest =>
    if e.key ∈ free then e :: m.visit (without free e.key) (m.below e.key level ++ rest)
    else m.visit free rest
termination_by (free.length, pending.length)
decreasing_by
  · exact Prod.Lex.left _ _ (length_without_lt ‹_›)
  · exact Prod.Lex.right _ (by simp)

/-- A reference and the groups below it down to the depth of the table. -/
def expand (m : Membership) (e : Endpoint) : List Endpoint :=
  e :: (m.visit (without m.memberKeys e.key) (m.below e.key 0)).map (·.withPorts e.ports)

/-- Everything that is listed has the ports of the reference. -/
theorem ports_of_mem_expand {m : Membership} {e x : Endpoint} (h : x ∈ m.expand e) : x.ports = e.ports := by
  rcases List.mem_cons.mp h with rfl | h
  · rfl
  · obtain ⟨y, -, rfl⟩ := List.mem_map.mp h
    rfl

end Membership

end Portcullis

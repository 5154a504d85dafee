/-
  Portcullis.Ports — port restrictions.

  A restriction is either none at all (every port) or a list of ports and port ranges in
  their text form, without repetition and in increasing order of (first, last).
  - `parse?` reads the list that stands at the end of an endpoint token.
  - `merge?` unites two restrictions; no restriction absorbs everything. It fails on a text
    that is no port, which only a list built by hand can hold.
-/

import Portcullis.Number.Integer
import Portcullis.Text.Quoted
import Portcullis.Text.Split

namespace Portcullis

open Portcullis.Text Portcullis.Number

/-- The value `none` stands for every port. -/
abbrev Ports := Option (List String)

/-- A run of ports from `first` to `last`. -/
structure PortRange where
  first : Nat
  last : Nat
  deriving DecidableEq, Repr

namespace PortRange

def highest : Nat := 65535

def valid (r : PortRange) : Bool := 1 ≤ r.first && r.first ≤ r.last && r.last ≤ highest

/-- A single port stands alone, a longer run as its two ends. -/
def text (r : PortRange) : String :=
  if r.first = r.last then toString r.first else toString r.first ++ "-" ++ toString r.last

/-- The order in which ports are listed: by the first port, then by the last. -/
def before (a b : PortRange) : Bool := a.first < b.first || (a.first = b.first && a.last < b.last)

/-- Inserts a range into an ordered list that holds no range twice. -/
def insert (r : PortRange) : List PortRange → List PortRange
  | [] => [r]
  | q :: qs => if r = q then q :: qs else if r.before q then r :: q :: qs else q :: insert r qs

/-- The ordered list of the ranges of a list, each once. -/
def normal (rs : List PortRange) : List PortRange := rs.foldr insert []

/-- One line break at the end of a port is passed over. -/
def dropFinalBreak (cs : List Char) : List Char :=
  if cs.getLast? = some '\n' then cs.dropLast else cs

/-- The digits of both ends: of digits alone, or of digits, a hyphen and digits. -/
def ends? (cs : List Char) : Option (List Char × List Char) :=
  let body := dropFinalBreak cs
  let first := body.takeWhile isDigit
  if first = [] then none
  else match body.dropWhile isDigit with
    | [] => some (first, first)
    | '-' :: last => if last ≠ [] && last.all isDigit then some (first, last) else none
    | _ => none

end PortRange

namespace Ports

/-- What is wrong with a list of ports. -/
inductive Fault where
  | empty
  | malformed (item : String)
  | outOfRange (item : String)
  /-- An end has more digits than can be read. Nothing is said of it. -/
  | overlong
  deriving DecidableEq, Repr

def Fault.message : Fault → String
  | .empty => "Empty port list"
  | .malformed item => "Invalid port " ++ quote item
  | .outOfRange item => "Port out of range " ++ quote item
  | .overlong => ""

def parseItem (cs : List Char) : Except Fault PortRange :=
  match PortRange.ends? cs with
  | none => .error (.malformed (String.ofList cs))
  | some (first, last) =>
    let r : PortRange := ⟨digitsValue first, digitsValue last⟩
    if longest < first.length || longest < last.length then .error .overlong
    else if r.valid then .ok r
    else .error (.outOfRange (String.ofList cs))

theorem parseItem_eq_ok_iff {cs : List Char} {r : PortRange} :
    parseItem cs = .ok r ↔ ∃ first last, PortRange.ends? cs = some (first, last) ∧ first.length ≤ longest ∧
      last.length ≤ longest ∧ r = ⟨digitsValue first, digitsValue last⟩ ∧ r.valid = true := by
  unfold parseItem
  cases PortRange.ends? cs with
  | none => simp
  | some ends =>
    obtain ⟨first, last⟩ := ends
    simp only [Option.some.injEq, Prod.mk.injEq, and_assoc, exists_and_left, exists_eq_left']
    split
    · rename_i h
      simp only [Bool.or_eq_true, decide_eq_true_eq] at h
      exact iff_of_false nofun fun hq => by omega
    rename_i h
    simp only [Bool.or_eq_true, decide_eq_true_eq, not_or, Nat.not_lt] at h
    rw [and_iff_right h.1, and_iff_right h.2]
    split
    · rename_i hvalid
      exact ⟨fun hok => by cases hok; exact ⟨rfl, hvalid⟩, fun hq => by rw [hq.1]⟩
    · rename_i hvalid
      exact iff_of_false nofun fun hq => hvalid (hq.1 ▸ hq.2)

/-- The items of a list, or the first fault. -/
def parseItems : List (List Char) → Except Fault (List PortRange)
  | [] => .ok []
  | cs :: r => match parseItem cs with
    | .error e => .error e
    | .ok p => match parseItems r with
      | .error e => .error e
      | .ok ps => .ok (p :: ps)

theorem parseItems_cons {p : List Char} {ps : List (List Char)} {rs : List PortRange} :
    parseItems (p :: ps) = .ok rs ↔ ∃ r rs', parseItem p = .ok r ∧ parseItems ps = .ok rs' ∧ rs = r :: rs' := by
  simp only [parseItems]
  cases parseItem p with
  | error f => simp
  | ok r => cases parseItems ps <;> simp [eq_comm]

/-- The port list after an address or a name; an asterisk or no list at all means every port. -/
def parse? : Option (List Char) → Except Fault Ports
  | none => .ok none
  | some ['*'] => .ok none
  | some [] => .error .empty
  | some cs => match parseItems (pieces ',' cs) with
    | .error e => .error e
    | .ok rs => .ok (some ((PortRange.normal rs).map PortRange.text))

/-- A list is read from its items. -/
theorem parse?_eq_list_iff {cs : List Char} {l : List String} :
    parse? (some cs) = .ok (some l) ↔
      ∃ rs, parseItems (pieces ',' cs) = .ok rs ∧ l = (PortRange.normal rs).map PortRange.text := by
  unfold parse?
  split
  · rename_i h
    cases h
  · rename_i h
    cases h
    exact iff_of_false (by simp) (by rintro ⟨rs, h, -⟩; cases h)
  · rename_i h
    cases h
    exact iff_of_false (by simp) (by rintro ⟨rs, h, -⟩; cases h)
  · rename_i cs _ _ h
    cases h
    cases parseItems (pieces ',' cs) <;> simp [eq_comm]

/-- The two ends of a port text, as whole numbers; a missing end is the start. -/
def sortKey? (port : String) : Option (Int × Int) :=
  let cs := port.toList
  let first := Text.before '-' cs
  let last := match after? '-' cs with
    | none | some [] => first
    | some r => r
  match readInt? 10 first, readInt? 10 last with
  | some a, some b => some (a, b)
  | _, _ => none

def keyBefore (a b : Int × Int) : Bool := a.1 < b.1 || (a.1 = b.1 && a.2 < b.2)

/-- A port text with its key. -/
abbrev Keyed := String × (Int × Int)

/-- The order in which port texts are listed: by key; of two spellings of one range the
    shorter goes first. -/
def listedBefore (p q : Keyed) : Bool :=
  keyBefore p.2 q.2 ||
    (p.2 = q.2 && (p.1.length < q.1.length || (p.1.length = q.1.length && p.1 < q.1)))

/-- Inserts a port text into an ordered list that holds no text twice. -/
def insertKeyed (p : Keyed) : List Keyed → List Keyed
  | [] => [p]
  | q :: qs => if p = q then q :: qs else if listedBefore p q then p :: q :: qs else q :: insertKeyed p qs

/-- Each text of a list with its key, unless one is no port. -/
def withKeys? : List String → Option (List Keyed)
  | [] => some []
  | p :: ps => match sortKey? p, withKeys? ps with
    | some k, some r => some ((p, k) :: r)
    | _, _ => none

/-- The texts of a list in their order, each text once. -/
def sort? (ps : List String) : Option (List String) :=
  (withKeys? ps).map fun keyed => (keyed.foldr insertKeyed []).map Prod.fst

/-- The union of two restrictions. -/
def merge? : Ports → Ports → Option Ports
  | some a, some b => (sort? (a ++ b)).map some
  | _, _ => some none

/-- The order of port restrictions among the policies of one rule: none first, then by the
    keys of the ports, a list before its extensions. -/
def listBefore : List (Int × Int) → List (Int × Int) → Bool
  | [], [] => false
  | [], _ :: _ => true
  | _ :: _, [] => false
  | a :: as, b :: bs => keyBefore a b || (a = b && listBefore as bs)

end Ports

end Portcullis

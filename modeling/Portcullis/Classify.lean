/-
  Portcullis.Classify — reading an endpoint token.

    token   = reference | block
    reference = ("group:" | "tag:") name [ ":" ports ]
    block   = address [ "/" mask ] [ ":" ports ]
    ports   = "*" | port { "," port }
    port    = number [ "-" number ]

  A block without a mask is a single address. A block whose text ends in `/32` is a host, any
  other a network. An asterisk in a name is spelled out.

  A number of too many digits is not reported as the fault of a token: the reading stops there,
  as it does where the text of a value that is no token cannot be written.
  - `classify` reads a token of a rule, `classifyMember` an entry of the group table.
-/

import Portcullis.Address
import Portcullis.Endpoint
import Portcullis.Value.Shown

namespace Portcullis

open Portcullis.Text

/-- Why a token is no endpoint. -/
inductive Malformation where
  | emptyEndpoint
  | surroundingBlank
  | emptyMember
  | missingName (space : Space)
  | missingAddress
  | ports (fault : Ports.Fault)
  | address (fault : Address.Fault)
  /-- The value is no text, and its own text cannot be written. -/
  | unwritable
  deriving DecidableEq, Repr

/-- Whether the cause is reported with the token; the others stop whoever reads the token. -/
def Malformation.isReported : Malformation → Bool
  | .ports .overlong | .unwritable => false
  | _ => true

def Malformation.message : Malformation → String
  | .emptyEndpoint => "Empty endpoint"
  | .surroundingBlank => "Endpoint has surrounding whitespace"
  | .emptyMember => "Empty group member"
  | .missingName s => "Missing " ++ s.text ++ " name"
  | .missingAddress => "Missing address"
  | .ports f => f.message
  | .address f => "Invalid IPv4 address (" ++ f.message ++ ")"
  | .unwritable => ""

/-- A token that is no endpoint, and why. -/
structure Unclassified where
  token : String
  cause : Malformation
  deriving DecidableEq, Repr

def Unclassified.message (u : Unclassified) : String := u.cause.message ++ ": " ++ quote u.token

namespace Classify

def marker (s : Space) : List Char := s.text.toList ++ [':']

/-- The text behind the marker of a reference, with its kind. -/
def reference? (cs : List Char) : Option (Space × List Char) :=
  if (marker .group).isPrefixOf cs then some (.group, cs.drop (marker .group).length)
  else if (marker .tag).isPrefixOf cs then some (.tag, cs.drop (marker .tag).length)
  else none

/-- What an asterisk in a name becomes. -/
def star : List Char := "star".toList

def parsePorts (token : String) (cs : Option (List Char)) : Except Unclassified Ports :=
  (Ports.parse? cs).mapError fun f => ⟨token, .ports f⟩

/-- Reads a reference from the text behind its marker. -/
def named (token : String) (space : Space) (body : List Char) : Except Unclassified Endpoint :=
  let name := before ':' body
  if name = [] then .error ⟨token, .missingName space⟩
  else match parsePorts token (after? ':' body) with
    | .error e => .error e
    | .ok ports => .ok ⟨.named space (String.ofList (replace '*' star name)), ports, token⟩

/-- The name of a block: its text with hyphens for dots and slashes. -/
def addressName (address : List Char) : List Char :=
  address.map fun c => if c = '.' || c = '/' then '-' else c

/-- The mask of a single address. -/
def single : List Char := ['/', '3', '2']

/-- The name of a host leaves its mask out. -/
def hostName (address : List Char) : List Char :=
  let name := addressName address
  if ['-', '3', '2'].isSuffixOf name then name.take (name.length - 3) else name

def completed (address : List Char) : List Char :=
  if address.contains '/' then address else address ++ single

def blockTarget (address : List Char) : Target :=
  if single.isSuffixOf address then
    .block .host (String.ofList (hostName address)) (String.ofList address)
  else .block .network (String.ofList (addressName address)) (String.ofList address)

/-- Reads a block of addresses. The ports are read before the address is looked at. -/
def block (token : String) (cs : List Char) : Except Unclassified Endpoint :=
  let address := before ':' cs
  if address = [] then .error ⟨token, .missingAddress⟩
  else match parsePorts token (after? ':' cs) with
    | .error e => .error e
    | .ok ports => match Block.parse (completed address) with
      | .error f => .error ⟨token, .address f⟩
      | .ok _ => .ok ⟨blockTarget (completed address), ports, token⟩

theorem parsePorts_eq_ok_iff (token : String) {cs : Option (List Char)} {ports : Ports} :
    parsePorts token cs = .ok ports ↔ Ports.parse? cs = .ok ports := by
  unfold parsePorts
  cases Ports.parse? cs with
  | error f => exact ⟨nofun, nofun⟩
  | ok p => exact ⟨fun h => by cases h; rfl, fun h => by cases h; rfl⟩

theorem named_eq_ok_iff {token : String} {space : Space} {body : List Char} {e : Endpoint} :
    named token space body = .ok e ↔
      before ':' body ≠ [] ∧ ∃ ports, Ports.parse? (after? ':' body) = .ok ports ∧
        e = ⟨.named space (String.ofList (replace '*' star (before ':' body))), ports, token⟩ := by
  simp only [named]
  split
  · rename_i h
    simp [h]
  · rename_i h
    rw [and_iff_right h]
    simp only [← parsePorts_eq_ok_iff token]
    cases parsePorts token (after? ':' body) <;> simp [eq_comm]

theorem block_eq_ok_iff {token : String} {cs : List Char} {e : Endpoint} :
    block token cs = .ok e ↔
      before ':' cs ≠ [] ∧ ∃ ports b, Ports.parse? (after? ':' cs) = .ok ports ∧
        Block.parse (completed (before ':' cs)) = .ok b ∧
        e = ⟨blockTarget (completed (before ':' cs)), ports, token⟩ := by
  simp only [block]
  split
  · rename_i h
    simp [h]
  · rename_i h
    rw [and_iff_right h]
    simp only [← parsePorts_eq_ok_iff token]
    cases parsePorts token (after? ':' cs) with
    | error u => simp
    | ok ports => cases Block.parse (completed (before ':' cs)) <;> simp [eq_comm]

end Classify

open Classify

/-- Reads a token given as text. -/
def classifyText (token : String) : Except Unclassified Endpoint :=
  let cs := token.toList
  if trimChars cs = [] then .error ⟨token, .emptyEndpoint⟩
  else if trimChars cs ≠ cs then .error ⟨token, .surroundingBlank⟩
  else match reference? cs with
    | some (space, body) => named token space body
    | none => block token cs

/-- A value that is no text, in place of a token. -/
def noToken (v : Value) (cause : Malformation) : Unclassified :=
  if v.writable then ⟨v.plain, cause⟩ else ⟨"", .unwritable⟩

/-- Reads a token of a rule; what is not a text is no endpoint. -/
def classify : Value → Except Unclassified Endpoint
  | .text s => classifyText s
  | v => .error (noToken v .emptyEndpoint)

/-- A token is read as a reference if it has a marker, and as a block if it has none. -/
theorem classify_eq_ok_iff {v : Value} {e : Endpoint} :
    classify v = .ok e ↔ ∃ token : String, v = .text token ∧ trimChars token.toList ≠ [] ∧
      trimChars token.toList = token.toList ∧
      ((∃ space body, reference? token.toList = some (space, body) ∧ named token space body = .ok e) ∨
        (reference? token.toList = none ∧ block token token.toList = .ok e)) := by
  cases v with
  | text token =>
    simp only [classify, classifyText, Value.text.injEq, exists_eq_left']
    by_cases hnil : trimChars token.toList = []
    · simp [hnil]
    by_cases htrim : trimChars token.toList = token.toList
    · rw [if_neg hnil, if_neg (not_not_intro htrim), and_iff_right hnil, and_iff_right htrim]
      cases reference? token.toList with
      | none => simp
      | some found =>
        refine ⟨fun h => .inl ⟨found.1, found.2, rfl, h⟩, ?_⟩
        rintro (⟨space, body, heq, h⟩ | ⟨heq, -⟩)
        · cases heq
          exact h
        · cases heq
    · simp [hnil, htrim]
  | _ => simp [classify]

/-- What is read keeps its token. -/
theorem token_of_classify {v : Value} {e : Endpoint} (h : classify v = .ok e) : v = .text e.token := by
  obtain ⟨token, rfl, -, -, ⟨space, body, -, hnamed⟩ | ⟨-, hblock⟩⟩ := classify_eq_ok_iff.mp h
  · obtain ⟨-, ports, -, rfl⟩ := named_eq_ok_iff.mp hnamed
    rfl
  · obtain ⟨-, ports, b, -, -, rfl⟩ := block_eq_ok_iff.mp hblock
    rfl

/-- Reads an entry of the group table given as text: a bare name is a group. Ports mean
    nothing there and are dropped. -/
def classifyMemberText (member : String) : Except Unclassified Endpoint :=
  let cs := member.toList
  if cs = [] then .error ⟨member, .emptyMember⟩
  else
    let (token, space, body) := match reference? cs with
      | some (space, body) => (member, space, body)
      | none => (String.ofList (marker .group ++ cs), .group, cs)
    (named token space body).map (·.withPorts none)

/-- Reads an entry of the group table. -/
def classifyMember : Value → Except Unclassified Endpoint
  | .text s => classifyMemberText s
  | v => .error (noToken v .emptyMember)

end Portcullis

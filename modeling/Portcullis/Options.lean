/-
  Portcullis.Options — the options of the compiler and of the program writer.

  Options are set from a mapping of names to values or from environment variables. Entries
  are taken in order, and the first one that cannot be taken decides the error. Some errors are
  not reported with the option: those of the last three kinds of `Options.Fault`.
-/

import Portcullis.Document
import Portcullis.Number.Integer
import Portcullis.Value.Shown

namespace Portcullis

open Portcullis.Text Portcullis.Number

structure Options where
  /-- How many levels of child groups a reference pulls in; `none` has no limit. -/
  expansionDepth : Option Nat := some 1
  /-- The protocol of a policy whose rule names none. -/
  defaultProtocol : Protocol := .tcp
  bidirectional : Bool := false
  /-- Whether the rules leaving each stage are logged. -/
  ruleDebug : Bool := false
  /-- The index of the one rule that is logged, or -1 for all. -/
  debugRule : Int := -1
  yamlIndent : Int := 2
  typePrefix : String := "netbird:resource"
  /-- The network that resources belong to. -/
  networkRef : Option String := none
  deriving DecidableEq, Repr

inductive OptionName where
  | expansionDepth
  | defaultProtocol
  | bidirectional
  | ruleDebug
  | debugRule
  | yamlIndent
  | typePrefix
  | networkRef
  deriving DecidableEq, Repr

namespace OptionName

/-- All options, in the order of their declaration. -/
def all : List OptionName :=
  [.expansionDepth, .defaultProtocol, .bidirectional, .ruleDebug, .debugRule, .yamlIndent, .typePrefix,
   .networkRef]

def text : OptionName → String
  | .expansionDepth => "expansion_depth"
  | .defaultProtocol => "default_protocol"
  | .bidirectional => "bidirectional"
  | .ruleDebug => "rule_debug"
  | .debugRule => "debug_rule"
  | .yamlIndent => "yaml_indent"
  | .typePrefix => "type_prefix"
  | .networkRef => "network_ref"

def ofKey? : Value → Option OptionName
  | .text s => all.find? fun o => o.text = s
  | _ => none

/-- The environment variable that sets the option. -/
def envName (o : OptionName) : String := "ACLFABRIK_" ++ String.ofList (o.text.toList.map Char.toUpper)

end OptionName

namespace Options

/-- Why a value does not suit an option. -/
inductive Misfit where
  | notWhole (value : Value)
  /-- A numeral of too many digits, and how many. -/
  | overlong (digits : Nat)
  | notANumber
  | negativeDepth (depth : Int)
  | notAProtocol (value : Value)

inductive Fault where
  | unknown (key : Value)
  | misfit (name : OptionName) (value : Value) (reason : Misfit)
  /-- The value is of a type that has no whole number at all. -/
  | wrongType
  /-- The value is infinite. -/
  | tooLarge
  /-- The text of the key or of the value cannot be written. -/
  | unwritable

/-- How much of an unreadable numeral a message shows. -/
def shownNumeral : Nat := 200

def Misfit.message : Misfit → String
  | .notWhole v =>
    "invalid literal for int() with base 10: " ++ String.ofList (v.shown.toList.take shownNumeral)
  | .overlong digits =>
    "Exceeds the limit (" ++ toString longest ++ " digits) for integer string conversion: value has " ++
      toString digits ++ " digits; use sys.set_int_max_str_digits() to increase the limit"
  | .notANumber => "cannot convert float NaN to integer"
  | .negativeDepth d => "expansion depth must not be negative, got " ++ toString d
  | .notAProtocol v => v.shown ++ " is not a valid Protocol"

def Fault.message : Fault → String
  | .unknown key => "Unknown compiler option: " ++ key.shown
  | .misfit name value reason =>
    "Invalid value " ++ value.shown ++ " for option " ++ quote name.text ++ ": " ++ reason.message
  | .wrongType | .tooLarge | .unwritable => ""

/-- A text without the blanks around it and in lower case. Only words of ASCII letters are
    compared with it, and no other character has one of their letters as its lower case. -/
def folded (s : String) : String := String.ofList ((trimChars s.toList).map Char.toLower)

/-- The words that switch an option off. -/
def offWords : List String := ["", "0", "false", "no", "off"]

/-- The words for an expansion without limit. -/
def unlimitedWords : List String := ["", "none", "all"]

def toFlag : Value → Bool
  | .text s => !offWords.contains (folded s)
  | v => v.isTruthy

/-- Reads the whole number of a text or of bytes, given as characters. -/
def toNumeral (name : OptionName) (v : Value) (cs : List Char) : Except Fault Int :=
  match readInt? 10 cs with
  | some n => .ok n
  | none => .error (.misfit name v ((excess? cs).elim (.notWhole v) .overlong))

/-- A whole number: of a text or of bytes by reading it, of a float by cutting it off. -/
def toWhole (name : OptionName) (v : Value) : Except Fault Int :=
  match v with
  | .bool b => .ok (if b then 1 else 0)
  | .int n => .ok n
  | .float x => match x.truncate? with
    | some n => .ok n
    | none => .error (if x.isInfinite then .tooLarge else .misfit name v .notANumber)
  | .text s => toNumeral name v s.toList
  | .bytes bs => toNumeral name v (charsOfBytes bs)
  | _ => .error .wrongType

/-- A fault that shows a value, unless its text cannot be written. -/
def showing (v : Value) (f : Fault) : Fault := if v.writable then f else .unwritable

def isUnlimited : Value → Bool
  | .null => true
  | .text s => unlimitedWords.contains (folded s)
  | _ => false

def toDepth (v : Value) : Except Fault (Option Nat) :=
  if isUnlimited v then .ok none
  else match toWhole .expansionDepth v with
    | .error e => .error e
    | .ok n =>
      if n < 0 then .error (showing v (.misfit .expansionDepth v (.negativeDepth n))) else .ok (some n.toNat)

def toProtocol (v : Value) : Except Fault Protocol :=
  let misfit : Fault := showing v (.misfit .defaultProtocol v (.notAProtocol v))
  match v with
  | .text s => (Protocol.ofText? s).elim (.error misfit) .ok
  | _ => .error misfit

def toText (v : Value) : Except Fault String := if v.writable then .ok v.plain else .error .unwritable

/-- A text, or nothing for null and the empty text. -/
def toOptionalText : Value → Except Fault (Option String)
  | .null => .ok none
  | v => (toText v).map fun s => if s = "" then none else some s

/-- Sets one option. -/
def set (o : Options) (name : OptionName) (v : Value) : Except Fault Options :=
  match name with
  | .expansionDepth => (toDepth v).map fun d => { o with expansionDepth := d }
  | .defaultProtocol => (toProtocol v).map fun p => { o with defaultProtocol := p }
  | .bidirectional => .ok { o with bidirectional := toFlag v }
  | .ruleDebug => .ok { o with ruleDebug := toFlag v }
  | .debugRule => (toWhole name v).map fun n => { o with debugRule := n }
  | .yamlIndent => (toWhole name v).map fun n => { o with yamlIndent := n }
  | .typePrefix => (toText v).map fun s => { o with typePrefix := s }
  | .networkRef => (toOptionalText v).map fun s => { o with networkRef := s }

/-- Sets the options of a list of entries, one after the other. -/
def setAll (o : Options) : List (Value × Value) → Except Fault Options
  | [] => .ok o
  | (key, value) :: rest => match OptionName.ofKey? key with
    | none => .error (showing key (.unknown key))
    | some name => match o.set name value with
      | .error e => .error e
      | .ok o => setAll o rest

/-- The options that a mapping sets, the others having their defaults. -/
def ofMapping (entries : List (Value × Value)) : Except Fault Options := setAll {} (Value.mapOf entries)

/-- The options that an environment sets; variables are taken in the order of the options. -/
def ofEnv (environment : Table String) : Except Fault Options :=
  setAll {} (OptionName.all.filterMap fun o =>
    (environment.get? o.envName).map fun s => (.text o.text, .text s))

end Options

end Portcullis

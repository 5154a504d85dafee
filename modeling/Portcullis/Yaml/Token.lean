/-
  Portcullis.Yaml.Token — the tokens of a YAML stream.

  Blocks are made explicit: a block list or map has a token where it starts and one where it
  ends, and a key has a token in front of it even where none is written.
-/

import Portcullis.Yaml.Fault

namespace Portcullis.Yaml

/-- A line that starts with a percent sign. -/
inductive Directive where
  /-- The version of YAML, of which only the first number counts. -/
  | version (major : Nat)
  /-- What a tag handle stands for. -/
  | handle (name uri : String)
  | other
  deriving DecidableEq, Repr

/-- A tag as it is written. -/
inductive TagText where
  /-- The whole tag. -/
  | whole (uri : String)
  /-- A handle and what follows it. -/
  | short (handle rest : String)
  deriving DecidableEq, Repr

inductive Token where
  | directive (d : Directive)
  | documentStart
  | documentEnd
  | streamEnd
  | blockListStart
  | blockMapStart
  | blockEnd
  | flowListStart
  | flowListEnd
  | flowMapStart
  | flowMapEnd
  /-- The hyphen before an item. -/
  | item
  | comma
  | key
  | value
  | alias (name : String)
  | anchor (name : String)
  | tag (t : TagText)
  /-- A scalar, and whether it stands without quotes on the page. -/
  | scalar (text : List Char) (plain : Bool)
  /-- Behind this point the stream cannot be read. -/
  | fault (f : Fault)
  deriving DecidableEq, Repr

end Portcullis.Yaml

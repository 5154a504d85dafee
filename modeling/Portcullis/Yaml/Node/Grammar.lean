/-
  Portcullis.Yaml.Node.Grammar — the document that a list of tokens makes up.

  There is one function for each place where a node or a sequence of nodes can stand. What is
  missing is an empty scalar. An anchor names its node from there on, once only, also inside
  the node itself.
-/

import Portcullis.Yaml.Node
import Portcullis.Yaml.Token

namespace Portcullis.Yaml

/-- The nodes that anchors name. -/
abbrev Anchors := List (String × Ref)

namespace Anchors

def named? (as : Anchors) (name : String) : Option Ref := (as.find? fun e => e.1 = name).map Prod.snd

/-- Names a node; a name is free once only. -/
def name (as : Anchors) (anchor : Option String) (r : Ref) : Except Fault Anchors :=
  match anchor with
  | none => .ok as
  | some a => if (as.named? a).isSome then .error .malformed else .ok ((a, r) :: as)

end Anchors

/-- What is left to read, what has been named, and all nodes that have been begun. -/
structure Remaining where
  tokens : List Token
  anchors : Anchors := []
  nodes : Nodes := {}

/-- Where a node stands. -/
inductive Site where
  | block
  /-- A key or a value in a block map, which may be a list without an indent of its own. -/
  | entry
  | flow
  deriving DecidableEq, Repr

/-- What a token that does not fit is an error of. -/
def unexpected : List Token → Fault
  | .fault f :: _ => f
  | _ => .malformed

namespace Grammar

/-- The meanings of tag handles. -/
abbrev Handles := List (String × String)

/-- The handles that every document has. -/
def commonHandles : Handles := [("!", "!"), ("!!", Tag.standard)]

/-- The whole tag that is written. -/
def wholeTag (handles : Handles) : TagText → Except Fault String
  | .whole uri => .ok uri
  | .short handle rest => match (handles.find? fun e => e.1 = handle) with
    | some e => .ok (e.2 ++ rest)
    | none => .error .malformed

/-- The tag that leaves the type to the node. -/
def openTag : String := "!"

/-- An anchor and a tag in either order, and the tokens behind them. Behind the first of the
    two the other one is looked for, so what cannot be read there counts before anything that
    is wrong with the first. -/
def properties : List Token → Except Fault (Option String × Option TagText × List Token)
  | .anchor a :: .tag t :: r => .ok (some a, some t, r)
  | .tag t :: .anchor a :: r => .ok (some a, some t, r)
  | .anchor _ :: .fault f :: _ => .error f
  | .tag _ :: .fault f :: _ => .error f
  | .anchor a :: r => .ok (some a, none, r)
  | .tag t :: r => .ok (none, some t, r)
  | r => .ok (none, none, r)

/-- The type of a collection. -/
def collectionTag (tag : Option String) (default : Tag) : Tag :=
  match tag with
  | none => default
  | some t => if t = openTag then default else Tag.ofName t

/-- The type of a scalar, by its text unless it stands in quotes or has a tag. -/
def scalarTag (tag : Option String) (plain : Bool) (text : List Char) : Tag :=
  match tag with
  | none => if plain then implicitTag text else .text
  | some t => if t = openTag then implicitTag text else Tag.ofName t

/-- Adds a node that has no name. -/
def add (n : Node) (s : Remaining) : Ref × Remaining :=
  let (r, nodes) := s.nodes.add n
  (r, { s with nodes })

/-- Begins a node behind some tokens: it has its number and its name before its parts. -/
def start (anchor : Option String) (n : Node) (tokens : List Token) (s : Remaining) : Except Fault (Ref × Remaining) := do
  let (r, s) := add n s
  let anchors ← s.anchors.name anchor r
  return (r, { s with tokens, anchors })

/-- Ends a list. -/
def endList (r : Ref) (items : List Ref) (s : Remaining) : Ref × Remaining :=
  (r, { s with nodes := s.nodes.set r (.list (s.nodes.tag r) items) })

/-- Ends a map. -/
def endMap (r : Ref) (entries : List (Ref × Ref)) (s : Remaining) : Ref × Remaining :=
  (r, { s with nodes := s.nodes.set r (.map (s.nodes.tag r) entries) })

/-- An alias. -/
def resolve (name : String) (s : Remaining) : Except Fault (Ref × Remaining) :=
  match s.anchors.named? name with
  | none => .error .malformed
  | some r => .ok (r, s)

/-- Where other tokens than content follow, an anchor or a tag alone is an empty scalar. -/
def empty (anchor tag : Option String) (tokens : List Token) (s : Remaining) : Except Fault (Ref × Remaining) :=
  match tokens with
  | .fault f :: _ => .error f
  | tokens =>
    if anchor.isSome || tag.isSome then start anchor (.scalar (scalarTag tag true []) []) tokens s
    else .error .malformed

/-- Skips the comma that stands before all but the first in brackets. -/
def separated (first : Bool) (tokens : List Token) : Except Fault (List Token) :=
  if first then .ok tokens
  else match tokens with
    | .comma :: r => .ok r
    | tokens => .error (unexpected tokens)

mutual

/-- A node that may be missing before the tokens of a kind. -/
def optional (handles : Handles) (fuel : Nat) (site : Site) (absent : Token → Bool) (s : Remaining) :
    Except Fault (Ref × Remaining) :=
  match fuel with
  | 0 => .error .malformed
  | n + 1 => if s.tokens.head?.any absent then .ok (add .nothing s) else node handles n site s

/-- A node. -/
def node (handles : Handles) (fuel : Nat) (site : Site) (s : Remaining) : Except Fault (Ref × Remaining) :=
  match fuel with
  | 0 => .error .malformed
  | n + 1 =>
    match s.tokens with
    | .alias name :: r => resolve name { s with tokens := r }
    | tokens => do
      let (anchor, written, tokens) ← properties tokens
      let tag ← match written with
        | none => .ok none
        | some t => (wholeTag handles t).map some
      match tokens with
      | .item :: _ =>
        if site = .entry then
          let (r, s) ← start anchor (.list (collectionTag tag .seq) []) tokens s
          let (items, s) ← indentless handles n s
          return endList r items s
        else empty anchor tag tokens s
      | .scalar text plain :: rest => start anchor (.scalar (scalarTag tag plain text) text) rest s
      | .flowListStart :: rest => do
        let (r, s) ← start anchor (.list (collectionTag tag .seq) []) rest s
        let (items, s) ← flowItems handles n true s
        return endList r items s
      | .flowMapStart :: rest => do
        let (r, s) ← start anchor (.map (collectionTag tag .map) []) rest s
        let (entries, s) ← flowEntries handles n true s
        return endMap r entries s
      | .blockListStart :: rest => do
        let (r, s) ← start anchor (.list (collectionTag tag .seq) []) rest s
        let (items, s) ← blockItems handles n s
        return endList r items s
      | .blockMapStart :: rest => do
        let (r, s) ← start anchor (.map (collectionTag tag .map) []) rest s
        let (entries, s) ← blockEntries handles n s
        return endMap r entries s
      | tokens => empty anchor tag tokens s

/-- The items of a block list. -/
def blockItems (handles : Handles) (fuel : Nat) (s : Remaining) : Except Fault (List Ref × Remaining) :=
  match fuel with
  | 0 => .error .malformed
  | n + 1 =>
    match s.tokens with
    | .item :: r => do
      let (item, s) ← optional handles n .block (fun t => t = .item || t = .blockEnd) { s with tokens := r }
      let (items, s) ← blockItems handles n s
      return (item :: items, s)
    | .blockEnd :: r => .ok ([], { s with tokens := r })
    | tokens => .error (unexpected tokens)

/-- The items of a list that has the indent of the map around it. -/
def indentless (handles : Handles) (fuel : Nat) (s : Remaining) : Except Fault (List Ref × Remaining) :=
  match fuel with
  | 0 => .error .malformed
  | n + 1 =>
    match s.tokens with
    | .item :: r => do
      let (item, s) ← optional handles n .block
        (fun t => t = .item || t = .key || t = .value || t = .blockEnd) { s with tokens := r }
      let (items, s) ← indentless handles n s
      return (item :: items, s)
    | _ => .ok ([], s)

/-- The entries of a block map. -/
def blockEntries (handles : Handles) (fuel : Nat) (s : Remaining) : Except Fault (List (Ref × Ref) × Remaining) :=
  match fuel with
  | 0 => .error .malformed
  | n + 1 =>
    match s.tokens with
    | .key :: r => do
      let isEnd (t : Token) : Bool := t = .key || t = .value || t = .blockEnd
      let (key, s) ← optional handles n .entry isEnd { s with tokens := r }
      let (value, s) ← afterKey handles n .entry isEnd s
      let (entries, s) ← blockEntries handles n s
      return ((key, value) :: entries, s)
    | .blockEnd :: r => .ok ([], { s with tokens := r })
    | tokens => .error (unexpected tokens)

/-- The value of a key, or nothing if there is no value. -/
def afterKey (handles : Handles) (fuel : Nat) (site : Site) (absent : Token → Bool) (s : Remaining) :
    Except Fault (Ref × Remaining) :=
  match fuel with
  | 0 => .error .malformed
  | n + 1 =>
    match s.tokens with
    | .value :: r => optional handles n site absent { s with tokens := r }
    | _ => .ok (add .nothing s)

/-- The items of a list in brackets. A key among them makes a map with this one entry. -/
def flowItems (handles : Handles) (fuel : Nat) (first : Bool) (s : Remaining) : Except Fault (List Ref × Remaining) :=
  match fuel with
  | 0 => .error .malformed
  | n + 1 => do
    match s.tokens with
    | .flowListEnd :: r => return ([], { s with tokens := r })
    | tokens =>
      let tokens ← separated first tokens
      let isEnd (t : Token) : Bool := t = .comma || t = .flowListEnd
      match tokens with
      | .flowListEnd :: r => return ([], { s with tokens := r })
      | .key :: r =>
        let (key, s) ← optional handles n .flow (fun t => t = .value || isEnd t) { s with tokens := r }
        let (value, s) ← afterKey handles n .flow isEnd s
        let (item, s) := add (.map .map [(key, value)]) s
        let (items, s) ← flowItems handles n false s
        return (item :: items, s)
      | _ =>
        let (item, s) ← node handles n .flow { s with tokens }
        let (items, s) ← flowItems handles n false s
        return (item :: items, s)

/-- The entries of a map in braces. What stands there without a colon is a key. -/
def flowEntries (handles : Handles) (fuel : Nat) (first : Bool) (s : Remaining) :
    Except Fault (List (Ref × Ref) × Remaining) :=
  match fuel with
  | 0 => .error .malformed
  | n + 1 => do
    match s.tokens with
    | .flowMapEnd :: r => return ([], { s with tokens := r })
    | tokens =>
      let tokens ← separated first tokens
      let isEnd (t : Token) : Bool := t = .comma || t = .flowMapEnd
      match tokens with
      | .flowMapEnd :: r => return ([], { s with tokens := r })
      | .key :: r =>
        let (key, s) ← optional handles n .flow (fun t => t = .value || isEnd t) { s with tokens := r }
        let (value, s) ← afterKey handles n .flow isEnd s
        let (entries, s) ← flowEntries handles n false s
        return ((key, value) :: entries, s)
      | _ =>
        let (key, s) ← node handles n .flow { s with tokens }
        let (value, s) := add .nothing s
        let (entries, s) ← flowEntries handles n false s
        return ((key, value) :: entries, s)

end

/-! ## Documents -/

/-- The directives before a document: the version, once, and handles, each once. The common
    handles keep their meaning unless they are given another one. -/
def directives (version : Bool) (handles : Handles) : List Token → Except Fault (Handles × List Token)
  | .directive d :: r => match d with
    | .version major =>
      if version || major != 1 then .error .malformed else directives true handles r
    | .handle name uri =>
      if handles.any fun e => e.1 = name then .error .malformed else directives version ((name, uri) :: handles) r
    | .other => directives version handles r
  | tokens => .ok (handles ++ commonHandles, tokens)

/-- More than there are tokens to read, at any depth. -/
def enough (tokens : List Token) : Nat := 4 * (tokens.length + 1)

def isMark : Token → Bool
  | .directive _ | .documentStart | .documentEnd | .streamEnd => true
  | _ => false

/-- The root of a document behind its start, or nothing. -/
def root (handles : Handles) (tokens : List Token) : Except Fault (Ref × Remaining) :=
  if tokens.head?.any isMark then .ok (add .nothing { tokens }) else node handles (enough tokens) .block { tokens }

/-- The document of a stream, of which there is one at most: its root and all its nodes. -/
def document (tokens : List Token) : Except Fault (Ref × Nodes) :=
  match tokens with
  | .streamEnd :: _ => .ok (({} : Nodes).add .nothing)
  | _ => do
    let explicit := tokens.head?.any fun t => t = .documentStart || t matches .directive _
    let (r, s) ← if explicit then do
        let (handles, tokens) ← directives false [] tokens
        match tokens with
        | .documentStart :: r => root handles r
        | tokens => .error (unexpected tokens)
      else node commonHandles (enough tokens) .block { tokens }
    match s.tokens.dropWhile (· = .documentEnd) with
    | .streamEnd :: _ => return (r, s.nodes)
    | tokens =>
      -- A second document begins, with its directives.
      let (_, tokens) ← directives false [] tokens
      .error (unexpected tokens)

end Grammar

end Portcullis.Yaml

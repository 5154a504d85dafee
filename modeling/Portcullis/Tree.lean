/-
  Portcullis.Tree — plain data: texts, flags, lists and tables whose keys are texts.
-/

import Portcullis.Value

namespace Portcullis

inductive Tree where
  | text (s : String)
  | flag (b : Bool)
  | list (items : List Tree)
  | table (entries : List (String × Tree))
  deriving Repr, Inhabited

namespace Tree

def texts (xs : List String) : Tree := .list (xs.map .text)

mutual

/-- The dynamic value that a tree stands for. -/
def toValue : Tree → Value
  | .text s => .text s
  | .flag b => .bool b
  | .list items => .list (itemValues items)
  | .table entries => .map (entryValues entries)

def itemValues : List Tree → List Value
  | [] => []
  | t :: ts => toValue t :: itemValues ts

def entryValues : List (String × Tree) → List (Value × Value)
  | [] => []
  | (k, t) :: es => (.text k, toValue t) :: entryValues es

end

end Tree

end Portcullis

/-
  Portcullis.Yaml.Read — reading the value of a YAML document.
-/

import Portcullis.Yaml.Built
import Portcullis.Yaml.Node.Grammar
import Portcullis.Yaml.Token.Stream

namespace Portcullis.Yaml

/-- The value of a document whose lines end with line feeds. -/
def read (cs : List Char) : Except Fault Strand :=
  if cs.all isAllowed then do
    let (root, nodes) ← Grammar.document (tokensOf cs)
    nodes.value root
  else .error .malformed

end Portcullis.Yaml

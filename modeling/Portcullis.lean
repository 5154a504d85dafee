import Portcullis.Compiler.Session
import Portcullis.Declaration.Program
import Portcullis.Document.Reader
import Portcullis.Proofs.Pulling
import Portcullis.Proofs.Numeral
import Portcullis.Proofs.Blocks
import Portcullis.Proofs.Keys
import Portcullis.Proofs.TokenGrammar
import Portcullis.Proofs.Hosts
import Portcullis.Proofs.Ports
import Portcullis.Proofs.Slots
import Portcullis.Proofs.Verdicts
import Portcullis.Proofs.Expansion
import Portcullis.Proofs.Frame
import Portcullis.Proofs.Course
import Portcullis.Proofs.Marks
import Portcullis.Proofs.Sweep
import Portcullis.Proofs.Drawing
import Portcullis.Proofs.Schedule
import Portcullis.Proofs.Outcome
import Portcullis.Proofs.Edges
import Portcullis.Proofs.Access
import Portcullis.Proofs.Storing
import Portcullis.Proofs.Lanes
import Portcullis.Proofs.PolicyTable
import Portcullis.Proofs.Nodes
import Portcullis.Proofs.Counterparts
import Portcullis.Proofs.TokenOrder
import Portcullis.Proofs.References
import Portcullis.Proofs.Declared
import Portcullis.Proofs.Appending
import Portcullis.Proofs.Composition
import Portcullis.Proofs.Loops
import Portcullis.Proofs.Debugging
import Portcullis.Proofs.Programs
import Portcullis.Proofs.Closure
import Portcullis.Proofs.Listing
import Portcullis.Proofs.Watching
import Portcullis.Proofs.Flow
import Portcullis.Proofs.InOrder
import Portcullis.Proofs.Acts
import Portcullis.Proofs.FailClosed
import Portcullis.Proofs.Origins
import Portcullis.Proofs.PolicyHistory
import Portcullis.Proofs.Duties
import Portcullis.Proofs.Links
import Portcullis.Proofs.Entries
import Portcullis.Proofs.Exact
import Portcullis.Proofs.GroupTable
import Portcullis.Proofs.Brevity
import Portcullis.Proofs.Merging
import Portcullis.Proofs.Mentions
import Portcullis.Proofs.Levels
import Portcullis.Proofs.TableOrder
import Portcullis.Proofs.Reach
import Portcullis.Proofs.Joined
import Portcullis.Proofs.Yaml.Runs
import Portcullis.Proofs.Yaml.Plain
import Portcullis.Proofs.Yaml.Quoted
import Portcullis.Proofs.Yaml.Ink
import Portcullis.Proofs.Yaml.Steps
import Portcullis.Proofs.Yaml.Signs
import Portcullis.Proofs.Yaml.Tokens
import Portcullis.Proofs.Yaml.Grammar
import Portcullis.Proofs.Yaml.Values
import Portcullis.Proofs.Yaml.Reading
import Portcullis.Proofs.Yaml.Consumed
import Portcullis.Proofs.Rendering
import Portcullis.Proofs.NormalForm
import Portcullis.Proofs.TagOwners
import Portcullis.Proofs.DocumentShape
import Portcullis.Proofs.OptionMapping

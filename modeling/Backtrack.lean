import Backtrack.Dynamic.Description
import Backtrack.Ebnf.Tools
import Backtrack.Main
import Backtrack.Regex.Cache
import Backtrack.Proofs.Parser.Erasure
import Backtrack.Proofs.Parser.Abort
import Backtrack.Proofs.Json.Printing
import Backtrack.Proofs.Xml.Printing
import Backtrack.Proofs.Calc.Evaluation
import Backtrack.Proofs.Parser.Locality
import Backtrack.Proofs.Parser.Tracing
import Backtrack.Proofs.Termination
import Backtrack.Proofs.Ebnf.Soundness
import Backtrack.Proofs.Json.Errors
import Backtrack.Proofs.Ebnf.Compilation
import Backtrack.Proofs.Ebnf.Acceptance
import Backtrack.Proofs.Json.Rereading
import Backtrack.Proofs.Xml.WellFormed
import Backtrack.Proofs.Commitment
import Backtrack.Proofs.Regex.Sharing
import Backtrack.Proofs.Parser.Classification
import Backtrack.Proofs.Ebnf.Links
import Backtrack.Proofs.Ebnf.Orders
import Backtrack.Proofs.Parser.Repetition
import Backtrack.Proofs.Json.Decoding
import Backtrack.Proofs.Positions
import Backtrack.Proofs.Errors
import Backtrack.Proofs.Parser.Separation
import Backtrack.Proofs.Regex.Anchoring
import Backtrack.Proofs.Parser.Literals
import Backtrack.Proofs.Parser.Nesting
import Backtrack.Proofs.Json.Nodes
import Backtrack.Proofs.Ebnf.Shape
import Backtrack.Proofs.Json.Lookup

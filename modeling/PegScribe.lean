import PegScribe.Main
import PegScribe.Proofs.Patterns
import PegScribe.Proofs.Places
import PegScribe.Proofs.Depth
import PegScribe.Proofs.Tries
import PegScribe.Proofs.Meaning
import PegScribe.Proofs.Memo
import PegScribe.Proofs.Derivation
import PegScribe.Proofs.Keeping
import PegScribe.Proofs.Lossless
import PegScribe.Proofs.Ledgers
import PegScribe.Proofs.Termination
import PegScribe.Proofs.Reading
import PegScribe.Proofs.Recording
import PegScribe.Proofs.Rendering
import PegScribe.Proofs.Methods
import PegScribe.Proofs.Linking
import PegScribe.Proofs.Lowered
import PegScribe.Proofs.Interpretation
import PegScribe.Proofs.Linkable
import PegScribe.Proofs.Bodies
import PegScribe.Proofs.Playing
import PegScribe.Proofs.Moves
import PegScribe.Proofs.Completeness
import PegScribe.Proofs.Shapes
import PegScribe.Proofs.Assertions
import PegScribe.Proofs.Shallow
import PegScribe.Proofs.Printing
import PegScribe.Proofs.Scanning
import PegScribe.Proofs.Instructions
import PegScribe.Proofs.RoundTrip
import PegScribe.Proofs.Alike
import PegScribe.Proofs.Histories
import PegScribe.Proofs.Coverage
import PegScribe.Proofs.Shifts
import PegScribe.Proofs.Contexts
import PegScribe.Proofs.Declarations
import PegScribe.Proofs.Leaks
import PegScribe.Proofs.Reordering
import PegScribe.Proofs.Independence
import PegScribe.Proofs.Order
import PegScribe.Proofs.Failures
import PegScribe.Proofs.Retries
import PegScribe.Proofs.Translation
import PegScribe.Proofs.Quoting
import PegScribe.Proofs.Wording
import PegScribe.Proofs.Laws
import PegScribe.Proofs.Precedence
import PegScribe.Proofs.Remembering
import PegScribe.Proofs.Replacing
import PegScribe.Proofs.Operators
import PegScribe.Proofs.Calls
import PegScribe.Proofs.Positions
import PegScribe.Proofs.Blame
import PegScribe.Proofs.Tables
import PegScribe.Proofs.Encoding
import PegScribe.Proofs.Endings
import PegScribe.Proofs.Partners
import PegScribe.Proofs.Inheritance
import PegScribe.Proofs.Newlines

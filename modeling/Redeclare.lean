import Redeclare.Main
import Redeclare.Proofs.Digits
import Redeclare.Proofs.Rounding
import Redeclare.Proofs.Nearest
import Redeclare.Proofs.Numbers
import Redeclare.Proofs.Grammar
import Redeclare.Proofs.Bytes
import Redeclare.Proofs.Literals
import Redeclare.Proofs.Steps
import Redeclare.Proofs.LineEnds
import Redeclare.Proofs.Contents
import Redeclare.Proofs.Numerals
import Redeclare.Proofs.RoundTrip
import Redeclare.Proofs.Derivations
import Redeclare.Proofs.Printed
import Redeclare.Proofs.Documents
import Redeclare.Proofs.Accepted
import Redeclare.Proofs.Located
import Redeclare.Proofs.Readable
import Redeclare.Proofs.Trees
import Redeclare.Proofs.Resolution
import Redeclare.Proofs.Names
import Redeclare.Proofs.Replacing
import Redeclare.Proofs.Atomicity
import Redeclare.Proofs.Edits
import Redeclare.Proofs.Parameters
import Redeclare.Proofs.Types
import Redeclare.Proofs.Depths
import Redeclare.Proofs.Overloads
import Redeclare.Proofs.Requests
import Redeclare.Proofs.Reopening
import Redeclare.Proofs.Batches
import Redeclare.Proofs.LateFailures
import Redeclare.Proofs.Frames
import Redeclare.Proofs.Histories
import Redeclare.Proofs.Repetition
import Redeclare.Proofs.Places
import Redeclare.Proofs.Locality
import Redeclare.Proofs.Reports
import Redeclare.Proofs.Log
import Redeclare.Proofs.ExitStatus
import Redeclare.Proofs.Interference
import Redeclare.Proofs.Order
import Redeclare.Proofs.Targets

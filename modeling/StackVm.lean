import StackVm.Binary.Writer
import StackVm.FileTree
import StackVm.Main
import StackVm.Proofs.Binary.Grammar
import StackVm.Proofs.Binary.Decoding
import StackVm.Proofs.Binary.LocalRuns
import StackVm.Proofs.Binary.Encoding
import StackVm.Proofs.Binary.RoundTrip
import StackVm.Proofs.Machine.Agreement
import StackVm.Proofs.Machine.Refinement
import StackVm.Proofs.Machine.Calls
import StackVm.Proofs.Machine.Layout
import StackVm.Proofs.Machine.Isolation
import StackVm.Proofs.Binary.Concatenation
import StackVm.Proofs.Binary.Frames
import StackVm.Proofs.Binary.Truncation
import StackVm.Proofs.Binary.Disturbance
import StackVm.Proofs.Leb128.Signed
import StackVm.Proofs.Leb128.Readings
import StackVm.Proofs.Leb128.Spellings
import StackVm.Proofs.Expression
import StackVm.Proofs.Machine.ControlFlow
import StackVm.Proofs.Machine.RunLength
import StackVm.Proofs.Machine.Room
import StackVm.Proofs.Machine.Budget
import StackVm.Proofs.Machine.Capacity
import StackVm.Proofs.Module.Validation
import StackVm.Proofs.Machine.TrailingBytes
import StackVm.Proofs.Binary.Positions
import StackVm.Proofs.Binary.Containment
import StackVm.Proofs.Binary.Refusals
import StackVm.Proofs.Binary.ErrorPlaces
import StackVm.Proofs.Binary.Prefixes
import StackVm.Proofs.Machine.Outcomes
import StackVm.Proofs.Machine.Values
import StackVm.Proofs.Module.ValidLookup
import StackVm.Proofs.Module.Coherence
import StackVm.Proofs.Binary.Accounting
import StackVm.Proofs.Binary.Declarations
import StackVm.Proofs.Machine.Discipline

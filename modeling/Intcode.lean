import Intcode.Main
import Intcode.Proofs.Loop.Visits
import Intcode.Proofs.Machine.Feeding
import Intcode.Proofs.Ring.Agreement
import Intcode.Proofs.Ring.Collect
import Intcode.Proofs.Ring.Deadlock
import Intcode.Proofs.Ring.Following
import Intcode.Proofs.Ring.Schedules
import Intcode.Proofs.Machine.Sessions
import Intcode.Proofs.Ideal.Basic
import Intcode.Proofs.Ideal.Decoding
import Intcode.Proofs.Ideal.Operands
import Intcode.Proofs.Ideal.Effects
import Intcode.Proofs.Ideal.Execution
import Intcode.Proofs.Ideal.Refinement
import Intcode.Proofs.Orderings.Successor
import Intcode.Proofs.Orderings.Advance
import Intcode.Proofs.Orderings.Listing
import Intcode.Proofs.Search.Candidates
import Intcode.Proofs.Search.Answers
import Intcode.Proofs.Search.Trials
import Intcode.Proofs.Search.Optimal
import Intcode.Proofs.Search.Validation
import Intcode.Proofs.Machine.Attempts
import Intcode.Proofs.Machine.Calls
import Intcode.Proofs.Machine.Failure
import Intcode.Proofs.Machine.Inputs
import Intcode.Proofs.Machine.Limits
import Intcode.Proofs.Machine.Faults
import Intcode.Proofs.Machine.Lifecycle
import Intcode.Proofs.Machine.Termination
import Intcode.Proofs.Ring.Termination
import Intcode.Proofs.Loop.Termination
import Intcode.Proofs.Search.Termination
import Intcode.Proofs.Loop.Tours
import Intcode.Proofs.Loop.Completion
import Intcode.Proofs.Loop.SingleShot
import Intcode.Proofs.Machine.Accounting
import Intcode.Proofs.Machine.Counter
import Intcode.Proofs.Orderings.Counting
import Intcode.Proofs.Orderings.Cursor
import Intcode.Proofs.Text.Decimal
import Intcode.Proofs.CommandLine.Running
import Intcode.Proofs.Program.Grammar
import Intcode.Proofs.Instruction.Encoding
import Intcode.Proofs.Memory.Accesses
import Intcode.Proofs.Machine.Paces
import Intcode.Proofs.NounVerb.FirstMatch
import Intcode.Proofs.Chain.Composition
import Intcode.Proofs.Ring.Verdict
import Intcode.Proofs.Text.Cutting
import Intcode.Proofs.CommandLine.Values
import Intcode.Proofs.Machine.Likeness
import Intcode.Proofs.Machine.TrailingZeros
import Intcode.Proofs.Instruction.Addressing

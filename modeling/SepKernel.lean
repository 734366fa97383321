import SepKernel.Lib.Napot
import SepKernel.Lib.Transition
import SepKernel.Lib.Exclusive
import SepKernel.Lib.Listing
import SepKernel.Lib.Unwinding
import SepKernel.Lib.TwoRuns
import SepKernel.Lib.LoadReserved
import SepKernel.Lib.Serial
import SepKernel.Lib.Traces
import SepKernel.System
import SepKernel.Capability
import SepKernel.Steps
import SepKernel.Holdings
import SepKernel.Roots
import SepKernel.Ownership
import SepKernel.Descent
import SepKernel.Forest
import SepKernel.DerivationList
import SepKernel.Revocation
import SepKernel.Confinement
import SepKernel.Tables
import SepKernel.Schedule
import SepKernel.Receivers
import SepKernel.Assertions
import SepKernel.Messages
import SepKernel.Replies
import SepKernel.Frame
import SepKernel.Deliveries
import SepKernel.Grants
import SepKernel.Authority
import SepKernel.Failures
import SepKernel.Bounds
import SepKernel.Pmp
import SepKernel.Windows
import SepKernel.Exceptions
import SepKernel.ProcState
import SepKernel.Execution
import SepKernel.NodeAccess
import SepKernel.NodeLists
import SepKernel.NodeRaces
import SepKernel.Recognition
import SepKernel.RootFrame
import SepKernel.Stacks
import SepKernel.Admission
import SepKernel.Accessors
import SepKernel.Printing
import SepKernel.Sequences
import SepKernel.Preemption
import SepKernel.Reclaiming
import SepKernel.Tickets
import SepKernel.Packings
import SepKernel.Domains
import SepKernel.Views
import SepKernel.Rounds
import SepKernel.Noninterference
import SepKernel.Suspension
import SepKernel.Dispatching
import SepKernel.Atomics
import SepKernel.Console
import SepKernel.Updates
import SepKernel.Startup
import SepKernel.Unread
import SepKernel.Entries
import SepKernel.Machine
import SepKernel.Phases
import SepKernel.Atomicity
import SepKernel.Refinement
import SepKernel.Isolation

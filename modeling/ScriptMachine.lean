import ScriptMachine.Binary32.Decimal
import ScriptMachine.Console
import ScriptMachine.Host.Toolbox
import ScriptMachine.Main
import ScriptMachine.Manager
import ScriptMachine.Proofs.Reader
import ScriptMachine.Proofs.Stored
import ScriptMachine.Proofs.Meaning
import ScriptMachine.Proofs.Layout
import ScriptMachine.Proofs.Run
import ScriptMachine.Proofs.Scopes
import ScriptMachine.Proofs.Simulation
import ScriptMachine.Proofs.Correctness
import ScriptMachine.Proofs.Operands
import ScriptMachine.Proofs.Safety
import ScriptMachine.Proofs.Alone
import ScriptMachine.Proofs.Events
import ScriptMachine.Proofs.Scheduling
import ScriptMachine.Proofs.Canonical
import ScriptMachine.Proofs.Operations
import ScriptMachine.Proofs.Sections
import ScriptMachine.Proofs.Lifecycle
import ScriptMachine.Proofs.Wakeups
import ScriptMachine.Proofs.Clients
import ScriptMachine.Proofs.Spelling
import ScriptMachine.Proofs.Written
import ScriptMachine.Proofs.Rereading
import ScriptMachine.Proofs.Assembly
import ScriptMachine.Proofs.Loading
import ScriptMachine.Proofs.Closing
import ScriptMachine.Proofs.Grammar
import ScriptMachine.Proofs.Derived
import ScriptMachine.Proofs.Recognition
import ScriptMachine.Proofs.WellFormed
import ScriptMachine.Proofs.Acceptance
import ScriptMachine.Proofs.Refusal
import ScriptMachine.Proofs.Stepping
import ScriptMachine.Proofs.Frames
import ScriptMachine.Proofs.Calls
import ScriptMachine.Proofs.Restarting
import ScriptMachine.Proofs.Places
import ScriptMachine.Proofs.Unassigned
import ScriptMachine.Proofs.Deeds
import ScriptMachine.Proofs.Blocks
import ScriptMachine.Proofs.Loops
import ScriptMachine.Proofs.Instructions
import ScriptMachine.Proofs.SlotLimit
import ScriptMachine.Proofs.Starting
import ScriptMachine.Proofs.Depth
import ScriptMachine.Proofs.Leftovers
import ScriptMachine.Proofs.Truncation
import ScriptMachine.Proofs.Jumps
import ScriptMachine.Proofs.Passing
import ScriptMachine.Proofs.Recovery
import ScriptMachine.Proofs.Interning
import ScriptMachine.Proofs.Nesting
import ScriptMachine.Proofs.Patterns
import ScriptMachine.Proofs.Positions
import ScriptMachine.Proofs.Scanning
import ScriptMachine.Proofs.Coercion
import ScriptMachine.Proofs.Packing

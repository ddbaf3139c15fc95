import TapeMachine.Draft
import TapeMachine.Main
import TapeMachine.Proofs.Lexis
import TapeMachine.Proofs.Clause
import TapeMachine.Proofs.Forest
import TapeMachine.Proofs.Literals
import TapeMachine.Proofs.Operands
import TapeMachine.Proofs.Backpatch
import TapeMachine.Proofs.Effect
import TapeMachine.Proofs.Coherence
import TapeMachine.Proofs.Growth
import TapeMachine.Proofs.Refinement
import TapeMachine.Proofs.Execution
import TapeMachine.Proofs.Semantics
import TapeMachine.Proofs.Preservation
import TapeMachine.Proofs.Operations
import TapeMachine.Proofs.Acceptance
import TapeMachine.Proofs.Roles
import TapeMachine.Proofs.ControlFlow
import TapeMachine.Proofs.Refusal
import TapeMachine.Proofs.Pending
import TapeMachine.Proofs.Sessions
import TapeMachine.Proofs.Bookkeeping
import TapeMachine.Proofs.Cells
import TapeMachine.Proofs.Diagnosis
import TapeMachine.Proofs.Extension
import TapeMachine.Proofs.Readback
import TapeMachine.Proofs.Lockstep
import TapeMachine.Proofs.Retry
import TapeMachine.Proofs.Renaming
import TapeMachine.Proofs.Isolation
import TapeMachine.Proofs.Appearance
import TapeMachine.Proofs.Capacity
import TapeMachine.Proofs.Assignment
import TapeMachine.Proofs.Edits
import TapeMachine.Proofs.Spelling
import TapeMachine.Proofs.Agreement

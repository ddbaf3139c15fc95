import TapeMachine.Event
import TapeMachine.Statement
import TapeMachine.Storage
import TapeMachine.Tape

/-!
# The state of an assembly

An assembler reads one statement after the other and keeps what later statements need: the storage
of variables, the definitions and branches met so far, the blocks that are still open, the tape,
and the log. A statement that fails leaves the state as it was at that moment.

Labels are not objects of their own: a `Target` says which place is meant, and its label is kept
with the definition or branch that the place belongs to (`Assembler.label`).
-/

namespace TapeMachine

/-- The blocks that a program is made of. -/
inductive Construct where
  | definition
  | branch (kind : BranchKind)
deriving DecidableEq, Repr

namespace Construct

/-- The keyword that starts the block. -/
def opener : Construct → String
  | definition => Definitions.opener
  | branch kind => kind.form.opener

/-- The keyword that ends the block. -/
def closer : Construct → String
  | definition => Definitions.closer
  | branch kind => kind.form.closer

end Construct

/-- A block that is not closed yet, and the line it was opened on. -/
structure OpenBlock where
  construct : Construct
  line : Nat
deriving DecidableEq, Repr

/-- A place that is jumped to before its address is known. -/
inductive Target where
  /-- Right behind the body of a definition. -/
  | behindDefinition (name : String)
  /-- The first instruction of a branch's block. -/
  | body (kind : BranchKind) (number : Nat)
  /-- Right behind a branch. -/
  | behindBranch (kind : BranchKind) (number : Nat)
deriving DecidableEq, Repr

/-- The state of an assembly. -/
structure Assembler where
  storage : Storage
  definitions : Definitions := {}
  conditionals : Branches := { form := .conditional }
  loops : Branches := { form := .loop }
  tape : Tape Target := {}
  /-- The blocks that are not closed yet, the innermost first. -/
  blocks : List OpenBlock := []
  log : Array Event := #[]

namespace Assembler

/-- The branches of a form. -/
def branches (s : Assembler) : BranchKind → Branches
  | .conditional => s.conditionals
  | .loop => s.loops

/-- Replaces the branches of a form. -/
def setBranches (s : Assembler) (kind : BranchKind) (b : Branches) : Assembler :=
  match kind with
  | .conditional => { s with conditionals := b }
  | .loop => { s with loops := b }

/-- The label of a branch with the given number, if it is there. -/
def branchLabel (b : Branches) (number : Nat) (part : Branch → Label) : Label :=
  match b.all[number]? with
  | some branch => part branch
  | none => ⟨"", none⟩

/-- The label of a target. -/
def label (s : Assembler) : Target → Label
  | .behindDefinition name =>
    match s.definitions.find? name with
    | some definition => definition.stop
    | none => ⟨"", none⟩
  | .body kind number => branchLabel (s.branches kind) number (·.body)
  | .behindBranch kind number => branchLabel (s.branches kind) number (·.stop)

/-- Adds an event to the log. -/
def report (s : Assembler) (e : Event) : Assembler := { s with log := s.log.push e }

end Assembler

/-- A step of an assembly: it may change the state, and may fail and leave the state as it is at
that moment. -/
abbrev Step (α : Type) : Type := EStateM Failure Assembler α

namespace Step

/-- Fails because the program is at fault. -/
def fault {α : Type} (f : Fault) : Step α := throw (.ofFault f)

/-- Goes on with a result, or fails with its fault. -/
def ofFault {α : Type} : Except Fault α → Step α
  | .ok a => pure a
  | .error f => fault f

/-- Goes on with a result, or fails with its misuse. -/
def ofMisuse {α : Type} : Except Misuse α → Step α
  | .ok a => pure a
  | .error m => throw (.misuse m)

end Step

end TapeMachine

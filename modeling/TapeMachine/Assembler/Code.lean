import TapeMachine.Storage
import TapeMachine.Machine.Instruction
import TapeMachine.Listing

/-!
# The code of a statement

Each kind of statement has a fixed sequence of instructions, given here for whatever values, cells
and jump targets the statement turns out to have. The machine combines registers and immediates
only, so a value that lives in a RAM cell is first brought to a scratch register, and a result
goes to the cell that the RAM address register selects.
-/

namespace TapeMachine.Code

variable {L : Type}

/-- Makes `address` the RAM cell that is read and written. -/
def selectCell (address : Int) (role : String) : Instruction L where
  opcode := .alu .move true
  a := .number address
  destination := .register .ramAddress
  comment := s!"Move {role} address to ram-address-register"

/-- Brings the content of a cell to the first scratch register. -/
def stageFirst (address : Int) (role : String) : List (Instruction L) :=
  [selectCell address role,
   { opcode := .alu .move, a := .register .ram, destination := .register .scratch0,
     comment := s!"Move {role} value to scratch-0" }]

/-- Brings the content of a cell to the second scratch register. -/
def stageSecond (address : Int) (role : String) : List (Instruction L) :=
  [selectCell address role,
   { opcode := .alu .move, a := .register .ram, destination := .register .scratch1,
     comment := s!"Move {role} value to scratch-1" }]

/-- Jumps to a target. -/
def jump (target : Slot L) (comment : String) : Instruction L where
  opcode := .alu .move true
  a := target
  destination := .register .programCounter
  comment := comment

/-- Assigns a value to a cell. -/
def assign (cell : Int) (value : Value) (comment : String) : List (Instruction L) :=
  [selectCell cell "destination",
   { opcode := .alu .move value.isLiteral, a := .number value.word, destination := .register .ram,
     comment }]

/-- What brings two values within reach of one instruction. -/
def staging : Value → Value → List (Instruction L)
  | .cell left, .cell right => stageFirst left "first" ++ stageSecond right "second"
  | .cell left, .literal _ => stageFirst left "first"
  | .literal _, .cell right => stageFirst right "second"
  | .literal _, .literal _ => []

/-- Where the left value is after staging. -/
def leftSlot : Value → Slot L
  | .cell _ => .register .scratch0
  | .literal n => .number n

/-- Where the right value is after staging. -/
def rightSlot : Value → Value → Slot L
  | .cell _, .cell _ => .register .scratch1
  | .literal _, .cell _ => .register .scratch0
  | _, .literal n => .number n

/-- The instruction that combines two staged values. -/
def combineInto (opcode : Opcode) (left right : Value) (destination : Slot L) (comment : String) :
    Instruction L where
  opcode := opcode.withImmediates left.isLiteral right.isLiteral
  a := leftSlot left
  b := rightSlot left right
  destination := destination
  comment := comment

/-- Combines two values into a cell. -/
def store (opcode : Opcode) (left right : Value) (cell : Int) (comment : String) :
    List (Instruction L) :=
  staging left right
    ++ [selectCell cell "result", combineInto opcode left right (.register .ram) comment]

/-- Branches to a target if a condition on two values holds. -/
def branch (p : Predicate) (left right : Value) (target : Slot L) (comment : String) :
    List (Instruction L) :=
  staging left right ++ [combineInto (.condition p true) left right target comment]

/-- Makes the call depth select the cell for the return address. -/
def selectReturn : Instruction L where
  opcode := .alu .move
  a := .register .jumpBackDepth
  destination := .register .jumpBackAddress
  comment := "Move the jump-back depth to the jump-back-ram-address-register"

/-- The number of instructions in a call. -/
def callLength : Nat := 4

/-- Calls the definition whose body starts at `start`, from the instruction at `index`. -/
def call (index : Nat) (start : Int) (name : String) : List (Instruction L) :=
  [selectReturn,
   { opcode := .alu .add false true, a := .register .jumpBackDepth, b := .number 1,
     destination := .register .jumpBackDepth, comment := "Add 1 to the jump-back depth" },
   { opcode := .alu .move true, a := .number (addressOf (index + callLength : Nat)),
     destination := .register .jumpBackRam,
     comment := "Store the return address in the jump-back-ram" },
   jump (.number start) s!"Jump to the start of {name}"]

/-- Returns from a definition to its caller. -/
def epilogue : List (Instruction L) :=
  [{ opcode := .alu .subtract false true, a := .register .jumpBackDepth, b := .number 1,
     destination := .register .jumpBackDepth, comment := "Subtract 1 from the jump-back depth" },
   selectReturn,
   { opcode := .alu .move, a := .register .jumpBackRam, destination := .register .programCounter,
     comment := "Jump to the instruction from the jump-back-ram" }]

/-- Jumps over the body of a definition. -/
def skipDefinition (target : Slot L) (name : String) : Instruction L :=
  jump target s!"Jump to the end of the definition {name}"

/-- Jumps over the block of a branch. -/
def skipBranch (target : Slot L) (opener : String) : Instruction L :=
  jump target s!"Skip the {opener} body"

/-- Jumps back to the condition of a loop. -/
def repeatLoop (start : Int) : Instruction L :=
  jump (.number start) "Jump back to the WHILE condition"

end TapeMachine.Code

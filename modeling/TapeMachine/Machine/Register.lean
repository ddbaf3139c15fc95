import TapeMachine.Fault

/-!
# Registers

The nine registers that an operand field can name. `ram` and `jumpBackRam` stand for the cell that
`ramAddress` or `jumpBackAddress` selects, and writing `programCounter` is a jump.
-/

namespace TapeMachine

/-- A register of the machine. -/
inductive Register where
  | ram
  | jumpBackRam
  | programCounter
  | ramAddress
  | jumpBackAddress
  | scratch0
  | scratch1
  | jumpTarget
  | jumpBackDepth
deriving DecidableEq, Repr

namespace Register

/-- All registers, in the order of their codes. -/
def all : List Register :=
  [ram, jumpBackRam, programCounter, ramAddress, jumpBackAddress, scratch0, scratch1, jumpTarget,
   jumpBackDepth]

/-- The number that names the register in an operand field. -/
def code : Register → Int
  | ram => 0
  | jumpBackRam => 1
  | programCounter => 2
  | ramAddress => 3
  | jumpBackAddress => 4
  | scratch0 => 5
  | scratch1 => 6
  | jumpTarget => 7
  | jumpBackDepth => 8

/-- The register's name in the code table. -/
def name : Register → String
  | ram => "RAM"
  | jumpBackRam => "JUMP_BACK_RAM"
  | programCounter => "PROGRAM_COUNTER"
  | ramAddress => "RAM_ADDRESS_REGISTER"
  | jumpBackAddress => "JUMP_BACK_RAM_ADDRESS"
  | scratch0 => "SCRATCH_0"
  | scratch1 => "SCRATCH_1"
  | jumpTarget => "JUMP_TARGET_REGISTER"
  | jumpBackDepth => "JUMP_BACK_DEPTH"

/-- The register with the given code. -/
def ofCode (n : Int) : Except Misuse Register :=
  match all.find? (·.code = n) with
  | some r => .ok r
  | none => .error (.code .register n)

@[simp] theorem ofCode_code (r : Register) : ofCode r.code = .ok r := by
  cases r <;> rfl

end Register

end TapeMachine

import TapeMachine.Numeral

/-!
# Opcodes

The first word of an instruction is a sum: the class of the operation, the operation within its
class, and three flags. `Opcode.encode` is that sum. The flags and classes are different bits, so
an opcode whose operation is below eight can be read back from its number.
-/

namespace TapeMachine

/-- The classes of operations. -/
inductive OpClass where
  | alu
  | conditions
  | shiftLeft
  | shiftRight
deriving DecidableEq, Repr

/-- The operations of the arithmetic unit. -/
inductive AluOp where
  | add
  | subtract
  | and
  | or
  | not
  | xor
  | move
deriving DecidableEq, Repr

/-- The predicates that conditions test. -/
inductive Predicate where
  | equal
  | notEqual
  | smaller
  | smallerEqual
  | greater
  | greaterEqual
  | always
  | never
deriving DecidableEq, Repr

namespace OpClass

/-- All classes, in the order of their codes. -/
def all : List OpClass := [alu, conditions, shiftLeft, shiftRight]

/-- What the class adds to an opcode. -/
def code : OpClass → Int
  | alu => 0
  | conditions => 16
  | shiftLeft => 32
  | shiftRight => 48

/-- The class's name in the code table. -/
def name : OpClass → String
  | alu => "ALU"
  | conditions => "CONDITIONS"
  | shiftLeft => "SHIFT_LEFT"
  | shiftRight => "SHIFT_RIGHT"

/-- The class with the given code. -/
def ofCode (n : Int) : Except Misuse OpClass :=
  match all.find? (·.code = n) with
  | some c => .ok c
  | none => .error (.code .opClass n)

@[simp] theorem ofCode_code (c : OpClass) : ofCode c.code = .ok c := by
  cases c <;> rfl

end OpClass

namespace AluOp

/-- All operations, in the order of their codes. -/
def all : List AluOp := [add, subtract, and, or, not, xor, move]

/-- What the operation adds to an opcode. -/
def code : AluOp → Int
  | add => 0
  | subtract => 1
  | and => 2
  | or => 3
  | not => 4
  | xor => 5
  | move => 6

/-- The operation's name in the code table. -/
def name : AluOp → String
  | add => "ADD"
  | subtract => "SUBTRACT"
  | and => "AND"
  | or => "OR"
  | not => "NOT"
  | xor => "XOR"
  | move => "MOVE"

/-- The operation with the given code. -/
def ofCode (n : Int) : Except Misuse AluOp :=
  match all.find? (·.code = n) with
  | some op => .ok op
  | none => .error (.code .aluOp n)

@[simp] theorem ofCode_code (op : AluOp) : ofCode op.code = .ok op := by
  cases op <;> rfl

end AluOp

namespace Predicate

/-- All predicates, in the order of their codes. -/
def all : List Predicate :=
  [equal, notEqual, smaller, smallerEqual, greater, greaterEqual, always, never]

/-- What the predicate adds to an opcode. -/
def code : Predicate → Int
  | equal => 0
  | notEqual => 1
  | smaller => 2
  | smallerEqual => 3
  | greater => 4
  | greaterEqual => 5
  | always => 6
  | never => 7

/-- The predicate's name in the code table. -/
def name : Predicate → String
  | equal => "EQUAL"
  | notEqual => "NOT_EQUAL"
  | smaller => "SMALLER"
  | smallerEqual => "SMALLER_EQUAL"
  | greater => "GREATER"
  | greaterEqual => "GREATER_EQUAL"
  | always => "ALWAYS"
  | never => "NEVER"

/-- The predicate with the given code. -/
def ofCode (n : Int) : Except Misuse Predicate :=
  match all.find? (·.code = n) with
  | some p => .ok p
  | none => .error (.code .predicate n)

@[simp] theorem ofCode_code (p : Predicate) : ofCode p.code = .ok p := by
  cases p <;> rfl

end Predicate

/-- The operation part of an opcode: of the arithmetic unit, a predicate, or a bare number. -/
inductive Operation where
  | alu (op : AluOp)
  | test (p : Predicate)
  | number (n : Int)
deriving DecidableEq, Repr

namespace Operation

/-- What the operation adds to an opcode. -/
def code : Operation → Int
  | alu op => op.code
  | test p => p.code
  | number n => n

/-- The operation as an instruction shown in full has it. -/
def shown : Operation → String
  | alu op => s!"<AluOp.{op.name}: {op.code}>"
  | test p => s!"<Predicate.{p.name}: {p.code}>"
  | number n => s!"{n}"

end Operation

/-- An opcode, taken apart. -/
structure Opcode where
  opClass : OpClass
  operation : Operation
  jump : Bool := false
  immediate0 : Bool := false
  immediate1 : Bool := false
deriving DecidableEq, Repr

namespace Opcode

/-- What the jump flag adds to an opcode. -/
def jumpFlag : Int := 8

/-- What the flag for an immediate second operand adds to an opcode. -/
def immediate1Flag : Int := 64

/-- What the flag for an immediate first operand adds to an opcode. -/
def immediate0Flag : Int := 128

/-- An operation of the arithmetic unit. -/
def alu (op : AluOp) (immediate0 : Bool := false) (immediate1 : Bool := false) : Opcode :=
  { opClass := .alu, operation := .alu op, immediate0, immediate1 }

/-- A condition; with the jump flag it branches, without it stores its truth value. -/
def condition (p : Predicate) (jump : Bool := false) (immediate0 : Bool := false)
    (immediate1 : Bool := false) : Opcode :=
  { opClass := .conditions, operation := .test p, jump, immediate0, immediate1 }

/-- The number of an opcode. -/
def encode (o : Opcode) : Int :=
  o.opClass.code + o.operation.code + (if o.jump then jumpFlag else 0)
    + (if o.immediate0 then immediate0Flag else 0) + (if o.immediate1 then immediate1Flag else 0)

/-- The number of an opcode as text. -/
def text (o : Opcode) : Except Misuse String := Numeral.write o.encode

/-- The opcode with both immediate flags set as given. -/
def withImmediates (o : Opcode) (immediate0 : Bool := false) (immediate1 : Bool := false) :
    Opcode :=
  { o with immediate0, immediate1 }

/-- The branching form of a condition. -/
def asBranch (o : Opcode) : Except Misuse Opcode :=
  if o.opClass = .conditions then .ok { o with jump := true }
  else .error (.branch o.opClass.name)

/-- A truth value as an instruction shown in full has it. -/
def shownBool : Bool → String
  | true => "True"
  | false => "False"

/-- The opcode as an instruction shown in full has it. -/
def shown (o : Opcode) : String :=
  s!"Opcode(op_class=<OpClass.{o.opClass.name}: {o.opClass.code}>, "
    ++ s!"operation={o.operation.shown}, jump={shownBool o.jump}, "
    ++ s!"immediate_0={shownBool o.immediate0}, immediate_1={shownBool o.immediate1})"

/-- An opcode given by numbers. -/
inductive Recipe where
  | alu (op : Int) (immediate0 immediate1 : Bool)
  | condition (p : Int) (jump immediate0 immediate1 : Bool)
  | bare (opClass operation : Int) (jump immediate0 immediate1 : Bool)

/-- The opcode that the numbers give. -/
def Recipe.build : Recipe → Except Misuse Opcode
  | .alu op immediate0 immediate1 => do
    return Opcode.alu (← AluOp.ofCode op) immediate0 immediate1
  | .condition p jump immediate0 immediate1 => do
    return Opcode.condition (← Predicate.ofCode p) jump immediate0 immediate1
  | .bare opClass operation jump immediate0 immediate1 => do
    let opClass ← OpClass.ofCode opClass
    return { opClass, operation := .number operation, jump, immediate0, immediate1 }

end Opcode

end TapeMachine

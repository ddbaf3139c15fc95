import TapeMachine.Label
import TapeMachine.Machine.Opcode
import TapeMachine.Machine.Register

/-!
# Instructions

An instruction is four words wide: an opcode, two source fields and a destination field, with a
comment for the reader of a listing. While a program is being assembled a field can hold a label;
what the label stands for is looked up by whoever owns the labels, so instructions are parametric
in the type `L` of references to labels. `Instruction.words?` gives the four words of an
instruction that refers to none.
-/

namespace TapeMachine

/-- What an operand field holds. -/
inductive Slot (L : Type) where
  | number (n : Int)
  | register (r : Register)
  | label (l : L)
deriving DecidableEq, Repr

/-- The operand fields, in the order in which an instruction has them. -/
inductive Field where
  | a
  | b
  | destination
deriving DecidableEq, Repr

/-- A field's name. -/
def Field.name : Field → String
  | .a => "a"
  | .b => "b"
  | .destination => "destination"

/-- An instruction that may refer to labels. -/
structure Instruction (L : Type) where
  opcode : Opcode
  a : Slot L := .number 0
  b : Slot L := .number 0
  destination : Slot L := .number 0
  comment : String := ""
deriving DecidableEq, Repr

/-- The four words of an instruction. -/
structure Words where
  opcode : Int
  a : Int
  b : Int
  destination : Int
deriving DecidableEq, Repr

namespace Slot

variable {L : Type}

/-- The word in the field, unless it is a label. -/
def word? : Slot L → Option Int
  | number n => some n
  | register r => some r.code
  | label _ => none

/-- The label in the field, if there is one. -/
def label? : Slot L → Option L
  | label l => some l
  | _ => none

/-- The field as an instruction shown in full has it. -/
def shown (look : L → Label) : Slot L → String
  | number n => s!"{n}"
  | register r => s!"<Address.{r.name}: {r.code}>"
  | label l => (look l).shown

end Slot

namespace Instruction

variable {L : Type}

/-- What a field holds. -/
def get (i : Instruction L) : Field → Slot L
  | .a => i.a
  | .b => i.b
  | .destination => i.destination

/-- The instruction with another value in one field. -/
def set (i : Instruction L) (f : Field) (value : Slot L) : Instruction L :=
  match f with
  | .a => { i with a := value }
  | .b => { i with b := value }
  | .destination => { i with destination := value }

/-- The fields that hold labels, with their labels. -/
def labels (i : Instruction L) : List (Field × L) :=
  [Field.a, .b, .destination].filterMap fun f => (i.get f).label?.map (f, ·)

/-- Whether no field holds a label. -/
def isResolved (i : Instruction L) : Bool := i.labels.isEmpty

/-- The four words, if no field holds a label. -/
def words? (i : Instruction L) : Option Words := do
  return ⟨i.opcode.encode, ← i.a.word?, ← i.b.word?, ← i.destination.word?⟩

/-- The instruction shown in full. -/
def shown (look : L → Label) (i : Instruction L) : String :=
  s!"Instruction(opcode={i.opcode.shown}, a={i.a.shown look}, b={i.b.shown look}, "
    ++ s!"destination={i.destination.shown look}, comment={Text.quoted i.comment})"

/-- The four words of an instruction that is expected to hold no label. -/
def words (look : L → Label) (i : Instruction L) : Except Misuse Words :=
  match i.words? with
  | some w => .ok w
  | none => .error (.unresolved (i.shown look))

end Instruction

end TapeMachine

import TapeMachine.Tape

/-!
# Drafts

A draft is a tape that is written instruction by instruction, with labels that are made and bound
by name. A name can be used again for a new label; what was emitted before keeps its own label.
-/

namespace TapeMachine

/-- A tape and the labels made for it. -/
structure Draft where
  /-- The tape; a label is referred to by its number. -/
  tape : Tape Nat := {}
  /-- The labels in the order in which they were made. -/
  labels : List Label := []
  /-- The numbers of the labels by name, the newest first. -/
  names : List (String × Nat) := []
deriving DecidableEq, Repr

/-- What goes into an operand field: a number, a register by its code, or a label by its name. -/
inductive Draft.Entry where
  | number (n : Int)
  | register (code : Int)
  | label (name : String)
deriving DecidableEq, Repr

namespace Draft

/-- The label with the given number. -/
def label (d : Draft) (number : Nat) : Label := d.labels.getD number ⟨"", none⟩

/-- Makes a label. -/
def add (d : Draft) (name : String) : Draft :=
  { d with
    labels := d.labels ++ [⟨name, none⟩]
    names := (name, d.labels.length) :: d.names }

/-- The number of the newest label with the given name. -/
def find (d : Draft) (name : String) : Except Misuse Nat :=
  match d.names.lookup name with
  | some number => .ok number
  | none => .error (.missing name)

/-- The newest label with the given name. -/
def labelNamed (d : Draft) (name : String) : Except Misuse Label := do
  return d.label (← d.find name)

/-- Gives the newest label of a name its address. -/
def bind (d : Draft) (name : String) (address : Int) : Except Misuse Draft := do
  let number ← d.find name
  let label ← (d.label number).bind address
  return { d with labels := d.labels.set number label }

/-- What a field holds for an entry. -/
def slot (d : Draft) : Entry → Except Misuse (Slot Nat)
  | .number n => .ok (.number n)
  | .register code => do return .register (← Register.ofCode code)
  | .label name => do return .label (← d.find name)

/-- Appends an instruction. -/
def emit (d : Draft) (recipe : Opcode.Recipe) (a b destination : Entry) (comment : String) :
    Except Misuse Draft := do
  let opcode ← recipe.build
  let a ← d.slot a
  let b ← d.slot b
  let destination ← d.slot destination
  return { d with tape := d.tape.emit { opcode, a, b, destination, comment } }

/-- The instruction at a position. -/
def instruction (d : Draft) (index : Nat) : Except Misuse (Instruction Nat) :=
  match d.tape.instructions[index]? with
  | some i => .ok i
  | none => .error .position

/-- The numbers that the line of an instruction shows: its words, and the addresses of these if
they are asked for. -/
def shownNumbers (w : Words) (style : Style) (index : Int) : List Int :=
  [w.opcode, w.a, w.b, w.destination]
    ++ if style.comments && style.numbered then
        let start := addressOf index
        [start, start + 1, start + 2, start + 3]
      else []

/-- The line for the instruction at a position, as if it stood at another. It is refused if a
number in it is too long. -/
def line (d : Draft) (style : Style) (position : Nat) (index : Int) : Except Misuse String := do
  let i ← d.instruction position
  let w ← i.words d.label
  if (shownNumbers w style index).all Numeral.isWritable then return w.line style index i.comment
  else throw (.digits Numeral.maxDigits)

/-- Writes the addresses of labels into the instructions. -/
def resolve : EStateM Fault Draft (List (Instruction Nat)) := fun d =>
  match Tape.resolve d.label d.tape with
  | .ok instructions tape => .ok instructions { d with tape }
  | .error f tape => .error f { d with tape }

end Draft

end TapeMachine

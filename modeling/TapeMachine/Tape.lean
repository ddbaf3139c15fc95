import TapeMachine.Listing

/-!
# The tape

The tape is the list of instructions emitted so far. Instructions keep their position, and every
field that holds a label is remembered as a fixup. `Tape.resolve` goes through the fixups in order
and writes the labels' addresses into the fields; it stops at the first label without an address,
and then the fixups all stay for another attempt.
-/

namespace TapeMachine

/-- A field of an emitted instruction that waits for a label's address. -/
structure Fixup (L : Type) where
  index : Nat
  field : Field
  label : L
deriving DecidableEq, Repr

/-- The instructions emitted so far and the fields of them to be patched. -/
structure Tape (L : Type) where
  instructions : List (Instruction L) := []
  fixups : List (Fixup L) := []
deriving DecidableEq, Repr

namespace Tape

variable {L : Type}

/-- The number of instructions emitted so far. -/
def size (t : Tape L) : Nat := t.instructions.length

/-- The word address of the next instruction to be emitted. -/
def here (t : Tape L) : Int := addressOf t.size

/-- Appends an instruction. -/
def emit (t : Tape L) (i : Instruction L) : Tape L where
  instructions := t.instructions ++ [i]
  fixups := t.fixups ++ i.labels.map fun (field, label) => ⟨t.size, field, label⟩

/-- Appends instructions in order. -/
def emitAll (t : Tape L) (code : List (Instruction L)) : Tape L := code.foldl emit t

/-- The fixups before the first whose label has no address, with the addresses of their labels. -/
def patches (look : L → Label) : List (Fixup L) → List (Fixup L × Int)
  | [] => []
  | f :: fs =>
    match (look f.label).address with
    | some address => (f, address) :: patches look fs
    | none => []

/-- The first fixup whose label has no address. -/
def pending? (look : L → Label) (fixups : List (Fixup L)) : Option (Fixup L) :=
  fixups.find? fun f => !(look f.label).isBound

/-- Writes an address into the field of a fixup. -/
def patch (instructions : List (Instruction L)) (p : Fixup L × Int) : List (Instruction L) :=
  instructions.modify p.1.index fun i => i.set p.1.field (.number p.2)

/-- Patches the fixups in order. If all labels have addresses the fixups are done with and the
instructions are the result; otherwise the first label without one is at fault and the fixups
stay. -/
def resolve (look : L → Label) : EStateM Fault (Tape L) (List (Instruction L)) := fun t =>
  let instructions := (patches look t.fixups).foldl patch t.instructions
  match pending? look t.fixups with
  | some f => .error (.targetUnbound (look f.label).name) { t with instructions }
  | none => .ok instructions { instructions, fixups := [] }

@[simp] theorem instructions_emit (t : Tape L) (i : Instruction L) :
    (t.emit i).instructions = t.instructions ++ [i] := rfl

@[simp] theorem instructions_emitAll (t : Tape L) (code : List (Instruction L)) :
    (t.emitAll code).instructions = t.instructions ++ code := by
  induction code generalizing t with
  | nil => simp [emitAll]
  | cons i code ih =>
    have h := ih (t.emit i)
    simp only [emitAll, List.foldl_cons] at h ⊢
    simpa using h

@[simp] theorem size_emitAll (t : Tape L) (code : List (Instruction L)) :
    (t.emitAll code).size = t.size + code.length := by
  simp [size]

end Tape

end TapeMachine

/-!
# The log

Assembling a program is reported step by step. An event says what happened; `Event.channel` names
the part of the assembler that reports it, and `Event.message` words it.
-/

namespace TapeMachine

/-- What is reported while a program is assembled. -/
inductive Event where
  | allocated (cell : Int)
  | bound (name : String) (cell : Int) (scope : String)
  | entered (scope : String)
  | left (scope : String)
  | registered (definition : String) (start : Int)
  | opened (keyword : String) (number : Nat) (start : Int)
  | labelled (name : String) (address : Int)
  | patched (index : Nat) (field : String) (address : Int)
  | compiled (source : String) (instructions cells definitions : Nat)
deriving DecidableEq, Repr

/-- How important an event is. -/
inductive Level where
  | debug
  | info
deriving DecidableEq, Repr

/-- The level's name. -/
def Level.name : Level → String
  | .debug => "DEBUG"
  | .info => "INFO"

namespace Event

/-- Only the end of the whole is more than a detail. -/
def level : Event → Level
  | compiled .. => .info
  | _ => .debug

/-- The channel on which the event is reported. -/
def channel : Event → String
  | allocated .. => "tape_compiler.memory"
  | bound .. | entered .. | left .. => "tape_compiler.scopes"
  | registered .. | opened .. => "tape_compiler.registries"
  | labelled .. | patched .. => "tape_compiler.encoding"
  | compiled .. => "tape_compiler.compiler"

/-- The wording of an event. -/
def message : Event → String
  | allocated cell => s!"allocated RAM cell {cell}"
  | bound name cell scope => s!"bound ${name} -> {cell} in scope {scope}"
  | entered scope => s!"entered scope {scope}"
  | left scope => s!"left scope {scope}"
  | registered definition start => s!"registered definition {definition} at {start}"
  | opened keyword number start => s!"opened {keyword} block {number} at {start}"
  | labelled name address => s!"label {name} -> {address}"
  | patched index field address =>
    s!"backpatched instruction {index} ({field}) with {address}"
  | compiled source instructions cells definitions =>
    s!"compiled {source}: {instructions} instructions, {cells} RAM cells, "
      ++ s!"{definitions} definitions"

/-- The event as one line: its channel and its wording. -/
def line (e : Event) : String := s!"{e.channel}: {e.message}"

/-- The event as one line that starts with its level. -/
def leveledLine (e : Event) : String := s!"{e.level.name} {e.line}"

end Event

end TapeMachine

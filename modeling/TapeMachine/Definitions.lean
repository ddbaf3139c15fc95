import TapeMachine.Label

/-!
# Definitions

A definition is a body that is run by calls. The register of definitions keeps each of them by
name, with the address of its body and the label behind it, and which of them are being written.
-/

namespace TapeMachine

/-- A definition. -/
structure Definition where
  name : String
  /-- The word address of the body's first instruction. -/
  start : Int
  /-- The position of the jump over the body. -/
  index : Int
  /-- The place right behind the body. -/
  stop : Label
  /-- The scope of the body's variables. -/
  scope : Option String := none
  /-- Whether the body is complete. -/
  closed : Bool := false
deriving DecidableEq, Repr

/-- The definitions of a program. -/
structure Definitions where
  /-- All definitions in the order of their creation. -/
  all : List Definition := []
  /-- The names of those whose bodies are being written, the innermost first. -/
  opened : List String := []
deriving DecidableEq, Repr

namespace Definitions

/-- The keyword that starts a body. -/
def opener : String := "DEF"

/-- The keyword that ends a body. -/
def closer : String := "ENDDEF"

/-- The definition with the given name. -/
def find? (d : Definitions) (name : String) : Option Definition := d.all.find? (·.name = name)

/-- Whether there is a definition with the name. -/
def contains (d : Definitions) (name : String) : Bool := (d.find? name).isSome

/-- The definition with the given name, which is expected to be there. -/
def resolve (d : Definitions) (name : String) : Except Fault Definition :=
  match d.find? name with
  | some definition => .ok definition
  | none => .error (.definitionUnknown name)

/-- Whether a body is being written. -/
def isOpen (d : Definitions) : Bool := !d.opened.isEmpty

/-- Adds a definition under a new name. -/
def create (d : Definitions) (name : String) (start index : Int) :
    Except Fault (Definition × Definitions) :=
  if d.contains name then .error (.definitionTaken name)
  else
    let definition : Definition := { name, start, index, stop := ⟨name ++ ".end", none⟩ }
    .ok (definition, { d with all := d.all ++ [definition] })

/-- Changes the definition with the given name. -/
def modify (d : Definitions) (name : String) (f : Definition → Definition) : Definitions :=
  { d with all := d.all.map fun x => if x.name = name then f x else x }

/-- Records that the body of the named definition is being written. -/
def opening (d : Definitions) (name : String) : Definitions :=
  { d with opened := name :: d.opened }

/-- The definition whose body is being written. -/
def latest (d : Definitions) : Except Fault Definition :=
  match d.opened.head?.bind d.find? with
  | some definition => .ok definition
  | none => .error (.nothingToClose closer opener)

/-- Completes the definition whose body is being written. -/
def closeLatest (d : Definitions) : Except Fault (Definition × Definitions) := do
  let definition ← d.latest
  let d := d.modify definition.name ({ · with closed := true })
  return ({ definition with closed := true }, { d with opened := d.opened.tail })

/-- Gives the label behind a body its address. -/
def bindStop (d : Definitions) (name : String) (address : Int) : Except Misuse Definitions :=
  match d.find? name with
  | none => .ok d
  | some definition => do
    let stop ← definition.stop.bind address
    return d.modify name ({ · with stop })

end Definitions

end TapeMachine

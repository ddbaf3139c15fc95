import TapeMachine.Fault

/-!
# Labels

A label is a word address that becomes known after the instruction that uses it. It is bound once.
-/

namespace TapeMachine

/-- A jump target by name, with its word address once that is known. -/
structure Label where
  name : String
  address : Option Int := none
deriving DecidableEq, Repr

namespace Label

/-- Whether the address is known. -/
def isBound (l : Label) : Bool := l.address.isSome

/-- Gives the label its address. -/
def bind (l : Label) (address : Int) : Except Misuse Label :=
  match l.address with
  | some known => .error (.labelBound l.name known)
  | none => .ok { l with address := some address }

/-- The address as a label shown in full has it. -/
def shownAddress : Option Int → String
  | none => "None"
  | some address => s!"{address}"

/-- The label with its name and address. -/
def shown (l : Label) : String := s!"Label({Text.quoted l.name}, {shownAddress l.address})"

end Label

end TapeMachine

import TapeMachine.Machine.Instruction

/-!
# Listings

A listing has one line for each instruction: its four words in base ten and, unless comments are
turned off, a mark, the word addresses the instruction occupies if they are asked for, and the
comment.
-/

namespace TapeMachine

/-- How the lines of a listing are written. -/
structure Style where
  /-- Whether comments are written. -/
  comments : Bool := true
  /-- What stands between the words and the comment. -/
  mark : String := " # "
  /-- Whether the comment starts with the addresses of the instruction's words. -/
  numbered : Bool := false
deriving DecidableEq, Repr

/-- The number of words in an instruction. -/
def width : Int := 4

/-- The word address of the instruction at the given position. -/
def addressOf (index : Int) : Int := index * width

/-- The addresses of the words of the instruction at the given position. -/
def addressList (index : Int) : String :=
  let start := addressOf index
  s!"[{start}, {start + 1}, {start + 2}, {start + 3}]"

/-- The line for the instruction at the given position. -/
def Words.line (w : Words) (style : Style) (index : Int) (comment : String) : String :=
  s!"{w.opcode} {w.a} {w.b} {w.destination}"
    ++ if style.comments then
        style.mark ++ (if style.numbered then addressList index else "") ++ comment
      else ""

/-- The line for an instruction that is expected to hold no label. -/
def Instruction.line {L : Type} (look : L → Label) (i : Instruction L) (style : Style)
    (index : Int) : Except Misuse String := do
  return (← i.words look).line style index i.comment

/-- The lines for instructions from the given position on. -/
def listing {L : Type} (look : L → Label) (style : Style) :
    Int → List (Instruction L) → Except Misuse (List String)
  | _, [] => .ok []
  | index, i :: is => do return (← i.line look style index) :: (← listing look style (index + 1) is)

end TapeMachine

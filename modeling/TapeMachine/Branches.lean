import TapeMachine.Label

/-!
# Branches

A branch is a block that runs when a condition holds: once, or as long as it holds. Branches of
one form are kept in one register, and only one of them is open at a time: the last.
-/

namespace TapeMachine

/-- The keywords of a form of branch, and how the labels of such branches are named. -/
structure BranchForm where
  opener : String := ""
  closer : String := ""
  stem : String := ""
deriving DecidableEq, Repr

namespace BranchForm

/-- A block that runs once if its condition holds. -/
def conditional : BranchForm := ⟨"IF", "ENDIF", "if"⟩

/-- A block that runs as long as its condition holds. -/
def loop : BranchForm := ⟨"WHILE", "ENDWHILE", "while"⟩

end BranchForm

/-- A branch. -/
structure Branch where
  /-- The word address of the condition's first instruction. -/
  start : Int
  /-- The first instruction of the block. -/
  body : Label
  /-- The place right behind the branch. -/
  stop : Label
  /-- The position of the jump over the block. -/
  skip : Option Nat := none
deriving DecidableEq, Repr

/-- The branches of one form. -/
structure Branches where
  form : BranchForm := {}
  /-- All branches in the order in which they were opened. -/
  all : List Branch := []
  /-- Whether the last branch is open. -/
  isOpen : Bool := false
deriving DecidableEq, Repr

namespace Branches

/-- The branch with the given number when it is opened. -/
def fresh (form : BranchForm) (number : Nat) (start : Int) : Branch :=
  { start
    body := ⟨s!"{form.stem}{number}.body", none⟩
    stop := ⟨s!"{form.stem}{number}.end", none⟩ }

/-- Opens a branch whose condition starts at the given address. -/
def opening (b : Branches) (start : Int) : Except Fault (Branch × Branches) :=
  if b.isOpen then .error (.nestedBranch b.form.opener)
  else
    let branch := fresh b.form b.all.length start
    .ok (branch, { b with all := b.all ++ [branch], isOpen := true })

/-- The fault of closing a branch when none is open. -/
def nothingToClose (b : Branches) : Fault := .nothingToClose b.form.closer b.form.opener

/-- The number of the open branch, and the branch. -/
def latest (b : Branches) : Except Fault (Nat × Branch) :=
  if b.isOpen then
    match b.all.getLast? with
    | some branch => .ok (b.all.length - 1, branch)
    | none => .error b.nothingToClose
  else .error b.nothingToClose

/-- Closes the open branch. -/
def close (b : Branches) : Except Fault ((Nat × Branch) × Branches) := do
  return (← b.latest, { b with isOpen := false })

/-- Changes the branch with the given number. -/
def modify (b : Branches) (number : Nat) (f : Branch → Branch) : Branches :=
  { b with all := b.all.modify number f }

/-- Gives the label of a branch's block its address. -/
def bindBody (b : Branches) (number : Nat) (address : Int) : Except Misuse Branches :=
  match b.all[number]? with
  | none => .ok b
  | some branch => do
    let body ← branch.body.bind address
    return b.modify number ({ · with body })

/-- Gives the label behind a branch its address. -/
def bindStop (b : Branches) (number : Nat) (address : Int) : Except Misuse Branches :=
  match b.all[number]? with
  | none => .ok b
  | some branch => do
    let stop ← branch.stop.bind address
    return b.modify number ({ · with stop })

end Branches

end TapeMachine

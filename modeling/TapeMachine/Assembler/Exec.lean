import TapeMachine.Assembler.Code
import TapeMachine.Assembler.State

/-!
# Assembling statements

`Statement.exec` carries out one statement: it looks up operands, makes and closes blocks, and
emits code. `Assembler.run` carries out the statements of a program in order and stops at the first
that fails, which it locates.
-/

namespace TapeMachine

namespace Step

/-- Adds an event to the log. -/
def report (e : Event) : Step Unit := modify (·.report e)

/-- Appends instructions to the tape. -/
def emit (code : List (Instruction Target)) : Step Unit :=
  modify fun s => { s with tape := s.tape.emitAll code }

/-- What an operand denotes when it is read. -/
def read (token : String) : Step Value := do
  ofFault ((← get).storage.read token)

/-- The cell that an operand denotes when it is written. -/
def write (token : String) : Step Int := do
  ofFault ((← get).storage.write token)

/-- The cell that an operand denotes when it is assigned. -/
def claim (token : String) : Step Int := do
  let before := (← get).storage
  let (cell, after) ← ofFault (before.claim token)
  let news := (before.added after).flatMap fun b =>
    [Event.allocated b.cell, .bound b.name b.cell b.scope]
  modify fun s => { s with storage := after, log := s.log ++ news }
  return cell

/-- Gives a target the address of the next instruction. -/
def bindHere (target : Target) : Step Unit := do
  let s ← get
  let address := s.tape.here
  match target with
  | .behindDefinition name =>
    set { s with definitions := ← ofMisuse (s.definitions.bindStop name address) }
  | .body kind number =>
    set (s.setBranches kind (← ofMisuse ((s.branches kind).bindBody number address)))
  | .behindBranch kind number =>
    set (s.setBranches kind (← ofMisuse ((s.branches kind).bindStop number address)))
  report (.labelled (s.label target).name address)

/-- Remembers a block that is not closed yet. -/
def pushBlock (construct : Construct) (line : Nat) : Step Unit :=
  modify fun s => { s with blocks := ⟨construct, line⟩ :: s.blocks }

/-- Forgets the innermost block, which has to be of the given kind. -/
def popBlock (construct : Construct) : Step Unit := do
  let s ← get
  match s.blocks with
  | [] => throw (.misuse .position)
  | inner :: blocks =>
    if inner.construct = construct then set { s with blocks }
    else fault (.crossedBlocks construct.closer inner.construct.opener inner.line)

/-- Adds a definition to the register. -/
def createDefinition (name : String) (start index : Int) : Step Unit := do
  let (_, definitions) ← ofFault ((← get).definitions.create name start index)
  modify ({ · with definitions })
  report (.registered name start)

/-- Adds the scope of a definition and records it there. -/
def createScope (name scope : String) : Step Unit := do
  let scopes ← ofFault ((← get).storage.scopes.create scope)
  modify fun s =>
    { s with
      storage := { s.storage with scopes }
      definitions := s.definitions.modify name ({ · with scope := some scope }) }

/-- Makes a scope the current one. -/
def enterScope (scope : String) : Step Unit := do
  modify fun s => { s with storage := { s.storage with scopes := s.storage.scopes.enter scope } }
  report (.entered scope)

/-- Goes back to the scope that was current before. -/
def leaveScope : Step Unit := do
  let (name, scopes) ← ofMisuse (← get).storage.scopes.leave
  modify fun s => { s with storage := { s.storage with scopes } }
  report (.left name)

/-- Opens a branch here; gives its number. -/
def openBranch (kind : BranchKind) : Step Nat := do
  let s ← get
  let start := s.tape.here
  let number := (s.branches kind).all.length
  let (_, branches) ← ofFault ((s.branches kind).opening start)
  set (s.setBranches kind branches)
  report (.opened kind.form.opener number start)
  return number

/-- Records the position of the jump over a branch's block. -/
def recordSkip (kind : BranchKind) (number index : Nat) : Step Unit :=
  modify fun s =>
    s.setBranches kind ((s.branches kind).modify number ({ · with skip := some index }))

/-- The code that tests a condition and branches to a target if it holds. -/
def testCode (kind : BranchKind) (target : Target) :
    Condition → Step (List (Instruction Target))
  | .compare c left right => do
    let l ← read left
    let r ← read right
    return Code.branch c.predicate l r (.label target)
      s!"Jump into the {kind.form.opener} body if {left} {c.symbol} {right}"
  | .constant c =>
    return Code.branch c.predicate (.literal 0) (.literal 0) (.label target)
      s!"Jump into the {kind.form.opener} body ({c.word})"

end Step

namespace Statement

open Step

/-- The scope of a definition's variables. -/
def scopeOf (definition : String) : String := "definition." ++ definition

/-- Starts a definition: makes it known, with a scope of its own, and jumps over its body. -/
def execDefine (line : Nat) (name : String) : Step Unit := do
  let s ← get
  if let .ok enclosing := s.definitions.latest then
    fault (.nestedDefinition name enclosing.name)
  let index := s.tape.size
  createDefinition name (addressOf (index + 1 : Nat)) index
  createScope name (scopeOf name)
  emit [Code.skipDefinition (.label (.behindDefinition name)) name]
  enterScope (scopeOf name)
  modify fun s => { s with definitions := s.definitions.opening name }
  pushBlock .definition line

/-- Ends a definition: returns to the caller and goes back to the scope around it. -/
def execEndDefine : Step Unit := do
  let _ ← ofFault (← get).definitions.latest
  popBlock .definition
  let (definition, definitions) ← ofFault (← get).definitions.closeLatest
  modify ({ · with definitions })
  emit Code.epilogue
  bindHere (.behindDefinition definition.name)
  leaveScope

/-- Starts a branch: tests its condition and jumps over its block. The branch is open from the
start, also if its condition turns out to be at fault. -/
def execBranch (line : Nat) (kind : BranchKind) (condition : List String) : Step Unit := do
  let number ← openBranch kind
  let condition ← ofFault (Condition.parse kind condition)
  emit (← testCode kind (.body kind number) condition)
  recordSkip kind number (← get).tape.size
  emit [Code.skipBranch (.label (.behindBranch kind number)) kind.form.opener]
  bindHere (.body kind number)
  pushBlock (.branch kind) line

/-- Ends a branch; a loop first goes back to its condition. -/
def execEndBranch (kind : BranchKind) : Step Unit := do
  let _ ← ofFault ((← get).branches kind).latest
  popBlock (.branch kind)
  let ((number, closed), branches) ← ofFault ((← get).branches kind).close
  modify (·.setBranches kind branches)
  if kind = .loop then emit [Code.repeatLoop closed.start]
  bindHere (.behindBranch kind number)

/-- Carries out the statement on the given line. -/
def exec (line : Nat) : Statement → Step Unit
  | .assign destination source => do
    let value ← read source
    let cell ← claim destination
    emit (Code.assign cell value s!"Move value to ram ({destination} = {source})")
  | .combine op left right destination => do
    let l ← read left
    let r ← read right
    let cell ← write destination
    emit (Code.store (.alu op.op) l r cell s!"{destination} = {left} {op.symbol} {right}")
  | .compare c left right destination => do
    let l ← read left
    let r ← read right
    let cell ← write destination
    emit (Code.store (.condition c.predicate) l r cell
      s!"{destination} = {left} {c.symbol} {right}")
  | .constant c destination => do
    let cell ← write destination
    emit (Code.store (.condition c.predicate) (.literal 0) (.literal 0) cell
      s!"{destination} = {c.word}")
  | .define name => execDefine line name
  | .endDefine => execEndDefine
  | .call name => do
    let s ← get
    let definition ← ofFault (s.definitions.resolve name)
    emit (Code.call s.tape.size definition.start definition.name)
  | .branch kind condition => execBranch line kind condition
  | .endBranch kind => execEndBranch kind

end Statement

namespace Assembler

/-- Carries out the statement that the words of a line make up. -/
def process (line : SourceLine) : Step Unit := do
  (← Step.ofFault (Statement.parse line.head line.args)).exec line.number

/-- Carries out the statement on a line, and says where it fails if it does. -/
def step (source : String) (line : SourceLine) : Step Unit := fun s =>
  match process line s with
  | .ok _ s => .ok () s
  | .error failure s => .error (failure.locate line.number source) s

/-- Carries out statements in order. -/
def run (source : String) : List SourceLine → Step Unit
  | [] => pure ()
  | line :: lines => do
    step source line
    run source lines

end Assembler

end TapeMachine

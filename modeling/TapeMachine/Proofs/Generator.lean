import TapeMachine.Assembler.Code
import TapeMachine.Proofs.Backpatch
import TapeMachine.Proofs.Forest
import TapeMachine.Proofs.Operands

/-!
# Code without labels

The code of a forest, written down from the outside in. The number of instructions of every part
is known from the operands alone (`Forest.size`), and so is the place of every part before any code
is written: jumps are given their addresses at once, and there are no labels. An instruction has
four words, so the one at position `i` has the address `4 * i`. Every instruction is spelled out,
with its opcode, its fields and its comment.

A `Layout` says which cells the variables have and where the bodies of the definitions start.
`Forest.layout` is the one that belongs to a program: the variables get the cells in the order in
which they are first assigned, and a body starts behind the jump over it.

* `Forest.gen`: the code of a forest from a given position on.
* `Simple.code_eq_template` and its like: the code is that of the assembler's templates.
* `length_gen`: it is as long as it was said to be.
* `resolved_gen`: it holds no label.
-/

namespace TapeMachine

/-! ## Sizes -/

/-- How many instructions bring an operand within reach. -/
def stagingSize (token : String) : Nat :=
  match Operand.denote token with
  | .immediate _ => 0
  | .direct _ | .var _ => 2

/-- How many instructions a statement has. -/
def Simple.size : Simple → Nat
  | .assign _ _ => 2
  | .combine _ left right _ => stagingSize left + stagingSize right + 2
  | .compare _ left right _ => stagingSize left + stagingSize right + 2
  | .constant _ _ => 2
  | .call _ => 4

/-- How many instructions test a condition. -/
def Condition.size : Condition → Nat
  | .compare _ left right => stagingSize left + stagingSize right + 1
  | .constant _ => 1

/-- How many instructions stand before the body of a block. -/
def Opening.size : Opening → Nat
  | .define _ => 1
  | .branch _ condition => condition.size + 1

/-- How many instructions stand behind the body of a block. -/
def Construct.tailSize : Construct → Nat
  | .definition => 3
  | .branch .conditional => 0
  | .branch .loop => 1

/-- How many instructions a line has. -/
def Clause.size : Clause → Nat
  | .simple s => s.size
  | .opening o => o.size
  | .closing c => c.tailSize

/-- How many instructions a forest has. -/
def Forest.size : Forest → Nat
  | .done => 0
  | .simple s rest => s.size + rest.size
  | .block o body rest => o.size + body.size + o.construct.tailSize + rest.size

/-- How many instructions lines have. -/
def linesSize : List Clause → Nat
  | [] => 0
  | c :: cs => c.size + linesSize cs

theorem linesSize_append (cs ds : List Clause) :
    linesSize (cs ++ ds) = linesSize cs + linesSize ds := by
  induction cs with
  | nil => simp [linesSize]
  | cons c cs ih => rw [List.cons_append, linesSize, linesSize, ih, Nat.add_assoc]

/-- The size of a forest is that of its lines. -/
theorem Forest.size_eq_linesSize (F : Forest) : F.size = linesSize F.clauses := by
  induction F with
  | done => rfl
  | simple s rest ih => rw [size, clauses, linesSize, Clause.size, ih]
  | block o body rest ihb ihr =>
    simp only [size, clauses, linesSize, linesSize_append, Clause.size, ihb, ihr]
    omega

/-! ## Code -/

/-- What has to be known of a program before its code can be written: the cell of every variable
of every scope, and where the body of every definition starts. The scope is that of the main
program or of the named definition. -/
structure Layout where
  cell : Option String → String → Int
  entry : String → Int

namespace Layout

/-- What an operand denotes. -/
def value (lay : Layout) (scope : Option String) (token : String) : Value :=
  match Operand.denote token with
  | .immediate n => .literal n
  | .direct address => .cell address
  | .var name => .cell (lay.cell scope name)

/-- The cell that an operand denotes. -/
def place (lay : Layout) (scope : Option String) (token : String) : Int :=
  match lay.value scope token with
  | .literal n => n
  | .cell address => address

end Layout

/-- What the arithmetic unit does for a keyword, and the sign for it in comments. -/
def Arithmetic.operation : Arithmetic → AluOp × String
  | .add => (.add, "+")
  | .sub => (.subtract, "-")
  | .and => (.and, "&")
  | .or => (.or, "|")
  | .xor => (.xor, "^")

/-- What is tested for a comparison, and the sign for it in comments. -/
def Comparison.question : Comparison → Predicate × String
  | .eq => (.equal, "==")
  | .neq => (.notEqual, "!=")
  | .sm => (.smaller, "<")
  | .smeq => (.smallerEqual, "<=")
  | .gr => (.greater, ">")
  | .greq => (.greaterEqual, ">=")

/-- What is tested for a constant condition, and the word for it in comments. -/
def Constant.question : Constant → Predicate × String
  | .always => (.always, "always")
  | .never => (.never, "never")

/-- How the block is called in comments. -/
def BranchKind.title : BranchKind → String
  | .conditional => "IF"
  | .loop => "WHILE"

section Code

variable {L : Type} (lay : Layout) (scope : Option String)

/-- Selects a cell. -/
def select (address : Int) (role : String) : Instruction L where
  opcode := ⟨.alu, .alu .move, false, true, false⟩
  a := .number address
  b := .number 0
  destination := .register .ramAddress
  comment := s!"Move {role} address to ram-address-register"

/-- Copies the content of a cell to the first scratch register. -/
def fetch0 (address : Int) (role : String) : List (Instruction L) :=
  [select address role,
   { opcode := ⟨.alu, .alu .move, false, false, false⟩
     a := .register .ram
     b := .number 0
     destination := .register .scratch0
     comment := s!"Move {role} value to scratch-0" }]

/-- Copies the content of a cell to the second scratch register. -/
def fetch1 (address : Int) (role : String) : List (Instruction L) :=
  [select address role,
   { opcode := ⟨.alu, .alu .move, false, false, false⟩
     a := .register .ram
     b := .number 0
     destination := .register .scratch1
     comment := s!"Move {role} value to scratch-1" }]

/-- Combines two values. What lives in a cell is copied to a scratch register first, which is the
first one unless that one is taken; numbers are written into the instruction and marked by its two
flags. Between the copies and the combination stands what selects the cell of the result. -/
def compute (opClass : OpClass) (operation : Operation) (jump : Bool)
    (selection : List (Instruction L)) (destination : Slot L) (comment : String) :
    Value → Value → List (Instruction L)
  | .literal x, .literal y =>
    selection ++
      [⟨⟨opClass, operation, jump, true, true⟩, .number x, .number y, destination, comment⟩]
  | .cell x, .literal y =>
    fetch0 x "first" ++ selection ++
      [⟨⟨opClass, operation, jump, false, true⟩, .register .scratch0, .number y, destination,
        comment⟩]
  | .literal x, .cell y =>
    fetch0 y "second" ++ selection ++
      [⟨⟨opClass, operation, jump, true, false⟩, .number x, .register .scratch0, destination,
        comment⟩]
  | .cell x, .cell y =>
    fetch0 x "first" ++ fetch1 y "second" ++ selection ++
      [⟨⟨opClass, operation, jump, false, false⟩, .register .scratch0, .register .scratch1,
        destination, comment⟩]

/-- Moves a number to the selected cell. For a cell it is the cell's own number that stands in the
instruction, not marked as a number. -/
def deposit (comment : String) : Value → Instruction L
  | .literal n =>
    ⟨⟨.alu, .alu .move, false, true, false⟩, .number n, .number 0, .register .ram, comment⟩
  | .cell address =>
    ⟨⟨.alu, .alu .move, false, false, false⟩, .number address, .number 0, .register .ram, comment⟩

/-- Goes to an address. -/
def goTo (address : Int) (comment : String) : Instruction L :=
  ⟨⟨.alu, .alu .move, false, true, false⟩, .number address, .number 0, .register .programCounter,
    comment⟩

/-- The code of a statement at the given position. -/
def Simple.code (index : Nat) : Simple → List (Instruction L)
  | .assign destination source =>
    [select (lay.place scope destination) "destination",
     deposit s!"Move value to ram ({destination} = {source})" (lay.value scope source)]
  | .combine op left right destination =>
    compute .alu (.alu op.operation.1) false [select (lay.place scope destination) "result"]
      (.register .ram) s!"{destination} = {left} {op.operation.2} {right}"
      (lay.value scope left) (lay.value scope right)
  | .compare c left right destination =>
    compute .conditions (.test c.question.1) false [select (lay.place scope destination) "result"]
      (.register .ram) s!"{destination} = {left} {c.question.2} {right}"
      (lay.value scope left) (lay.value scope right)
  | .constant c destination =>
    [select (lay.place scope destination) "result",
     { opcode := ⟨.conditions, .test c.question.1, false, true, true⟩
       a := .number 0
       b := .number 0
       destination := .register .ram
       comment := s!"{destination} = {c.question.2}" }]
  | .call name =>
    [{ opcode := ⟨.alu, .alu .move, false, false, false⟩
       a := .register .jumpBackDepth
       b := .number 0
       destination := .register .jumpBackAddress
       comment := "Move the jump-back depth to the jump-back-ram-address-register" },
     { opcode := ⟨.alu, .alu .add, false, false, true⟩
       a := .register .jumpBackDepth
       b := .number 1
       destination := .register .jumpBackDepth
       comment := "Add 1 to the jump-back depth" },
     { opcode := ⟨.alu, .alu .move, false, true, false⟩
       a := .number (4 * (index + 4) : Nat)
       b := .number 0
       destination := .register .jumpBackRam
       comment := "Store the return address in the jump-back-ram" },
     goTo (lay.entry name) s!"Jump to the start of {name}"]

/-- The code that tests a condition and goes to a target if it holds. -/
def Condition.code (kind : BranchKind) (target : Slot L) : Condition → List (Instruction L)
  | .compare c left right =>
    compute .conditions (.test c.question.1) true [] target
      s!"Jump into the {kind.title} body if {left} {c.question.2} {right}"
      (lay.value scope left) (lay.value scope right)
  | .constant c =>
    [{ opcode := ⟨.conditions, .test c.question.1, true, true, true⟩
       a := .number 0
       b := .number 0
       destination := target
       comment := s!"Jump into the {kind.title} body ({c.question.2})" }]

/-- What stands before the body of a block that is at position `base` and whose body has `body`
instructions: the jump over the body, and before it the test that goes into the body. -/
def Opening.code (base body : Nat) : Opening → List (Instruction L)
  | .define name =>
    [goTo (4 * (base + 1 + body + 3) : Nat) s!"Jump to the end of the definition {name}"]
  | .branch .conditional condition =>
    condition.code lay scope .conditional (.number (4 * (base + condition.size + 1) : Nat))
      ++ [goTo (4 * (base + condition.size + 1 + body) : Nat) "Skip the IF body"]
  | .branch .loop condition =>
    condition.code lay scope .loop (.number (4 * (base + condition.size + 1) : Nat))
      ++ [goTo (4 * (base + condition.size + 1 + body + 1) : Nat) "Skip the WHILE body"]

/-- What stands behind the body of a block that is at position `base`. -/
def Construct.tailCode (base : Nat) : Construct → List (Instruction L)
  | .definition =>
    [{ opcode := ⟨.alu, .alu .subtract, false, false, true⟩
       a := .register .jumpBackDepth
       b := .number 1
       destination := .register .jumpBackDepth
       comment := "Subtract 1 from the jump-back depth" },
     { opcode := ⟨.alu, .alu .move, false, false, false⟩
       a := .register .jumpBackDepth
       b := .number 0
       destination := .register .jumpBackAddress
       comment := "Move the jump-back depth to the jump-back-ram-address-register" },
     { opcode := ⟨.alu, .alu .move, false, false, false⟩
       a := .register .jumpBackRam
       b := .number 0
       destination := .register .programCounter
       comment := "Jump to the instruction from the jump-back-ram" }]
  | .branch .conditional => []
  | .branch .loop => [goTo (4 * base : Nat) "Jump back to the WHILE condition"]

/-- The scope of the body of a block. -/
def Opening.inner : Opening → Option String
  | .define name => some name
  | .branch _ _ => scope

end Code

/-- **The code of a forest** that stands at position `base` of a program with the given layout. -/
def Forest.gen {L : Type} (lay : Layout) : Option String → Nat → Forest → List (Instruction L)
  | _, _, .done => []
  | scope, base, .simple s rest => s.code lay scope base ++ rest.gen lay scope (base + s.size)
  | scope, base, .block o body rest =>
    o.code lay scope base body.size
      ++ body.gen lay (o.inner scope) (base + o.size)
      ++ o.construct.tailCode base
      ++ rest.gen lay scope (base + o.size + body.size + o.construct.tailSize)

/-! ## The layout of a program -/

/-- The variable that a statement gives a value to; it gets a cell if it has none. -/
def Simple.assignee? : Simple → Option String
  | .assign destination _ =>
    match Operand.denote destination with
    | .var name => some name
    | _ => none
  | _ => none

/-- The scope of the line behind a line in the given scope. -/
def Clause.scopeAfter (scope : Option String) : Clause → Option String
  | .opening (.define name) => some name
  | .closing .definition => none
  | _ => scope

/-- The scope behind the lines. -/
def scopeBehind (scope : Option String) (cs : List Clause) : Option String :=
  cs.foldl Clause.scopeAfter scope

theorem scopeBehind_append (scope : Option String) (cs ds : List Clause) :
    scopeBehind scope (cs ++ ds) = scopeBehind (scopeBehind scope cs) ds :=
  List.foldl_append

/-- The variable, with its scope, that a line gives a value to. -/
def Clause.assigned (scope : Option String) : Clause → List (Option String × String)
  | .simple s => (s.assignee?.map (scope, ·)).toList
  | .opening _ => []
  | .closing _ => []

/-- The variables, with their scopes, that lines give values to, in order. -/
def assigned : Option String → List Clause → List (Option String × String)
  | _, [] => []
  | scope, c :: cs => c.assigned scope ++ assigned (c.scopeAfter scope) cs

/-- A definition of a program: its name, the position of the jump over its body, and its body. -/
structure Body where
  name : String
  index : Nat
  body : Forest
deriving DecidableEq, Repr

/-- The definition that starts at position `base`, if the block is one. -/
def Opening.bodies (base : Nat) (body : Forest) : Opening → List Body
  | .define name => [⟨name, base, body⟩]
  | .branch _ _ => []

namespace Forest

/-- The definitions of a forest that stands at position `base`. -/
def bodies : Nat → Forest → List Body
  | _, .done => []
  | base, .simple s rest => rest.bodies (base + s.size)
  | base, .block o body rest =>
    o.bodies base body ++ body.bodies (base + o.size)
      ++ rest.bodies (base + o.size + body.size + o.construct.tailSize)

/-- The definition with the given name. -/
def body? (F : Forest) (name : String) : Option Body := (F.bodies 0).find? (·.name = name)

/-- The variables of a program, in the order of their cells. -/
def cells (F : Forest) : List (Option String × String) := (assigned none F.clauses).eraseDups

/-- The layout of a program: a variable has the cell with its number in the order of first
assignments, and the body of a definition starts behind the jump over it. -/
def layout (F : Forest) : Layout where
  cell scope name := F.cells.idxOf (scope, name)
  entry name := (F.body? name).elim 0 fun b => (4 * (b.index + 1) : Nat)

/-- **The code of a program.** -/
def code {L : Type} (F : Forest) : List (Instruction L) := F.gen F.layout none 0

end Forest

/-! ## The code is that of the templates -/

theorem addressOf_eq (index : Nat) : addressOf index = (4 * index : Nat) := by
  rw [addressOf, width]
  omega

theorem Forest.layout_entry {F : Forest} {name : String} {b : Body} (h : F.body? name = some b) :
    F.layout.entry name = addressOf (b.index + 1 : Nat) := by
  rw [addressOf_eq, layout]
  simp [h]

section Templates

variable {L : Type} (lay : Layout) (scope : Option String)

theorem compute_eq_store (o : Opcode) (left right : Value) (cell : Int) (comment : String) :
    (compute o.opClass o.operation o.jump [select cell "result"] (.register .ram) comment left right
      : List (Instruction L)) = Code.store o left right cell comment := by
  cases left <;> cases right <;> rfl

theorem compute_eq_branch (p : Predicate) (left right : Value) (target : Slot L)
    (comment : String) :
    compute .conditions (.test p) true [] target comment left right =
      Code.branch p left right target comment := by
  cases left <;> cases right <;> rfl

theorem goTo_eq_jump (index : Nat) (comment : String) :
    (goTo (4 * index : Nat) comment : Instruction L) =
      Code.jump (.number (addressOf index)) comment := by
  rw [addressOf_eq]
  rfl

/-- The template of a statement. -/
def Simple.template (index : Nat) : Simple → List (Instruction L)
  | .assign destination source =>
    Code.assign (lay.place scope destination) (lay.value scope source)
      s!"Move value to ram ({destination} = {source})"
  | .combine op left right destination =>
    Code.store (.alu op.op) (lay.value scope left) (lay.value scope right)
      (lay.place scope destination) s!"{destination} = {left} {op.symbol} {right}"
  | .compare c left right destination =>
    Code.store (.condition c.predicate) (lay.value scope left) (lay.value scope right)
      (lay.place scope destination) s!"{destination} = {left} {c.symbol} {right}"
  | .constant c destination =>
    Code.store (.condition c.predicate) (.literal 0) (.literal 0) (lay.place scope destination)
      s!"{destination} = {c.word}"
  | .call name => Code.call index (lay.entry name) name

/-- The template of a condition. -/
def Condition.template (kind : BranchKind) (target : Slot L) : Condition → List (Instruction L)
  | .compare c left right =>
    Code.branch c.predicate (lay.value scope left) (lay.value scope right) target
      s!"Jump into the {kind.form.opener} body if {left} {c.symbol} {right}"
  | .constant c =>
    Code.branch c.predicate (.literal 0) (.literal 0) target
      s!"Jump into the {kind.form.opener} body ({c.word})"

/-- The template of what stands before the body of a block. -/
def Opening.template (base body : Nat) : Opening → List (Instruction L)
  | .define name => [Code.skipDefinition (.number (addressOf (base + 1 + body + 3 : Nat))) name]
  | .branch kind condition =>
    condition.template lay scope kind (.number (addressOf (base + condition.size + 1 : Nat)))
      ++ [Code.skipBranch
        (.number (addressOf
          (base + condition.size + 1 + body + (Construct.branch kind).tailSize : Nat)))
        kind.form.opener]

/-- The template of what stands behind the body of a block. -/
def Construct.tailTemplate (base : Nat) : Construct → List (Instruction L)
  | .definition => Code.epilogue
  | .branch .conditional => []
  | .branch .loop => [Code.repeatLoop (addressOf base)]

theorem operation_eq (op : Arithmetic) : op.operation = (op.op, op.symbol) := by
  cases op <;> rfl

theorem Comparison.question_eq (c : Comparison) : c.question = (c.predicate, c.symbol) := by
  cases c <;> rfl

theorem Constant.question_eq (c : Constant) : c.question = (c.predicate, c.word) := by
  cases c <;> rfl

theorem title_eq_opener (kind : BranchKind) : kind.title = kind.form.opener := by
  cases kind <;> rfl

theorem Simple.code_eq_template (s : Simple) (index : Nat) :
    (s.code lay scope index : List (Instruction L)) = s.template lay scope index := by
  cases s with
  | assign d src =>
    rw [code, template]
    cases lay.value scope src <;> rfl
  | combine op l r d =>
    rw [code, operation_eq]
    exact compute_eq_store (.alu op.op) _ _ _ _
  | compare c l r d =>
    rw [code, c.question_eq]
    exact compute_eq_store (.condition c.predicate) _ _ _ _
  | constant c d =>
    rw [code, c.question_eq]
    rfl
  | call name =>
    rw [code, template, Code.call, addressOf_eq]
    rfl

theorem Condition.code_eq_template (c : Condition) (kind : BranchKind) (target : Slot L) :
    c.code lay scope kind target = c.template lay scope kind target := by
  cases c with
  | compare c l r =>
    rw [code, c.question_eq, title_eq_opener]
    exact compute_eq_branch c.predicate _ _ _ _
  | constant c =>
    rw [code, c.question_eq, title_eq_opener]
    rfl

theorem Opening.code_eq_template (o : Opening) (base body : Nat) :
    (o.code lay scope base body : List (Instruction L)) = o.template lay scope base body := by
  cases o with
  | define name => rw [code, goTo_eq_jump, template, Code.skipDefinition]
  | branch kind c =>
    cases kind with
    | conditional =>
      rw [code, goTo_eq_jump, ← addressOf_eq, Condition.code_eq_template]
      rfl
    | loop =>
      rw [code, goTo_eq_jump, ← addressOf_eq, Condition.code_eq_template]
      rfl

theorem Construct.tailCode_eq_template (c : Construct) (base : Nat) :
    (c.tailCode base : List (Instruction L)) = c.tailTemplate base := by
  match c with
  | .definition => rfl
  | .branch .conditional => rfl
  | .branch .loop => rw [tailCode, goTo_eq_jump, tailTemplate, Code.repeatLoop]

end Templates

/-! ## Code is as long as was said, and has no labels -/

section Length

variable {L : Type} (lay : Layout) (scope : Option String)

theorem stagingSize_eq (token : String) :
    stagingSize token = if (lay.value scope token).isLiteral then 0 else 2 := by
  unfold stagingSize Layout.value
  cases Operand.denote token <;> rfl

theorem length_staging (left right : Value) :
    (Code.staging left right : List (Instruction L)).length =
      (if left.isLiteral then 0 else 2) + if right.isLiteral then 0 else 2 := by
  cases left <;> cases right <;> rfl

theorem length_compute (opClass : OpClass) (operation : Operation) (jump : Bool)
    (selection : List (Instruction L)) (destination : Slot L) (comment : String)
    (left right : String) :
    (compute opClass operation jump selection destination comment (lay.value scope left)
        (lay.value scope right)).length =
      stagingSize left + stagingSize right + selection.length + 1 := by
  rw [stagingSize_eq lay scope left, stagingSize_eq lay scope right]
  cases lay.value scope left <;> cases lay.value scope right <;>
    simp [compute, fetch0, fetch1, Value.isLiteral] <;> omega

theorem length_simple_code (s : Simple) (index : Nat) :
    (s.code lay scope index : List (Instruction L)).length = s.size := by
  cases s with
  | assign d src => rfl
  | combine op l r d => rw [Simple.code, length_compute]; rfl
  | compare c l r d => rw [Simple.code, length_compute]; rfl
  | constant c d => rfl
  | call name => rfl

theorem length_condition_code (kind : BranchKind) (target : Slot L) (c : Condition) :
    (c.code lay scope kind target).length = c.size := by
  cases c with
  | compare c l r => rw [Condition.code, length_compute]; rfl
  | constant c => rfl

theorem length_opening_code (o : Opening) (base body : Nat) :
    (o.code lay scope base body : List (Instruction L)).length = o.size := by
  cases o with
  | define name => rfl
  | branch kind c => cases kind <;> simp [Opening.code, Opening.size, length_condition_code]

theorem length_tailCode (c : Construct) (base : Nat) :
    (c.tailCode base : List (Instruction L)).length = c.tailSize := by
  cases c with
  | definition => rfl
  | branch kind => cases kind <;> rfl

theorem length_gen (F : Forest) (base : Nat) :
    (F.gen lay scope base : List (Instruction L)).length = F.size := by
  induction F generalizing scope base with
  | done => rfl
  | simple s rest ih => simp [Forest.gen, Forest.size, length_simple_code, ih]
  | block o body rest ihb ihr =>
    simp [Forest.gen, Forest.size, length_opening_code, length_tailCode, ihb, ihr, Nat.add_assoc]

end Length

section Labels

variable {L : Type} (lay : Layout) (scope : Option String)

/-- No instruction holds a label. -/
def Resolved (code : List (Instruction L)) : Prop := ∀ i ∈ code, i.isResolved = true

@[simp] theorem resolved_nil : Resolved ([] : List (Instruction L)) := by
  simp [Resolved]

@[simp] theorem resolved_cons {i : Instruction L} {code : List (Instruction L)} :
    Resolved (i :: code) ↔ i.isResolved = true ∧ Resolved code := by
  simp [Resolved]

@[simp] theorem resolved_append {code code' : List (Instruction L)} :
    Resolved (code ++ code') ↔ Resolved code ∧ Resolved code' := by
  simp [Resolved, or_imp, forall_and]

@[simp] theorem label?_number (n : Int) : (.number n : Slot L).label? = none := rfl

@[simp] theorem label?_register (r : Register) : (.register r : Slot L).label? = none := rfl

theorem isResolved_eq (i : Instruction L) :
    i.isResolved =
      (i.a.label?.isNone && i.b.label?.isNone && i.destination.label?.isNone) := by
  obtain ⟨opcode, a, b, destination, comment⟩ := i
  cases a <;> cases b <;> cases destination <;> rfl

/-- What holds no label is not changed when labels are replaced. -/
theorem Resolved.map_settle {code : List (Instruction L)} (h : Resolved code)
    (address : L → Option Int) : code.map (Instruction.settle address) = code := by
  have hi : ∀ i ∈ code, i.settle address = i := by
    intro i hi
    have hr := h i hi
    rw [isResolved_eq] at hr
    obtain ⟨opcode, a, b, destination, comment⟩ := i
    cases a <;> cases b <;> cases destination <;> first | rfl | simp [Slot.label?] at hr
  rw [List.map_congr_left hi, List.map_id']

section Templates

theorem isResolved_jump_number (n : Int) (comment : String) :
    (Code.jump (.number n) comment : Instruction L).isResolved = true := by
  simp [Code.jump, isResolved_eq]

theorem resolved_staging (left right : Value) :
    Resolved (Code.staging left right : List (Instruction L)) := by
  cases left <;> cases right <;>
    simp [Code.staging, Code.stageFirst, Code.stageSecond, Code.selectCell, isResolved_eq]

theorem isResolved_combineInto {destination : Slot L} (h : destination.label? = none)
    (opcode : Opcode) (left right : Value) (comment : String) :
    (Code.combineInto opcode left right destination comment).isResolved = true := by
  cases left <;> cases right <;>
    simp [Code.combineInto, Code.leftSlot, Code.rightSlot, isResolved_eq, h]

theorem resolved_assign (cell : Int) (value : Value) (comment : String) :
    Resolved (Code.assign cell value comment : List (Instruction L)) := by
  simp [Code.assign, Code.selectCell, isResolved_eq]

theorem resolved_store (opcode : Opcode) (left right : Value) (cell : Int) (comment : String) :
    Resolved (Code.store opcode left right cell comment : List (Instruction L)) := by
  rw [Code.store, resolved_append, resolved_cons, resolved_cons]
  exact ⟨resolved_staging left right, by simp [Code.selectCell, isResolved_eq],
    isResolved_combineInto rfl opcode left right comment, resolved_nil⟩

theorem resolved_branch {target : Slot L} (h : target.label? = none) (p : Predicate)
    (left right : Value) (comment : String) :
    Resolved (Code.branch p left right target comment) := by
  rw [Code.branch, resolved_append, resolved_cons]
  exact ⟨resolved_staging left right, isResolved_combineInto h _ left right comment, resolved_nil⟩

theorem resolved_call (index : Nat) (start : Int) (name : String) :
    Resolved (Code.call index start name : List (Instruction L)) := by
  simp [Code.call, Code.selectReturn, Code.jump, isResolved_eq]

theorem resolved_epilogue : Resolved (Code.epilogue : List (Instruction L)) := by
  simp [Code.epilogue, Code.selectReturn, isResolved_eq]

end Templates

theorem resolved_simple_code (s : Simple) (index : Nat) :
    Resolved (s.code lay scope index : List (Instruction L)) := by
  rw [Simple.code_eq_template]
  cases s with
  | assign d src => exact resolved_assign _ _ _
  | combine op l r d => exact resolved_store _ _ _ _ _
  | compare c l r d => exact resolved_store _ _ _ _ _
  | constant c d => exact resolved_store _ _ _ _ _
  | call name => exact resolved_call _ _ _

theorem resolved_opening_code (o : Opening) (base body : Nat) :
    Resolved (o.code lay scope base body : List (Instruction L)) := by
  rw [Opening.code_eq_template]
  cases o with
  | define name => simp [Opening.template, Code.skipDefinition, isResolved_jump_number]
  | branch kind c =>
    rw [Opening.template, resolved_append, resolved_cons]
    refine ⟨?_, isResolved_jump_number _ _, resolved_nil⟩
    cases c with
    | compare c l r => exact resolved_branch rfl _ _ _ _
    | constant c => exact resolved_branch rfl _ _ _ _

theorem resolved_tailCode (c : Construct) (base : Nat) :
    Resolved (c.tailCode base : List (Instruction L)) := by
  rw [Construct.tailCode_eq_template]
  match c with
  | .definition => exact resolved_epilogue
  | .branch .conditional => exact resolved_nil
  | .branch .loop => simp [Construct.tailTemplate, Code.repeatLoop, isResolved_jump_number]

theorem resolved_gen (F : Forest) (base : Nat) :
    Resolved (F.gen lay scope base : List (Instruction L)) := by
  induction F generalizing scope base with
  | done => exact resolved_nil
  | simple s rest ih => simp [Forest.gen, resolved_simple_code, ih]
  | block o body rest ihb ihr =>
    simp [Forest.gen, resolved_opening_code, resolved_tailCode, ihb, ihr]

end Labels

end TapeMachine

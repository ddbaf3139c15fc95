import TapeMachine.Text.Quoted

/-!
# What can go wrong

A `Fault` is a mistake in a program: every cause has a constructor, `Fault.kind` sorts the causes
and `Fault.message` words them. A `Diagnostic` is a fault with the place it was found at.

A `Misuse` is a request that makes no sense whatever the program says, such as binding a label
twice. A `Failure` is either.
-/

namespace TapeMachine

/-- The kinds of mistake. -/
inductive Fault.Kind where
  /-- A mistake that none of the other kinds describes. -/
  | general
  /-- An operand cannot be read, or names a variable that is not bound. -/
  | address
  /-- The name of a definition or scope is taken. -/
  | duplicate
  /-- A call names no definition. -/
  | unknownDefinition
  /-- A closing keyword has nothing to close. -/
  | noOpenBlock
  /-- A keyword stands where nesting forbids it. -/
  | nesting
  /-- No RAM cell is free. -/
  | outOfMemory
  /-- An unknown keyword, or a wrong number of operands. -/
  | malformed
  /-- The program ends inside a block. -/
  | unclosed
deriving DecidableEq, Repr

/-- The causes of a mistake. -/
inductive Fault where
  | emptyOperand
  | variableName (token : String)
  | operand (token : String)
  | addressRange (token : String)
  | immediateRange (token : String)
  | immediateDestination (token : String)
  | unbound (name scope : String)
  | scopeTaken (name : String)
  | definitionTaken (name : String)
  | definitionUnknown (name : String)
  | nothingToClose (closer opener : String)
  | nestedBranch (opener : String)
  | nestedDefinition (name enclosing : String)
  | crossedBlocks (closer inner : String) (line : Nat)
  | notACondition (keyword opener : String)
  | poolExhausted (size : Nat)
  | form (keyword usage : String)
  | keywordUnknown (word : String)
  | definitionName (name : String)
  | neverClosed (opener : String)
  | targetUnbound (name : String)
  /-- A mistake that is described from outside. -/
  | described (kind : Fault.Kind) (text : String)
deriving DecidableEq, Repr

namespace Fault

/-- The kind of mistake that a cause is. -/
def kind : Fault → Kind
  | emptyOperand | variableName _ | operand _ | addressRange _ | immediateRange _
  | immediateDestination _ | unbound _ _ => .address
  | scopeTaken _ | definitionTaken _ => .duplicate
  | definitionUnknown _ => .unknownDefinition
  | nothingToClose _ _ => .noOpenBlock
  | nestedBranch _ | nestedDefinition _ _ | crossedBlocks _ _ _ | notACondition _ _ => .nesting
  | poolExhausted _ => .outOfMemory
  | form _ _ | keywordUnknown _ | definitionName _ => .malformed
  | neverClosed _ | targetUnbound _ => .unclosed
  | described kind _ => kind

/-- The wording of a cause. -/
def message : Fault → String
  | emptyOperand => "empty operand"
  | variableName token => s!"invalid variable name '{token}'"
  | operand token => s!"invalid operand '{token}'"
  | addressRange token => s!"address out of range: '{token}'"
  | immediateRange token => s!"immediate does not fit 32 bits: '{token}'"
  | immediateDestination token =>
    s!"destination '{token}' must be a pointer or a variable, not an immediate"
  | unbound name scope => s!"variable '${name}' is not bound in scope '{scope}'"
  | scopeTaken name => s!"scope '{name}' already exists"
  | definitionTaken name => s!"a definition named '{name}' already exists"
  | definitionUnknown name => s!"definition '{name}' not found"
  | nothingToClose closer opener => s!"{closer} without an open {opener}"
  | nestedBranch opener => s!"{opener} cannot be nested inside another open {opener}"
  | nestedDefinition name enclosing => s!"DEF {name} cannot be nested inside DEF {enclosing}"
  | crossedBlocks closer inner line =>
    s!"{closer} while {inner} opened on line {line} is still open"
  | notACondition keyword opener => s!"{keyword} is not allowed inside an {opener} condition"
  | poolExhausted size => s!"no free RAM cell left (all {size} cells are in use)"
  | form keyword usage => s!"{keyword} expects: {usage}"
  | keywordUnknown word => s!"unknown keyword '{word}'"
  | definitionName name => s!"invalid definition name '{name}'"
  | neverClosed opener => s!"{opener} is never closed"
  | targetUnbound name => s!"jump target '{name}' was never closed"
  | described _ text => text

end Fault

/-- A fault and the place it was found at, as far as that is known. -/
structure Diagnostic where
  fault : Fault
  line : Option Int := none
  source : Option String := none
deriving DecidableEq, Repr

namespace Diagnostic

/-- Fills in the parts of the place that are not known yet. -/
def locate (d : Diagnostic) (line : Option Int) (source : Option String) : Diagnostic :=
  { d with line := d.line <|> line, source := d.source <|> source }

/-- The source as a message shows it. -/
def sourceName (d : Diagnostic) : String :=
  match d.source with
  | none | some "" => "<string>"
  | some name => name

/-- The wording of a diagnostic, with its place if the line is known. -/
def message (d : Diagnostic) : String :=
  match d.line with
  | none => d.fault.message
  | some line => s!"{d.sourceName}:{line}: {d.fault.message}"

end Diagnostic

/-- The tables of numeric codes. -/
inductive CodeTable where
  | opClass
  | aluOp
  | predicate
  | register
deriving DecidableEq, Repr

/-- The name of a table of codes. -/
def CodeTable.name : CodeTable → String
  | .opClass => "OpClass"
  | .aluOp => "AluOp"
  | .predicate => "Predicate"
  | .register => "Address"

/-- Requests that make no sense. -/
inductive Misuse where
  /-- No entry of the table has the code. -/
  | code (table : CodeTable) (n : Int)
  /-- Only conditions can carry the jump flag. -/
  | branch (opClass : String)
  /-- The label has an address already. -/
  | labelBound (name : String) (address : Int)
  /-- The instruction, shown in full, still refers to labels. -/
  | unresolved (shown : String)
  /-- A pool of cells has at least one cell. -/
  | poolSize
  /-- A pool of cells has a size. -/
  | poolSizeMissing
  /-- The number has more digits than are written. -/
  | digits (most : Nat)
  /-- The root scope is never left. -/
  | leaveRoot
  /-- Nothing has the name. -/
  | missing (name : String)
  /-- There is no element at the position. -/
  | position
deriving DecidableEq, Repr

/-- The wording of a misuse. -/
def Misuse.message : Misuse → String
  | .code table n => s!"{n} is not a valid {table.name}"
  | .branch opClass => s!"only conditions can branch, got {opClass}"
  | .labelBound name address => s!"label {name} already bound to {address}"
  | .unresolved shown => s!"instruction has unresolved operands: {shown}"
  | .poolSize => "memory size must be positive"
  | .poolSizeMissing => "'<=' not supported between instances of 'list' and 'int'"
  | .digits most =>
    s!"Exceeds the limit ({most} digits) for integer string conversion; "
      ++ "use sys.set_int_max_str_digits() to increase the limit"
  | .leaveRoot => "cannot leave the root scope"
  | .missing name => Text.quoted name
  | .position => "list index out of range"

/-- Why a request was not carried out. -/
inductive Failure where
  | diagnostic (d : Diagnostic)
  | misuse (m : Misuse)
deriving DecidableEq, Repr

namespace Failure

/-- A fault whose place is not known yet. -/
def ofFault (f : Fault) : Failure := .diagnostic { fault := f }

/-- Fills in the place of a diagnostic. -/
def locate (line : Int) (source : String) : Failure → Failure
  | .diagnostic d => .diagnostic (d.locate (some line) (some source))
  | .misuse m => .misuse m

/-- The wording of a failure. -/
def message : Failure → String
  | .diagnostic d => d.message
  | .misuse m => m.message

end Failure

end TapeMachine

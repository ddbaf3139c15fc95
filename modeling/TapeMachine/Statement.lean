import TapeMachine.Keyword
import TapeMachine.Operand
import TapeMachine.Text.Lines

/-!
# Statements

A program is read line by line. What follows `#` is a comment, and a line with nothing else is
skipped; the words of any other line are one statement. `Source.lines` gives these words with the
numbers of their lines, `Statement.parse` sorts them by keyword, and `Condition.parse` does so for
the condition of a branch.

Operands stay words here: what they denote depends on the scope that the statement stands in.
-/

namespace TapeMachine

/-- The words of a statement and the number of its line, counted from one. -/
structure SourceLine where
  number : Nat
  head : String
  args : List String
deriving DecidableEq, Repr

/-- A statement. -/
inductive Statement where
  /-- Assigns a value to a variable or cell. -/
  | assign (destination source : String)
  /-- Stores the combination of two values. -/
  | combine (op : Arithmetic) (left right destination : String)
  /-- Stores the outcome of a comparison. -/
  | compare (c : Comparison) (left right destination : String)
  /-- Stores the outcome of a constant condition. -/
  | constant (c : Constant) (destination : String)
  /-- Starts a definition. -/
  | define (name : String)
  /-- Ends a definition. -/
  | endDefine
  /-- Runs a definition. -/
  | call (name : String)
  /-- Starts a branch; its condition is still a list of words. -/
  | branch (kind : BranchKind) (condition : List String)
  /-- Ends a branch. -/
  | endBranch (kind : BranchKind)
deriving DecidableEq, Repr

/-- The condition of a branch. -/
inductive Condition where
  | compare (c : Comparison) (left right : String)
  | constant (c : Constant)
deriving DecidableEq, Repr

namespace Source

/-- The part of a line before a comment. -/
def code (line : List Char) : List Char := line.takeWhile (· ≠ '#')

/-- The words of a line, if it has any. -/
def statement? (number : Nat) (line : List Char) : Option SourceLine :=
  match (Text.words (code line)).map String.ofList with
  | [] => none
  | head :: args => some ⟨number, head, args⟩

/-- The statements of lines of which the first has the given number. -/
def statementsFrom : Nat → List (List Char) → List SourceLine
  | _, [] => []
  | number, line :: lines =>
    match statement? number line with
    | some statement => statement :: statementsFrom (number + 1) lines
    | none => statementsFrom (number + 1) lines

/-- The statements of a text. -/
def statements (text : String) : List SourceLine := statementsFrom 1 (Text.lines text.toList)

end Source

/-- Sorts the words of a statement by keyword. -/
def Statement.parse (head : String) (args : List String) : Except Fault Statement :=
  match Keyword.ofWord? head with
  | none => .error (.keywordUnknown head)
  | some keyword =>
    match keyword, args with
    | .set, [destination, source] => .ok (.assign destination source)
    | .var, [destination, source] => .ok (.assign destination source)
    | .arithmetic op, [left, right, destination] => .ok (.combine op left right destination)
    | .comparison c, [left, right, destination] => .ok (.compare c left right destination)
    | .constant c, [destination] => .ok (.constant c destination)
    | .define, [name] =>
      if isIdentifier name.toList then .ok (.define name) else .error (.definitionName name)
    | .endDefine, [] => .ok .endDefine
    | .call, [name] => .ok (.call name)
    | .branch kind, condition => .ok (.branch kind condition)
    | .endBranch kind, [] => .ok (.endBranch kind)
    | keyword, _ => .error keyword.wrongForm

/-- Sorts the words of the condition of a branch by keyword. -/
def Condition.parse (kind : BranchKind) : List String → Except Fault Condition
  | [] => .error (Keyword.branch kind).wrongForm
  | head :: args =>
    match Keyword.ofWord? head with
    | none => .error (.keywordUnknown head)
    | some keyword =>
      match keyword, args with
      | .comparison c, [left, right] => .ok (.compare c left right)
      | .constant c, [] => .ok (.constant c)
      | .comparison c, _ => .error (Keyword.comparison c).wrongCondition
      | .constant c, _ => .error (Keyword.constant c).wrongCondition
      | keyword, _ => .error (.notACondition keyword.spelling kind.form.opener)

end TapeMachine

import TapeMachine.Branches
import TapeMachine.Definitions
import TapeMachine.Machine.Opcode
import TapeMachine.Text.Upper

/-!
# Keywords

A statement starts with a keyword, in any mix of upper and lower case. Keywords of comparisons and
of the two constants may also stand as the condition of a branch, with one operand fewer.
-/

namespace TapeMachine

/-- The operations that combine two values into a third. -/
inductive Arithmetic where
  | add
  | sub
  | and
  | or
  | xor
deriving DecidableEq, Repr

/-- The ways to compare two values. -/
inductive Comparison where
  | eq
  | neq
  | sm
  | smeq
  | gr
  | greq
deriving DecidableEq, Repr

/-- The conditions that do not depend on a value. -/
inductive Constant where
  | always
  | never
deriving DecidableEq, Repr

/-- The forms of branch. -/
inductive BranchKind where
  | conditional
  | loop
deriving DecidableEq, Repr

namespace Arithmetic

/-- The operation of the arithmetic unit. -/
def op : Arithmetic → AluOp
  | add => .add
  | sub => .subtract
  | and => .and
  | or => .or
  | xor => .xor

/-- The sign between the operands in a comment. -/
def symbol : Arithmetic → String
  | add => "+"
  | sub => "-"
  | and => "&"
  | or => "|"
  | xor => "^"

end Arithmetic

namespace Comparison

/-- The predicate that is tested. -/
def predicate : Comparison → Predicate
  | eq => .equal
  | neq => .notEqual
  | sm => .smaller
  | smeq => .smallerEqual
  | gr => .greater
  | greq => .greaterEqual

/-- The sign between the operands in a comment. -/
def symbol : Comparison → String
  | eq => "=="
  | neq => "!="
  | sm => "<"
  | smeq => "<="
  | gr => ">"
  | greq => ">="

end Comparison

namespace Constant

/-- The predicate that is tested. -/
def predicate : Constant → Predicate
  | always => .always
  | never => .never

/-- The word for the condition in a comment. -/
def word : Constant → String
  | always => "always"
  | never => "never"

end Constant

namespace BranchKind

/-- The keywords and label names of the form. -/
def form : BranchKind → BranchForm
  | conditional => .conditional
  | loop => .loop

end BranchKind

/-- A keyword. -/
inductive Keyword where
  | set
  | var
  | arithmetic (op : Arithmetic)
  | comparison (c : Comparison)
  | constant (c : Constant)
  | define
  | endDefine
  | call
  | branch (kind : BranchKind)
  | endBranch (kind : BranchKind)
deriving DecidableEq, Repr

namespace Keyword

/-- All keywords. -/
def all : List Keyword :=
  [set, var, define, endDefine, call, branch .conditional, endBranch .conditional, branch .loop,
   endBranch .loop, arithmetic .add, arithmetic .sub, arithmetic .and, arithmetic .or,
   arithmetic .xor, comparison .eq, comparison .neq, comparison .sm, comparison .smeq,
   comparison .gr, comparison .greq, constant .always, constant .never]

/-- The keyword in upper case. -/
def spelling : Keyword → String
  | set => "SET"
  | var => "VAR"
  | arithmetic .add => "ADD"
  | arithmetic .sub => "SUB"
  | arithmetic .and => "AND"
  | arithmetic .or => "OR"
  | arithmetic .xor => "XOR"
  | comparison .eq => "EQ"
  | comparison .neq => "NEQ"
  | comparison .sm => "SM"
  | comparison .smeq => "SMEQ"
  | comparison .gr => "GR"
  | comparison .greq => "GREQ"
  | constant .always => "AW"
  | constant .never => "NV"
  | define => Definitions.opener
  | endDefine => Definitions.closer
  | call => "CALL"
  | branch kind => kind.form.opener
  | endBranch kind => kind.form.closer

/-- The keyword that a word is, in any case. -/
def ofWord? (word : String) : Option Keyword :=
  let spelling := Text.upper word.toList
  all.find? (·.spelling.toList = spelling)

/-- What follows the keyword in a statement. -/
def arguments : Keyword → String
  | set | var => " dest value"
  | arithmetic _ | comparison _ => " a b dest"
  | constant _ => " dest"
  | define | call => " name"
  | branch _ => " <condition>"
  | endDefine | endBranch _ => ""

/-- The fault of a statement whose keyword has the wrong number of operands. -/
def wrongForm (k : Keyword) : Fault := .form k.spelling (k.spelling ++ k.arguments)

/-- What follows the keyword in a condition. -/
def conditionArguments : Keyword → String
  | comparison _ => " a b"
  | _ => ""

/-- The fault of a condition whose keyword has the wrong number of operands. -/
def wrongCondition (k : Keyword) : Fault :=
  .form k.spelling (k.spelling ++ k.conditionArguments)

end Keyword

end TapeMachine

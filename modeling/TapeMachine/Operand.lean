import TapeMachine.Fault
import TapeMachine.Numeral

/-!
# Operands

An operand is a variable `$name`, a RAM address `*12` or `@12`, or an immediate number. Addresses
fit in 32 bits without a sign, immediates in 32 bits with one.
-/

namespace TapeMachine

/-- An operand as it is written. -/
inductive Operand where
  | immediate (n : Int)
  | direct (address : Int)
  | var (name : String)
deriving DecidableEq, Repr

/-- Whether a character may start an identifier. -/
def isIdentStart (c : Char) : Bool := c.isAlpha || c = '_'

/-- Whether a character may continue an identifier. -/
def isIdentRest (c : Char) : Bool := c.isAlphanum || c = '_'

/-- Whether a text is an identifier: a letter or underscore, then letters, digits and
underscores of the seven-bit characters. -/
def isIdentifier : List Char → Bool
  | [] => false
  | c :: cs => isIdentStart c && cs.all isIdentRest

namespace Operand

/-- The least immediate: the least number of 32 bits with a sign. -/
def minImmediate : Int := -0x80000000

/-- The greatest immediate: the greatest number of 32 bits with a sign. -/
def maxImmediate : Int := 0x7FFFFFFF

/-- The greatest address: the greatest number of 32 bits without a sign. -/
def maxAddress : Int := 0xFFFFFFFF

/-- Reads the numeral `digits`, which is part of the operand `token`. -/
def number (token : String) (digits : List Char) : Except Fault Int :=
  match Numeral.read? digits with
  | some n => .ok n
  | none => .error (.operand token)

/-- Reads an operand without blanks around it. -/
def parseTrimmed : List Char → Except Fault Operand
  | [] => .error .emptyOperand
  | '$' :: name =>
    if isIdentifier name then .ok (.var (String.ofList name))
    else .error (.variableName (String.ofList ('$' :: name)))
  | c :: cs => do
    let token := String.ofList (c :: cs)
    if c = '*' ∨ c = '@' then
      let address ← number token cs
      if 0 ≤ address ∧ address ≤ maxAddress then return .direct address
      else throw (.addressRange token)
    else
      let n ← number token (c :: cs)
      if minImmediate ≤ n ∧ n ≤ maxImmediate then return .immediate n
      else throw (.immediateRange token)

/-- Reads an operand. -/
def parse (token : String) : Except Fault Operand := parseTrimmed (Text.trim token.toList)

end Operand

end TapeMachine

import TapeMachine.Fault
import TapeMachine.Text.Blank
import TapeMachine.Text.Digit

/-!
# Numerals

An integer is written with an optional sign and then in base ten, or in base sixteen, eight or two
after `0x`, `0o` or `0b`. Single underscores may stand between digits and after the letter that
gives the base, and blanks around the whole. A decimal numeral other than zero does not start with
a zero, and has at most `maxDigits` digits.

`Numeral.read?` reads such a numeral; `Numeral.readDecimal?` reads base ten only, where leading
zeros are harmless.
-/

namespace TapeMachine.Numeral

open Text

/-- The most digits that a decimal numeral may have, to be read or to be written on request. -/
def maxDigits : Nat := 4300

/-- A blank or digit of another script becomes the plain blank or digit; other characters stay. -/
def plain (c : Char) : Char :=
  if c.toNat < 0x80 then c
  else if isBlank c then ' '
  else match digit? c with
    | some d => Nat.digitChar d
    | none => c

/-- Whether a plain character may stand around a numeral. -/
def isPadding (c : Char) : Bool :=
  c = ' ' || decide (0x09 ≤ c.toNat) && decide (c.toNat ≤ 0x0D)

/-- The value of a digit in the given base; letters of either case count from ten. -/
def digitIn? (base : Nat) (c : Char) : Option Nat :=
  let value? :=
    if c.isDigit then some (c.toNat - '0'.toNat)
    else if c.isLower then some (c.toNat - 'a'.toNat + 10)
    else if c.isUpper then some (c.toNat - 'A'.toNat + 10)
    else none
  value?.filter (· < base)

/-- The values of one or more digits, any two of which may have one underscore between them. -/
def digits? (base : Nat) : List Char → Option (List Nat)
  | [] => none
  | [c] => (digitIn? base c).map ([·])
  | c :: '_' :: cs => do return (← digitIn? base c) :: (← digits? base cs)
  | c :: d :: cs => do return (← digitIn? base c) :: (← digits? base (d :: cs))

/-- The number that digits spell, most significant first. -/
def value (base : Nat) (ds : List Nat) : Nat := ds.foldl (fun n d => n * base + d) 0

/-- The base that the letter after a zero gives. -/
def baseOf? (c : Char) : Option Nat :=
  match c.toLower with
  | 'x' => some 16
  | 'o' => some 8
  | 'b' => some 2
  | _ => none

/-- Reads digits in base ten, not more than `maxDigits` of them. -/
def decimal? (cs : List Char) : Option (List Nat) :=
  (digits? 10 cs).filter (·.length ≤ maxDigits)

/-- Reads a decimal numeral that starts with a zero only if it is zero. -/
def decimalNoZero? (cs : List Char) : Option Nat := do
  let n ← value 10 <$> decimal? cs
  if cs.head? = some '0' ∧ n ≠ 0 then none else some n

/-- Reads the digits after a base letter, where an underscore may come first. -/
def prefixed? (base : Nat) : List Char → Option Nat
  | '_' :: cs => value base <$> digits? base cs
  | cs => value base <$> digits? base cs

/-- Reads a numeral without its sign. -/
def magnitude? : List Char → Option Nat
  | '0' :: c :: cs =>
    match baseOf? c with
    | some base => prefixed? base cs
    | none => decimalNoZero? ('0' :: c :: cs)
  | cs => decimalNoZero? cs

/-- Reads an optional sign and then what `body` reads. -/
def signed? (body : List Char → Option Nat) : List Char → Option Int
  | '-' :: cs => (body cs).map fun n => -(n : Int)
  | '+' :: cs => (body cs).map fun n => (n : Int)
  | cs => (body cs).map fun n => (n : Int)

/-- The numeral in plain characters and without the blanks around it. -/
def core (cs : List Char) : List Char := trimBy isPadding (cs.map plain)

/-- Reads an integer in any base. -/
def read? (cs : List Char) : Option Int := signed? magnitude? (core cs)

/-- Reads an integer in base ten. -/
def readDecimal? (cs : List Char) : Option Int :=
  signed? (fun ds => value 10 <$> decimal? ds) (core cs)

/-- Whether a number is short enough to be written. -/
def isWritable (n : Int) : Bool := decide ((Nat.toDigits 10 n.natAbs).length ≤ maxDigits)

/-- The decimal numeral of a number, unless it is too long. -/
def write (n : Int) : Except Misuse String :=
  if isWritable n then .ok s!"{n}" else .error (.digits maxDigits)

end TapeMachine.Numeral

import TapeMachine.CellPool
import TapeMachine.Operand
import TapeMachine.Scopes

/-!
# Storage

The pool of cells and the scopes together say what an operand denotes. Reading an operand gives a
number or a cell. Writing needs a cell: that of a bound variable or of an address, and for an
assignment (`claim`) also a fresh cell for a variable that has none yet.
-/

namespace TapeMachine

/-- What an operand denotes: a number, or the RAM cell at an address. -/
inductive Value where
  | literal (n : Int)
  | cell (address : Int)
deriving DecidableEq, Repr

namespace Value

/-- Whether the value is a number. -/
def isLiteral : Value → Bool
  | literal _ => true
  | cell _ => false

/-- The number, or the address of the cell. -/
def word : Value → Int
  | literal n => n
  | cell address => address

end Value

/-- The cells in use and the variables that name them. -/
structure Storage where
  pool : CellPool
  scopes : Scopes
deriving DecidableEq, Repr

namespace Storage

/-- Storage with no variables, all in the scope `root`. -/
def ofSize (size : Int) (root : String := Scopes.mainName) : Except Misuse Storage := do
  return { pool := ← CellPool.ofSize size, scopes := { root } }

/-- The cell of a variable of the current scope, which gets the lowest free cell if it has
none. -/
def place (s : Storage) (name : String) : Except Fault (Int × Storage) :=
  match s.scopes.cell? name with
  | some cell => .ok (cell, s)
  | none => do
    let (cell, pool) ← s.pool.allocate
    return (cell, { pool, scopes := s.scopes.bind name cell })

/-- What an operand denotes when it is read. -/
def read (s : Storage) (token : String) : Except Fault Value := do
  match ← Operand.parse token with
  | .immediate n => return .literal n
  | .direct address => return .cell address
  | .var name => return .cell (← s.scopes.resolve name)

/-- The cell that an operand denotes when it is written. -/
def write (s : Storage) (token : String) : Except Fault Int := do
  match ← Operand.parse token with
  | .immediate _ => throw (.immediateDestination token)
  | .direct address => return address
  | .var name => s.scopes.resolve name

/-- The cell that an operand denotes when it is assigned: a new variable gets a cell. -/
def claim (s : Storage) (token : String) : Except Fault (Int × Storage) := do
  match ← Operand.parse token with
  | .immediate _ => throw (.immediateDestination token)
  | .direct address => return (address, s)
  | .var name => s.place name

/-- The bindings that `later` has beyond those of `s`. -/
def added (s later : Storage) : List Binding :=
  later.scopes.bindings.drop s.scopes.bindings.length

end Storage

end TapeMachine

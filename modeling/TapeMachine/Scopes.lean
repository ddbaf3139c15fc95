import TapeMachine.Fault

/-!
# Scopes

A scope holds the variables of the main program or of one definition. Variables are looked up in
the current scope only, never in the scope around it. The scopes are entered and left like a stack
above the root, which is always there.

All bindings stand in one list, each with its scope, in the order in which they were first made.
-/

namespace TapeMachine

/-- A variable of a scope and the RAM cell that it names. -/
structure Binding where
  scope : String
  name : String
  cell : Int
deriving DecidableEq, Repr

/-- The scopes of a program. -/
structure Scopes where
  /-- The name of the scope that is always there. -/
  root : String
  /-- The other scopes in the order of their creation, each with the scope it was created in. -/
  children : List (String × String) := []
  /-- The scopes entered and not left yet, the current one first. -/
  entered : List String := []
  bindings : List Binding := []
deriving DecidableEq, Repr

/-- One scope, with its variables in the order in which they were bound. -/
structure Scope where
  name : String
  parent : Option String
  bindings : List (String × Int)
deriving DecidableEq, Repr

namespace Scope

/-- The bindings as a scope shown in full has them. -/
def shownBindings (bindings : List (String × Int)) : String :=
  ", ".intercalate (bindings.map fun (name, cell) => s!"{Text.quoted name}: {cell}")

/-- The scope with its parent and bindings. -/
def shown (s : Scope) : String :=
  let parent := s.parent.elim "None" Text.quoted
  s!"Scope({Text.quoted s.name}, parent={parent}, bindings=\x7b{shownBindings s.bindings}\x7d)"

end Scope

namespace Scopes

/-- The name of the main program's scope. -/
def mainName : String := "global"

/-- The scope in which variables are looked up. -/
def current (s : Scopes) : String := s.entered.headD s.root

/-- How many scopes are entered. -/
def depth (s : Scopes) : Nat := s.entered.length

/-- The names of all scopes in the order of their creation. -/
def names (s : Scopes) : List String := s.root :: s.children.map (·.1)

/-- The variables of a scope. -/
def bindingsOf (s : Scopes) (scope : String) : List (String × Int) :=
  (s.bindings.filter (·.scope = scope)).map fun b => (b.name, b.cell)

/-- The scope with the given name. -/
def get? (s : Scopes) (name : String) : Option Scope :=
  if name ∈ s.names then some ⟨name, s.children.lookup name, s.bindingsOf name⟩ else none

/-- The scope with the given name, which is expected to be there. -/
def get (s : Scopes) (name : String) : Except Misuse Scope :=
  match s.get? name with
  | some scope => .ok scope
  | none => .error (.missing name)

/-- All scopes in the order of their creation. -/
def toList (s : Scopes) : List Scope := s.names.filterMap s.get?

/-- Adds a scope inside the current one. -/
def create (s : Scopes) (name : String) : Except Fault Scopes :=
  if name ∈ s.names then .error (.scopeTaken name)
  else .ok { s with children := s.children ++ [(name, s.current)] }

/-- Makes a scope the current one. -/
def enter (s : Scopes) (name : String) : Scopes := { s with entered := name :: s.entered }

/-- Goes back to the scope that was current before; gives the name of the one left. -/
def leave (s : Scopes) : Except Misuse (String × Scopes) :=
  match s.entered with
  | [] => .error .leaveRoot
  | name :: entered => .ok (name, { s with entered })

/-- The cell of a variable of a scope. -/
def cellIn? (s : Scopes) (scope name : String) : Option Int :=
  (s.bindings.find? fun b => b.scope = scope ∧ b.name = name).map (·.cell)

/-- The cell of a variable of the current scope. -/
def cell? (s : Scopes) (name : String) : Option Int := s.cellIn? s.current name

/-- The cell of a variable that is expected to be bound in the current scope. -/
def resolve (s : Scopes) (name : String) : Except Fault Int :=
  match s.cell? name with
  | some cell => .ok cell
  | none => .error (.unbound name s.current)

/-- Binds a variable of the current scope; one that is bound already keeps its place in the
order. -/
def bind (s : Scopes) (name : String) (cell : Int) : Scopes :=
  match s.cell? name with
  | none => { s with bindings := s.bindings ++ [⟨s.current, name, cell⟩] }
  | some _ =>
    { s with
      bindings := s.bindings.map fun b =>
        if b.scope = s.current ∧ b.name = name then { b with cell } else b }

@[simp] theorem current_bind (s : Scopes) (name : String) (cell : Int) :
    (s.bind name cell).current = s.current := by
  unfold bind
  split <;> rfl

/-- Binding a variable for the first time changes nothing for the others. -/
theorem cellIn?_bind {s : Scopes} {name : String} (h : s.cell? name = none) (cell : Int)
    (scope x : String) :
    (s.bind name cell).cellIn? scope x =
      if scope = s.current ∧ x = name then some cell else s.cellIn? scope x := by
  have hb : s.bind name cell =
      { s with bindings := s.bindings ++ [⟨s.current, name, cell⟩] } := by
    simp [bind, h]
  rw [cellIn?, hb, List.find?_append]
  by_cases hk : scope = s.current ∧ x = name
  · obtain ⟨rfl, rfl⟩ := hk
    have hn : (s.bindings.find? fun b => b.scope = s.current ∧ b.name = x) = none := by
      simpa [cell?, cellIn?] using h
    rw [hn]
    simp
  · have hnew : ¬ (s.current = scope ∧ name = x) := fun heq => hk ⟨heq.1.symm, heq.2.symm⟩
    simp [hk, hnew, cellIn?]

/-- A variable that is bound for the first time names the cell it was given. -/
theorem cell?_bind_self {s : Scopes} {name : String} (h : s.cell? name = none) (cell : Int) :
    (s.bind name cell).cell? name = some cell := by
  rw [cell?, current_bind, cellIn?_bind h, if_pos ⟨rfl, rfl⟩]

end Scopes

end TapeMachine

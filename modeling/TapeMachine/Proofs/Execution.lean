import TapeMachine.Proofs.Processor

/-!
# What the code of a statement does

Each template of code, run on the processor from its first instruction: how many steps it takes,
where it leads, and what it does to the memory, the return addresses and the depth. What it does to
the other registers does not matter, since every template sets them before it reads them.

Calls add and subtract, so their templates need a chip. The other templates do on every circuit what
they say, whatever it computes.

* `Circuit.run_store`, `Circuit.run_assign`: a result goes to its cell.
* `Circuit.run_branch`, `Circuit.step_jump`: where control goes.
* `run_call`, `run_epilogue`: a call puts its return address at the current depth, and a return
  takes it from there.
-/

namespace TapeMachine

variable {L : Type} {c : Circuit} {chip : Chip} {program : List Words} {m m' : Cpu} {n : Nat}

/-- What a value is, given the memory. -/
def Value.eval (ram : Int → Int) : Value → Int
  | .literal n => n
  | .cell address => ram address

/-- The memory, the return addresses and the depth are the same. -/
structure Keeps (m m' : Cpu) : Prop where
  ram : m'.ram = m.ram
  returns : m'.returns = m.returns
  depth : m'.depth = m.depth

/-- The same return address is selected as well. -/
structure Spares (m m' : Cpu) : Prop extends Keeps m m' where
  jumpBackAddress : m'.jumpBackAddress = m.jumpBackAddress

theorem next_eq (hpc : m.pc = addressOf n) : m.next = { m with pc := addressOf (n + 1 : Nat) } := by
  have hsucc : addressOf (n : Int) + 4 = addressOf (n + 1 : Nat) := by
    simp only [addressOf, width]
    omega
  rw [Cpu.next, hpc, hsucc]

theorem Circuit.operand_register (m : Cpu) (r : Register) :
    c.operand m false r.code = m.read r := by
  rw [Circuit.operand, Register.named?_code]
  rfl

/-! ## Bringing values within reach -/

theorem step_selectCell {code : List (Instruction L)} {address : Int} {role : String}
    (h : Placed program n (Code.selectCell address role :: code)) (hpc : m.pc = addressOf n) :
    c.step program m = some { m with pc := addressOf (n + 1 : Nat), ramAddress := address } := by
  rw [Circuit.step_move h hpc rfl, next_eq hpc]
  rfl

theorem run_stageFirst {address : Int} {role : String}
    (h : Placed program n (Code.stageFirst address role : List (Instruction L)))
    (hpc : m.pc = addressOf n) :
    c.run program 2 m =
      some { m with
        pc := addressOf (n + 2 : Nat), ramAddress := address, scratch0 := m.ram address } := by
  refine Circuit.run_trans (Circuit.run_one (step_selectCell h hpc)) (Circuit.run_one ?_)
  rw [Circuit.step_move h.2 rfl rfl, next_eq rfl, Circuit.operand_register]
  rfl

theorem run_stageSecond {address : Int} {role : String}
    (h : Placed program n (Code.stageSecond address role : List (Instruction L)))
    (hpc : m.pc = addressOf n) :
    c.run program 2 m =
      some { m with
        pc := addressOf (n + 2 : Nat), ramAddress := address, scratch1 := m.ram address } := by
  refine Circuit.run_trans (Circuit.run_one (step_selectCell h hpc)) (Circuit.run_one ?_)
  rw [Circuit.step_move h.2 rfl rfl, next_eq rfl, Circuit.operand_register]
  rfl

/-- The values that live in cells are in the scratch registers. -/
def Staged (ram : Int → Int) (m : Cpu) : Value → Value → Prop
  | .cell left, .cell right => m.scratch0 = ram left ∧ m.scratch1 = ram right
  | .cell left, .literal _ => m.scratch0 = ram left
  | .literal _, .cell right => m.scratch0 = ram right
  | .literal _, .literal _ => True

theorem run_staging {left right : Value}
    (h : Placed program n (Code.staging left right : List (Instruction L)))
    (hpc : m.pc = addressOf n) :
    ∃ m', c.run program (Code.staging left right : List (Instruction L)).length m = some m' ∧
      m'.pc = addressOf (n + (Code.staging left right : List (Instruction L)).length : Nat) ∧
      Spares m m' ∧ Staged m.ram m' left right := by
  cases left with
  | literal x =>
    cases right with
    | literal y => exact ⟨m, rfl, hpc, ⟨⟨rfl, rfl, rfl⟩, rfl⟩, trivial⟩
    | cell r => exact ⟨_, run_stageFirst h hpc, rfl, ⟨⟨rfl, rfl, rfl⟩, rfl⟩, rfl⟩
  | cell l =>
    cases right with
    | literal y => exact ⟨_, run_stageFirst h hpc, rfl, ⟨⟨rfl, rfl, rfl⟩, rfl⟩, rfl⟩
    | cell r =>
      obtain ⟨hfirst, hsecond⟩ := placed_append.mp h
      let m₁ : Cpu :=
        { m with pc := addressOf (n + 2 : Nat), ramAddress := l, scratch0 := m.ram l }
      have hrun₁ : c.run program 2 m = some m₁ := run_stageFirst hfirst hpc
      let m₂ : Cpu :=
        { m₁ with pc := addressOf (n + 2 + 2 : Nat), ramAddress := r, scratch1 := m.ram r }
      have hrun₂ : c.run program 2 m₁ = some m₂ := run_stageSecond hsecond rfl
      have hrun : c.run program 4 m = some m₂ := Circuit.run_trans hrun₁ hrun₂
      exact ⟨m₂, hrun, rfl, ⟨⟨rfl, rfl, rfl⟩, rfl⟩, rfl, rfl⟩

/-- The words of the staged values. -/
def leftWord : Value → Int
  | .cell _ => Register.scratch0.code
  | .literal n => n

def rightWord : Value → Value → Int
  | .cell _, .cell _ => Register.scratch1.code
  | .literal _, .cell _ => Register.scratch0.code
  | _, .literal n => n

theorem word?_leftSlot (left : Value) :
    (Code.leftSlot left : Slot L).word? = some (leftWord left) := by
  cases left <;> rfl

theorem word?_rightSlot (left right : Value) :
    (Code.rightSlot left right : Slot L).word? = some (rightWord left right) := by
  cases left <;> cases right <;> rfl

theorem operand_left {ram : Int → Int} {left right : Value} (h : Staged ram m left right) :
    c.operand m left.isLiteral (leftWord left) = left.eval ram := by
  cases left with
  | literal n => rfl
  | cell l =>
    have hs : m.scratch0 = ram l := by
      cases right with
      | literal y => exact h
      | cell r => exact h.1
    exact (Circuit.operand_register m .scratch0).trans hs

theorem operand_right {ram : Int → Int} {left right : Value} (h : Staged ram m left right) :
    c.operand m right.isLiteral (rightWord left right) = right.eval ram := by
  cases right with
  | literal n => cases left <;> rfl
  | cell r =>
    cases left with
    | literal x => exact (Circuit.operand_register m .scratch0).trans h
    | cell l => exact (Circuit.operand_register m .scratch1).trans h.2

/-! ## Storing a result -/

theorem result_withImmediates {o : Opcode} (h : o.Stores) (immediate0 immediate1 : Bool)
    (x y : Int) : c.result (o.withImmediates immediate0 immediate1) x y = c.result o x y := by
  cases h <;> rfl

/-- A result goes to its cell. -/
theorem Circuit.run_store {o : Opcode} (ho : o.Stores) {left right : Value} {cell : Int}
    {comment : String}
    (h : Placed program n (Code.store o left right cell comment : List (Instruction L)))
    (hpc : m.pc = addressOf n) :
    ∃ m', c.run program
        (Code.store o left right cell comment : List (Instruction L)).length m = some m' ∧
      m'.pc = addressOf
        (n + (Code.store o left right cell comment : List (Instruction L)).length : Nat) ∧
      m'.ram = Function.update m.ram cell (c.result o (left.eval m.ram) (right.eval m.ram)) ∧
      m'.returns = m.returns ∧ m'.jumpBackAddress = m.jumpBackAddress ∧ m'.depth = m.depth := by
  obtain ⟨hstage, hrest⟩ := placed_append.mp h
  obtain ⟨m₁, hrun₁, hpc₁, hspare, hstaged⟩ := run_staging hstage hpc
  let m₂ : Cpu :=
    { m₁ with
      pc := addressOf (n + (Code.staging left right : List (Instruction L)).length + 1 : Nat)
      ramAddress := cell }
  have hstep₂ : c.step program m₁ = some m₂ := step_selectCell hrest hpc₁
  have hstaged₂ : Staged m.ram m₂ left right := by
    cases left <;> cases right <;> exact hstaged
  let m₃ : Cpu :=
    { m₂ with
      pc := addressOf (n + (Code.staging left right : List (Instruction L)).length + 1 + 1 : Nat)
      ram := Function.update m₁.ram cell (c.result o (left.eval m.ram) (right.eval m.ram)) }
  have hstep₃ : c.step program m₂ = some m₃ := by
    have hstep : c.step program m₂ = some (m₂.next.write _ .ram) :=
      Circuit.step_store (ho.withImmediates left.isLiteral right.isLiteral) hrest.2 rfl
        (word?_leftSlot left) (word?_rightSlot left right)
    have hleft : c.operand m₂ left.isLiteral (leftWord left) = _ := operand_left hstaged₂
    have hright : c.operand m₂ right.isLiteral (rightWord left right) = _ :=
      operand_right hstaged₂
    rw [hstep, result_withImmediates ho, next_eq rfl]
    simp only [Opcode.withImmediates, hleft, hright]
    rfl
  have hrun := Circuit.run_trans hrun₁
    (Circuit.run_trans (Circuit.run_one hstep₂) (Circuit.run_one hstep₃))
  refine ⟨m₃, ?_, ?_, ?_, hspare.returns, hspare.jumpBackAddress, hspare.depth⟩
  · rw [Code.store, List.length_append]
    exact hrun
  · rw [Code.store, List.length_append, ← Nat.add_assoc]
    rfl
  · simp only [m₃, hspare.ram]

/-- What is moved to a cell is read when the cell is selected: a number, or what the register of
the value's number holds then. -/
theorem Circuit.run_assign {cell : Int} {value : Value} {comment : String}
    (h : Placed program n (Code.assign cell value comment : List (Instruction L)))
    (hpc : m.pc = addressOf n) :
    c.run program 2 m = some { m with
      pc := addressOf (n + 2 : Nat)
      ramAddress := cell
      ram := Function.update m.ram cell
        (c.operand { m with pc := addressOf (n + 1 : Nat), ramAddress := cell }
          value.isLiteral value.word) } := by
  refine Circuit.run_trans (Circuit.run_one (step_selectCell h hpc)) (Circuit.run_one ?_)
  rw [Circuit.step_move h.2 rfl rfl, next_eq rfl]
  rfl

/-! ## Jumps -/

theorem Circuit.step_jump {code : List (Instruction L)} {target : Int} {comment : String}
    (h : Placed program n (Code.jump (.number target) comment :: code)) (hpc : m.pc = addressOf n) :
    c.step program m = some { m with pc := target } := by
  rw [Circuit.step_move h hpc rfl]
  rfl

/-- A branch goes to its target if its condition holds, and on otherwise. -/
theorem Circuit.run_branch {p : Predicate} {left right : Value} {target : Int} {comment : String}
    (h : Placed program n
      (Code.branch p left right (.number target) comment : List (Instruction L)))
    (hpc : m.pc = addressOf n) :
    ∃ m', c.run program (Code.branch p left right (.number target) comment
        : List (Instruction L)).length m = some m' ∧
      m'.pc = (if c.test p (left.eval m.ram) (right.eval m.ram) then target
        else addressOf (n + (Code.branch p left right (.number target) comment
          : List (Instruction L)).length : Nat)) ∧
      Spares m m' := by
  obtain ⟨hstage, hrest⟩ := placed_append.mp h
  obtain ⟨m₁, hrun₁, hpc₁, hspare, hstaged⟩ := run_staging hstage hpc
  let m₂ : Cpu :=
    if c.test p (left.eval m.ram) (right.eval m.ram) then { m₁ with pc := target }
    else { m₁ with
      pc := addressOf (n + (Code.staging left right : List (Instruction L)).length + 1 : Nat) }
  have hstep : c.step program m₁ = some m₂ := by
    have hleft : c.operand m₁ left.isLiteral (leftWord left) = _ := operand_left hstaged
    have hright : c.operand m₁ right.isLiteral (rightWord left right) = _ :=
      operand_right hstaged
    have hbranch : c.step program m₁ = _ :=
      Circuit.step_branch hrest hpc₁ (word?_leftSlot left) (word?_rightSlot left right)
    rw [hbranch, hleft, hright, next_eq hpc₁]
  refine ⟨m₂, ?_, ?_, ?_⟩
  · rw [Code.branch, List.length_append]
    exact Circuit.run_trans hrun₁ (Circuit.run_one hstep)
  · rw [Code.branch, List.length_append, ← Nat.add_assoc]
    simp only [m₂]
    split <;> rfl
  · simp only [m₂]
    split
    · exact ⟨⟨hspare.ram, hspare.returns, hspare.depth⟩, hspare.jumpBackAddress⟩
    · exact ⟨⟨hspare.ram, hspare.returns, hspare.depth⟩, hspare.jumpBackAddress⟩

/-! ## Calls -/

section Call

variable {index : Nat} {start : Int} {name : String}

theorem step_call_select (h : Placed program n (Code.call index start name : List (Instruction L)))
    (hpc : m.pc = addressOf n) :
    chip.step program m =
      some { m with pc := addressOf (n + 1 : Nat), jumpBackAddress := m.depth } := by
  rw [Circuit.step_move h hpc rfl, next_eq hpc, Circuit.operand_register]
  rfl

theorem step_call_deepen (h : Placed program n (Code.call index start name : List (Instruction L)))
    (hpc : m.pc = addressOf (n + 1 : Nat)) :
    chip.step program m = some { m with pc := addressOf (n + 2 : Nat), depth := m.depth + 1 } := by
  have hsum : chip.result (.alu .add false true)
      (chip.operand m false Register.jumpBackDepth.code) (chip.operand m true 1) =
        m.depth + 1 := by
    rw [Circuit.operand_register]
    exact chip.alu_add _ _
  have hstep : chip.step program m = some (m.next.write (m.depth + 1) .jumpBackDepth) := by
    rw [← hsum]
    exact Circuit.step_store (.alu .add false true) h.2 hpc rfl rfl
  rw [hstep, next_eq hpc]
  rfl

theorem step_call_note (h : Placed program n (Code.call index start name : List (Instruction L)))
    (hpc : m.pc = addressOf (n + 2 : Nat)) :
    chip.step program m = some { m with
      pc := addressOf (n + 3 : Nat)
      returns := Function.update m.returns m.jumpBackAddress (addressOf (index + 4 : Nat)) } := by
  rw [Circuit.step_move h.2.2 hpc rfl, next_eq hpc]
  rfl

theorem step_call_jump (h : Placed program n (Code.call index start name : List (Instruction L)))
    (hpc : m.pc = addressOf (n + 3 : Nat)) :
    chip.step program m = some { m with pc := start } :=
  Circuit.step_jump h.2.2.2 hpc

/-- A call notes where to return to, at the current depth, and goes one deeper. -/
theorem run_call (h : Placed program n (Code.call index start name : List (Instruction L)))
    (hpc : m.pc = addressOf n) :
    chip.run program 4 m = some { m with
      pc := start
      jumpBackAddress := m.depth
      depth := m.depth + 1
      returns := Function.update m.returns m.depth (addressOf (index + 4 : Nat)) } := by
  have h₁ : chip.run program 1 m = _ := Circuit.run_one (step_call_select h hpc)
  have h₂ := Circuit.run_trans h₁ (Circuit.run_one (step_call_deepen h rfl))
  have h₃ := Circuit.run_trans h₂ (Circuit.run_one (step_call_note h rfl))
  exact Circuit.run_trans h₃ (Circuit.run_one (step_call_jump h rfl))

end Call

theorem step_epilogue_rise (h : Placed program n (Code.epilogue : List (Instruction L)))
    (hpc : m.pc = addressOf n) :
    chip.step program m = some { m with pc := addressOf (n + 1 : Nat), depth := m.depth - 1 } := by
  have hdiff : chip.result (.alu .subtract false true)
      (chip.operand m false Register.jumpBackDepth.code) (chip.operand m true 1) =
        m.depth - 1 := by
    rw [Circuit.operand_register]
    exact chip.alu_subtract _ _
  have hstep : chip.step program m = some (m.next.write (m.depth - 1) .jumpBackDepth) := by
    rw [← hdiff]
    exact Circuit.step_store (.alu .subtract false true) h hpc rfl rfl
  rw [hstep, next_eq hpc]
  rfl

theorem step_epilogue_select (h : Placed program n (Code.epilogue : List (Instruction L)))
    (hpc : m.pc = addressOf (n + 1 : Nat)) :
    chip.step program m =
      some { m with pc := addressOf (n + 2 : Nat), jumpBackAddress := m.depth } := by
  rw [Circuit.step_move h.2 hpc rfl, next_eq hpc, Circuit.operand_register]
  rfl

theorem step_epilogue_return (h : Placed program n (Code.epilogue : List (Instruction L)))
    (hpc : m.pc = addressOf (n + 2 : Nat)) :
    chip.step program m = some { m with pc := m.returns m.jumpBackAddress } := by
  rw [Circuit.step_move h.2.2 hpc rfl, Circuit.operand_register]
  rfl

/-- A return goes up again, to where the call at that depth has noted. -/
theorem run_epilogue (h : Placed program n (Code.epilogue : List (Instruction L)))
    (hpc : m.pc = addressOf n) :
    chip.run program 3 m = some { m with
      pc := m.returns (m.depth - 1), jumpBackAddress := m.depth - 1, depth := m.depth - 1 } := by
  have h₁ : chip.run program 1 m = _ := Circuit.run_one (step_epilogue_rise h hpc)
  have h₂ := Circuit.run_trans h₁ (Circuit.run_one (step_epilogue_select h rfl))
  exact Circuit.run_trans h₂ (Circuit.run_one (step_epilogue_return h rfl))

end TapeMachine

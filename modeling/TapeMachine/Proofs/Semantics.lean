import TapeMachine.Proofs.Execution

/-!
# What a program means

The meaning of a forest as a relation between the memory before and after, with no program counter
and no call stack. A variable is its cell; every keyword has its own operation; a branch tests its
condition; a definition that is met in sequence does nothing; a call runs the body of the definition
on the same memory, and the body may call itself.

* `Circuit.arithmetic`, `Circuit.comparison`: what the keywords ask of the machine.
* `Exec`: the relation, with one rule for each way to run a statement.
* `Circuit.run_written`: the code of an operation writes its result, and nothing else.
* `run_simple`: the code of a statement does to the memory what the statement means.
* `Circuit.run_test`, `run_test`: the code of a condition goes where the condition says.
-/

namespace TapeMachine

/-! ## Keywords -/

namespace Circuit

variable (c : Circuit)

/-- What the keyword of an arithmetic statement computes. -/
def arithmetic : Arithmetic → Int → Int → Int
  | .add => c.alu .add
  | .sub => c.alu .subtract
  | .and => c.alu .and
  | .or => c.alu .or
  | .xor => c.alu .xor

/-- What the keyword of a comparison asks. -/
def comparison : Comparison → Int → Int → Bool
  | .eq => c.test .equal
  | .neq => c.test .notEqual
  | .sm => c.test .smaller
  | .smeq => c.test .smallerEqual
  | .gr => c.test .greater
  | .greq => c.test .greaterEqual

/-- What a constant condition asks, of two zeros. -/
def constant : Constant → Bool
  | .always => c.test .always 0 0
  | .never => c.test .never 0 0

theorem alu_op (op : Arithmetic) : c.alu op.op = c.arithmetic op := by
  cases op <;> rfl

theorem test_comparison (p : Comparison) : c.test p.predicate = c.comparison p := by
  cases p <;> rfl

theorem test_constant (p : Constant) : c.test p.predicate 0 0 = c.constant p := by
  cases p <;> rfl

end Circuit

/-- Whether a constant condition holds. -/
def Constant.holds : Constant → Bool
  | .always => true
  | .never => false

namespace Chip

variable (chip : Chip)

/-- The two constant predicates are what their names say. -/
structure HasConstants (chip : Chip) : Prop where
  always : ∀ a b, chip.test .always a b = true
  never : ∀ a b, chip.test .never a b = false

/-- What the keyword of an arithmetic statement computes on a chip. -/
def arithmetic : Arithmetic → Int → Int → Int
  | .add, x, y => x + y
  | .sub, x, y => x - y
  | .and, x, y => chip.alu .and x y
  | .or, x, y => chip.alu .or x y
  | .xor, x, y => chip.alu .xor x y

theorem circuit_arithmetic (op : Arithmetic) (x y : Int) :
    chip.toCircuit.arithmetic op x y = chip.arithmetic op x y := by
  cases op with
  | add => exact chip.alu_add x y
  | sub => exact chip.alu_subtract x y
  | _ => rfl

theorem HasConstants.constant {chip : Chip} (h : chip.HasConstants) (p : Constant) :
    chip.constant p = p.holds := by
  cases p with
  | always => exact h.always 0 0
  | never => exact h.never 0 0

end Chip

/-! ## Statements -/

/-- What an operand is worth. -/
def Layout.eval (lay : Layout) (scope : Option String) (ram : Int → Int) (token : String) : Int :=
  (lay.value scope token).eval ram

/-- A truth value as a number. -/
def truth (b : Bool) : Int := if b then 1 else 0

/-- The outcome of testing a condition on a circuit, which may take any predicate for constant. -/
def Condition.tested (c : Circuit) (lay : Layout) (scope : Option String) (ram : Int → Int) :
    Condition → Bool
  | .compare p left right => c.comparison p (lay.eval scope ram left) (lay.eval scope ram right)
  | .constant p => c.constant p

/-- The cell that an operation writes, and what it writes there on a circuit. Assignments and calls
are no operations. -/
def Simple.written? (c : Circuit) (lay : Layout) (scope : Option String) (ram : Int → Int) :
    Simple → Option (Int × Int)
  | .combine op left right destination =>
    some (lay.place scope destination,
      c.arithmetic op (lay.eval scope ram left) (lay.eval scope ram right))
  | .compare p left right destination =>
    some (lay.place scope destination,
      truth (c.comparison p (lay.eval scope ram left) (lay.eval scope ram right)))
  | .constant p destination => some (lay.place scope destination, truth (c.constant p))
  | .assign _ _ | .call _ => none

variable (chip : Chip)

/-- Whether a condition holds. -/
def Condition.holds (lay : Layout) (scope : Option String) (ram : Int → Int) : Condition → Bool
  | .compare p left right => chip.comparison p (lay.eval scope ram left) (lay.eval scope ram right)
  | .constant p => p.holds

/-- What a statement that is no call does to the memory. -/
def Simple.effect? (lay : Layout) (scope : Option String) (ram : Int → Int) :
    Simple → Option (Int → Int)
  | .assign destination source =>
    some (Function.update ram (lay.place scope destination) (lay.eval scope ram source))
  | .combine op left right destination =>
    some (Function.update ram (lay.place scope destination)
      (chip.arithmetic op (lay.eval scope ram left) (lay.eval scope ram right)))
  | .compare p left right destination =>
    some (Function.update ram (lay.place scope destination)
      (truth (chip.comparison p (lay.eval scope ram left) (lay.eval scope ram right))))
  | .constant p destination =>
    some (Function.update ram (lay.place scope destination) (truth p.holds))
  | .call _ => none

/-- **Running a part of the program `F`**, which is in the given scope, takes the memory `ram` to
`ram'`. -/
inductive Exec (F : Forest) : Option String → Forest → (Int → Int) → (Int → Int) → Prop
  | done {scope ram} : Exec F scope .done ram ram
  | simple {scope s rest ram ram₁ ram'} (h : s.effect? chip F.layout scope ram = some ram₁)
      (hr : Exec F scope rest ram₁ ram') : Exec F scope (.simple s rest) ram ram'
  | call {scope name rest b ram ram₁ ram'} (hb : F.body? name = some b)
      (h : Exec F (some name) b.body ram ram₁) (hr : Exec F scope rest ram₁ ram') :
      Exec F scope (.simple (.call name) rest) ram ram'
  | define {scope name body rest ram ram'} (hr : Exec F scope rest ram ram') :
      Exec F scope (.block (.define name) body rest) ram ram'
  | skip {scope kind c body rest ram ram'} (hc : c.holds chip F.layout scope ram = false)
      (hr : Exec F scope rest ram ram') :
      Exec F scope (.block (.branch kind c) body rest) ram ram'
  | enter {scope c body rest ram ram₁ ram'} (hc : c.holds chip F.layout scope ram = true)
      (h : Exec F scope body ram ram₁) (hr : Exec F scope rest ram₁ ram') :
      Exec F scope (.block (.branch .conditional c) body rest) ram ram'
  | again {scope c body rest ram ram₁ ram'} (hc : c.holds chip F.layout scope ram = true)
      (h : Exec F scope body ram ram₁)
      (hr : Exec F scope (.block (.branch .loop c) body rest) ram₁ ram') :
      Exec F scope (.block (.branch .loop c) body rest) ram ram'

/-! ## The code of a line does what the line means -/

section Line

variable {chip} {L : Type} {program : List Words} {m : Cpu} {base : Nat} {lay : Layout}
  {scope : Option String}

/-- The code of an operation writes the result to its cell. -/
theorem Circuit.run_written (c : Circuit) {s : Simple} {cell v : Int}
    (h : Placed program base (s.code lay scope base : List (Instruction L)))
    (hpc : m.pc = addressOf base) (hw : s.written? c lay scope m.ram = some (cell, v)) :
    ∃ m', c.run program s.size m = some m' ∧ m'.pc = addressOf (base + s.size : Nat) ∧
      m'.ram = Function.update m.ram cell v ∧ m'.returns = m.returns ∧
      m'.jumpBackAddress = m.jumpBackAddress ∧ m'.depth = m.depth := by
  rw [← length_simple_code (L := L) lay scope s base]
  rw [Simple.code_eq_template] at h ⊢
  cases s with
  | combine op l r d =>
    obtain ⟨rfl, rfl⟩ := Prod.mk.inj (Option.some.inj hw)
    rw [← Circuit.alu_op]
    exact Circuit.run_store (.alu op.op false false) h hpc
  | compare p l r d =>
    obtain ⟨rfl, rfl⟩ := Prod.mk.inj (Option.some.inj hw)
    rw [← Circuit.test_comparison]
    exact Circuit.run_store (.condition p.predicate false false) h hpc
  | constant p d =>
    obtain ⟨rfl, rfl⟩ := Prod.mk.inj (Option.some.inj hw)
    rw [← Circuit.test_constant]
    exact Circuit.run_store (.condition p.predicate false false) h hpc
  | assign d src => cases hw
  | call name => cases hw

/-- A statement other than an assignment or a call does to the memory what it writes. -/
theorem exists_written_of_effect? (hc : chip.HasConstants) {s : Simple} {ram ram' : Int → Int}
    (h : s.effect? chip lay scope ram = some ram') (hs : ∀ d src, s ≠ .assign d src) :
    ∃ cell v, s.written? chip.toCircuit lay scope ram = some (cell, v) ∧
      Function.update ram cell v = ram' := by
  cases s with
  | combine op l r d =>
    rw [Simple.effect?, Option.some.injEq, ← Chip.circuit_arithmetic] at h
    exact ⟨_, _, rfl, h⟩
  | compare p l r d => exact ⟨_, _, rfl, Option.some.inj h⟩
  | constant p d =>
    rw [Simple.effect?, Option.some.injEq, ← hc.constant] at h
    exact ⟨_, _, rfl, h⟩
  | assign d src => exact absurd rfl (hs d src)
  | call name => cases h

/-- The code of a statement that is no call does to the memory what the statement does. A value that
is assigned has to be a number: a cell would be taken for a register. -/
theorem run_simple (hc : chip.HasConstants) {s : Simple} {ram' : Int → Int}
    (h : Placed program base (s.code lay scope base : List (Instruction L)))
    (hpc : m.pc = addressOf base) (happly : s.effect? chip lay scope m.ram = some ram')
    (hnumber : ∀ d src, s = .assign d src → ∃ n, Operand.denote src = .immediate n) :
    ∃ m', chip.run program s.size m = some m' ∧ m'.pc = addressOf (base + s.size : Nat) ∧
      m'.ram = ram' ∧ m'.returns = m.returns ∧ m'.depth = m.depth := by
  by_cases hs : ∃ d src, s = .assign d src
  · obtain ⟨d, src, rfl⟩ := hs
    obtain ⟨n, hn⟩ := hnumber d src rfl
    have hvalue : lay.value scope src = .literal n := by rw [Layout.value, hn]
    rw [Simple.effect?, Layout.eval, hvalue, Option.some.injEq] at happly
    rw [Simple.code_eq_template, Simple.template, hvalue] at h
    exact ⟨_, Circuit.run_assign h hpc, rfl, happly, rfl, rfl⟩
  · obtain ⟨cell, v, hw, rfl⟩ :=
      exists_written_of_effect? hc happly fun d src he => hs ⟨d, src, he⟩
    obtain ⟨m', hrun, hpc', hram, hret, -, hdepth⟩ := chip.run_written h hpc hw
    exact ⟨m', hrun, hpc', hram, hret, hdepth⟩

theorem simple_size_pos (s : Simple) : 0 < s.size := by
  cases s <;> simp [Simple.size]

theorem holds_eq_tested (hc : chip.HasConstants) (condition : Condition) (ram : Int → Int) :
    condition.holds chip lay scope ram = condition.tested chip.toCircuit lay scope ram := by
  cases condition with
  | compare p l r => rfl
  | constant p => exact (hc.constant p).symm

/-- The code of a condition goes to its target if the condition tests true, and on otherwise. -/
theorem Circuit.run_condition (c : Circuit) {condition : Condition} {kind : BranchKind}
    {target : Int}
    (h : Placed program base
      (condition.code lay scope kind (.number target) : List (Instruction L)))
    (hpc : m.pc = addressOf base) :
    ∃ m', c.run program condition.size m = some m' ∧ Spares m m' ∧
      m'.pc = if condition.tested c lay scope m.ram then target
        else addressOf (base + condition.size : Nat) := by
  rw [← length_condition_code lay scope kind (.number target : Slot L) condition]
  rw [Condition.code_eq_template] at h ⊢
  cases condition with
  | compare p l r =>
    obtain ⟨m', hrun, hpc', hspare⟩ := Circuit.run_branch (c := c) h hpc
    rw [Circuit.test_comparison] at hpc'
    exact ⟨m', hrun, hspare, hpc'⟩
  | constant p =>
    obtain ⟨m', hrun, hpc', hspare⟩ := Circuit.run_branch (c := c) h hpc
    rw [Value.eval, Circuit.test_constant] at hpc'
    exact ⟨m', hrun, hspare, hpc'⟩

/-- What stands before the body of a branch leads into the body if the condition tests true, and
behind the branch otherwise, with one more jump. -/
theorem Circuit.run_test (c : Circuit) {condition : Condition} {kind : BranchKind} {body : Nat}
    (h : Placed program base
      ((Opening.branch kind condition).code lay scope base body : List (Instruction L)))
    (hpc : m.pc = addressOf base) :
    ∃ m', c.run program
        (condition.size + if condition.tested c lay scope m.ram then 0 else 1) m = some m' ∧
      Spares m m' ∧
      m'.pc = if condition.tested c lay scope m.ram then
          addressOf (base + (Opening.branch kind condition).size : Nat)
        else addressOf (base + (Opening.branch kind condition).size + body +
          (Construct.branch kind).tailSize : Nat) := by
  rw [Opening.code_eq_template, Opening.template, ← Condition.code_eq_template] at h
  obtain ⟨hcond, hskip⟩ := placed_append.mp h
  rw [length_condition_code] at hskip
  obtain ⟨m₁, hrun₁, hspare, hpc₁⟩ := c.run_condition hcond hpc
  cases htest : condition.tested c lay scope m.ram with
  | true =>
    rw [htest, if_pos rfl] at hpc₁
    exact ⟨m₁, hrun₁, hspare, hpc₁⟩
  | false =>
    rw [htest, if_neg (by simp)] at hpc₁
    refine ⟨_, Circuit.run_trans hrun₁ (Circuit.run_one (Circuit.step_jump hskip hpc₁)),
      ⟨⟨hspare.ram, hspare.returns, hspare.depth⟩, hspare.jumpBackAddress⟩, ?_⟩
    simp [Opening.size, Nat.add_assoc]

theorem run_test (hc : chip.HasConstants) {c : Condition} {kind : BranchKind} {body : Nat}
    (h : Placed program base
      ((Opening.branch kind c).code lay scope base body : List (Instruction L)))
    (hpc : m.pc = addressOf base) :
    ∃ k m', 0 < k ∧ chip.run program k m = some m' ∧ Keeps m m' ∧
      m'.pc = if c.holds chip lay scope m.ram then
          addressOf (base + (Opening.branch kind c).size : Nat)
        else addressOf (base + (Opening.branch kind c).size + body +
          (Construct.branch kind).tailSize : Nat) := by
  obtain ⟨m', hrun, hspare, hpc'⟩ := chip.run_test h hpc
  have hpos : 0 < c.size := by cases c <;> simp [Condition.size]
  rw [holds_eq_tested hc]
  exact ⟨_, m', by omega, hrun, hspare.toKeeps, hpc'⟩

end Line

end TapeMachine

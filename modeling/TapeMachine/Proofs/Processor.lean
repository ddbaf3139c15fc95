import Mathlib.Logic.Function.Basic
import TapeMachine.Proofs.Generator

/-!
# The processor

The machine that a finished tape runs on. It fetches the four words at the program counter, takes
the opcode apart, reads its operands and stores the result, or jumps. All that is known of what its
parts compute is that the arithmetic unit moves its first operand (`Circuit`). Calls count, so for
them it also has to add and subtract (`Chip`). The rest is left open, and so is what is read at a
number that names no register.

* `Circuit.step`, `Circuit.run`: one step, and a number of them. The machine stops where there is no
  instruction, which is the case right behind the program.
* `decode_encode_alu`, `decode_encode_condition`: opcodes can be read back from their numbers.
* `Circuit.step_of_placed`: what a step does at an instruction of known code.
-/

namespace TapeMachine

/-! ## Opcodes from numbers -/

namespace Opcode

/-- The class that the number of an opcode names. -/
def decodeClass (n : Int) : OpClass :=
  match n / 16 % 4 with
  | 0 => .alu
  | 1 => .conditions
  | 2 => .shiftLeft
  | _ => .shiftRight

/-- The operation of a class that the number of an opcode names. -/
def decodeOperation (c : OpClass) (n : Int) : Operation :=
  match c, n % 8 with
  | .alu, 0 => .alu .add
  | .alu, 1 => .alu .subtract
  | .alu, 2 => .alu .and
  | .alu, 3 => .alu .or
  | .alu, 4 => .alu .not
  | .alu, 5 => .alu .xor
  | .alu, 6 => .alu .move
  | .conditions, 0 => .test .equal
  | .conditions, 1 => .test .notEqual
  | .conditions, 2 => .test .smaller
  | .conditions, 3 => .test .smallerEqual
  | .conditions, 4 => .test .greater
  | .conditions, 5 => .test .greaterEqual
  | .conditions, 6 => .test .always
  | .conditions, 7 => .test .never
  | _, k => .number k

/-- The opcode with the given number: the class and the flags are bits of their own. -/
def decode (n : Int) : Opcode where
  opClass := decodeClass n
  operation := decodeOperation (decodeClass n) n
  jump := n / 8 % 2 = 1
  immediate0 := n / 128 % 2 = 1
  immediate1 := n / 64 % 2 = 1

theorem decode_encode_alu (op : AluOp) (immediate0 immediate1 : Bool) :
    decode (alu op immediate0 immediate1).encode = alu op immediate0 immediate1 := by
  cases op <;> cases immediate0 <;> cases immediate1 <;> rfl

theorem decode_encode_condition (p : Predicate) (jump immediate0 immediate1 : Bool) :
    decode (condition p jump immediate0 immediate1).encode =
      condition p jump immediate0 immediate1 := by
  cases p <;> cases jump <;> cases immediate0 <;> cases immediate1 <;> rfl

/-- The opcodes whose result is stored: operations of the arithmetic unit, and predicates without
the jump flag. -/
inductive Stores : Opcode → Prop
  | alu (op : AluOp) (immediate0 immediate1 : Bool) : Stores (.alu op immediate0 immediate1)
  | condition (p : Predicate) (immediate0 immediate1 : Bool) :
      Stores (.condition p false immediate0 immediate1)

theorem Stores.withImmediates {o : Opcode} (h : o.Stores) (immediate0 immediate1 : Bool) :
    (o.withImmediates immediate0 immediate1).Stores := by
  cases h with
  | alu op _ _ => exact .alu op immediate0 immediate1
  | condition p _ _ => exact .condition p immediate0 immediate1

end Opcode

/-! ## Steps -/

/-- The register that a number in an operand field names. -/
def Register.named? : Int → Option Register
  | 0 => some .ram
  | 1 => some .jumpBackRam
  | 2 => some .programCounter
  | 3 => some .ramAddress
  | 4 => some .jumpBackAddress
  | 5 => some .scratch0
  | 6 => some .scratch1
  | 7 => some .jumpTarget
  | 8 => some .jumpBackDepth
  | _ => none

@[simp] theorem Register.named?_code (r : Register) : named? r.code = some r := by
  cases r <;> rfl

/-- The contents of the machine. -/
structure Cpu where
  pc : Int
  ram : Int → Int
  /-- The memory for return addresses. -/
  returns : Int → Int
  /-- Which cell of the memory is read and written. -/
  ramAddress : Int
  /-- Which return address is read and written. -/
  jumpBackAddress : Int
  scratch0 : Int
  scratch1 : Int
  jumpTarget : Int
  /-- How many calls have not returned. -/
  depth : Int

namespace Cpu

/-- What a register holds. -/
def read (m : Cpu) : Register → Int
  | .ram => m.ram m.ramAddress
  | .jumpBackRam => m.returns m.jumpBackAddress
  | .programCounter => m.pc
  | .ramAddress => m.ramAddress
  | .jumpBackAddress => m.jumpBackAddress
  | .scratch0 => m.scratch0
  | .scratch1 => m.scratch1
  | .jumpTarget => m.jumpTarget
  | .jumpBackDepth => m.depth

/-- The machine with another value in a register. -/
def write (m : Cpu) (v : Int) : Register → Cpu
  | .ram => { m with ram := Function.update m.ram m.ramAddress v }
  | .jumpBackRam => { m with returns := Function.update m.returns m.jumpBackAddress v }
  | .programCounter => { m with pc := v }
  | .ramAddress => { m with ramAddress := v }
  | .jumpBackAddress => { m with jumpBackAddress := v }
  | .scratch0 => { m with scratch0 := v }
  | .scratch1 => { m with scratch1 := v }
  | .jumpTarget => { m with jumpTarget := v }
  | .jumpBackDepth => { m with depth := v }

/-- The machine at the next instruction; each has four words. -/
def next (m : Cpu) : Cpu := { m with pc := m.pc + 4 }

/-- The machine with a result stored; a number that names no register takes nothing. -/
def store (m : Cpu) (destination value : Int) : Cpu :=
  match Register.named? destination with
  | some r => m.write value r
  | none => m

end Cpu

/-- What the parts of the machine compute. The arithmetic unit moves its first operand; all else is
open. -/
structure Circuit where
  alu : AluOp → Int → Int → Int
  test : Predicate → Int → Int → Bool
  /-- The operations that are neither. -/
  other : Opcode → Int → Int → Int
  /-- What is read at a number that names no register. -/
  stray : Cpu → Int → Int
  alu_move : ∀ a b, alu .move a b = a

/-- A circuit that adds and subtracts. -/
structure Chip extends Circuit where
  alu_add : ∀ a b, alu .add a b = a + b
  alu_subtract : ∀ a b, alu .subtract a b = a - b

/-- What stands at a word address in a list of instructions, if one starts there. -/
def fetch {α : Type} (program : List α) (address : Int) : Option α :=
  if 0 ≤ address ∧ address % 4 = 0 then program[(address / 4).toNat]? else none

namespace Circuit

variable (c : Circuit)

/-- The value of an operand. -/
def operand (m : Cpu) (immediate : Bool) (word : Int) : Int :=
  if immediate then word
  else
    match Register.named? word with
    | some r => m.read r
    | none => c.stray m word

/-- The result of an operation. -/
def result (o : Opcode) (x y : Int) : Int :=
  match o.operation with
  | .alu op => c.alu op x y
  | .test p => if c.test p x y then 1 else 0
  | .number _ => c.other o x y

/-- Carries out an instruction, given by its opcode and its three other words. A predicate with the
jump flag goes to the destination if it holds; all else stores its result there. -/
def perform (o : Opcode) (a b destination : Int) (m : Cpu) : Cpu :=
  let x := c.operand m o.immediate0 a
  let y := c.operand m o.immediate1 b
  match o.operation, o.jump with
  | .test p, true => if c.test p x y then { m with pc := destination } else m.next
  | _, _ => m.next.store destination (c.result o x y)

/-- Carries out the instruction with the given words. -/
def exec (w : Words) (m : Cpu) : Cpu :=
  c.perform (Opcode.decode w.opcode) w.a w.b w.destination m

variable (program : List Words)

/-- One step; there is none where there is no instruction. -/
def step (m : Cpu) : Option Cpu := (fetch program m.pc).map fun w => c.exec w m

/-- A number of steps. -/
def run : Nat → Cpu → Option Cpu
  | 0, m => some m
  | n + 1, m => (c.step program m).bind (run n)

/-- The machine stops in `m'`. -/
def Halts (m m' : Cpu) : Prop :=
  ∃ n, c.run program n m = some m' ∧ c.step program m' = none

end Circuit

/-! ## Runs -/

namespace Circuit

variable {c : Circuit} {program : List Words} {m m' m'' : Cpu}

theorem run_add (k n : Nat) (m : Cpu) :
    c.run program (k + n) m = (c.run program k m).bind (c.run program n) := by
  induction k generalizing m with
  | zero => simp [run]
  | succ k ih =>
    have hsucc : k + 1 + n = (k + n) + 1 := by omega
    rw [hsucc]
    cases hs : c.step program m with
    | none => simp [run, hs]
    | some m₁ => simpa [run, hs] using ih m₁

theorem run_trans {k n : Nat} (h : c.run program k m = some m')
    (h' : c.run program n m' = some m'') : c.run program (k + n) m = some m'' := by
  rw [run_add, h]
  exact h'

theorem run_one (h : c.step program m = some m') : c.run program 1 m = some m' := by
  rw [run, h]
  rfl

/-- A run to where the machine stops goes through every state on the way. -/
theorem run_sub_of_halted {k n : Nat} (h : c.run program k m = some m')
    (hn : c.run program n m = some m'') (hstop : c.step program m'' = none) :
    k ≤ n ∧ c.run program (n - k) m' = some m'' := by
  rcases Nat.le_total k n with hle | hle
  · refine ⟨hle, ?_⟩
    obtain ⟨d, rfl⟩ := Nat.exists_eq_add_of_le hle
    rw [run_add, h, Option.bind_some] at hn
    rwa [Nat.add_sub_cancel_left]
  · obtain ⟨d, rfl⟩ := Nat.exists_eq_add_of_le hle
    rw [run_add, hn, Option.bind_some] at h
    cases d with
    | zero =>
      cases h
      exact ⟨Nat.le_refl _, by simp [run]⟩
    | succ d =>
      rw [run, hstop] at h
      cases h

end Circuit

/-! ## Code in its place -/

section Placed

variable {L : Type} {program : List Words}

/-- The code stands in the program from position `n` on. -/
def Placed (program : List Words) : Nat → List (Instruction L) → Prop
  | _, [] => True
  | n, i :: code => (∃ w, i.words? = some w ∧ program[n]? = some w) ∧ Placed program (n + 1) code

theorem placed_append {n : Nat} {code code' : List (Instruction L)} :
    Placed program n (code ++ code') ↔
      Placed program n code ∧ Placed program (n + code.length) code' := by
  induction code generalizing n with
  | nil => simp [Placed]
  | cons i code ih =>
    have hn : n + (code.length + 1) = n + 1 + code.length := by omega
    rw [List.cons_append, Placed, Placed, ih, List.length_cons, and_assoc, hn]

/-- A program stands in its own words. -/
theorem placed_of_words {code : List (Instruction L)}
    (h : code.map (·.words?) = program.map some) : Placed program 0 code := by
  have hgen : ∀ (n : Nat) (code : List (Instruction L)),
      code.map (·.words?) = (program.drop n).map some → Placed program n code := by
    intro n code
    induction code generalizing n with
    | nil => exact fun _ => trivial
    | cons i code ih =>
      intro hmap
      cases hd : program.drop n with
      | nil => simp [hd] at hmap
      | cons w rest =>
        rw [hd, List.map_cons, List.map_cons, List.cons.injEq] at hmap
        have hget : program[n]? = some w := by
          have h0 := congrArg (·[0]?) hd
          simpa using h0
        have hrest : program.drop (n + 1) = rest := by
          rw [← List.drop_drop, hd]
          rfl
        exact ⟨⟨w, hmap.1, hget⟩, ih (n + 1) (by rw [hrest]; exact hmap.2)⟩
  exact hgen 0 code h

end Placed

/-! ## A step at an instruction of known code -/

section Step

variable {L : Type} {c : Circuit} {program : List Words} {m : Cpu} {n : Nat}
  {code : List (Instruction L)}

theorem fetch_addressOf {α : Type} (program : List α) (n : Nat) :
    fetch program (addressOf n) = program[n]? := by
  have hdiv : (addressOf n / 4).toNat = n := by simp [addressOf, width]
  have hok : 0 ≤ addressOf n ∧ addressOf n % 4 = 0 := by
    simp only [addressOf, width]
    omega
  rw [fetch, if_pos hok, hdiv]

theorem Circuit.step_of_placed {i : Instruction L} {w : Words} (h : Placed program n (i :: code))
    (hpc : m.pc = addressOf n) (hw : i.words? = some w) :
    c.step program m = some (c.exec w m) := by
  obtain ⟨⟨w', hw', hget⟩, -⟩ := h
  rw [hw, Option.some.injEq] at hw'
  rw [Circuit.step, hpc, fetch_addressOf, hget, hw', Option.map_some]

theorem words?_eq {i : Instruction L} {x y d : Int} (ha : i.a.word? = some x)
    (hb : i.b.word? = some y) (hd : i.destination.word? = some d) :
    i.words? = some ⟨i.opcode.encode, x, y, d⟩ := by
  simp [Instruction.words?, ha, hb, hd]

theorem store_code (m : Cpu) (r : Register) (v : Int) : m.store r.code v = m.write v r := by
  rw [Cpu.store, Register.named?_code]

/-- An instruction that stores its result in a register. -/
theorem Circuit.step_store {o : Opcode} {a b : Slot L} {x y : Int} {r : Register}
    {comment : String} (ho : o.Stores)
    (h : Placed program n (⟨o, a, b, .register r, comment⟩ :: code))
    (hpc : m.pc = addressOf n) (ha : a.word? = some x) (hb : b.word? = some y) :
    c.step program m =
      some (m.next.write
        (c.result o (c.operand m o.immediate0 x) (c.operand m o.immediate1 y)) r) := by
  rw [Circuit.step_of_placed h hpc (words?_eq ha hb rfl), Circuit.exec, ← store_code]
  cases ho with
  | alu op immediate0 immediate1 =>
    rw [Opcode.decode_encode_alu]
    rfl
  | condition p immediate0 immediate1 =>
    rw [Opcode.decode_encode_condition]
    rfl

/-- An instruction that moves its first operand to a register. -/
theorem Circuit.step_move {immediate : Bool} {a : Slot L} {x : Int} {r : Register}
    {comment : String}
    (h : Placed program n
      (⟨.alu .move immediate, a, .number 0, .register r, comment⟩ :: code))
    (hpc : m.pc = addressOf n) (ha : a.word? = some x) :
    c.step program m = some (m.next.write (c.operand m immediate x) r) := by
  rw [Circuit.step_store (.alu .move immediate false) h hpc ha rfl]
  have hmove : ∀ y, c.result (.alu .move immediate) (c.operand m immediate x) y =
      c.operand m immediate x := c.alu_move _
  exact congrArg (fun v => some (m.next.write v r)) (hmove _)

/-- A condition that branches. -/
theorem Circuit.step_branch {p : Predicate} {immediate0 immediate1 : Bool} {a b : Slot L}
    {x y : Int} {target : Int} {comment : String}
    (h : Placed program n
      (⟨.condition p true immediate0 immediate1, a, b, .number target, comment⟩ :: code))
    (hpc : m.pc = addressOf n) (ha : a.word? = some x) (hb : b.word? = some y) :
    c.step program m =
      some (if c.test p (c.operand m immediate0 x) (c.operand m immediate1 y) then
        { m with pc := target } else m.next) := by
  rw [Circuit.step_of_placed h hpc (words?_eq ha hb rfl), Circuit.exec,
    Opcode.decode_encode_condition]
  rfl

end Step

end TapeMachine

import TapeMachine.Proofs.Extension
import TapeMachine.Proofs.Preservation

/-!
# What an assignment moves

An assignment selects the cell of its destination and moves its source there with one instruction.
A number is moved as it is. Of a cell the instruction has the number, and a number that is no
immediate operand names a register. So it is not the content of the cell that is moved, but the
content of the register of that number, once the destination is selected. Register 0 stands for the
selected cell itself.

* `placed_of_emitAll`: what has been emitted stands in the finished program, its labels replaced.
* `moved_eq_ram_iff`: when the register of a cell's number holds what the cell holds.
* `copies_iff`: an assignment copies its source exactly if the source is a number, or if it is cell
  0 and is assigned to itself.
* `assignment_of_assembles`: what every assignment of a text that assembles does.
-/

namespace TapeMachine

variable {stuck : BranchKind → Prop} {s s' e : Assembler} {program : List Words} {a cell : Int}
  {n : Nat}

/-- The processor when it moves the source of an assignment at position `n`. -/
def Cpu.selecting (m : Cpu) (cell : Int) (n : Nat) : Cpu :=
  { m with pc := addressOf (n + 1 : Nat), ramAddress := cell }

/-- What is moved for a value: a number, or the content of the register that has the number of the
cell. -/
def Value.moved (c : Circuit) (m : Cpu) : Value → Int
  | .literal n => n
  | .cell address => c.operand m false address

/-- The instructions that take the tape from `s` to `e`, run one after the other on any circuit,
copy the value to the cell and leave the other cells and the calls as they are. -/
def Copies (program : List Words) (s e : Assembler) (value : Value) (cell : Int) : Prop :=
  ∀ (c : Circuit) (m : Cpu), m.pc = addressOf s.tape.size →
    ∃ m', c.run program (e.tape.size - s.tape.size) m = some m' ∧ m'.pc = addressOf e.tape.size ∧
      m'.ram = Function.update m.ram cell (value.eval m.ram) ∧ m'.returns = m.returns ∧
      m'.depth = m.depth

/-- The instructions that take the tape from `s` to `e` move what is read for the value to the cell,
and leave the other cells and the calls as they are. -/
def Transfers (program : List Words) (s e : Assembler) (value : Value) (cell : Int) : Prop :=
  ∀ (c : Circuit) (m : Cpu), m.pc = addressOf s.tape.size →
    ∃ m', c.run program (e.tape.size - s.tape.size) m = some m' ∧ m'.pc = addressOf e.tape.size ∧
      m'.ram = Function.update m.ram cell (value.moved c (m.selecting cell s.tape.size)) ∧
      m'.returns = m.returns ∧ m'.jumpBackAddress = m.jumpBackAddress ∧ m'.depth = m.depth

/-! ## Registers in the place of cells -/

theorem Register.code_of_named? {r : Register} (h : named? a = some r) : r.code = a := by
  unfold named? at h
  split at h <;> cases h <;> rfl

/-- What is read for a number other than 0 is not in the memory. -/
theorem operand_of_ne_zero (ha : a ≠ 0) (m : Cpu) (ram : Int → Int) :
    Chip.integers.operand { m with ram } false a = Chip.integers.operand m false a := by
  simp only [Circuit.operand, Bool.false_eq_true, if_false]
  cases hr : Register.named? a with
  | none => rfl
  | some r =>
    cases r with
    | ram => exact absurd (Register.code_of_named? hr).symm ha
    | _ => rfl

/-- A processor at position `n` with some memory and nothing else. -/
def Cpu.bare (n : Nat) (ram : Int → Int) : Cpu := ⟨addressOf n, ram, fun _ => 0, 0, 0, 0, 0, 0, 0⟩

/-- The content of a cell is read, on every circuit and whatever the processor holds, only for
number 0 and only if cell 0 is the destination. -/
theorem moved_eq_ram_iff :
    (∀ (c : Circuit) (m : Cpu), m.pc = addressOf n →
      (Value.cell a).moved c (m.selecting cell n) = m.ram a) ↔ a = 0 ∧ cell = 0 := by
  constructor
  · intro h
    by_cases ha : a = 0
    · subst ha
      -- if every cell holds its own number, what is read is the number of the destination
      exact ⟨rfl, h Chip.integers.toCircuit (.bare n id) rfl⟩
    · exfalso
      -- what is read is the same for two memories that differ in every cell
      have h₀ := h Chip.integers.toCircuit (.bare n fun _ => 0) rfl
      have h₁ := h Chip.integers.toCircuit (.bare n fun _ => 1) rfl
      have hsame := operand_of_ne_zero ha ((Cpu.bare n fun _ => 0).selecting cell n) fun _ => 1
      have hzero : (1 : Int) = 0 := h₁.symm.trans (hsame.trans h₀)
      cases hzero
  · rintro ⟨rfl, rfl⟩ c m -
    exact Circuit.operand_register (c := c) _ .ram

/-- The code of an assignment copies exactly if what it moves is what the value is. -/
theorem copies_iff_moved_eq_eval {value : Value} (h : Transfers program s e value cell) :
    Copies program s e value cell ↔
      ∀ (c : Circuit) (m : Cpu), m.pc = addressOf s.tape.size →
        value.moved c (m.selecting cell s.tape.size) = value.eval m.ram := by
  constructor
  · intro hcopies c m hpc
    obtain ⟨m₁, hrun₁, -, hram₁, -⟩ := h c m hpc
    obtain ⟨m₂, hrun₂, -, hram₂, -⟩ := hcopies c m hpc
    rw [hrun₁, Option.some.injEq] at hrun₂
    subst hrun₂
    have hcell := congrFun (hram₁.symm.trans hram₂) cell
    rwa [Function.update_self, Function.update_self] at hcell
  · intro heq c m hpc
    obtain ⟨m', hrun, hpc', hram, hret, -, hdepth⟩ := h c m hpc
    rw [heq c m hpc] at hram
    exact ⟨m', hrun, hpc', hram, hret, hdepth⟩

/-- **An assignment copies its source exactly if the source is a number, or if it is cell 0 and is
assigned to itself.** -/
theorem copies_iff {value : Value} (h : Transfers program s e value cell) :
    Copies program s e value cell ↔ (∃ n, value = .literal n) ∨ value = .cell 0 ∧ cell = 0 := by
  rw [copies_iff_moved_eq_eval h]
  cases value with
  | literal x => simp [Value.moved, Value.eval]
  | cell a => simpa [Value.eval] using moved_eq_ram_iff (a := a) (n := s.tape.size)

/-! ## Where the code of a line stands -/

theorem exists_emitAll_effect {c : Clause} (h : Coherent stuck s) (he : c.Enabled s) (line : Nat) :
    ∃ code, (c.effect line s).tape = s.tape.emitAll code := by
  have ht := h.takes he line
  generalize c.effect line s = e at ht ⊢
  cases ht with
  | simple => exact ⟨_, rfl⟩
  | define => exact ⟨_, rfl⟩
  | branch => exact ⟨_, rfl⟩
  | endDefine => exact ⟨_, rfl⟩
  | endBranch => exact ⟨_, rfl⟩

/-- The tape is only added to. -/
theorem Steps.exists_emitAll {cs : List Clause} (hs : Steps cs s s') (h : Coherent stuck s) :
    ∃ code, s'.tape = s.tape.emitAll code := by
  induction hs with
  | nil => exact ⟨[], rfl⟩
  | cons line he _ ih =>
    obtain ⟨code, hcode⟩ := exists_emitAll_effect h he line
    obtain ⟨more, hmore⟩ := ih (h.effect he line)
    exact ⟨code ++ more, by rw [hmore, hcode, Tape.emitAll_append]⟩

/-- **What has been emitted stands in the finished program**, at the place where the tape ended
then, and with the labels replaced by the addresses they have at the end. -/
theorem placed_of_emitAll {cs : List Clause} {code : List (Instruction Target)}
    (htape : s'.tape = s.tape.emitAll code) (h : Coherent stuck s') (hs : Steps cs s' e)
    (hwords : e.settled.map (·.words?) = program.map some) :
    Placed program s.tape.size (code.map (Instruction.settle e.address)) := by
  obtain ⟨more, hmore⟩ := hs.exists_emitAll h
  have hall := placed_of_words hwords
  rw [Assembler.settled, hmore, Tape.instructions_emitAll, htape, Tape.instructions_emitAll,
    List.map_append, List.map_append, placed_append, placed_append] at hall
  simpa [Tape.size] using hall.1.2

/-- A run through a line stops before and behind it. -/
theorem run_append_cons_eq_ok {source : String} {before behind : List SourceLine}
    {line : SourceLine} (h : Coherent stuck s)
    (hrun : Assembler.run source (before ++ line :: behind) s = .ok () s') :
    ∃ m e, Assembler.run source before s = .ok () m ∧ Coherent stuck m ∧
      Assembler.process line m = .ok () e ∧ Assembler.run source behind e = .ok () s' := by
  rw [run_append] at hrun
  cases hbefore : Assembler.run source before s with
  | error failure m => simp [hbefore] at hrun
  | ok u m =>
    simp only [hbefore] at hrun
    obtain ⟨e, hp, hbehind⟩ := run_cons_eq_ok_iff.mp hrun
    obtain ⟨_, -, -, hsteps⟩ := steps_of_run h hbefore
    exact ⟨m, e, rfl, hsteps.coherent h, hp, hbehind⟩

/-- The clause that a line has been carried out as. -/
theorem enabled_of_process {line : SourceLine} {c : Clause} (h : Coherent stuck s)
    (hp : Assembler.process line s = .ok () e) (hc : Reads line.head line.args c) :
    c.Enabled s ∧ e = c.effect line.number s := by
  obtain ⟨c', hc', -, he, rfl⟩ := (process_eq_ok_iff h).mp hp
  obtain rfl := reads_unique hc hc'
  exact ⟨he, rfl⟩

/-- A statement and its code in the finished program. -/
theorem placed_of_process {source : String} {line : SourceLine} {behind : List SourceLine}
    {fin : Assembler} {statement : Simple} (h : Coherent stuck s)
    (hp : Assembler.process line s = .ok () e) (hrun : Assembler.run source behind e = .ok () fin)
    (hwords : fin.settled.map (·.words?) = program.map some)
    (hreads : Reads line.head line.args (.simple statement)) :
    ∃ code, statement.assemble s = .ok (e.storage, code) ∧ e.tape = s.tape.emitAll code ∧
      Placed program s.tape.size code := by
  obtain ⟨he, rfl⟩ := enabled_of_process h hp hreads
  have h₁ := h.effect he line.number
  obtain ⟨cs, -, -, hsteps⟩ := steps_of_run h₁ hrun
  obtain ⟨⟨st, code⟩, hr⟩ := he
  have heffect : (Clause.simple statement).effect line.number s =
      { s with storage := st, tape := s.tape.emitAll code, log := s.log ++ s.storage.news st } := by
    rw [Clause.effect, hr]
  rw [heffect] at h₁ hsteps ⊢
  have hplaced := placed_of_emitAll rfl h₁ hsteps hwords
  rw [(resolved_assemble hr).map_settle] at hplaced
  exact ⟨code, hr, rfl, hplaced⟩

/-- The words of the program that a session has assembled are those of the last state. -/
theorem settled_of_assembles {text source : String} {options : Options} {done : Session}
    (h : Assembles text options source done) :
    ∃ program e, done.Finished program ∧
      Assembler.run source (Source.statements text) options.start = .ok () e ∧ e.blocks = [] ∧
      e.settled.map (·.words?) = program.map some := by
  obtain ⟨-, program, -, -, -, hfinished, -⟩ := loaded_of_assembles h
  obtain ⟨s, lines, hcreate, hcompile⟩ := h
  obtain ⟨-, rfl⟩ := create_eq_ok_iff.mp hcreate
  obtain ⟨e, hrun, hb, hinstructions, -⟩ := run_of_session hcompile
  refine ⟨program, e, hfinished, hrun, hb, ?_⟩
  rw [← hinstructions]
  exact hfinished

/-! ## Every assignment of a text -/

theorem transfers_of_process {source destination src : String} {line : SourceLine}
    {behind : List SourceLine} {fin : Assembler} (h : Coherent stuck s)
    (hp : Assembler.process line s = .ok () e) (hrun : Assembler.run source behind e = .ok () fin)
    (hwords : fin.settled.map (·.words?) = program.map some)
    (hreads : Reads line.head line.args (.simple (.assign destination src))) :
    ∃ value cell, s.storage.read src = .ok value ∧ e.storage.write destination = .ok cell ∧
      Transfers program s e value cell := by
  obtain ⟨code, hr, htape, hplaced⟩ := placed_of_process h hp hrun hwords hreads
  simp only [Simple.assemble, bind_eq_ok_iff] at hr
  obtain ⟨value, hvalue, ⟨cell, st⟩, hclaim, he⟩ := hr
  obtain ⟨rfl, rfl⟩ := Prod.mk.inj (Except.ok.inj he)
  refine ⟨value, cell, hvalue, write_eq_ok_iff.mpr (claim_denotes hclaim), fun c m hpc => ?_⟩
  rw [htape, Tape.size_emitAll, Nat.add_sub_cancel_left]
  refine ⟨_, Circuit.run_assign hplaced hpc, rfl, ?_, rfl, rfl, rfl⟩
  cases value <;> rfl

/-- **What every assignment does.** Let a fresh session assemble a text. Take any assignment, with
the state `s` in which the assembler comes to it and the state `e` in which it leaves it. Its
instructions, run on any circuit from any contents of the processor, lead to right behind them. The
cell of the destination gets the source if this is a number, and otherwise the content that the
register with the number of the source's cell has once the destination is selected; no other cell
changes, nor does anything that belongs to calls. So the source is copied, on every circuit and
from all contents, exactly if it is a number or if cell 0 is assigned to itself. -/
theorem assignment_of_assembles {text source : String} {options : Options} {done : Session}
    (h : Assembles text options source done) :
    ∃ program, done.Finished program ∧
      ∀ before line behind, Source.statements text = before ++ line :: behind →
        ∃ s e, Assembler.run source before options.start = .ok () s ∧
          Assembler.process line s = .ok () e ∧
          ∀ destination src, Reads line.head line.args (.simple (.assign destination src)) →
            ∃ value cell, s.storage.read src = .ok value ∧
              e.storage.write destination = .ok cell ∧ Transfers program s e value cell ∧
              (Copies program s e value cell ↔
                (∃ n, value = .literal n) ∨ value = .cell 0 ∧ cell = 0) := by
  obtain ⟨program, fin, hfinished, hrun, -, hwords⟩ := settled_of_assembles h
  refine ⟨program, hfinished, fun before line behind hlines => ?_⟩
  rw [hlines] at hrun
  obtain ⟨s, e, hbefore, hs, hp, hbehind⟩ :=
    run_append_cons_eq_ok options.sound_start.coherent hrun
  refine ⟨s, e, hbefore, hp, fun destination src hreads => ?_⟩
  obtain ⟨value, cell, hread, hwrite, htransfers⟩ :=
    transfers_of_process hs hp hbehind hwords hreads
  exact ⟨value, cell, hread, hwrite, htransfers, copies_iff htransfers⟩

/-- A cell that has the number of the register that selects cells, assigned to another. -/
def addressText : String := "SET *3 7\nSET *5 *3"

/-- On every circuit and from all contents, cell 5 gets its own number: what cell 3 holds plays no
part. -/
theorem assignment_of_addressText :
    ∃ done, Assembles addressText {} "main" done ∧ ∃ program, done.Finished program ∧
      ∃ s e : Assembler, Assembler.run "main" ((Source.statements addressText).take 1)
          (Options.start {}) = .ok () s ∧
        ∀ (c : Circuit) (m : Cpu), m.pc = addressOf s.tape.size →
          ∃ m', c.run program (e.tape.size - s.tape.size) m = some m' ∧
            m'.pc = addressOf e.tape.size ∧ m'.ram = Function.update m.ram 5 5 := by
  have hex : ∃ done, Assembles addressText {} "main" done :=
    exists_assembles_iff.mpr ⟨by decide, by decide +kernel⟩
  obtain ⟨done, h⟩ := hex
  have hlines : Source.statements addressText =
      [⟨1, "SET", ["*3", "7"]⟩, ⟨2, "SET", ["*5", "*3"]⟩] := by
    decide +kernel
  obtain ⟨program, hfinished, hline⟩ := assignment_of_assembles h
  obtain ⟨s, e, hbefore, -, hassign⟩ :=
    hline [⟨1, "SET", ["*3", "7"]⟩] ⟨2, "SET", ["*5", "*3"]⟩ [] hlines
  refine ⟨done, h, program, hfinished, s, e, by rw [hlines]; exact hbefore, fun c m hpc => ?_⟩
  obtain ⟨value, cell, hread, hwrite, htransfers, -⟩ :=
    hassign "*5" "*3" (.set (by decide +kernel))
  have hthree : s.storage.read "*3" = .ok (.cell 3) :=
    read_eq_ok_iff.mpr (.direct (by decide +kernel))
  have hfive : e.storage.write "*5" = .ok 5 :=
    write_eq_ok_iff.mpr (.direct (by decide +kernel))
  cases hthree.symm.trans hread
  cases hfive.symm.trans hwrite
  obtain ⟨m', hrun, hpc', hram, -⟩ := htransfers c m hpc
  exact ⟨m', hrun, hpc', hram⟩

/-- A variable, assigned to another. -/
def copyText : String := "SET $x 5\nSET $y $x"

/-- The lines of the text, taken apart. -/
def copyForest : Forest := .simple (.assign "$x" "5") <| .simple (.assign "$y" "$x") .done

theorem says_copyForest : Says copyText copyForest.clauses := by
  have hlines : Source.statements copyText =
      [⟨1, "SET", ["$x", "5"]⟩, ⟨2, "SET", ["$y", "$x"]⟩] := by
    decide +kernel
  rw [says_iff, hlines]
  exact .cons (.set (by decide +kernel)) <| .cons (.set (by decide +kernel)) .nil

/-- The second variable is left as it was: the first has cell 0, and register 0 is the cell of the
destination. -/
theorem run_copyText :
    ∃ done, Assembles copyText {} "main" done ∧ ∃ program, done.Finished program ∧
      copyForest.layout.place none "$x" = 0 ∧ copyForest.layout.place none "$y" = 1 ∧
      ∃ m', Chip.integers.run program 4 (.bare 0 fun _ => 7) = some m' ∧
        m'.pc = addressOf program.length ∧ m'.ram 0 = 5 ∧ m'.ram 1 = 7 := by
  have hex : ∃ done, Assembles copyText {} "main" done :=
    exists_assembles_iff.mpr ⟨by decide, by decide +kernel⟩
  obtain ⟨done, h⟩ := hex
  obtain ⟨program, -, hfinished, -⟩ := settled_of_assembles h
  refine ⟨done, h, program, hfinished, by decide +kernel, by decide +kernel, ?_⟩
  obtain rfl := eq_words_of_assembles h says_copyForest hfinished
  let words := (copyForest.code : List (Instruction Target)).filterMap (·.words?)
  have hrun : (Chip.integers.run words 4 (.bare 0 fun _ => 7)).map
      (fun m' => (m'.pc, m'.ram 0, m'.ram 1)) = some (addressOf words.length, 5, 7) := by
    decide +kernel
  obtain ⟨m', hm', hend⟩ := Option.map_eq_some_iff.mp hrun
  simp only [Prod.mk.injEq] at hend
  exact ⟨m', hm', hend⟩

end TapeMachine

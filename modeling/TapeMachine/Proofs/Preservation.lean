import TapeMachine.Proofs.Refinement
import TapeMachine.Proofs.Semantics

/-!
# The code of a program does what the program means

The processor, started at the first instruction of a program's code, simulates the program, in both
directions. If the program ends with some memory, the processor stops with that memory
(`run_of_exec`, by induction on how the program runs). If the processor stops, the program ends, and
with the same memory (`exec_of_run`, by induction on the number of steps).

What carries both is that a part of the program leaves the calls below it alone: it comes back to
the depth it started at, and the return addresses below that depth stay (`Arrives`). A definition is
entered one deeper, so the return address of its call survives the body and is there when the body
ends (`run_return`).
-/

namespace TapeMachine

open Circuit (run_one run_trans run_sub_of_halted step_jump)

variable {chip : Chip} {program : List Words} {m m' m₁ m₂ : Cpu} {base : Nat} {lay : Layout}
  {scope : Option String} {F G : Forest}

/-! ## Where the parts of a program stand -/

section Placement

variable {L : Type}

theorem placed_simple {s : Simple} {rest : Forest} :
    Placed program base ((Forest.simple s rest).gen lay scope base : List (Instruction L)) ↔
      Placed program base (s.code lay scope base : List (Instruction L)) ∧
        Placed program (base + s.size)
          (rest.gen lay scope (base + s.size) : List (Instruction L)) := by
  rw [Forest.gen, placed_append, length_simple_code]

theorem placed_block {o : Opening} {body rest : Forest} :
    Placed program base ((Forest.block o body rest).gen lay scope base : List (Instruction L)) ↔
      Placed program base (o.code lay scope base body.size : List (Instruction L)) ∧
        Placed program (base + o.size)
          (body.gen lay (o.inner scope) (base + o.size) : List (Instruction L)) ∧
        Placed program (base + o.size + body.size)
          (o.construct.tailCode base : List (Instruction L)) ∧
        Placed program (base + o.size + body.size + o.construct.tailSize)
          (rest.gen lay scope (base + o.size + body.size + o.construct.tailSize)
            : List (Instruction L)) := by
  rw [Forest.gen, placed_append, placed_append, placed_append]
  simp only [List.length_append, length_opening_code, length_gen, length_tailCode, Nat.add_assoc,
    and_assoc]

/-- The bodies of the definitions stand behind the jumps over them, each with a return. -/
theorem placed_body (h : Placed program base (G.gen lay scope base : List (Instruction L)))
    {b : Body} (hb : b ∈ G.bodies base) :
    Placed program (b.index + 1)
      (b.body.gen lay (some b.name) (b.index + 1) ++ Code.epilogue : List (Instruction L)) := by
  induction G generalizing base scope with
  | done => cases hb
  | simple s rest ih => exact ih (placed_simple.mp h).2 hb
  | block o body rest ihb ihr =>
    obtain ⟨-, hbody, htail, hrest⟩ := placed_block.mp h
    rw [Forest.bodies, List.mem_append, List.mem_append] at hb
    rcases hb with (hb | hb) | hb
    · cases o with
      | define name =>
        rw [Opening.bodies, List.mem_singleton] at hb
        subst hb
        rw [Construct.tailCode_eq_template] at htail
        rw [placed_append, length_gen]
        exact ⟨hbody, htail⟩
      | branch kind c => cases hb
    · exact ihb hbody hb
    · exact ihr hrest hb

end Placement

/-- The lines of a body are lines of the forest. -/
theorem mem_clauses_of_body {b : Body} (hb : b ∈ G.bodies base) {c : Clause}
    (hc : c ∈ b.body.clauses) : c ∈ G.clauses := by
  induction G generalizing base with
  | done => cases hb
  | simple s rest ih => exact List.mem_cons_of_mem _ (ih hb)
  | block o body rest ihb ihr =>
    rw [Forest.bodies, List.mem_append, List.mem_append] at hb
    rw [Forest.clauses, List.mem_cons, List.mem_append, List.mem_cons]
    rcases hb with (hb | hb) | hb
    · cases o with
      | define name =>
        rw [Opening.bodies, List.mem_singleton] at hb
        subst hb
        exact .inr (.inl hc)
      | branch kind c => cases hb
    · exact .inr (.inl (ihb hb))
    · exact .inr (.inr (.inr (ihr hb)))

theorem mem_bodies_of_body? {name : String} {b : Body} (h : F.body? name = some b) :
    b ∈ F.bodies 0 ∧ b.name = name :=
  ⟨List.mem_of_find?_eq_some h, by simpa using List.find?_some h⟩

/-- The program `F` is loaded: its code is there and nothing else, and what it calls is defined. -/
structure Loaded (F : Forest) (program : List Words) : Prop where
  placed : Placed program 0 (F.code : List (Instruction Target))
  length : program.length = F.size
  calls : ∀ name, .simple (.call name) ∈ F.clauses → ∃ b, F.body? name = some b

/-- Every value that the program assigns is a number. -/
def Forest.AssignsNumbers (F : Forest) : Prop :=
  ∀ destination source, .simple (.assign destination source) ∈ F.clauses →
    ∃ n, Operand.denote source = .immediate n

/-- A part of the program `F` stands at a position. -/
structure PartAt (F : Forest) (program : List Words) (scope : Option String) (base : Nat)
    (G : Forest) : Prop where
  placed : Placed program base (G.gen F.layout scope base : List (Instruction Target))
  clauses : ∀ c ∈ G.clauses, c ∈ F.clauses

namespace PartAt

theorem simple_rest {s : Simple} {rest : Forest}
    (h : PartAt F program scope base (.simple s rest)) :
    PartAt F program scope (base + s.size) rest where
  placed := (placed_simple.mp h.placed).2
  clauses c hc := h.clauses c (List.mem_cons_of_mem _ hc)

theorem block_body {o : Opening} {body rest : Forest}
    (h : PartAt F program scope base (.block o body rest)) :
    PartAt F program (o.inner scope) (base + o.size) body where
  placed := (placed_block.mp h.placed).2.1
  clauses c hc := h.clauses c (by simp [Forest.clauses, hc])

theorem block_rest {o : Opening} {body rest : Forest}
    (h : PartAt F program scope base (.block o body rest)) :
    PartAt F program scope (base + o.size + body.size + o.construct.tailSize) rest where
  placed := (placed_block.mp h.placed).2.2.2
  clauses c hc := h.clauses c (by simp [Forest.clauses, hc])

end PartAt

theorem Loaded.partAt (h : Loaded F program) : PartAt F program none 0 F :=
  ⟨h.placed, fun _ hc => hc⟩

/-- The body of a definition, and the return behind it. -/
theorem Loaded.body (h : Loaded F program) {name : String} {b : Body}
    (hb : F.body? name = some b) :
    PartAt F program (some name) (b.index + 1) b.body ∧
      Placed program (b.index + 1 + b.body.size) (Code.epilogue : List (Instruction Target)) := by
  obtain ⟨hmem, rfl⟩ := mem_bodies_of_body? hb
  have hplaced := placed_body h.placed hmem
  rw [placed_append, length_gen] at hplaced
  exact ⟨⟨hplaced.1, fun c hc => mem_clauses_of_body hmem hc⟩, hplaced.2⟩

/-! ## Coming back to the same depth -/

/-- The processor gets to a position with the calls as they were. -/
structure Arrives (m m' : Cpu) (position : Nat) : Prop where
  pc : m'.pc = addressOf position
  depth : m'.depth = m.depth
  returns : ∀ i < m.depth, m'.returns i = m.returns i

theorem Arrives.trans {p q : Nat} (h : Arrives m m₁ p) (h' : Arrives m₁ m₂ q) :
    Arrives m m₂ q where
  pc := h'.pc
  depth := h'.depth.trans h.depth
  returns i hi := (h'.returns i (by rwa [h.depth])).trans (h.returns i hi)

theorem Keeps.arrives {p : Nat} (h : Keeps m m') (hpc : m'.pc = addressOf p) : Arrives m m' p where
  pc := hpc
  depth := h.depth
  returns i _ := by rw [h.returns]

/-- The processor after a call. -/
def Cpu.called (m : Cpu) (index : Nat) (start : Int) : Cpu :=
  { m with
    pc := start
    jumpBackAddress := m.depth
    depth := m.depth + 1
    returns := Function.update m.returns m.depth (addressOf (index + 4 : Nat)) }

/-- **A call returns**: if the body of a definition comes back to the depth it started at, the
return behind it leads to right behind the call, with the calls as they were. -/
theorem run_return {index position : Nat} {start : Int}
    (hbody : Arrives (m.called index start) m₂ position)
    (h : Placed program position (Code.epilogue : List (Instruction Target))) :
    ∃ m₃, chip.run program 3 m₂ = some m₃ ∧ m₃.ram = m₂.ram ∧ Arrives m m₃ (index + 4) := by
  have hdeep : (m.called index start).depth = m.depth + 1 := rfl
  have hdepth : m₂.depth - 1 = m.depth := by
    rw [hbody.depth, hdeep]
    omega
  have hnoted : (m.called index start).returns =
      Function.update m.returns m.depth (addressOf (index + 4 : Nat)) := rfl
  refine ⟨_, run_epilogue h hbody.pc, rfl, ?_, hdepth, fun i hi => ?_⟩
  · have hat : m₂.returns m.depth = _ := hbody.returns m.depth (by omega)
    rw [hnoted, Function.update_self] at hat
    simp only [hdepth, hat]
  · have hbelow : m₂.returns i = _ := hbody.returns i (by omega)
    rw [hnoted, Function.update_of_ne (by omega)] at hbelow
    exact hbelow

/-! ## The pieces of a part -/

theorem call_code {name : String} {b : Body} (hb : F.body? name = some b) :
    (Simple.call name).code F.layout scope base =
      (Code.call base (addressOf (b.index + 1 : Nat)) name : List (Instruction Target)) := by
  rw [Simple.code_eq_template, Simple.template, Forest.layout_entry hb]

section Pieces

variable {s : Simple} {body rest : Forest}

/-- A statement that is no call. -/
theorem PartAt.run_simple (hn : F.AssignsNumbers) (hc : chip.HasConstants)
    (hp : PartAt F program scope base (.simple s rest)) (hpc : m.pc = addressOf base)
    {ram' : Int → Int} (happly : s.effect? chip F.layout scope m.ram = some ram') :
    ∃ m', chip.run program s.size m = some m' ∧ m'.ram = ram' ∧ Arrives m m' (base + s.size) := by
  obtain ⟨m', hrun, hpc', hram, hret, hdepth⟩ :=
    TapeMachine.run_simple hc (placed_simple.mp hp.placed).1 hpc happly
      fun d src he => hn d src (hp.clauses _ (by simp [Forest.clauses, he]))
  exact ⟨m', hrun, hram, hpc', hdepth, fun i _ => by rw [hret]⟩

/-- A call, up to the first instruction of the body. -/
theorem PartAt.run_call {name : String} {b : Body}
    (hp : PartAt F program scope base (.simple (.call name) rest)) (hpc : m.pc = addressOf base)
    (hb : F.body? name = some b) :
    chip.run program 4 m = some (m.called base (addressOf (b.index + 1 : Nat))) := by
  have hcall := (placed_simple.mp hp.placed).1
  rw [call_code hb] at hcall
  exact TapeMachine.run_call hcall hpc

/-- A definition met in sequence. -/
theorem PartAt.run_define {name : String}
    (hp : PartAt F program scope base (.block (.define name) body rest))
    (hpc : m.pc = addressOf base) :
    ∃ m', chip.run program 1 m = some m' ∧ m'.ram = m.ram ∧
      Arrives m m' (base + (Opening.define name).size + body.size +
        (Opening.define name).construct.tailSize) := by
  have hskip := (placed_block.mp hp.placed).1
  rw [Opening.code_eq_template] at hskip
  exact ⟨_, run_one (step_jump hskip hpc), rfl, rfl, rfl, fun _ _ => rfl⟩

/-- The start of a branch whose condition holds. -/
theorem PartAt.run_enter (hc : chip.HasConstants) {kind : BranchKind} {c : Condition}
    (hp : PartAt F program scope base (.block (.branch kind c) body rest))
    (hpc : m.pc = addressOf base) (hholds : c.holds chip F.layout scope m.ram = true) :
    ∃ k m', 0 < k ∧ chip.run program k m = some m' ∧ m'.ram = m.ram ∧
      Arrives m m' (base + (Opening.branch kind c).size) := by
  obtain ⟨k, m', hk, hrun, hkeep, hpc'⟩ := run_test hc (placed_block.mp hp.placed).1 hpc
  rw [hholds, if_pos rfl] at hpc'
  exact ⟨k, m', hk, hrun, hkeep.ram, hkeep.arrives hpc'⟩

/-- The start of a branch whose condition does not hold. -/
theorem PartAt.run_skip (hc : chip.HasConstants) {kind : BranchKind} {c : Condition}
    (hp : PartAt F program scope base (.block (.branch kind c) body rest))
    (hpc : m.pc = addressOf base) (hholds : c.holds chip F.layout scope m.ram = false) :
    ∃ k m', 0 < k ∧ chip.run program k m = some m' ∧ m'.ram = m.ram ∧
      Arrives m m' (base + (Opening.branch kind c).size + body.size +
        (Opening.branch kind c).construct.tailSize) := by
  obtain ⟨k, m', hk, hrun, hkeep, hpc'⟩ := run_test hc (placed_block.mp hp.placed).1 hpc
  rw [hholds, if_neg (by simp)] at hpc'
  exact ⟨k, m', hk, hrun, hkeep.ram, hkeep.arrives hpc'⟩

/-- The end of the body of a loop. -/
theorem PartAt.run_back {c : Condition}
    (hp : PartAt F program scope base (.block (.branch .loop c) body rest))
    (hpc : m.pc = addressOf (base + (Opening.branch .loop c).size + body.size : Nat)) :
    ∃ m', chip.run program 1 m = some m' ∧ m'.ram = m.ram ∧ Arrives m m' base := by
  have hback := (placed_block.mp hp.placed).2.2.1
  rw [Construct.tailCode_eq_template] at hback
  exact ⟨_, run_one (step_jump hback hpc), rfl, rfl, rfl, fun _ _ => rfl⟩

end Pieces

/-! ## The processor follows the program -/

/-- **If a part of the program runs, the processor runs through its code** and leaves the same
memory. -/
theorem run_of_exec (hl : Loaded F program) (hn : F.AssignsNumbers) (hc : chip.HasConstants)
    {ram ram' : Int → Int} (h : Exec chip F scope G ram ram') {base : Nat} {m : Cpu}
    (hp : PartAt F program scope base G) (hpc : m.pc = addressOf base) (hram : m.ram = ram) :
    ∃ n m', chip.run program n m = some m' ∧ m'.ram = ram' ∧ Arrives m m' (base + G.size) := by
  induction h generalizing base m with
  | done => exact ⟨0, m, rfl, hram, hpc, rfl, fun _ _ => rfl⟩
  | simple happly _ ih =>
    subst hram
    obtain ⟨m₁, hrun₁, hram₁, harr₁⟩ := hp.run_simple hn hc hpc happly
    obtain ⟨n, m₂, hrun₂, hram₂, harr₂⟩ := ih hp.simple_rest harr₁.pc hram₁
    refine ⟨_, m₂, run_trans hrun₁ hrun₂, hram₂, ?_⟩
    rw [Forest.size, ← Nat.add_assoc]
    exact harr₁.trans harr₂
  | call hb _ _ ihb ihr =>
    subst hram
    obtain ⟨hbody, hepi⟩ := hl.body hb
    have hrun₁ : chip.run program 4 m = _ := hp.run_call hpc hb
    obtain ⟨n₂, m₂, hrun₂, hram₂, harr₂⟩ := ihb hbody (m := m.called base _) rfl rfl
    obtain ⟨m₃, hrun₃, hram₃, harr₃⟩ := run_return harr₂ hepi
    obtain ⟨n₄, m₄, hrun₄, hram₄, harr₄⟩ := ihr hp.simple_rest harr₃.pc (hram₃.trans hram₂)
    refine ⟨_, m₄, run_trans hrun₁ (run_trans hrun₂ (run_trans hrun₃ hrun₄)), hram₄, ?_⟩
    rw [Forest.size, ← Nat.add_assoc]
    exact harr₃.trans harr₄
  | define _ ih =>
    obtain ⟨m₁, hrun₁, hram₁, harr₁⟩ := hp.run_define hpc
    obtain ⟨n, m₂, hrun₂, hram₂, harr₂⟩ := ih hp.block_rest harr₁.pc (hram₁.trans hram)
    refine ⟨_, m₂, run_trans hrun₁ hrun₂, hram₂, ?_⟩
    simp only [Forest.size, ← Nat.add_assoc]
    exact harr₁.trans harr₂
  | skip hholds _ ih =>
    subst hram
    obtain ⟨k, m₁, -, hrun₁, hram₁, harr₁⟩ := hp.run_skip hc hpc hholds
    obtain ⟨n, m₂, hrun₂, hram₂, harr₂⟩ := ih hp.block_rest harr₁.pc hram₁
    refine ⟨_, m₂, run_trans hrun₁ hrun₂, hram₂, ?_⟩
    simp only [Forest.size, ← Nat.add_assoc]
    exact harr₁.trans harr₂
  | enter hholds _ _ ihb ihr =>
    subst hram
    obtain ⟨k, m₁, -, hrun₁, hram₁, harr₁⟩ := hp.run_enter hc hpc hholds
    obtain ⟨n₂, m₂, hrun₂, hram₂, harr₂⟩ := ihb hp.block_body harr₁.pc hram₁
    obtain ⟨n₃, m₃, hrun₃, hram₃, harr₃⟩ := ihr hp.block_rest harr₂.pc hram₂
    refine ⟨_, m₃, run_trans hrun₁ (run_trans hrun₂ hrun₃), hram₃, ?_⟩
    simp only [Forest.size, ← Nat.add_assoc]
    exact (harr₁.trans harr₂).trans harr₃
  | again hholds _ _ ihb ihr =>
    subst hram
    obtain ⟨k, m₁, -, hrun₁, hram₁, harr₁⟩ := hp.run_enter hc hpc hholds
    obtain ⟨n₂, m₂, hrun₂, hram₂, harr₂⟩ := ihb hp.block_body harr₁.pc hram₁
    obtain ⟨m₃, hrun₃, hram₃, harr₃⟩ := hp.run_back harr₂.pc
    obtain ⟨n₄, m₄, hrun₄, hram₄, harr₄⟩ := ihr hp harr₃.pc (hram₃.trans hram₂)
    exact ⟨_, m₄, run_trans hrun₁ (run_trans hrun₂ (run_trans hrun₃ hrun₄)), hram₄,
      ((harr₁.trans harr₂).trans harr₃).trans harr₄⟩

/-- **If the processor stops, the part of the program it is in runs to its end**, with the memory
that the processor has then. The induction is on the number of steps, since a loop or a call comes
back to the same forest: each of them takes at least one step. -/
theorem exec_of_run (hl : Loaded F program) (hn : F.AssignsNumbers) (hc : chip.HasConstants)
    {stop : Cpu} (hstop : chip.step program stop = none) (n : Nat) {scope : Option String}
    {base : Nat} {G : Forest} {m : Cpu} (hp : PartAt F program scope base G)
    (hpc : m.pc = addressOf base)
    (hrun : chip.run program n m = some stop) :
    ∃ k m', chip.run program k m = some m' ∧ Exec chip F scope G m.ram m'.ram ∧
      Arrives m m' (base + G.size) := by
  induction n using Nat.strongRecOn generalizing scope base G m with
  | ind n ih =>
  cases G with
  | done => exact ⟨0, m, rfl, .done, hpc, rfl, fun _ _ => rfl⟩
  | simple s rest =>
    cases happly : s.effect? chip F.layout scope m.ram with
    | some ram₁ =>
      obtain ⟨m₁, hrun₁, rfl, harr₁⟩ := hp.run_simple hn hc hpc happly
      obtain ⟨hle, hrest⟩ := run_sub_of_halted hrun₁ hrun hstop
      have hpos := simple_size_pos s
      obtain ⟨k, m₂, hrun₂, hexec₂, harr₂⟩ := ih _ (by omega) hp.simple_rest harr₁.pc hrest
      refine ⟨_, m₂, run_trans hrun₁ hrun₂, .simple happly hexec₂, ?_⟩
      rw [Forest.size, ← Nat.add_assoc]
      exact harr₁.trans harr₂
    | none =>
      cases s with
      | call name =>
        obtain ⟨b, hb⟩ := hl.calls name (hp.clauses _ (by simp [Forest.clauses]))
        obtain ⟨hbody, hepi⟩ := hl.body hb
        have hrun₁ : chip.run program 4 m = _ := hp.run_call hpc hb
        obtain ⟨hle₁, hrest₁⟩ := run_sub_of_halted hrun₁ hrun hstop
        obtain ⟨k₂, m₂, hrun₂, hexec₂, harr₂⟩ := ih _ (by omega) hbody rfl hrest₁
        obtain ⟨m₃, hrun₃, hram₃, harr₃⟩ := run_return harr₂ hepi
        have hback := run_trans hrun₁ (run_trans hrun₂ hrun₃)
        obtain ⟨hle₃, hrest₃⟩ := run_sub_of_halted hback hrun hstop
        obtain ⟨k₄, m₄, hrun₄, hexec₄, harr₄⟩ := ih _ (by omega) hp.simple_rest harr₃.pc hrest₃
        rw [hram₃] at hexec₄
        refine ⟨_, m₄, run_trans hback hrun₄, .call hb hexec₂ hexec₄, ?_⟩
        rw [Forest.size, ← Nat.add_assoc]
        exact harr₃.trans harr₄
      | _ => cases happly
  | block o body rest =>
    cases o with
    | define name =>
      obtain ⟨m₁, hrun₁, hram₁, harr₁⟩ := hp.run_define hpc
      obtain ⟨hle, hrest⟩ := run_sub_of_halted hrun₁ hrun hstop
      obtain ⟨k, m₂, hrun₂, hexec₂, harr₂⟩ := ih _ (by omega) hp.block_rest harr₁.pc hrest
      rw [hram₁] at hexec₂
      refine ⟨_, m₂, run_trans hrun₁ hrun₂, .define hexec₂, ?_⟩
      simp only [Forest.size, ← Nat.add_assoc]
      exact harr₁.trans harr₂
    | branch kind c =>
      cases hholds : c.holds chip F.layout scope m.ram with
      | false =>
        obtain ⟨k₁, m₁, hk₁, hrun₁, hram₁, harr₁⟩ := hp.run_skip hc hpc hholds
        obtain ⟨hle, hrest⟩ := run_sub_of_halted hrun₁ hrun hstop
        obtain ⟨k, m₂, hrun₂, hexec₂, harr₂⟩ := ih _ (by omega) hp.block_rest harr₁.pc hrest
        rw [hram₁] at hexec₂
        refine ⟨_, m₂, run_trans hrun₁ hrun₂, .skip hholds hexec₂, ?_⟩
        simp only [Forest.size, ← Nat.add_assoc]
        exact harr₁.trans harr₂
      | true =>
        obtain ⟨k₁, m₁, hk₁, hrun₁, hram₁, harr₁⟩ := hp.run_enter hc hpc hholds
        obtain ⟨hle₁, hrest₁⟩ := run_sub_of_halted hrun₁ hrun hstop
        obtain ⟨k₂, m₂, hrun₂, hexec₂, harr₂⟩ := ih _ (by omega) hp.block_body harr₁.pc hrest₁
        rw [hram₁] at hexec₂
        have hend := run_trans hrun₁ hrun₂
        obtain ⟨hle₂, hrest₂⟩ := run_sub_of_halted hend hrun hstop
        cases kind with
        | conditional =>
          obtain ⟨k₃, m₃, hrun₃, hexec₃, harr₃⟩ :=
            ih _ (by omega) hp.block_rest harr₂.pc hrest₂
          refine ⟨_, m₃, run_trans hend hrun₃, .enter hholds hexec₂ hexec₃, ?_⟩
          simp only [Forest.size, ← Nat.add_assoc]
          exact (harr₁.trans harr₂).trans harr₃
        | loop =>
          obtain ⟨m₃, hrun₃, hram₃, harr₃⟩ := hp.run_back harr₂.pc
          have hback := run_trans hend hrun₃
          obtain ⟨hle₃, hrest₃⟩ := run_sub_of_halted hback hrun hstop
          obtain ⟨k₄, m₄, hrun₄, hexec₄, harr₄⟩ := ih _ (by omega) hp harr₃.pc hrest₃
          rw [hram₃] at hexec₄
          exact ⟨_, m₄, run_trans hback hrun₄, .again hholds hexec₂ hexec₄,
            ((harr₁.trans harr₂).trans harr₃).trans harr₄⟩

/-! ## Whole programs -/

theorem exists_words {L : Type} {code : List (Instruction L)} (h : Resolved code) :
    ∃ program : List Words, code.map (·.words?) = program.map some := by
  induction code with
  | nil => exact ⟨[], rfl⟩
  | cons i code ih =>
    rw [resolved_cons] at h
    obtain ⟨w, hw⟩ := words?_of_isResolved h.1
    obtain ⟨program, hprogram⟩ := ih h.2
    exact ⟨w :: program, by simp [hw, hprogram]⟩

/-- The processor stops right behind the program. -/
theorem step_eq_none_of_end (hpc : m.pc = addressOf program.length) :
    chip.step program m = none := by
  rw [Circuit.step, hpc, fetch_addressOf, List.getElem?_eq_none (Nat.le_refl _)]
  rfl

/-- **A loaded program and the processor end alike.** -/
theorem Loaded.simulation (hl : Loaded F program) (hn : F.AssignsNumbers)
    (hc : chip.HasConstants) (hpc : m.pc = 0) :
    (∀ ram', Exec chip F none F m.ram ram' → ∃ m', chip.Halts program m m' ∧ m'.ram = ram') ∧
      ∀ m', chip.Halts program m m' →
        Exec chip F none F m.ram m'.ram ∧ Arrives m m' program.length := by
  have hstart : m.pc = addressOf (0 : Nat) := hpc
  constructor
  · intro ram' hexec
    obtain ⟨n, m', hrun, hram, harr⟩ := run_of_exec hl hn hc hexec hl.partAt hstart rfl
    rw [Nat.zero_add, ← hl.length] at harr
    exact ⟨m', ⟨n, hrun, step_eq_none_of_end harr.pc⟩, hram⟩
  · rintro stop ⟨n, hrun, hstop⟩
    obtain ⟨k, m', hrun', hexec, harr⟩ := exec_of_run hl hn hc hstop n hl.partAt hstart hrun
    rw [Nat.zero_add, ← hl.length] at harr
    -- the run that stops goes through the end of the program, and can go no further
    obtain ⟨-, hrest⟩ := run_sub_of_halted hrun' hrun hstop
    cases hd : n - k with
    | zero =>
      rw [hd, Circuit.run, Option.some.injEq] at hrest
      subst hrest
      exact ⟨hexec, harr⟩
    | succ d =>
      rw [hd, Circuit.run, step_eq_none_of_end harr.pc] at hrest
      cases hrest

/-- The words of a finished program. -/
def Session.Finished (s : Session) (program : List Words) : Prop :=
  s.instructions.map (·.words?) = program.map some

/-- **What a session has assembled can be loaded.** -/
theorem loaded_of_assembles {text source : String} {options : Options} {done : Session}
    (h : Assembles text options source done) :
    ∃ F program, Says text F.clauses ∧ F.Nests [] ∧
      ((F.bodies 0).map (·.name)).Nodup ∧ done.Finished program ∧ Loaded F program := by
  obtain ⟨F, hsaid, hnests, ⟨e, hsteps⟩, hcode⟩ := forest_of_assembles h
  have h₀ := Coherent.ofSize options.memorySize.toNat
  have hres : Resolved (F.code : List (Instruction Target)) := resolved_gen _ _ F _
  obtain ⟨program, hprogram⟩ := exists_words hres
  refine ⟨F, program, hsaid, hnests, bodies_nodup hsteps h₀ rfl rfl, ?_, ?_, ?_, ?_⟩
  · rw [Session.Finished, hcode, hprogram]
  · exact placed_of_words hprogram
  · have hlen := congrArg List.length hprogram
    rw [List.length_map, List.length_map, Forest.code, length_gen] at hlen
    exact hlen.symm
  · intro name hname
    obtain ⟨d, hd⟩ := find?_of_call hsteps h₀ hname
    obtain ⟨b, hb, -⟩ := body?_of_find? hsteps h₀ rfl rfl hd
    exact ⟨b, hb⟩

/-- The words of a finished program are those of the code of its forest. -/
theorem eq_words_of_assembles {text source : String} {options : Options} {done : Session}
    (h : Assembles text options source done) (hsaid : Says text F.clauses)
    (hwords : done.Finished program) :
    program = (F.code : List (Instruction Target)).filterMap (·.words?) := by
  obtain ⟨G, hG, -, -, hcode⟩ := forest_of_assembles h
  obtain rfl := Forest.clauses_injective (hG.unique hsaid)
  have hmap := congrArg (List.filterMap id) hwords
  rw [hcode] at hmap
  simpa [List.filterMap_map, Function.comp_def] using hmap.symm

/-- Every value that the text assigns is a number. -/
def AssignsNumbers (text : String) : Prop :=
  ∀ clauses, Says text clauses → ∀ destination source,
    .simple (.assign destination source) ∈ clauses → ∃ n, Operand.denote source = .immediate n

/-- **Assembled programs do what they mean.** Let a fresh session assemble a text whose assigned
values are all numbers, and let the processor start at the first instruction, with any contents and
any chip that knows the constant predicates. If the program ends with some memory, the processor
stops with that memory. If the processor stops, the program ends with the processor's memory; the
processor is then right behind the last instruction, at the depth it started at, with the return
addresses below that depth untouched. -/
theorem simulation_of_assembles {text source : String} {options : Options} {done : Session}
    (h : Assembles text options source done) (hn : AssignsNumbers text) :
    ∃ F program, Says text F.clauses ∧ done.Finished program ∧
      ∀ (chip : Chip) (m : Cpu), chip.HasConstants → m.pc = 0 →
        (∀ ram', Exec chip F none F m.ram ram' → ∃ m', chip.Halts program m m' ∧ m'.ram = ram') ∧
          ∀ m', chip.Halts program m m' →
            Exec chip F none F m.ram m'.ram ∧ m'.pc = (4 * program.length : Nat) ∧
              m'.depth = m.depth ∧ ∀ i < m.depth, m'.returns i = m.returns i := by
  obtain ⟨F, program, hsaid, -, -, hwords, hl⟩ := loaded_of_assembles h
  refine ⟨F, program, hsaid, hwords, fun chip m hc hpc => ?_⟩
  obtain ⟨hforth, hback⟩ := hl.simulation (hn _ hsaid) hc hpc
  refine ⟨hforth, fun m' hm' => ?_⟩
  obtain ⟨hexec, harr⟩ := hback m' hm'
  exact ⟨hexec, harr.pc.trans (addressOf_eq _), harr.depth, harr.returns⟩

/-- A chip for whole numbers. It does not do the bit operations. -/
def Chip.integers : Chip where
  alu
    | .add, a, b => a + b
    | .subtract, a, b => a - b
    | .move, a, _ => a
    | _, _, _ => 0
  test
    | .equal, a, b => a = b
    | .notEqual, a, b => a ≠ b
    | .smaller, a, b => a < b
    | .smallerEqual, a, b => a ≤ b
    | .greater, a, b => a > b
    | .greaterEqual, a, b => a ≥ b
    | .always, _, _ => true
    | .never, _, _ => false
  other _ _ _ := 0
  stray _ _ := 0
  alu_move _ _ := rfl
  alu_add _ _ := rfl
  alu_subtract _ _ := rfl

/-- A definition that counts a cell up to two by calling itself, and a loop that counts it down to
one again. -/
def countingText : String :=
  "set *0 0  # the count\n\ndef f\nIF SM *0 2\nadd *0 1 *0\nCall f\nendif\nENDDEF\nCALL f\n" ++
    "while gr *0 1 # once\nSUB *0 1 *0\nENDWHILE"

/-- The lines of the text, taken apart. -/
def countingForest : Forest :=
  .simple (.assign "*0" "0") <|
  .block (.define "f")
    (.block (.branch .conditional (.compare .sm "*0" "2"))
      (.simple (.combine .add "*0" "1" "*0") <| .simple (.call "f") .done) .done) <|
  .simple (.call "f") <|
  .block (.branch .loop (.compare .gr "*0" "1"))
    (.simple (.combine .sub "*0" "1" "*0") .done) .done

theorem says_countingForest : Says countingText countingForest.clauses := by
  have hlines : Source.statements countingText =
      [⟨1, "set", ["*0", "0"]⟩, ⟨3, "def", ["f"]⟩, ⟨4, "IF", ["SM", "*0", "2"]⟩,
       ⟨5, "add", ["*0", "1", "*0"]⟩, ⟨6, "Call", ["f"]⟩, ⟨7, "endif", []⟩, ⟨8, "ENDDEF", []⟩,
       ⟨9, "CALL", ["f"]⟩, ⟨10, "while", ["gr", "*0", "1"]⟩, ⟨11, "SUB", ["*0", "1", "*0"]⟩,
       ⟨12, "ENDWHILE", []⟩] := by
    decide +kernel
  rw [says_iff, hlines]
  refine .cons (.set ?_) <| .cons (.define ?_) <| .cons (.branch ?_ (.compare ?_)) <|
    .cons (.arithmetic ?_) <| .cons (.call ?_) <| .cons (.endBranch ?_) <| .cons (.endDefine ?_) <|
    .cons (.call ?_) <| .cons (.branch ?_ (.compare ?_)) <| .cons (.arithmetic ?_) <|
    .cons (.endBranch ?_) .nil
  all_goals decide +kernel

theorem assignsNumbers_countingText : AssignsNumbers countingText := by
  intro clauses hsaid d src hmem
  obtain rfl := hsaid.unique says_countingForest
  obtain ⟨-, rfl⟩ : d = "*0" ∧ src = "0" := by
    simpa [countingForest, Forest.clauses] using hmem
  exact ⟨0, by decide +kernel⟩

/-- The words of the text's program. -/
def countingProgram : List Words :=
  [⟨134, 0, 0, 3⟩, ⟨134, 0, 0, 0⟩, ⟨134, 72, 0, 2⟩, ⟨134, 0, 0, 3⟩, ⟨6, 0, 0, 5⟩, ⟨90, 5, 2, 28⟩,
   ⟨134, 60, 0, 2⟩, ⟨134, 0, 0, 3⟩, ⟨6, 0, 0, 5⟩, ⟨134, 0, 0, 3⟩, ⟨64, 5, 1, 0⟩, ⟨6, 8, 0, 4⟩,
   ⟨64, 8, 1, 8⟩, ⟨134, 60, 0, 1⟩, ⟨134, 12, 0, 2⟩, ⟨65, 8, 1, 8⟩, ⟨6, 8, 0, 4⟩, ⟨6, 1, 0, 2⟩,
   ⟨6, 8, 0, 4⟩, ⟨64, 8, 1, 8⟩, ⟨134, 88, 0, 1⟩, ⟨134, 12, 0, 2⟩, ⟨134, 0, 0, 3⟩, ⟨6, 0, 0, 5⟩,
   ⟨92, 5, 1, 104⟩, ⟨134, 124, 0, 2⟩, ⟨134, 0, 0, 3⟩, ⟨6, 0, 0, 5⟩, ⟨134, 0, 0, 3⟩,
   ⟨65, 5, 1, 0⟩, ⟨134, 88, 0, 2⟩]

theorem eq_countingProgram {source : String} {options : Options} {done : Session}
    {program : List Words} (h : Assembles countingText options source done)
    (hwords : done.Finished program) : program = countingProgram := by
  have hcode : (countingForest.code : List (Instruction Target)).filterMap (·.words?) =
      countingProgram := by
    decide +kernel
  rw [eq_words_of_assembles h says_countingForest hwords, hcode]

/-- Started with seven in all cells, the processor counts up to two and down to one and stops, and
that is what the program means. -/
theorem simulation_of_countingText :
    ∃ done, Assembles countingText {} "main" done ∧ AssignsNumbers countingText ∧
      Chip.integers.HasConstants ∧ done.Finished countingProgram ∧
      ∃ ram', ram' 0 = 1 ∧ Exec .integers countingForest none countingForest (fun _ => 7) ram' := by
  have hex : ∃ done, Assembles countingText {} "main" done :=
    exists_assembles_iff.mpr ⟨by decide, by decide +kernel⟩
  obtain ⟨done, h⟩ := hex
  have hc : Chip.integers.HasConstants := ⟨fun _ _ => rfl, fun _ _ => rfl⟩
  obtain ⟨F, program, hsaid, hwords, hsim⟩ :=
    simulation_of_assembles h assignsNumbers_countingText
  obtain rfl := Forest.clauses_injective (hsaid.unique says_countingForest)
  obtain rfl := eq_countingProgram h hwords
  refine ⟨done, h, assignsNumbers_countingText, hc, hwords, ?_⟩
  let m : Cpu := ⟨0, fun _ => 7, fun _ => 0, 3, 1, 4, 1, 5, 9⟩
  have hrun : ((Chip.integers.run countingProgram 54 m).map fun m' => (m'.pc, m'.ram 0)) =
      some (addressOf countingProgram.length, 1) := by
    decide +kernel
  obtain ⟨m', hm', hend⟩ := Option.map_eq_some_iff.mp hrun
  obtain ⟨hpc, hcell⟩ := Prod.mk.inj hend
  obtain ⟨hexec, -⟩ := (hsim .integers m hc rfl).2 m' ⟨54, hm', step_eq_none_of_end hpc⟩
  exact ⟨m'.ram, hcell, hexec⟩

end TapeMachine

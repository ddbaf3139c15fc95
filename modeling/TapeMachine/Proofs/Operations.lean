import TapeMachine.Proofs.Preservation

/-!
# What a line computes

Arithmetic, comparisons and the conditions of branches bring their operands within reach of one
instruction in the same way, which depends on whether the operands are numbers or cells. Here such a
line is taken where it stands in a text that assembles, and its instructions are run where they
stand in the finished program: on any circuit, from any contents of the processor.

The lines before a line say all about where it stands. Its first instruction comes behind theirs
(`linesSize`), and its scope is the one that they leave (`scopeBehind`).

* `PartAt.at_line`: what begins with a line stands behind the lines before it.
* `operations_of_assembles`: the instructions of the line compute what its keyword means and change
  nothing else.
-/

namespace TapeMachine

variable {program : List Words} {lay : Layout} {scope : Option String} {base : Nat} {F G : Forest}
  {stack : List Construct}

/-! ## Where the code of a line stands -/

/-- The scope is that of the main program unless a definition is open. -/
def ScopeFits (stack : List Construct) (scope : Option String) : Prop :=
  .definition ∉ stack → scope = none

theorem ScopeFits.inner (h : ScopeFits stack scope) (o : Opening) :
    ScopeFits (o.construct :: stack) (o.inner scope) := by
  intro hd
  cases o with
  | define name => exact absurd List.mem_cons_self hd
  | branch kind condition => exact h fun hmem => hd (List.mem_cons_of_mem _ hmem)

/-- Lines with complete blocks lead back to the scope they started in. -/
theorem Forest.scopeBehind_clauses (h : G.Nests stack) (hs : ScopeFits stack scope) :
    scopeBehind scope G.clauses = scope := by
  induction G generalizing scope stack with
  | done => rfl
  | simple s rest ih => exact ih h hs
  | block o body rest ihb ihr =>
    obtain ⟨ho, hb, hr⟩ := h
    rw [clauses, ← List.singleton_append, scopeBehind_append, scopeBehind_append]
    cases o with
    | define name =>
      obtain rfl := hs ho
      exact ihr hr hs
    | branch kind condition =>
      exact (congrArg (scopeBehind · _) (ihb hb (hs.inner _))).trans (ihr hr hs)

/-- Two ways to take lines apart: one of the two parts ends behind the other. -/
theorem append_cons_eq_append_cons {before behind inside outside : List Clause}
    {line closer : Clause} (hne : line ≠ closer)
    (h : inside ++ closer :: outside = before ++ line :: behind) :
    (∃ cs, before = inside ++ closer :: cs ∧ outside = cs ++ line :: behind) ∨
      ∃ cs, inside = before ++ line :: cs ∧ line :: behind = line :: cs ++ closer :: outside := by
  obtain ⟨cs, rfl, hcs⟩ | ⟨cs, rfl, hcs⟩ := List.append_eq_append_iff.mp h
  · cases cs with
    | nil => exact absurd (List.cons.inj hcs).1.symm hne
    | cons d cs =>
      obtain ⟨rfl, hrest⟩ := List.cons.inj hcs
      exact .inl ⟨cs, rfl, hrest⟩
  · cases cs with
    | nil => exact absurd (List.cons.inj hcs).1 hne
    | cons d cs =>
      obtain rfl := (List.cons.inj hcs).1
      exact .inr ⟨cs, rfl, hcs⟩

/-- **What begins with a line stands behind the lines before it**, unless the line closes a
block. -/
theorem PartAt.at_line {before behind : List Clause} {line : Clause}
    (hp : PartAt F program scope base G) (hn : G.Nests stack) (hs : ScopeFits stack scope)
    (hline : ∀ k, line ≠ .closing k)
    (h : G.clauses = before ++ line :: behind) :
    ∃ H tail, H ≠ .done ∧ H.clauses ++ tail = line :: behind ∧
      PartAt F program (scopeBehind scope before) (base + linesSize before) H := by
  induction G generalizing scope base stack before behind with
  | done => simp [Forest.clauses] at h
  | simple s rest ih =>
    cases before with
    | nil => exact ⟨.simple s rest, [], by simp, by rw [List.append_nil, h, List.nil_append], hp⟩
    | cons d before =>
      obtain ⟨rfl, hrest⟩ := List.cons.inj h
      have hat := ih hp.simple_rest hn hs hrest
      rwa [Nat.add_assoc] at hat
  | block o body rest ihb ihr =>
    cases before with
    | nil =>
      exact ⟨.block o body rest, [], by simp, by rw [List.append_nil, h, List.nil_append], hp⟩
    | cons d before =>
      obtain ⟨rfl, hinside⟩ := List.cons.inj h
      obtain ⟨ho, hb, hr⟩ := hn
      -- the line is behind the block or in it: it is not the one that closes the block
      obtain ⟨cs, rfl, hrest⟩ | ⟨cs, hbody, hbehind⟩ :=
        append_cons_eq_append_cons (hline _) hinside
      · obtain ⟨H, tail, hH, hclauses, hat⟩ := ihr hp.block_rest hr hs hrest
        refine ⟨H, tail, hH, hclauses, ?_⟩
        have hblock : (Forest.block o body .done).Nests stack := ⟨ho, hb, trivial⟩
        have hbefore : .opening o :: (body.clauses ++ .closing o.construct :: cs) =
            (Forest.block o body .done).clauses ++ cs := by
          simp [Forest.clauses]
        rw [hbefore, scopeBehind_append, Forest.scopeBehind_clauses hblock hs, linesSize_append,
          ← Forest.size_eq_linesSize]
        simpa [Forest.size, Nat.add_assoc] using hat
      · obtain ⟨H, tail, hH, hclauses, hat⟩ := ihb hp.block_body hb (hs.inner o) hbody
        refine ⟨H, tail ++ .closing o.construct :: rest.clauses, hH, ?_, ?_⟩
        · rw [← List.append_assoc, hclauses, hbehind]
        · rw [Nat.add_assoc] at hat
          cases o <;> exact hat

/-! ## What the code of a line does -/

/-- The instructions from position `start` on, run one after the other on any circuit, put what the
operation writes into its cell and lead to position `stop`. No other cell changes, nor does anything
that belongs to calls. -/
def Simple.Computed (s : Simple) (program : List Words) (lay : Layout) (scope : Option String)
    (start stop : Nat) : Prop :=
  ∀ (c : Circuit) (m : Cpu) (cell v : Int), m.pc = (4 * start : Nat) →
    s.written? c lay scope m.ram = some (cell, v) →
    ∃ m', c.run program s.size m = some m' ∧ m'.pc = (4 * stop : Nat) ∧
      m'.ram = Function.update m.ram cell v ∧ m'.returns = m.returns ∧
      m'.jumpBackAddress = m.jumpBackAddress ∧ m'.depth = m.depth

/-- The instructions from position `start` on lead to position `body` if the condition tests true,
and with the jump behind the condition to position `stop` otherwise. They change nothing that
lasts. -/
def Condition.Decided (condition : Condition) (program : List Words) (lay : Layout)
    (scope : Option String) (start body stop : Nat) : Prop :=
  ∀ (c : Circuit) (m : Cpu), m.pc = (4 * start : Nat) →
    ∃ m', c.run program
        (condition.size + if condition.tested c lay scope m.ram then 0 else 1) m = some m' ∧
      m'.pc = (4 * if condition.tested c lay scope m.ram then body else stop : Nat) ∧
      Spares m m'

theorem PartAt.computed {s : Simple} {rest : Forest}
    (h : PartAt F program scope base (.simple s rest)) :
    s.Computed program F.layout scope base (base + s.size) := by
  intro c m cell v hpc hw
  rw [← addressOf_eq] at hpc ⊢
  exact c.run_written (placed_simple.mp h.placed).1 hpc hw

theorem PartAt.decided {kind : BranchKind} {condition : Condition} {body rest : Forest}
    (h : PartAt F program scope base (.block (.branch kind condition) body rest)) :
    condition.Decided program F.layout scope base (base + (Opening.branch kind condition).size)
      (base + (Opening.branch kind condition).size + body.size +
        (Construct.branch kind).tailSize) := by
  intro c m hpc
  rw [← addressOf_eq] at hpc
  obtain ⟨m', hrun, hspare, hpc'⟩ := c.run_test (placed_block.mp h.placed).1 hpc
  rw [← apply_ite (fun n : Nat => addressOf n), addressOf_eq] at hpc'
  exact ⟨m', hrun, hpc', hspare⟩

/-! ## Every line of a text -/

/-- **Every operation computes what it says, and every condition leads where it says.** Let a fresh
session assemble a text. Take any line of it, with the lines before and behind it. If the line is an
operation, its instructions, run on any circuit from any contents of the processor, lead to right
behind them and put the result of the operation on its left and right value, in this order, into the
cell of the destination; no other cell changes, nor does anything that belongs to calls. If the line
starts a branch, its instructions lead to the first instruction of the body if the condition tests
true, and otherwise to right behind the line that closes the branch; no cell changes, nor does
anything that belongs to calls. -/
theorem operations_of_assembles {text source : String} {options : Options} {done : Session}
    (h : Assembles text options source done) :
    ∃ (F : Forest) (program : List Words), Says text F.clauses ∧ done.Finished program ∧
      ∀ before line behind, F.clauses = before ++ line :: behind →
        (∀ statement : Simple, line = .simple statement →
          statement.Computed program F.layout (scopeBehind none before)
            (linesSize before) (linesSize (before ++ [line]))) ∧
        ∀ kind condition, line = .opening (.branch kind condition) →
          ∃ (body : Forest) (rest : List Clause),
            behind = body.clauses ++ .closing (.branch kind) :: rest ∧
            condition.Decided program F.layout (scopeBehind none before) (linesSize before)
              (linesSize (before ++ [line]))
              (linesSize (before ++ line :: (body.clauses ++ [.closing (.branch kind)]))) := by
  obtain ⟨F, program, hsaid, hnests, -, hfinished, hl⟩ := loaded_of_assembles h
  refine ⟨F, program, hsaid, hfinished, fun before line behind hlines => ⟨?_, ?_⟩⟩
  · rintro statement rfl
    obtain ⟨H, tail, hH, hclauses, hp⟩ :=
      hl.partAt.at_line hnests (fun _ => rfl) (by simp) hlines
    cases H with
    | done => exact absurd rfl hH
    | block o body rest => cases hclauses
    | simple s rest =>
      cases hclauses
      have hcomputed := hp.computed
      rw [Nat.zero_add] at hcomputed
      rwa [linesSize_append]
  · rintro kind condition rfl
    obtain ⟨H, tail, hH, hclauses, hp⟩ :=
      hl.partAt.at_line hnests (fun _ => rfl) (by simp) hlines
    cases H with
    | done => exact absurd rfl hH
    | simple s rest => cases hclauses
    | block o body rest =>
      cases hclauses
      have hdecided := hp.decided
      rw [Nat.zero_add] at hdecided
      refine ⟨body, rest.clauses ++ tail, by simp [Opening.construct], ?_⟩
      rw [linesSize_append, linesSize_append]
      rw [body.size_eq_linesSize] at hdecided
      simpa [linesSize, linesSize_append, Clause.size, Nat.add_assoc] using hdecided

/-- A difference that replaces its left operand, a comparison that replaces the right operand by its
outcome, and a loop that counts up. -/
def differenceText : String :=
  "set $x 3 # the minuend\nSET *1 4\n\nsub $x *1 $x\nGREQ 0 $x *1 # one\n" ++
    "while SM $x *1\nAdd $x 1 $x\nENDWHILE"

/-- The lines of the text, taken apart. -/
def differenceForest : Forest :=
  .simple (.assign "$x" "3") <|
  .simple (.assign "*1" "4") <|
  .simple (.combine .sub "$x" "*1" "$x") <|
  .simple (.compare .greq "0" "$x" "*1") <|
  .block (.branch .loop (.compare .sm "$x" "*1"))
    (.simple (.combine .add "$x" "1" "$x") .done) .done

theorem says_differenceForest : Says differenceText differenceForest.clauses := by
  have hlines : Source.statements differenceText =
      [⟨1, "set", ["$x", "3"]⟩, ⟨2, "SET", ["*1", "4"]⟩, ⟨4, "sub", ["$x", "*1", "$x"]⟩,
       ⟨5, "GREQ", ["0", "$x", "*1"]⟩, ⟨6, "while", ["SM", "$x", "*1"]⟩,
       ⟨7, "Add", ["$x", "1", "$x"]⟩, ⟨8, "ENDWHILE", []⟩] := by
    decide +kernel
  rw [says_iff, hlines]
  refine .cons (.set ?_) <| .cons (.set ?_) <| .cons (.arithmetic ?_) <| .cons (.comparison ?_) <|
    .cons (.branch ?_ (.compare ?_)) <| .cons (.arithmetic ?_) <| .cons (.endBranch ?_) .nil
  all_goals decide +kernel

/-- The words of the text's program. -/
def differenceProgram : List Words :=
  [⟨134, 0, 0, 3⟩, ⟨134, 3, 0, 0⟩, ⟨134, 1, 0, 3⟩, ⟨134, 4, 0, 0⟩, ⟨134, 0, 0, 3⟩, ⟨6, 0, 0, 5⟩,
   ⟨134, 1, 0, 3⟩, ⟨6, 0, 0, 6⟩, ⟨134, 0, 0, 3⟩, ⟨1, 5, 6, 0⟩, ⟨134, 0, 0, 3⟩, ⟨6, 0, 0, 5⟩,
   ⟨134, 1, 0, 3⟩, ⟨149, 0, 5, 0⟩, ⟨134, 0, 0, 3⟩, ⟨6, 0, 0, 5⟩, ⟨134, 1, 0, 3⟩, ⟨6, 0, 0, 6⟩,
   ⟨26, 5, 6, 80⟩, ⟨134, 100, 0, 2⟩, ⟨134, 0, 0, 3⟩, ⟨6, 0, 0, 5⟩, ⟨134, 0, 0, 3⟩, ⟨64, 5, 1, 0⟩,
   ⟨134, 56, 0, 2⟩]

theorem eq_differenceProgram {source : String} {options : Options} {done : Session}
    {program : List Words} (h : Assembles differenceText options source done)
    (hwords : done.Finished program) : program = differenceProgram := by
  have hcode : (differenceForest.code : List (Instruction Target)).filterMap (·.words?) =
      differenceProgram := by
    decide +kernel
  rw [eq_words_of_assembles h says_differenceForest hwords, hcode]

/-- The variable of the text has cell 0, before the cell that is written as such. -/
theorem value_differenceForest :
    differenceForest.layout.value none "$x" = .cell 0 ∧
      differenceForest.layout.value none "*1" = .cell 1 ∧
      differenceForest.layout.value none "0" = .literal 0 := by
  decide +kernel

/-- The difference of three and four is taken in the order in which it is written; zero is at least
that, so the comparison gives one; and the loop is entered exactly if the first cell has less than
the second. -/
theorem operations_of_differenceText :
    ∃ done, Assembles differenceText {} "main" done ∧ done.Finished differenceProgram ∧
      (∀ m : Cpu, m.pc = 16 → m.ram 0 = 3 → m.ram 1 = 4 →
        ∃ m', Chip.integers.run differenceProgram 6 m = some m' ∧ m'.pc = 40 ∧
          m'.ram = Function.update m.ram 0 (-1) ∧ m'.returns = m.returns) ∧
      (∀ m : Cpu, m.pc = 40 → m.ram 0 = -1 →
        ∃ m', Chip.integers.run differenceProgram 4 m = some m' ∧ m'.pc = 56 ∧
          m'.ram = Function.update m.ram 1 1 ∧ m'.returns = m.returns) ∧
      (∀ m : Cpu, m.pc = 56 → m.ram 0 < m.ram 1 →
        ∃ m', Chip.integers.run differenceProgram 5 m = some m' ∧ m'.pc = 80 ∧
          m'.ram = m.ram) ∧
      ∀ m : Cpu, m.pc = 56 → m.ram 1 ≤ m.ram 0 →
        ∃ m', Chip.integers.run differenceProgram 6 m = some m' ∧ m'.pc = 100 ∧
          m'.ram = m.ram := by
  have hex : ∃ done, Assembles differenceText {} "main" done :=
    exists_assembles_iff.mpr ⟨by decide, by decide +kernel⟩
  obtain ⟨done, h⟩ := hex
  obtain ⟨F, program, hsaid, hfinished, hline⟩ := operations_of_assembles h
  obtain rfl := Forest.clauses_injective (hsaid.unique says_differenceForest)
  obtain rfl := eq_differenceProgram h hfinished
  obtain ⟨hx, hy, hzero⟩ := value_differenceForest
  have hloop : ∀ m : Cpu, m.pc = 56 →
      ∃ m', Chip.integers.run differenceProgram (5 + if m.ram 0 < m.ram 1 then 0 else 1) m =
          some m' ∧
        m'.pc = (4 * if m.ram 0 < m.ram 1 then 20 else 25 : Nat) ∧ Spares m m' := by
    intro m hpc
    obtain ⟨body, rest, hbehind, hdecided⟩ :=
      (hline (differenceForest.clauses.take 4) _ _ rfl).2 _ _ rfl
    -- the lines behind the first line of the loop leave no choice for its body
    obtain ⟨rfl, -⟩ := @Forest.clauses_append_inj (.simple (.combine .add "$x" "1" "$x") .done) body
      [.closing (.branch .loop)] (.closing (.branch .loop) :: rest) trivial trivial hbehind
    have hscope : scopeBehind none (differenceForest.clauses.take 4) = none := rfl
    have hsize : (Condition.compare .sm "$x" "*1").size = 5 := by decide +kernel
    have htested : (Condition.compare .sm "$x" "*1").tested Chip.integers.toCircuit
        differenceForest.layout none m.ram = decide (m.ram 0 < m.ram 1) := by
      simp only [Condition.tested, Layout.eval, hx, hy]
      rfl
    rw [hscope] at hdecided
    obtain ⟨m', hrun, hpc', hspare⟩ :=
      hdecided Chip.integers.toCircuit m (hpc.trans (by decide +kernel))
    simp only [hsize, htested, decide_eq_true_eq] at hrun hpc'
    refine ⟨m', hrun, hpc'.trans ?_, hspare⟩
    split <;> decide +kernel
  refine ⟨done, h, hfinished, ?_, ?_, ?_, ?_⟩
  · intro m hpc h₀ h₁
    have hw : (Simple.combine .sub "$x" "*1" "$x").written? Chip.integers.toCircuit
        differenceForest.layout none m.ram = some (0, 3 - 4) := by
      simp only [Simple.written?, Layout.place, Layout.eval, hx, hy, Value.eval, h₀, h₁]
      rfl
    have hsize : (Simple.combine .sub "$x" "*1" "$x").size = 6 := by decide +kernel
    obtain ⟨m', hrun, hpc', hram, hret, -⟩ :=
      (hline [_, _] _ _ rfl).1 _ rfl Chip.integers.toCircuit m _ _
        (hpc.trans (by decide +kernel)) hw
    exact ⟨m', hsize ▸ hrun, hpc'.trans (by decide +kernel), hram, hret⟩
  · intro m hpc h₀
    have hw : (Simple.compare .greq "0" "$x" "*1").written? Chip.integers.toCircuit
        differenceForest.layout none m.ram = some (1, 1) := by
      simp only [Simple.written?, Layout.place, Layout.eval, hx, hy, hzero, Value.eval, h₀]
      rfl
    have hsize : (Simple.compare .greq "0" "$x" "*1").size = 4 := by decide +kernel
    obtain ⟨m', hrun, hpc', hram, hret, -⟩ :=
      (hline [_, _, _] _ _ rfl).1 _ rfl Chip.integers.toCircuit m _ _
        (hpc.trans (by decide +kernel)) hw
    exact ⟨m', hsize ▸ hrun, hpc'.trans (by decide +kernel), hram, hret⟩
  · intro m hpc hless
    obtain ⟨m', hrun, hpc', hspare⟩ := hloop m hpc
    rw [if_pos hless] at hrun hpc'
    exact ⟨m', hrun, hpc', hspare.ram⟩
  · intro m hpc hle
    obtain ⟨m', hrun, hpc', hspare⟩ := hloop m hpc
    rw [if_neg (not_lt.mpr hle)] at hrun hpc'
    exact ⟨m', hrun, hpc', hspare.ram⟩

end TapeMachine

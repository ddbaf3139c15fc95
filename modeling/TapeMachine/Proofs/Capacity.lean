import TapeMachine.Proofs.Lockstep

/-!
# How many cells there are

The number of cells matters only where a new variable needs one and none is free. Two runs of a
text, the second with more cells, go through states that differ in the size of the pool and in
nothing else (`Assembler.widen`), until the first has run out of cells.

* `agree_claim_widen`: the only place where the size of the pool is looked at.
* `alongside_exec_widen`, `alongside_run_widen`: lines do the same with more cells, unless the cells
  run out.
* `compile_of_memorySize_le`: more cells change nothing but whether they run out.
-/

namespace TapeMachine

/-! ## More cells -/

/-- The pool with more cells, all of them free. -/
def CellPool.widen (p : CellPool) (n : Nat) : CellPool where
  size := p.size + n
  occupied := p.occupied
  length_le := Nat.le_add_right_of_le p.length_le
  packed := p.packed

/-- The same variables, and more cells. -/
def Storage.widen (st : Storage) (n : Nat) : Storage := { st with pool := st.pool.widen n }

/-- The same state, and more cells. -/
def Assembler.widen (s : Assembler) (n : Nat) : Assembler :=
  { s with storage := s.storage.widen n }

/-- The failure is that no cell is free. -/
def Failure.IsOutOfMemory : Failure → Prop
  | .diagnostic d => d.fault.kind = .outOfMemory
  | .misuse _ => False

/-- A run with more cells fails with the same words, and leaves the same but for its cells; if the
cells run out nothing is said of it. -/
def Tolerance.cells (n : Nat) : Tolerance where
  alike failure failure' := failure' = failure
  excuses := Failure.IsOutOfMemory
  leaves s s' := s' = s.widen n
  alike_refl _ := rfl
  alike_locate := by
    rintro failure _ line source rfl
    rfl
  excuses_locate := by
    intro failure line source h
    cases failure with
    | diagnostic d => exact h
    | misuse m => exact h

variable {s e : Assembler} {n : Nat} {source : String}

/-! ## Operands and simple statements -/

theorem agree_allocate_widen (p : CellPool) :
    Agree (.cells n) (fun r r' => r' = (r.1, r.2.widen n)) p.allocate (p.widen n).allocate := by
  cases ha : p.allocate with
  | error f =>
    obtain ⟨-, rfl⟩ := CellPool.allocate_eq_error_iff.mp ha
    exact .excused rfl _
  | ok r =>
    obtain ⟨hlt, hcell, hsize, hoccupied⟩ := CellPool.allocate_eq_ok_iff.mp ha
    have hwide : (p.widen n).allocate = .ok (r.1, r.2.widen n) :=
      CellPool.allocate_eq_ok_iff.mpr
        ⟨Nat.lt_add_right n hlt, hcell, congrArg (· + n) hsize, hoccupied⟩
    rw [hwide]
    exact .ok rfl

theorem agree_claim_widen (st : Storage) (token : String) :
    Agree (.cells n) (fun p p' => p' = (p.1, p.2.widen n)) (st.claim token)
      ((st.widen n).claim token) := by
  refine (Agree.refl (Operand.parse token)).bind ?_
  rintro operand _ rfl
  cases operand with
  | immediate value => exact .error rfl
  | direct address => exact .ok rfl
  | var name =>
    have hcell : (st.widen n).scopes.cell? name = st.scopes.cell? name := rfl
    simp only [Storage.place, hcell]
    cases st.scopes.cell? name with
    | some cell => exact .ok rfl
    | none =>
      refine (agree_allocate_widen st.pool).bind ?_
      rintro r _ rfl
      exact .ok rfl

theorem agree_assemble_widen (s : Assembler) (c : Simple) :
    Agree (.cells n) (fun p p' => p' = (p.1.widen n, p.2)) (c.assemble s)
      (c.assemble (s.widen n)) := by
  cases c with
  | assign destination src =>
    refine (Agree.refl (s.storage.read src)).bind ?_
    rintro v _ rfl
    refine (agree_claim_widen s.storage destination).bind ?_
    rintro p _ rfl
    exact .ok rfl
  | combine op left right destination =>
    refine (Agree.refl (s.storage.read left)).bind ?_
    rintro l _ rfl
    refine (Agree.refl (s.storage.read right)).bind ?_
    rintro r _ rfl
    refine (Agree.refl (s.storage.write destination)).bind ?_
    rintro cell _ rfl
    exact .ok rfl
  | compare c left right destination =>
    refine (Agree.refl (s.storage.read left)).bind ?_
    rintro l _ rfl
    refine (Agree.refl (s.storage.read right)).bind ?_
    rintro r _ rfl
    refine (Agree.refl (s.storage.write destination)).bind ?_
    rintro cell _ rfl
    exact .ok rfl
  | constant c destination =>
    refine (Agree.refl (s.storage.write destination)).bind ?_
    rintro cell _ rfl
    exact .ok rfl
  | call name =>
    refine (Agree.refl (s.definitions.resolve name)).bind ?_
    rintro d _ rfl
    exact .ok rfl

/-! ## Lines -/

namespace Assembler

theorem branches_widen (s : Assembler) (n : Nat) (kind : BranchKind) :
    (s.widen n).branches kind = s.branches kind := by
  cases kind <;> rfl

theorem notBranched_widen (s : Assembler) (n : Nat) (kind : BranchKind) :
    (s.widen n).notBranched kind = (s.notBranched kind).widen n := by
  rw [notBranched, notBranched, branches_widen]
  split
  · rfl
  · cases kind <;> rfl

theorem mayBranch_widen (s : Assembler) (n : Nat) (kind : BranchKind) (words : List String) :
    (s.widen n).mayBranch kind words = s.mayBranch kind words := by
  cases kind <;> rfl

end Assembler

theorem alongside_simple_widen (s : Assembler) (line : Nat) (c : Simple) :
    Alongside (.cells n) (fun e e' => e' = e.widen n) (c.statement.exec line s)
      (c.statement.exec line (s.widen n)) := by
  refine .simple (agree_assemble_widen s c) rfl ?_
  rintro p _ rfl
  rfl

/-- **A statement with more cells.** -/
theorem alongside_exec_widen (hs : Healthy s) (hs' : Healthy (s.widen n)) (line : Nat)
    (st : Statement) :
    Alongside (.cells n) (fun e e' => e' = e.widen n) (st.exec line s)
      (st.exec line (s.widen n)) := by
  cases st with
  | assign d src => exact alongside_simple_widen s line (.assign d src)
  | combine op x y d => exact alongside_simple_widen s line (.combine op x y d)
  | compare c x y d => exact alongside_simple_widen s line (.compare c x y d)
  | constant c d => exact alongside_simple_widen s line (.constant c d)
  | call name => exact alongside_simple_widen s line (.call name)
  | define name => exact .define hs hs' (.of_eq rfl) rfl fun _ _ => rfl
  | endDefine =>
    refine .endDefine hs hs' (.of_eq rfl) rfl ?_
    rintro - d _ rfl
    rfl
  | branch kind words =>
    refine .branch hs hs' (.of_eq (s.mayBranch_widen n kind words)) (s.notBranched_widen n kind) ?_
    rintro test _ rfl
    cases kind <;> rfl
  | endBranch kind =>
    refine .endBranch hs hs' (.of_eq ?_) rfl fun number b => ?_
    · rw [s.branches_widen]
      rfl
    · cases kind <;> rfl

/-- **A run with more cells.** -/
theorem alongside_run_widen (hs : Healthy s) (hs' : Healthy (s.widen n)) (source : String)
    (lines : List SourceLine) :
    Alongside (.cells n) (fun e e' => e' = e.widen n) (Assembler.run source lines s)
      (Assembler.run source lines (s.widen n)) := by
  let R : List SourceLine → List SourceLine → Assembler → Assembler → Prop :=
    fun lines lines' s s' => lines' = lines ∧ s' = s.widen n
  have hcons : ∀ line lines more s s', R (line :: lines) more s s' → Healthy s → Healthy s' →
      ∃ line' lines', more = line' :: lines' ∧ line'.number = line.number ∧
        Alongside (.cells n) (R lines lines') (Assembler.process line s)
          (Assembler.process line' s') := by
    rintro line lines _ s _ ⟨rfl, rfl⟩ hs hs'
    refine ⟨line, lines, rfl, rfl, .process (.refl _) rfl ?_⟩
    rintro st _ rfl -
    exact (alongside_exec_widen hs hs' line.number st).mono fun _ _ he => ⟨rfl, he⟩
  have hrun := Alongside.run (fun _ _ _ h => h.1) hcons source lines lines ⟨rfl, rfl⟩ hs hs'
  exact hrun.mono fun _ _ he => he.2

/-! ## Texts -/

section Fresh

variable {text : String} {options : Options}

theorem resolve_widen (e : Assembler) (n : Nat) :
    Session.resolve (e.widen n) =
      match Session.resolve e with
      | .ok instructions e' => .ok instructions (e'.widen n)
      | .error failure e' => .error failure (e'.widen n) := by
  have hlabel : (e.widen n).label = e.label := rfl
  have htape : (e.widen n).tape = e.tape := rfl
  simp only [Session.resolve, hlabel, htape]
  cases Tape.resolve e.label e.tape <;> rfl

/-- The free cells do not show in the listing, nor in the log. -/
theorem shown_finish_widen {options' : Options} (hstyle : options'.toStyle = options.toStyle) :
    Session.shown
        (Session.finish { text, options := options', source, assembler := e.widen n }) =
      Session.shown (Session.finish { text, options, source, assembler := e }) := by
  simp only [shown_finish, resolve_widen, hstyle]
  cases Session.resolve e with
  | error failure e' => rfl
  | ok instructions e' =>
    have hlabel : (e'.widen n).label = e'.label := rfl
    simp only [hlabel]
    cases listing e'.label options.toStyle 0 instructions <;> rfl

/-- Lines with `m` cells and with more. -/
theorem alongside_of_memorySize_le (options : Options) {m m' : Int} (hle : m ≤ m')
    (source : String) (lines : List SourceLine) :
    ∃ n, Alongside (.cells n) (fun e e' => e' = e.widen n)
      (Assembler.run source lines ({ options with memorySize := m } : Options).start)
      (Assembler.run source lines ({ options with memorySize := m' } : Options).start) := by
  obtain ⟨n, hn⟩ := Nat.exists_eq_add_of_le (Int.toNat_le_toNat hle)
  have hstart : ({ options with memorySize := m' } : Options).start =
      ({ options with memorySize := m } : Options).start.widen n := by
    simp only [Options.start, hn]
    rfl
  have hs' := Healthy.start { options with memorySize := m' }
  rw [hstart] at hs' ⊢
  exact ⟨n, alongside_run_widen (.start _) hs' source lines⟩

/-- More cells change nothing, if the text does not run out of them. -/
theorem compile_of_not_isOutOfMemory {m m' : Int} (hm : 0 < m) (hle : m ≤ m')
    (h : ∀ failure, (compile text { options with memorySize := m } source).1 = .error failure →
      ¬ failure.IsOutOfMemory) :
    compile text { options with memorySize := m' } source =
      compile text { options with memorySize := m } source := by
  have hm' : 0 < m' := Int.lt_of_lt_of_le hm hle
  obtain ⟨n, hrun⟩ := alongside_of_memorySize_le options hle source (Source.statements text)
  rw [compile_of_run text source { options with memorySize := m } hm] at h ⊢
  rw [compile_of_run text source { options with memorySize := m' } hm']
  generalize Assembler.run source (Source.statements text)
    ({ options with memorySize := m } : Options).start = x at hrun h ⊢
  generalize Assembler.run source (Source.statements text)
    ({ options with memorySize := m' } : Options).start = x' at hrun ⊢
  cases hrun with
  | excused hf => exact absurd hf (h _ rfl)
  | error hsame hleft =>
    cases hsame
    cases hleft
    rfl
  | @ok e _ hwide =>
    subst hwide
    have hblocks : (e.widen n).blocks = e.blocks := rfl
    simp only [hblocks]
    cases e.blocks with
    | cons b blocks => rfl
    | nil => exact shown_finish_widen rfl

/-- With more cells no line fails before the one that needs a cell in vain. -/
theorem le_line_of_isOutOfMemory {m m' : Int} (hm : 0 < m) (hle : m ≤ m') {failure : Failure}
    (h : (compile text { options with memorySize := m } source).1 = .error failure)
    (hf : failure.IsOutOfMemory) :
    ∃ d, ∃ n : Nat, failure = .diagnostic d ∧ d.line = some (n : Int) ∧
      ∀ failure', (compile text { options with memorySize := m' } source).1 = .error failure' →
        ¬ failure'.IsUnclosed →
        ∃ d', ∃ k : Nat, failure' = .diagnostic d' ∧ d'.line = some (k : Int) ∧ n ≤ k := by
  have hm' : 0 < m' := Int.lt_of_lt_of_le hm hle
  have hclosed : ¬ failure.IsUnclosed := by
    cases failure with
    | misuse m => exact id
    | diagnostic d =>
      have hd : d.fault.kind = .outOfMemory := hf
      simp [Failure.IsUnclosed, hd]
  obtain ⟨e, hrun⟩ := run_of_compile_eq_error hm h hclosed
  obtain ⟨before, line, behind, s, f, hlines, hbefore, hp, rfl⟩ := run_eq_error hrun
  obtain ⟨k, -, hnumber, -, hbehind⟩ := exists_standsOn hlines
  have h₀ : Coherent (fun _ => False) ({ options with memorySize := m } : Options).start :=
    Coherent.ofSize _
  obtain ⟨cs, -, -, hsteps⟩ := steps_of_run h₀ hbefore
  obtain ⟨f, rfl, -⟩ := exists_fault_of_process (hsteps.coherent h₀) hp
  refine ⟨_, line.number, rfl, rfl, fun failure' h' hf' => ?_⟩
  obtain ⟨e', hrun'⟩ := run_of_compile_eq_error hm' h' hf'
  -- the lines before it are carried out with more cells too
  obtain ⟨n, halongside⟩ := alongside_of_memorySize_le options hle source before
  rw [hbefore] at halongside
  generalize hbefore' : Assembler.run source before
    ({ options with memorySize := m' } : Options).start = x' at halongside
  cases halongside with
  | ok _ =>
    rw [hlines, run_append, hbefore'] at hrun'
    have hnumbers : ∀ later ∈ line :: behind, k < later.number := by
      intro later hlater
      rcases List.mem_cons.mp hlater with rfl | hlater
      · omega
      · rw [hbehind] at hlater
        have hle := le_number_of_mem hlater
        omega
    obtain ⟨d', k', hd', hline', hk'⟩ := exists_line_of_run hbefore' hrun' hnumbers
    exact ⟨d', k', hd', hline', by omega⟩

end Fresh

/-- **The number of cells decides only whether they run out.** A text that does not run out of `m`
cells gives the same with more, listing or failure, and the same log. If it does, the line that
needs the cell is the first that can fail with more cells, but for a block that is never closed. -/
theorem compile_of_memorySize_le (text source : String) (options : Options) (m m' : Int)
    (hm : 0 < m) (hle : m ≤ m') :
    ((∀ failure, (compile text { options with memorySize := m } source).1 = .error failure →
        ¬ failure.IsOutOfMemory) →
      compile text { options with memorySize := m' } source =
        compile text { options with memorySize := m } source) ∧
      ∀ d, (compile text { options with memorySize := m } source).1 = .error (.diagnostic d) →
        d.fault.kind = .outOfMemory →
        ∃ n : Nat, d.line = some (n : Int) ∧
          ∀ failure, (compile text { options with memorySize := m' } source).1 = .error failure →
            failure.IsUnclosed ∨
              ∃ d', ∃ k : Nat, failure = .diagnostic d' ∧ d'.line = some (k : Int) ∧ n ≤ k := by
  refine ⟨compile_of_not_isOutOfMemory hm hle, fun d hd hkind => ?_⟩
  obtain ⟨d, n, hd, hline, hlater⟩ := le_line_of_isOutOfMemory hm hle hd hkind
  cases hd
  refine ⟨n, hline, fun failure hfailure => ?_⟩
  by_cases hunclosed : failure.IsUnclosed
  · exact .inl hunclosed
  · exact .inr (hlater failure hfailure hunclosed)

/-- Two variables, and the end of a block that is not there. -/
def crampedText : String := "VAR $x 1\nVAR $y 2\nENDIF"

/-- One cell is not enough for the second line. With two cells the third fails, and it fails alike
with any number of cells from two on. -/
theorem compile_of_crampedText :
    (0 < (1 : Int) ∧ (1 : Int) ≤ 2) ∧ (0 < (2 : Int) ∧ (2 : Int) ≤ 255) ∧
      (∃ d, (compile crampedText { memorySize := 1 } "main").1 = .error (.diagnostic d) ∧
        d.fault.kind = .outOfMemory ∧ d.line = some 2 ∧
        ∀ failure, (compile crampedText { memorySize := 2 } "main").1 = .error failure →
          failure.IsUnclosed ∨
            ∃ d', ∃ k : Nat, failure = .diagnostic d' ∧ d'.line = some (k : Int) ∧ 2 ≤ k) ∧
      (∃ failure, (compile crampedText { memorySize := 2 } "main").1 = .error failure ∧
        ¬ failure.IsOutOfMemory) ∧
      compile crampedText { memorySize := 255 } "main" =
        compile crampedText { memorySize := 2 } "main" := by
  have hone : (compile crampedText { memorySize := 1 } "main").1 =
      .error (.diagnostic ⟨.poolExhausted 1, some 2, some "main"⟩) :=
    compile_of_failureOf (by decide) (by decide +kernel)
  have htwo : (compile crampedText { memorySize := 2 } "main").1 =
      .error (.diagnostic ⟨.nothingToClose "ENDIF" "IF", some 3, some "main"⟩) :=
    compile_of_failureOf (by decide) (by decide +kernel)
  have hroom : ¬ (Failure.diagnostic
      ⟨.nothingToClose "ENDIF" "IF", some 3, some "main"⟩).IsOutOfMemory := by
    simp [Failure.IsOutOfMemory, Fault.kind]
  obtain ⟨n, hn, hlater⟩ :=
    (compile_of_memorySize_le crampedText "main" {} 1 2 (by decide) (by decide)).2 _ hone rfl
  obtain rfl : n = 2 := by
    rw [Option.some.injEq] at hn
    omega
  refine ⟨by decide, by decide, ⟨_, hone, rfl, rfl, hlater⟩, ⟨_, htwo, hroom⟩, ?_⟩
  refine (compile_of_memorySize_le crampedText "main" {} 2 255 (by decide) (by decide)).1 ?_
  intro failure hfailure
  rw [htwo] at hfailure
  cases hfailure
  exact hroom

end TapeMachine

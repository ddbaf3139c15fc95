import TapeMachine.Assembler.State
import TapeMachine.Proofs.Lexis

/-!
# Clauses

A clause is a statement with the condition of a branch taken apart: something done at once
(`Simple`), the start of a block (`Opening`) or the end of one. `Reads` is the grammar of a single
line: which words make up which clause, by keyword and number of operands alone. Whether the
operands mean anything is not decided here.

`reads_iff` says that this grammar is what `Statement.parse` and `Condition.parse` accept, but for
the names of definitions, which `Statement.parse` wants to be identifiers.
-/

namespace TapeMachine

/-- A statement that is neither the start nor the end of a block. -/
inductive Simple where
  | assign (destination source : String)
  | combine (op : Arithmetic) (left right destination : String)
  | compare (c : Comparison) (left right destination : String)
  | constant (c : Constant) (destination : String)
  | call (name : String)
deriving DecidableEq, Repr

/-- The start of a block. -/
inductive Opening where
  | define (name : String)
  | branch (kind : BranchKind) (condition : Condition)
deriving DecidableEq, Repr

/-- The block that is started. -/
def Opening.construct : Opening → Construct
  | define _ => .definition
  | branch kind _ => .branch kind

/-- What a line says. -/
inductive Clause where
  | simple (s : Simple)
  | opening (o : Opening)
  | closing (c : Construct)
deriving DecidableEq, Repr

/-- The operands of a condition. -/
def Condition.operands : Condition → List String
  | compare _ left right => [left, right]
  | constant _ => []

/-- The operands of a line. -/
def Clause.operands : Clause → List String
  | simple (.assign destination source) => [destination, source]
  | simple (.combine _ left right destination) => [left, right, destination]
  | simple (.compare _ left right destination) => [left, right, destination]
  | simple (.constant _ destination) => [destination]
  | simple (.call _) => []
  | opening (.define _) => []
  | opening (.branch _ condition) => condition.operands
  | closing _ => []

/-- The words of a condition: a comparison and two operands, or a constant alone. -/
inductive ReadsCondition : List String → Condition → Prop
  | compare {word left right : String} {c : Comparison}
      (h : Keyword.Spelled (.comparison c) word) :
      ReadsCondition [word, left, right] (.compare c left right)
  | constant {word : String} {c : Constant} (h : Keyword.Spelled (.constant c) word) :
      ReadsCondition [word] (.constant c)

/-- The words of a clause: a keyword, in capitals or not, and as many operands as it takes. -/
inductive Reads : String → List String → Clause → Prop
  | set {word destination source : String} (h : Keyword.Spelled .set word) :
      Reads word [destination, source] (.simple (.assign destination source))
  | var {word destination source : String} (h : Keyword.Spelled .var word) :
      Reads word [destination, source] (.simple (.assign destination source))
  | arithmetic {word left right destination : String} {op : Arithmetic}
      (h : Keyword.Spelled (.arithmetic op) word) :
      Reads word [left, right, destination] (.simple (.combine op left right destination))
  | comparison {word left right destination : String} {c : Comparison}
      (h : Keyword.Spelled (.comparison c) word) :
      Reads word [left, right, destination] (.simple (.compare c left right destination))
  | constant {word destination : String} {c : Constant}
      (h : Keyword.Spelled (.constant c) word) :
      Reads word [destination] (.simple (.constant c destination))
  | call {word name : String} (h : Keyword.Spelled .call word) :
      Reads word [name] (.simple (.call name))
  | define {word name : String} (h : Keyword.Spelled .define word) :
      Reads word [name] (.opening (.define name))
  | endDefine {word : String} (h : Keyword.Spelled .endDefine word) :
      Reads word [] (.closing .definition)
  | branch {word : String} {words : List String} {kind : BranchKind} {condition : Condition}
      (h : Keyword.Spelled (.branch kind) word) (hc : ReadsCondition words condition) :
      Reads word words (.opening (.branch kind condition))
  | endBranch {word : String} {kind : BranchKind}
      (h : Keyword.Spelled (.endBranch kind) word) :
      Reads word [] (.closing (.branch kind))

/-- The clauses of the lines of a program, line by line. -/
def ReadsLines (lines : List SourceLine) (clauses : List Clause) : Prop :=
  List.Forall₂ (fun line clause => Reads line.head line.args clause) lines clauses

/-- The text says these clauses, one on each line that has words. -/
def Says (text : String) (clauses : List Clause) : Prop :=
  ∃ lines, Source.Holds text lines ∧ ReadsLines lines clauses

theorem says_iff {text : String} {clauses : List Clause} :
    Says text clauses ↔ ReadsLines (Source.statements text) clauses := by
  constructor
  · rintro ⟨lines, hholds, hreads⟩
    rwa [Source.holds_iff.mp hholds]
  · exact fun h => ⟨_, Source.holds_iff.mpr rfl, h⟩

/-- A definition has an identifier for its name. -/
def Clause.Named (c : Clause) : Prop :=
  ∀ name, c = .opening (.define name) → IsName name.toList

/-- The clause that a statement is, if it is no branch with a faulty condition. -/
def Clause.ofStatement? : Statement → Option Clause
  | .assign destination source => some (.simple (.assign destination source))
  | .combine op left right destination => some (.simple (.combine op left right destination))
  | .compare c left right destination => some (.simple (.compare c left right destination))
  | .constant c destination => some (.simple (.constant c destination))
  | .call name => some (.simple (.call name))
  | .define name => some (.opening (.define name))
  | .endDefine => some (.closing .definition)
  | .branch kind words =>
    match Condition.parse kind words with
    | .ok condition => some (.opening (.branch kind condition))
    | .error _ => none
  | .endBranch kind => some (.closing (.branch kind))

/-! ## The grammar of a line is what is accepted -/

theorem readsCondition_iff {kind : BranchKind} {words : List String} {condition : Condition} :
    ReadsCondition words condition ↔ Condition.parse kind words = .ok condition := by
  constructor
  · rintro (h | h) <;> simp [Condition.parse, Keyword.ofWord?_eq_some_iff.mpr h]
  · intro h
    unfold Condition.parse at h
    split at h
    · cases h
    · split at h
      · cases h
      · split at h <;> cases h
        · exact .compare (Keyword.ofWord?_eq_some_iff.mp ‹_›)
        · exact .constant (Keyword.ofWord?_eq_some_iff.mp ‹_›)

theorem parse_of_reads {word : String} {words : List String} {clause : Clause}
    (h : Reads word words clause) (hn : clause.Named) :
    ∃ st, Statement.parse word words = .ok st ∧ Clause.ofStatement? st = some clause := by
  cases h with
  | branch h hc =>
    refine ⟨_, by simp [Statement.parse, Keyword.ofWord?_eq_some_iff.mpr h]; rfl, ?_⟩
    simp [Clause.ofStatement?, readsCondition_iff.mp hc]
  | define h =>
    have hi := isIdentifier_iff.mpr (hn _ rfl)
    exact ⟨_, by simp [Statement.parse, Keyword.ofWord?_eq_some_iff.mpr h, hi]; rfl, rfl⟩
  | _ h =>
    exact ⟨_, by simp [Statement.parse, Keyword.ofWord?_eq_some_iff.mpr h]; rfl, rfl⟩

/-- The converse, one keyword at a time. -/
theorem reads_of_parse {word : String} {words : List String} {st : Statement} {clause : Clause}
    (h : Statement.parse word words = .ok st) (hc : Clause.ofStatement? st = some clause) :
    Reads word words clause ∧ clause.Named := by
  unfold Statement.parse at h
  split at h
  · cases h
  · rename_i keyword hword
    have hk := Keyword.ofWord?_eq_some_iff.mp hword
    split at h
    case h_2 =>
      cases h
      cases hc
      exact ⟨.var hk, fun _ he => by cases he⟩
    case h_6 name =>
      split at h
      · rename_i hi
        cases h
        cases hc
        refine ⟨.define hk, fun _ he => ?_⟩
        cases he
        exact isIdentifier_iff.mp hi
      · cases h
    case h_9 kind words =>
      cases h
      simp only [Clause.ofStatement?] at hc
      split at hc
      · rename_i condition hp
        cases hc
        exact ⟨.branch hk (readsCondition_iff.mpr hp), fun _ he => by cases he⟩
      · cases hc
    case h_11 => cases h
    all_goals
      cases h
      cases hc
      exact ⟨by constructor; exact hk, fun _ he => by cases he⟩

/-- **The grammar of a line is what the assembler reads.** -/
theorem reads_iff {word : String} {words : List String} {clause : Clause} :
    Reads word words clause ∧ clause.Named ↔
      ∃ st, Statement.parse word words = .ok st ∧ Clause.ofStatement? st = some clause :=
  ⟨fun h => parse_of_reads h.1 h.2, fun ⟨_, h, hc⟩ => reads_of_parse h hc⟩

/-! ## A line reads in one way -/

theorem readsCondition_unique {words : List String} {c c' : Condition}
    (h : ReadsCondition words c) (h' : ReadsCondition words c') : c = c' := by
  have hp := (@readsCondition_iff .conditional _ _).mp h
  rw [(@readsCondition_iff .conditional _ _).mp h', Except.ok.injEq] at hp
  exact hp.symm

theorem reads_unique {word : String} {words : List String} {c c' : Clause}
    (h : Reads word words c) (h' : Reads word words c') : c = c' := by
  have hkeyword : ∀ {k k' : Keyword}, k.Spelled word → k'.Spelled word → k = k' := by
    intro k k' hk hk'
    rw [← Keyword.ofWord?_eq_some_iff] at hk hk'
    rwa [hk, Option.some.injEq] at hk'
  cases h with
  | branch hk hc =>
    cases h' with
    | branch hk' hc' =>
      obtain rfl := Keyword.branch.inj (hkeyword hk hk')
      rw [readsCondition_unique hc hc']
    | _ hk' => cases hkeyword hk hk'
  | _ hk =>
    cases h' with
    | branch hk' hc' => cases hkeyword hk hk'
    | _ hk' =>
      have heq := hkeyword hk hk'
      simp_all

theorem readsLines_unique {lines : List SourceLine} {cs cs' : List Clause}
    (h : ReadsLines lines cs) (h' : ReadsLines lines cs') : cs = cs' := by
  induction h generalizing cs' with
  | nil =>
    cases h'
    rfl
  | cons hr _ ih =>
    cases h' with
    | cons hr' h' => rw [reads_unique hr hr', ih h']

theorem Says.unique {text : String} {cs cs' : List Clause} (h : Says text cs)
    (h' : Says text cs') : cs = cs' :=
  readsLines_unique (says_iff.mp h) (says_iff.mp h')

theorem reads_assign_iff {word : String} {words : List String} {destination source : String} :
    Reads word words (.simple (.assign destination source)) ↔
      (Keyword.ofWord? word = some .set ∨ Keyword.ofWord? word = some .var) ∧
        words = [destination, source] := by
  constructor
  · intro h
    cases h with
    | set h => exact ⟨.inl (Keyword.ofWord?_eq_some_iff.mpr h), rfl⟩
    | var h => exact ⟨.inr (Keyword.ofWord?_eq_some_iff.mpr h), rfl⟩
  · rintro ⟨h | h, rfl⟩
    · exact .set (Keyword.ofWord?_eq_some_iff.mp h)
    · exact .var (Keyword.ofWord?_eq_some_iff.mp h)

/-- Every clause is read off a line. -/
theorem ReadsLines.exists_line {lines : List SourceLine} {cs : List Clause} {c : Clause}
    (h : ReadsLines lines cs) (hc : c ∈ cs) : ∃ line ∈ lines, Reads line.head line.args c := by
  induction h with
  | nil => cases hc
  | @cons line c' _ _ hr _ ih =>
    rcases List.mem_cons.mp hc with rfl | hc
    · exact ⟨line, List.mem_cons_self, hr⟩
    · obtain ⟨line', hmem, hr'⟩ := ih hc
      exact ⟨line', List.mem_cons_of_mem _ hmem, hr'⟩

/-- The operands of a line are among its words. -/
theorem Reads.operands_subset {word : String} {words : List String} {c : Clause}
    (h : Reads word words c) : c.operands ⊆ words := by
  cases h with
  | branch _ hc => cases hc <;> simp [Clause.operands, Condition.operands]
  | _ => simp [Clause.operands]

/-- Operands have no blanks in them. -/
theorem Says.not_blank {text : String} {cs : List Clause} (h : Says text cs) :
    ∀ c ∈ cs, ∀ token ∈ c.operands, ∀ x ∈ token.toList, ¬ Text.Blank x := by
  obtain ⟨lines, hholds, hreads⟩ := h
  intro c hc token htoken
  obtain ⟨line, hline, hr⟩ := hreads.exists_line hc
  exact hholds.not_blank line hline token (hr.operands_subset htoken)

end TapeMachine

import TapeMachine.Proofs.Coherence

/-!
# How a line fails

A line can fail in many places: its words, its operands, the way it is nested, the lack of a cell.
For each statement of a block there is an equation for every outcome (`Coherent.exec_define` and so
on). `Refused` lists the failures, each with the state that is left behind, and
`refused_of_process` says that the list is complete in every coherent state.

Two things can be read off the list. A line that fails leaves the state as it was, unless it starts
a branch (`Refused.state`): then the branch is there and open, but has no block. And what fails is
always a fault of the program, unless a branch without a block is to be closed (`Refused.fault`).
-/

namespace TapeMachine

open Step

variable {stuck : BranchKind → Prop} {s e : Assembler} {line : SourceLine} {failure : Failure}

/-! ## The kinds of fault -/

/-- Words that are no statement are malformed. -/
theorem kind_of_parse_error {head : String} {args : List String} {f : Fault}
    (h : Statement.parse head args = .error f) : f.kind = .malformed := by
  unfold Statement.parse at h
  split at h
  · cases h
    rfl
  · split at h
    case h_6 =>
      split at h <;> cases h
      rfl
    all_goals
      cases h
      try rfl

/-- Words that are no condition are malformed, or have a keyword that no condition has. -/
theorem condition_parse_eq_error {kind : BranchKind} {words : List String} {f : Fault}
    (h : Condition.parse kind words = .error f) :
    f.kind = .malformed ∨ ∃ keyword, f = .notACondition keyword kind.form.opener := by
  unfold Condition.parse at h
  split at h
  · cases h
    exact .inl rfl
  · split at h
    · cases h
      exact .inl rfl
    · split at h <;> cases h
      · exact .inl rfl
      · exact .inl rfl
      · exact .inr ⟨_, rfl⟩

theorem bind_eq_error_iff {ε α β : Type} {x : Except ε α} {f : α → Except ε β} {err : ε} :
    (x >>= f) = .error err ↔ x = .error err ∨ ∃ a, x = .ok a ∧ f a = .error err := by
  cases x with
  | error e => simp [error_bind]
  | ok a => simp [ok_bind]

theorem kind_of_number_error {token : String} {digits : List Char} {f : Fault}
    (h : Operand.number token digits = .error f) : f.kind = .address := by
  unfold Operand.number at h
  split at h <;> cases h
  rfl

theorem kind_of_operand_error {token : String} {f : Fault} (h : Operand.parse token = .error f) :
    f.kind = .address := by
  unfold Operand.parse Operand.parseTrimmed at h
  split at h
  · cases h
    rfl
  · split at h <;> cases h
    rfl
  · dsimp only at h
    split at h
    · rcases bind_eq_error_iff.mp h with h | ⟨n, -, h⟩
      · exact kind_of_number_error h
      · split at h <;> cases h
        rfl
    · rcases bind_eq_error_iff.mp h with h | ⟨n, -, h⟩
      · exact kind_of_number_error h
      · split at h <;> cases h
        rfl

theorem kind_of_resolve_error {sc : Scopes} {name : String} {f : Fault}
    (h : sc.resolve name = .error f) : f.kind = .address := by
  unfold Scopes.resolve at h
  split at h <;> cases h
  rfl

theorem kind_of_read_error {st : Storage} {token : String} {f : Fault}
    (h : st.read token = .error f) : f.kind = .address := by
  rw [Storage.read, bind_eq_error_iff] at h
  rcases h with h | ⟨operand, -, h⟩
  · exact kind_of_operand_error h
  · cases operand with
    | immediate n => cases h
    | direct address => cases h
    | var name =>
      rcases bind_eq_error_iff.mp h with h | ⟨cell, -, h⟩
      · exact kind_of_resolve_error h
      · cases h

theorem kind_of_write_error {st : Storage} {token : String} {f : Fault}
    (h : st.write token = .error f) : f.kind = .address := by
  rw [Storage.write, bind_eq_error_iff] at h
  rcases h with h | ⟨operand, -, h⟩
  · exact kind_of_operand_error h
  · cases operand with
    | immediate n =>
      cases h
      rfl
    | direct address => cases h
    | var name => exact kind_of_resolve_error h

/-- An operand cannot be assigned if it is at fault, or if it is a new variable and there is no
cell left. -/
theorem claim_eq_error {st : Storage} {token : String} {f : Fault}
    (h : st.claim token = .error f) :
    f.kind = .address ∨
      f = .poolExhausted st.pool.size ∧ st.pool.used = st.pool.size ∧
        ∃ name, Operand.parse token = .ok (.var name) ∧ st.scopes.cell? name = none := by
  rw [Storage.claim, bind_eq_error_iff] at h
  rcases h with h | ⟨operand, hp, h⟩
  · exact .inl (kind_of_operand_error h)
  · cases operand with
    | immediate n =>
      cases h
      exact .inl rfl
    | direct address => cases h
    | var name =>
      dsimp only [Storage.place] at h
      cases hc : st.scopes.cell? name with
      | some cell => simp [hc] at h
      | none =>
        simp only [hc] at h
        rcases bind_eq_error_iff.mp h with h | ⟨r, -, h⟩
        · obtain ⟨hfull, rfl⟩ := CellPool.allocate_eq_error_iff.mp h
          exact .inr ⟨rfl, hfull, name, hp, hc⟩
        · cases h

/-- **A simple statement fails** because of an operand or the name that it calls, or because it
assigns a new variable and there is no cell left. -/
theorem assemble_eq_error {c : Simple} {f : Fault} (h : c.assemble s = .error f) :
    f.kind = .address ∨ f.kind = .unknownDefinition ∨
      ∃ destination source name v, c = .assign destination source ∧
        s.storage.read source = .ok v ∧ Operand.parse destination = .ok (.var name) ∧
        s.storage.scopes.cell? name = none ∧ s.storage.pool.used = s.storage.pool.size ∧
        f = .poolExhausted s.storage.pool.size := by
  cases c with
  | assign destination source =>
    simp only [Simple.assemble, bind_eq_error_iff] at h
    rcases h with h | ⟨v, hv, h | ⟨r, -, h⟩⟩
    · exact .inl (kind_of_read_error h)
    · rcases claim_eq_error h with h | ⟨hf, hused, name, hp, hc⟩
      · exact .inl h
      · exact .inr (.inr ⟨destination, source, name, v, rfl, hv, hp, hc, hused, hf⟩)
    · cases h
  | combine op left right destination =>
    simp only [Simple.assemble, bind_eq_error_iff] at h
    rcases h with h | ⟨_, -, h | ⟨_, -, h | ⟨_, -, h⟩⟩⟩
    · exact .inl (kind_of_read_error h)
    · exact .inl (kind_of_read_error h)
    · exact .inl (kind_of_write_error h)
    · cases h
  | compare c left right destination =>
    simp only [Simple.assemble, bind_eq_error_iff] at h
    rcases h with h | ⟨_, -, h | ⟨_, -, h | ⟨_, -, h⟩⟩⟩
    · exact .inl (kind_of_read_error h)
    · exact .inl (kind_of_read_error h)
    · exact .inl (kind_of_write_error h)
    · cases h
  | constant c destination =>
    simp only [Simple.assemble, bind_eq_error_iff] at h
    rcases h with h | ⟨_, -, h⟩
    · exact .inl (kind_of_write_error h)
    · cases h
  | call name =>
    simp only [Simple.assemble, bind_eq_error_iff, Definitions.resolve] at h
    rcases h with h | ⟨_, -, h⟩
    · split at h <;> cases h
      exact .inr (.inl rfl)
    · cases h

/-- A condition fails because of an operand. -/
theorem kind_of_condition_assemble_error {st : Storage} {kind : BranchKind} {target : Target}
    {condition : Condition} {f : Fault} (h : condition.assemble st kind target = .error f) :
    f.kind = .address := by
  cases condition with
  | compare c left right =>
    simp only [Condition.assemble, bind_eq_error_iff] at h
    rcases h with h | ⟨_, -, h | ⟨_, -, h⟩⟩
    · exact kind_of_read_error h
    · exact kind_of_read_error h
    · cases h
  | constant c => cases h

/-! ## The ways to fail -/

/-- The state when a branch is started whose condition is at fault: the branch is there and open,
without an address for its labels, and nothing else has changed. -/
def Assembler.strand (s : Assembler) (kind : BranchKind) : Assembler :=
  (s.setBranches kind
    { s.branches kind with
      all := (s.branches kind).all ++
        [Branches.fresh (s.branches kind).form (s.branches kind).all.length s.tape.here]
      isOpen := true }).report
    (.opened kind.form.opener (s.branches kind).all.length s.tape.here)

/-- The code of the condition that the words make up, if they make up one and its operands mean
something. -/
def Assembler.test (s : Assembler) (kind : BranchKind) (words : List String) :
    Except Fault (List (Instruction Target)) := do
  (← Condition.parse kind words).assemble s.storage kind (s.nextBody kind)

/-- A condition is at fault because of its words or of an operand. -/
theorem test_eq_error {kind : BranchKind} {words : List String} {f : Fault}
    (h : s.test kind words = .error f) :
    f.kind = .malformed ∨ f.kind = .address ∨
      ∃ keyword, f = .notACondition keyword kind.form.opener := by
  rw [Assembler.test, bind_eq_error_iff] at h
  rcases h with h | ⟨condition, -, h⟩
  · rcases condition_parse_eq_error h with h | h
    · exact .inl h
    · exact .inr (.inr h)
  · exact .inr (.inl (kind_of_condition_assemble_error h))

/-- The ways in which a line fails, with the failure and the state behind it. -/
inductive Refused (s : Assembler) (line : SourceLine) : Failure → Assembler → Prop
  /-- The words are no statement. -/
  | unread {f : Fault} (hr : Statement.parse line.head line.args = .error f) :
      Refused s line (.ofFault f) s
  /-- An operand means nothing, nothing has the name that is called, or no cell is left. -/
  | simple {c : Simple} {f : Fault} (hr : Reads line.head line.args (.simple c))
      (ha : c.assemble s = .error f) : Refused s line (.ofFault f) s
  /-- A definition inside another. -/
  | nestedDefinition {name : String} {d : Definition}
      (hr : Reads line.head line.args (.opening (.define name)))
      (hl : s.definitions.latest = .ok d) :
      Refused s line (.ofFault (.nestedDefinition name d.name)) s
  /-- A second definition with the same name. -/
  | definitionTaken {name : String} (hr : Reads line.head line.args (.opening (.define name)))
      (hb : .definition ∉ s.constructs) (hn : s.definitions.find? name ≠ none) :
      Refused s line (.ofFault (.definitionTaken name)) s
  /-- A branch while one of its kind is open. -/
  | nestedBranch {kind : BranchKind} (hr : Keyword.ofWord? line.head = some (.branch kind))
      (ho : (s.branches kind).isOpen = true) :
      Refused s line (.ofFault (.nestedBranch kind.form.opener)) s
  /-- A branch without a condition, or with one that is at fault. -/
  | condition {kind : BranchKind} {f : Fault}
      (hr : Keyword.ofWord? line.head = some (.branch kind))
      (ho : (s.branches kind).isOpen = false) (ht : s.test kind line.args = .error f) :
      Refused s line (.ofFault f) (s.strand kind)
  /-- The end of a block where none of the kind is open. -/
  | nothingToClose {c : Construct} (hr : Reads line.head line.args (.closing c))
      (hc : c ∉ s.constructs) : Refused s line (.ofFault (.nothingToClose c.closer c.opener)) s
  /-- The end of a block that is not the innermost. -/
  | crossed {c : Construct} {b : OpenBlock} {blocks : List OpenBlock}
      (hr : Reads line.head line.args (.closing c)) (hb : s.blocks = b :: blocks)
      (hne : b.construct ≠ c) :
      Refused s line (.ofFault (.crossedBlocks c.closer b.construct.opener b.line)) s
  /-- The end of a branch that is open without a block, where no block is open at all. -/
  | blockless {kind : BranchKind} (hr : Reads line.head line.args (.closing (.branch kind)))
      (ho : (s.branches kind).isOpen = true) (hb : s.blocks = []) :
      Refused s line (.misuse .position) s

/-! ## The list is complete -/

namespace Coherent

/-- Where no branch of the kind is open there is no block of one. -/
theorem branch_not_mem (h : Coherent stuck s) {kind : BranchKind}
    (ho : (s.branches kind).isOpen = false) : .branch kind ∉ s.constructs := by
  intro hmem
  have hopen := (h.isOpen kind).mpr (.inl hmem)
  rw [ho] at hopen
  cases hopen

/-- **Starting a definition, whatever the outcome.** There is no third way to fail: the scope of a
definition is new if its name is. -/
theorem exec_define (h : Coherent stuck s) (number : Nat) (name : String) :
    Statement.execDefine number name s =
      match s.definitions.latest with
      | .ok d => .error (.ofFault (.nestedDefinition name d.name)) s
      | .error _ =>
        match s.definitions.find? name with
        | some _ => .error (.ofFault (.definitionTaken name)) s
        | none => .ok () (s.define number name) := by
  cases hl : s.definitions.latest with
  | ok d => simp only [Statement.execDefine, bind_apply, get_apply, hl, fault_apply]
  | error f =>
    cases hn : s.definitions.find? name with
    | none => exact exec_define_ok number hl hn (h.scopeOf_not_mem hn)
    | some d =>
      simp only [Statement.execDefine, bind_apply, get_apply, hl, createDefinition_apply,
        Definitions.create, Definitions.contains, hn, Option.isSome_some, if_true]

/-- **Ending a definition, whatever the outcome.** -/
theorem exec_endDefine (h : Coherent stuck s) :
    Statement.execEndDefine s =
      match s.definitions.latest, s.blocks with
      | .ok d, b :: _ =>
        if b.construct = .definition then .ok () (s.endDefine d)
        else .error (.ofFault (.crossedBlocks Definitions.closer b.construct.opener b.line)) s
      | _, _ => .error (.ofFault (.nothingToClose Definitions.closer Definitions.opener)) s := by
  by_cases hmem : .definition ∈ s.constructs
  · obtain ⟨d, -, hl, hf, hstop, -, hent⟩ := h.inside hmem
    cases hb : s.blocks with
    | nil => simp [Assembler.constructs, hb] at hmem
    | cons b blocks =>
      by_cases hc : b.construct = .definition
      · simp only [exec_endDefine_ok hl hf hstop hb hc hent, hl, if_pos hc]
      · simp only [Statement.execEndDefine, bind_apply, get_apply, ofFault_apply, hl,
          popBlock_apply, hb, if_neg hc]
        rfl
  · obtain ⟨f, hl⟩ := h.latest_error_iff.mpr hmem
    have hf : f = .nothingToClose Definitions.closer Definitions.opener := by
      unfold Definitions.latest at hl
      split at hl <;> cases hl
      rfl
    simp only [Statement.execEndDefine, bind_apply, get_apply, ofFault_apply, hl, hf]

/-- **Starting a branch, whatever the outcome.** The branch is open before its condition is
looked at. -/
theorem exec_branch (h : Coherent stuck s) (number : Nat) (kind : BranchKind)
    (words : List String) :
    Statement.execBranch number kind words s =
      if (s.branches kind).isOpen then .error (.ofFault (.nestedBranch kind.form.opener)) s
      else
        match s.test kind words with
        | .ok test => .ok () (s.branch number kind test)
        | .error f => .error (.ofFault f) (s.strand kind) := by
  by_cases ho : (s.branches kind).isOpen = true
  · simp only [Statement.execBranch, bind_apply, openBranch_apply, Branches.opening, ho, if_true,
      h.form kind]
  · rw [if_neg ho]
    have hopen : openBranch kind s = .ok (s.branches kind).all.length (s.strand kind) := by
      rw [openBranch_apply]
      simp only [Branches.opening, if_neg ho]
      rfl
    have hstorage : (s.strand kind).storage = s.storage := by
      simp [Assembler.strand, Assembler.report]
    cases hp : Condition.parse kind words with
    | error f =>
      simp only [Statement.execBranch, bind_apply, hopen, ofFault_apply, hp, Assembler.test,
        error_bind]
    | ok condition =>
      cases ht : condition.assemble s.storage kind (s.nextBody kind) with
      | ok test =>
        simp only [exec_branch_ok number (by simpa using ho) hp ht, Assembler.test, hp, ok_bind, ht]
      | error f =>
        have hnext := ht
        rw [Assembler.nextBody] at hnext
        simp only [Statement.execBranch, bind_apply, hopen, ofFault_apply, hp, testCode_apply,
          hstorage, hnext, Assembler.test, ok_bind, ht]

/-- **Ending a branch, whatever the outcome.** -/
theorem exec_endBranch (h : Coherent stuck s) (kind : BranchKind) :
    Statement.execEndBranch kind s =
      match (s.branches kind).latest, s.blocks with
      | .ok (number, b), block :: _ =>
        if block.construct = .branch kind then .ok () (s.endBranch kind number b)
        else .error (.ofFault
          (.crossedBlocks kind.form.closer block.construct.opener block.line)) s
      | .ok _, [] => .error (.misuse .position) s
      | .error _, _ =>
        .error (.ofFault (.nothingToClose kind.form.closer kind.form.opener)) s := by
  by_cases ho : (s.branches kind).isOpen = true
  · obtain ⟨pre, b, hall, hstop⟩ := h.last kind ho
    have hl : (s.branches kind).latest = .ok (pre.length, b) := by
      simp [Branches.latest, ho, hall]
    cases hb : s.blocks with
    | nil =>
      simp only [Statement.execEndBranch, bind_apply, get_apply, ofFault_apply, hl,
        popBlock_apply, hb]
    | cons block blocks =>
      by_cases hc : block.construct = .branch kind
      · simp only [exec_endBranch_ok ho hall hstop hb hc, hl, if_pos hc]
      · simp only [Statement.execEndBranch, bind_apply, get_apply, ofFault_apply, hl,
          popBlock_apply, hb, if_neg hc]
        rfl
  · have hl : (s.branches kind).latest = .error (s.branches kind).nothingToClose := by
      simp [Branches.latest, ho]
    simp only [Statement.execEndBranch, bind_apply, get_apply, ofFault_apply, hl,
      Branches.nothingToClose, h.form kind]

theorem refused_define (h : Coherent stuck s) {number : Nat} {name : String}
    (hr : Reads line.head line.args (.opening (.define name)))
    (he : Statement.execDefine number name s = .error failure e) : Refused s line failure e := by
  rw [h.exec_define] at he
  cases hl : s.definitions.latest with
  | ok d =>
    simp only [hl] at he
    cases he
    exact .nestedDefinition hr hl
  | error f =>
    cases hn : s.definitions.find? name with
    | none => simp [hl, hn] at he
    | some d =>
      simp only [hl, hn] at he
      cases he
      exact .definitionTaken hr (h.latest_error_iff.mp ⟨f, hl⟩) (by simp [hn])

theorem refused_endDefine (h : Coherent stuck s)
    (hr : Reads line.head line.args (.closing .definition))
    (he : Statement.execEndDefine s = .error failure e) : Refused s line failure e := by
  rw [h.exec_endDefine] at he
  cases hl : s.definitions.latest with
  | error f =>
    simp only [hl] at he
    cases he
    exact .nothingToClose hr (h.latest_error_iff.mp ⟨f, hl⟩)
  | ok d =>
    cases hb : s.blocks with
    | nil =>
      simp only [hl, hb] at he
      cases he
      exact .nothingToClose hr (by simp [Assembler.constructs, hb])
    | cons b blocks =>
      by_cases hc : b.construct = .definition
      · simp [hl, hb, hc] at he
      · simp only [hl, hb, if_neg hc] at he
        cases he
        exact .crossed hr hb hc

theorem refused_branch (h : Coherent stuck s) {number : Nat} {kind : BranchKind}
    (hr : Keyword.ofWord? line.head = some (.branch kind))
    (he : Statement.execBranch number kind line.args s = .error failure e) :
    Refused s line failure e := by
  rw [h.exec_branch] at he
  by_cases ho : (s.branches kind).isOpen = true
  · rw [if_pos ho] at he
    cases he
    exact .nestedBranch hr ho
  · rw [if_neg ho] at he
    cases ht : s.test kind line.args with
    | ok test => simp [ht] at he
    | error f =>
      simp only [ht] at he
      cases he
      exact .condition hr (by simpa using ho) ht

theorem refused_endBranch (h : Coherent stuck s) {kind : BranchKind}
    (hr : Reads line.head line.args (.closing (.branch kind)))
    (he : Statement.execEndBranch kind s = .error failure e) : Refused s line failure e := by
  rw [h.exec_endBranch] at he
  by_cases ho : (s.branches kind).isOpen = true
  · obtain ⟨pre, b, hall, -⟩ := h.last kind ho
    have hl : (s.branches kind).latest = .ok (pre.length, b) := by
      simp [Branches.latest, ho, hall]
    cases hb : s.blocks with
    | nil =>
      simp only [hl, hb] at he
      cases he
      exact .blockless hr ho hb
    | cons block blocks =>
      by_cases hc : block.construct = .branch kind
      · simp [hl, hb, hc] at he
      · simp only [hl, hb, if_neg hc] at he
        cases he
        exact .crossed hr hb hc
  · have hl : (s.branches kind).latest = .error (s.branches kind).nothingToClose := by
      simp [Branches.latest, ho]
    simp only [hl] at he
    cases he
    exact .nothingToClose hr (h.branch_not_mem (by simpa using ho))

theorem refused_simple {number : Nat} {c : Simple}
    (hr : Reads line.head line.args (.simple c))
    (he : c.statement.exec number s = .error failure e) : Refused s line failure e := by
  rw [exec_simple] at he
  cases ha : c.assemble s with
  | ok r => simp [ha] at he
  | error f =>
    simp only [ha] at he
    cases he
    exact .simple hr ha

end Coherent

/-- The words of a branch. -/
theorem ofWord?_of_parse_branch {head : String} {args words : List String} {kind : BranchKind}
    (h : Statement.parse head args = .ok (.branch kind words)) :
    Keyword.ofWord? head = some (.branch kind) ∧ words = args := by
  unfold Statement.parse at h
  split at h
  · cases h
  · rename_i keyword hk
    split at h
    case h_6 => split at h <;> cases h
    all_goals
      cases h
    exact ⟨hk, rfl⟩

/-- **Whatever makes a line fail is on the list.** -/
theorem refused_of_process (h : Coherent stuck s)
    (hp : Assembler.process line s = .error failure e) : Refused s line failure e := by
  simp only [Assembler.process, bind_apply, ofFault_apply] at hp
  cases hst : Statement.parse line.head line.args with
  | error f =>
    simp only [hst] at hp
    cases hp
    exact .unread hst
  | ok st =>
    simp only [hst] at hp
    have hreads : ∀ c, Clause.ofStatement? st = some c → Reads line.head line.args c :=
      fun c hc => (reads_of_parse hst hc).1
    cases st with
    | define name => exact h.refused_define (hreads _ rfl) hp
    | endDefine => exact h.refused_endDefine (hreads _ rfl) hp
    | branch kind words =>
      obtain ⟨hk, rfl⟩ := ofWord?_of_parse_branch hst
      exact h.refused_branch hk hp
    | endBranch kind => exact h.refused_endBranch (hreads _ rfl) hp
    | assign d src => exact Coherent.refused_simple (c := .assign d src) (hreads _ rfl) hp
    | combine op l r d => exact Coherent.refused_simple (c := .combine op l r d) (hreads _ rfl) hp
    | compare p l r d => exact Coherent.refused_simple (c := .compare p l r d) (hreads _ rfl) hp
    | constant p d => exact Coherent.refused_simple (c := .constant p d) (hreads _ rfl) hp
    | call name => exact Coherent.refused_simple (c := .call name) (hreads _ rfl) hp

/-! ## What can be read off the list -/

/-- The words of a branch are no other clause. -/
theorem Reads.eq_branch {word : String} {words : List String} {c : Clause} {kind : BranchKind}
    (h : Reads word words c) (hk : Keyword.ofWord? word = some (.branch kind)) :
    ∃ condition, c = .opening (.branch kind condition) := by
  have hkeyword : ∀ {k : Keyword}, k.Spelled word → .branch kind = k := by
    intro k h
    rwa [← Keyword.ofWord?_eq_some_iff, hk, Option.some.injEq] at h
  cases h with
  | branch h hc =>
    obtain rfl := Keyword.branch.inj (hkeyword h)
    exact ⟨_, rfl⟩
  | _ h => cases hkeyword h

theorem parse_of_ofWord?_branch {head : String} {kind : BranchKind} (args : List String)
    (hk : Keyword.ofWord? head = some (.branch kind)) :
    Statement.parse head args = .ok (.branch kind args) := by
  simp [Statement.parse, hk]

namespace Refused

/-- **What a line that fails leaves behind**: the state as it was, or, if the line starts a branch
where none of its kind is open, the branch without a block. -/
theorem state (h : Refused s line failure e) :
    ((∀ kind, Keyword.ofWord? line.head = some (.branch kind) →
        (s.branches kind).isOpen = true ∧ failure = .ofFault (.nestedBranch kind.form.opener)) ∧
      e = s) ∨
      ∃ kind f, Keyword.ofWord? line.head = some (.branch kind) ∧
        (s.branches kind).isOpen = false ∧ s.test kind line.args = .error f ∧
        failure = .ofFault f ∧ e = s.strand kind := by
  -- a line that reads as anything but a branch does not have the keyword of one
  have hother : ∀ c, Reads line.head line.args c → (∀ kind condition,
      c ≠ .opening (.branch kind condition)) → ∀ kind,
        Keyword.ofWord? line.head ≠ some (.branch kind) := by
    intro c hr hne kind hk
    obtain ⟨condition, hc⟩ := hr.eq_branch hk
    exact hne kind condition hc
  cases h with
  | unread hr =>
    refine .inl ⟨fun kind hk => ?_, rfl⟩
    rw [parse_of_ofWord?_branch line.args hk] at hr
    cases hr
  | simple hr => exact .inl ⟨fun kind hk => absurd hk (hother _ hr (by simp) kind), rfl⟩
  | nestedDefinition hr => exact .inl ⟨fun kind hk => absurd hk (hother _ hr (by simp) kind), rfl⟩
  | definitionTaken hr => exact .inl ⟨fun kind hk => absurd hk (hother _ hr (by simp) kind), rfl⟩
  | nestedBranch hr ho =>
    refine .inl ⟨fun kind hk => ?_, rfl⟩
    rw [hr, Option.some.injEq, Keyword.branch.injEq] at hk
    subst hk
    exact ⟨ho, rfl⟩
  | condition hr ho ht => exact .inr ⟨_, _, hr, ho, ht, rfl, rfl⟩
  | nothingToClose hr => exact .inl ⟨fun kind hk => absurd hk (hother _ hr (by simp) kind), rfl⟩
  | crossed hr => exact .inl ⟨fun kind hk => absurd hk (hother _ hr (by simp) kind), rfl⟩
  | blockless hr => exact .inl ⟨fun kind hk => absurd hk (hother _ hr (by simp) kind), rfl⟩

/-- **What makes a line fail** is a fault of the program, and none that concerns its end; or a
branch is to be closed that has no block. -/
theorem fault (h : Refused s line failure e) :
    (∃ f : Fault, failure = .ofFault f ∧ f.kind ≠ .unclosed ∧ f.kind ≠ .general) ∨
      ∃ kind, failure = .misuse .position ∧ (s.branches kind).isOpen = true ∧ s.blocks = [] := by
  cases h with
  | unread hr =>
    have hf := kind_of_parse_error hr
    exact .inl ⟨_, rfl, by simp [hf], by simp [hf]⟩
  | simple hr ha =>
    refine .inl ⟨_, rfl, ?_⟩
    rcases assemble_eq_error ha with hf | hf | ⟨_, _, _, _, -, -, -, -, -, rfl⟩
    · simp [hf]
    · simp [hf]
    · simp [Fault.kind]
  | condition hr ho ht =>
    refine .inl ⟨_, rfl, ?_⟩
    rcases test_eq_error ht with hf | hf | ⟨_, rfl⟩
    · simp [hf]
    · simp [hf]
    · simp [Fault.kind]
  | blockless hr ho hb => exact .inr ⟨_, rfl, ho, hb⟩
  | _ => exact .inl ⟨_, rfl, by simp [Fault.kind], by simp [Fault.kind]⟩

/-- A definition is never made without its scope. -/
theorem ne_scopeTaken (h : Refused s line failure e) (name : String) :
    failure ≠ .ofFault (.scopeTaken name) := by
  rintro rfl
  cases h with
  | unread hr => cases kind_of_parse_error hr
  | simple hr ha =>
    rcases assemble_eq_error ha with hf | hf | ⟨_, _, _, _, -, -, -, -, -, hf⟩ <;> cases hf
  | condition hr ho ht => rcases test_eq_error ht with hf | hf | ⟨_, hf⟩ <;> cases hf

/-- Only a line that starts a branch is refused for a keyword that no condition has. -/
theorem branch_of_notACondition {keyword opener : String}
    (h : Refused s line (.ofFault (.notACondition keyword opener)) e) :
    ∃ kind, Keyword.ofWord? line.head = some (.branch kind) := by
  cases h with
  | unread hr => cases kind_of_parse_error hr
  | simple hr ha =>
    rcases assemble_eq_error ha with hf | hf | ⟨_, _, _, _, -, -, -, -, -, hf⟩ <;> cases hf
  | condition hr => exact ⟨_, hr⟩

end Refused

/-! ## A branch without a block -/

section strand

variable (s : Assembler) (kind : BranchKind)

@[simp] theorem storage_strand : (s.strand kind).storage = s.storage := by
  cases kind <;> rfl

@[simp] theorem definitions_strand : (s.strand kind).definitions = s.definitions := by
  cases kind <;> rfl

@[simp] theorem tape_strand : (s.strand kind).tape = s.tape := by
  cases kind <;> rfl

@[simp] theorem blocks_strand : (s.strand kind).blocks = s.blocks := by
  cases kind <;> rfl

@[simp] theorem constructs_strand : (s.strand kind).constructs = s.constructs := by
  cases kind <;> rfl

theorem branches_strand_self :
    (s.strand kind).branches kind =
      { s.branches kind with
        all := (s.branches kind).all ++
          [Branches.fresh (s.branches kind).form (s.branches kind).all.length s.tape.here]
        isOpen := true } := by
  cases kind <;> rfl

theorem branches_strand_of_ne {kind' : BranchKind} (h : kind' ≠ kind) :
    (s.strand kind).branches kind' = s.branches kind' := by
  cases kind <;> cases kind' <;> first | rfl | exact absurd rfl h

/-- The labels of the new branch have no address, and all others are what they were. -/
theorem address_strand (t : Target) :
    ((s.strand kind).label t).address = (s.label t).address := by
  have hlabel : ∀ (part : Branch → Label) (k : BranchKind) (n : Nat),
      (∀ form number start, (part (Branches.fresh form number start)).address = none) →
        (Assembler.branchLabel ((s.strand kind).branches k) n part).address =
          (Assembler.branchLabel (s.branches k) n part).address := by
    intro part k n hfresh
    by_cases hk : k = kind
    · subst hk
      unfold Assembler.branchLabel
      rw [branches_strand_self]
      rcases Nat.lt_trichotomy n (s.branches k).all.length with hlt | rfl | hgt
      · rw [List.getElem?_append_left hlt]
      · simp [hfresh]
      · rw [List.getElem?_eq_none (by simp; omega), List.getElem?_eq_none (by omega)]
    · rw [branches_strand_of_ne s kind hk]
  cases t with
  | behindDefinition name => simp only [Assembler.label, definitions_strand]
  | body k n => exact hlabel (·.body) k n fun _ _ _ => rfl
  | behindBranch k n => exact hlabel (·.stop) k n fun _ _ _ => rfl

end strand

/-- **A branch whose condition is at fault keeps the state coherent**, but from then on branches of
its kind are stuck. -/
theorem Coherent.strand (h : Coherent stuck s) {kind : BranchKind}
    (ho : (s.branches kind).isOpen = false) :
    Coherent (fun k => stuck k ∨ k = kind) (s.strand kind) := by
  refine
    { constructs_nodup := ?_, names_nodup := ?_, root := ?_, children := ?_, body := ?_,
      form := ?_, isOpen := ?_, stuck_blockless := ?_, last := ?_, keys_nodup := ?_, cells := ?_,
      tape := ?_ }
  · simpa using h.constructs_nodup
  · simpa using h.names_nodup
  · simpa using h.root
  · simpa using h.children
  · exact h.body.congr (by simp) (by simp) (by simp)
  · intro kind'
    by_cases hk : kind' = kind
    · subst hk
      rw [branches_strand_self]
      exact h.form kind'
    · rw [branches_strand_of_ne s kind hk]
      exact h.form kind'
  · intro kind'
    by_cases hk : kind' = kind
    · subst hk
      simp [branches_strand_self]
    · rw [branches_strand_of_ne s kind hk, h.isOpen kind', constructs_strand]
      simp [hk]
  · rintro kind' (hs | rfl)
    · simpa using h.stuck_blockless kind' hs
    · simpa using h.branch_not_mem ho
  · intro kind' hopen
    by_cases hk : kind' = kind
    · subst hk
      rw [branches_strand_self]
      exact ⟨_, _, rfl, rfl⟩
    · rw [branches_strand_of_ne s kind hk] at hopen ⊢
      exact h.last kind' hopen
  · simpa using h.keys_nodup
  · simpa using h.cells
  · simpa using h.tape

end TapeMachine

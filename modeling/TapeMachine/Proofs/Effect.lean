import Mathlib.Data.List.Basic
import TapeMachine.Assembler.Exec
import TapeMachine.Proofs.Backpatch
import TapeMachine.Proofs.Clause

/-!
# What a statement does

The statements of the assembler are programs in a state monad. This file says what each of them
comes to: when it succeeds, and which state it leaves then. `Clause.Enabled` is the condition,
`Clause.effect` the state, up to the log.

A simple statement is a function of the storage, the definitions and the size of the tape
(`Simple.assemble`), and `exec_simple` is an equation for every outcome. For a block there is one
lemma that it succeeds and one that it succeeds only if it is enabled.
-/

namespace TapeMachine

/-! ## Steps, applied to a state -/

theorem ok_bind {ε α β : Type} (a : α) (f : α → Except ε β) : (Except.ok a >>= f) = f a := rfl

theorem error_bind {ε α β : Type} (e : ε) (f : α → Except ε β) :
    (Except.error e >>= f) = .error e := rfl

theorem bind_eq_ok_iff {ε α β : Type} {x : Except ε α} {f : α → Except ε β} {b : β} :
    (x >>= f) = .ok b ↔ ∃ a, x = .ok a ∧ f a = .ok b := by
  cases x with
  | error e => simp [error_bind]
  | ok a => simp [ok_bind]

/-- What is reported of a change of the storage. -/
def Storage.news (before after : Storage) : List Event :=
  (before.added after).flatMap fun b => [Event.allocated b.cell, .bound b.name b.cell b.scope]

namespace Step

variable {α β : Type}

theorem bind_apply (x : Step α) (f : α → Step β) (s : Assembler) :
    (x >>= f) s =
      match x s with
      | .ok a s' => f a s'
      | .error e s' => .error e s' := by
  cases h : x s <;> simp [bind, EStateM.bind, h]

theorem get_apply (s : Assembler) : (get : Step Assembler) s = .ok s s := rfl

theorem set_apply (s t : Assembler) : (set t : Step PUnit) s = .ok () t := rfl

theorem modify_apply (f : Assembler → Assembler) (s : Assembler) :
    (modify f : Step PUnit) s = .ok () (f s) := rfl

theorem ofFault_apply (x : Except Fault α) (s : Assembler) :
    ofFault x s =
      match x with
      | .ok a => .ok a s
      | .error e => .error (.ofFault e) s := by
  cases x <;> rfl

theorem ofMisuse_apply (x : Except Misuse α) (s : Assembler) :
    ofMisuse x s =
      match x with
      | .ok a => .ok a s
      | .error m => .error (.misuse m) s := by
  cases x <;> rfl

theorem fault_apply (f : Fault) (s : Assembler) :
    (fault f : Step α) s = .error (.ofFault f) s := rfl

theorem report_apply (e : Event) (s : Assembler) : report e s = .ok () (s.report e) := rfl

theorem emit_apply (code : List (Instruction Target)) (s : Assembler) :
    emit code s = .ok () { s with tape := s.tape.emitAll code } := rfl

theorem pushBlock_apply (c : Construct) (line : Nat) (s : Assembler) :
    pushBlock c line s = .ok () { s with blocks := ⟨c, line⟩ :: s.blocks } := rfl

theorem read_apply (token : String) (s : Assembler) :
    read token s =
      match s.storage.read token with
      | .ok v => .ok v s
      | .error e => .error (.ofFault e) s := by
  simp only [read, bind_apply, get_apply, ofFault_apply]
  cases s.storage.read token <;> rfl

theorem write_apply (token : String) (s : Assembler) :
    write token s =
      match s.storage.write token with
      | .ok cell => .ok cell s
      | .error e => .error (.ofFault e) s := by
  simp only [write, bind_apply, get_apply, ofFault_apply]
  cases s.storage.write token <;> rfl

theorem claim_apply (token : String) (s : Assembler) :
    claim token s =
      match s.storage.claim token with
      | .ok (cell, after) =>
        .ok cell { s with storage := after, log := s.log ++ s.storage.news after }
      | .error e => .error (.ofFault e) s := by
  simp only [claim, bind_apply, get_apply, ofFault_apply, modify_apply]
  cases s.storage.claim token <;> rfl

end Step

/-! ## Simple statements -/

namespace Simple

/-- The statement that the clause is. -/
def statement : Simple → Statement
  | .assign destination source => .assign destination source
  | .combine op left right destination => .combine op left right destination
  | .compare c left right destination => .compare c left right destination
  | .constant c destination => .constant c destination
  | .call name => .call name

/-- What a simple statement makes of the storage, and its code. -/
def assemble (s : Assembler) : Simple → Except Fault (Storage × List (Instruction Target))
  | .assign destination source => do
    let value ← s.storage.read source
    let (cell, storage) ← s.storage.claim destination
    return (storage, Code.assign cell value s!"Move value to ram ({destination} = {source})")
  | .combine op left right destination => do
    let l ← s.storage.read left
    let r ← s.storage.read right
    let cell ← s.storage.write destination
    return (s.storage,
      Code.store (.alu op.op) l r cell s!"{destination} = {left} {op.symbol} {right}")
  | .compare c left right destination => do
    let l ← s.storage.read left
    let r ← s.storage.read right
    let cell ← s.storage.write destination
    return (s.storage,
      Code.store (.condition c.predicate) l r cell s!"{destination} = {left} {c.symbol} {right}")
  | .constant c destination => do
    let cell ← s.storage.write destination
    return (s.storage,
      Code.store (.condition c.predicate) (.literal 0) (.literal 0) cell
        s!"{destination} = {c.word}")
  | .call name => do
    let definition ← s.definitions.resolve name
    return (s.storage, Code.call s.tape.size definition.start definition.name)

end Simple

/-- **A simple statement, whatever its outcome.** If it fails, the state is as before. -/
theorem exec_simple (line : Nat) (c : Simple) (s : Assembler) :
    c.statement.exec line s =
      match c.assemble s with
      | .ok (storage, code) =>
        .ok () { s with
          storage, tape := s.tape.emitAll code, log := s.log ++ s.storage.news storage }
      | .error f => .error (.ofFault f) s := by
  have hlog : s.log ++ s.storage.news s.storage = s.log := by simp [Storage.news, Storage.added]
  cases c with
  | assign d src =>
    simp only [Simple.statement, Statement.exec, Step.bind_apply, Step.read_apply,
      Step.claim_apply, Step.emit_apply, Simple.assemble]
    cases s.storage.read src with
    | error f => rfl
    | ok v => cases hw : s.storage.claim d <;> simp only [hw] <;> rfl
  | combine op l r d =>
    simp only [Simple.statement, Statement.exec, Step.bind_apply, Step.read_apply,
      Step.write_apply, Step.emit_apply, Simple.assemble]
    cases s.storage.read l with
    | error f => rfl
    | ok v =>
      cases hr : s.storage.read r with
      | error f => simp only [hr, ok_bind]; rfl
      | ok w =>
        cases hw : s.storage.write d with
        | error f => simp only [hr, hw, ok_bind]; rfl
        | ok cell => simp only [hr, hw, ok_bind, pure, Except.pure, hlog]
  | compare c l r d =>
    simp only [Simple.statement, Statement.exec, Step.bind_apply, Step.read_apply,
      Step.write_apply, Step.emit_apply, Simple.assemble]
    cases s.storage.read l with
    | error f => rfl
    | ok v =>
      cases hr : s.storage.read r with
      | error f => simp only [hr, ok_bind]; rfl
      | ok w =>
        cases hw : s.storage.write d with
        | error f => simp only [hr, hw, ok_bind]; rfl
        | ok cell => simp only [hr, hw, ok_bind, pure, Except.pure, hlog]
  | constant c d =>
    simp only [Simple.statement, Statement.exec, Step.bind_apply, Step.write_apply,
      Step.emit_apply, Simple.assemble]
    cases s.storage.write d with
    | error f => rfl
    | ok cell => simp only [ok_bind, pure, Except.pure, hlog]
  | call name =>
    simp only [Simple.statement, Statement.exec, Step.bind_apply, Step.get_apply,
      Step.ofFault_apply, Step.emit_apply, Simple.assemble]
    cases s.definitions.resolve name with
    | error f => rfl
    | ok d => simp only [ok_bind, pure, Except.pure, hlog]

/-! ## Blocks -/

/-- The code that tests a condition and branches to a target if it holds. -/
def Condition.assemble (storage : Storage) (kind : BranchKind) (target : Target) :
    Condition → Except Fault (List (Instruction Target))
  | .compare c left right => do
    let l ← storage.read left
    let r ← storage.read right
    return Code.branch c.predicate l r (.label target)
      s!"Jump into the {kind.form.opener} body if {left} {c.symbol} {right}"
  | .constant c =>
    return Code.branch c.predicate (.literal 0) (.literal 0) (.label target)
      s!"Jump into the {kind.form.opener} body ({c.word})"

theorem testCode_apply (kind : BranchKind) (target : Target) (c : Condition) (s : Assembler) :
    Step.testCode kind target c s =
      match c.assemble s.storage kind target with
      | .ok code => .ok code s
      | .error f => .error (.ofFault f) s := by
  cases c with
  | compare c l r =>
    simp only [Step.testCode, Condition.assemble, Step.bind_apply, Step.read_apply]
    cases s.storage.read l with
    | error f => rfl
    | ok v =>
      cases hr : s.storage.read r with
      | error f => simp only [hr, ok_bind]; rfl
      | ok w => simp only [hr, ok_bind]; rfl
  | constant c => rfl

namespace Assembler

/-- The definition that is made when its body starts. -/
def newDefinition (s : Assembler) (name : String) : Definition where
  name
  start := addressOf (s.tape.size + 1 : Nat)
  index := s.tape.size
  stop := ⟨name ++ ".end", none⟩
  scope := some (Statement.scopeOf name)

/-- The state when a definition is started. -/
def define (s : Assembler) (line : Nat) (name : String) : Assembler :=
  { s with
    definitions :=
      { all := s.definitions.all ++ [s.newDefinition name], opened := name :: s.definitions.opened }
    storage :=
      { s.storage with
        scopes :=
          { s.storage.scopes with
            children :=
              s.storage.scopes.children ++ [(Statement.scopeOf name, s.storage.scopes.current)]
            entered := Statement.scopeOf name :: s.storage.scopes.entered } }
    tape := s.tape.emitAll [Code.skipDefinition (.label (.behindDefinition name)) name]
    blocks := ⟨.definition, line⟩ :: s.blocks
    log :=
      (s.log.push (.registered name (s.newDefinition name).start)).push
        (.entered (Statement.scopeOf name)) }

/-- The definition `d` when its body ends and the place behind it is known. -/
def stopDefinition (d : Definition) (address : Int) (x : Definition) : Definition :=
  if x.name = d.name then { x with closed := true, stop := ⟨d.stop.name, some address⟩ } else x

/-- The state when the definition `d` is ended. -/
def endDefine (s : Assembler) (d : Definition) : Assembler :=
  { s with
    definitions :=
      { all := s.definitions.all.map (stopDefinition d (addressOf (s.tape.size + 3 : Nat)))
        opened := s.definitions.opened.tail }
    storage :=
      { s.storage with
        scopes := { s.storage.scopes with entered := s.storage.scopes.entered.tail } }
    tape := s.tape.emitAll Code.epilogue
    blocks := s.blocks.tail
    log :=
      (s.log.push (.labelled d.stop.name (addressOf (s.tape.size + 3 : Nat)))).push
        (.left s.storage.scopes.current) }

/-- The place of the block of the next branch. -/
def nextBody (s : Assembler) (kind : BranchKind) : Target :=
  .body kind (s.branches kind).all.length

/-- The branch that is made when a block starts whose condition has `n` instructions. -/
def newBranch (s : Assembler) (kind : BranchKind) (n : Nat) : Branch :=
  let fresh := Branches.fresh (s.branches kind).form (s.branches kind).all.length s.tape.here
  { fresh with
    body := { fresh.body with address := some (addressOf (s.tape.size + n + 1 : Nat)) }
    skip := some (s.tape.size + n) }

/-- The code at the start of a branch: the test and the jump over the block. -/
def branchCode (s : Assembler) (kind : BranchKind) (test : List (Instruction Target)) :
    List (Instruction Target) :=
  test ++ [Code.skipBranch (.label (.behindBranch kind (s.branches kind).all.length))
    kind.form.opener]

/-- The state when a branch with the given test is started. -/
def branch (s : Assembler) (line : Nat) (kind : BranchKind) (test : List (Instruction Target)) :
    Assembler :=
  { s.setBranches kind
      { s.branches kind with
        all := (s.branches kind).all ++ [s.newBranch kind test.length], isOpen := true } with
    tape := s.tape.emitAll (s.branchCode kind test)
    blocks := ⟨.branch kind, line⟩ :: s.blocks
    log :=
      (s.log.push (.opened kind.form.opener (s.branches kind).all.length s.tape.here)).push
        (.labelled (s.newBranch kind test.length).body.name
          (addressOf (s.tape.size + test.length + 1 : Nat))) }

/-- What ends a branch: a loop goes back to its condition. -/
def backCode (kind : BranchKind) (start : Int) : List (Instruction Target) :=
  match kind with
  | .conditional => []
  | .loop => [Code.repeatLoop start]

/-- The state when the branch `b` with the given number is ended. -/
def endBranch (s : Assembler) (kind : BranchKind) (number : Nat) (b : Branch) : Assembler :=
  { s.setBranches kind
      { s.branches kind with
        all := (s.branches kind).all.modify number fun x =>
          { x with
            stop := ⟨b.stop.name,
              some (addressOf (s.tape.size + (backCode kind b.start).length : Nat))⟩ }
        isOpen := false } with
    tape := s.tape.emitAll (backCode kind b.start)
    blocks := s.blocks.tail
    log :=
      s.log.push (.labelled b.stop.name
        (addressOf (s.tape.size + (backCode kind b.start).length : Nat))) }

end Assembler

/-! ### Starting and ending a definition -/

namespace Step

theorem createDefinition_apply (name : String) (start index : Int) (s : Assembler) :
    createDefinition name start index s =
      match s.definitions.create name start index with
      | .ok (_, definitions) => .ok () ({ s with definitions }.report (.registered name start))
      | .error f => .error (.ofFault f) s := by
  simp only [createDefinition, bind_apply, get_apply, ofFault_apply]
  cases s.definitions.create name start index <;> rfl

theorem createScope_apply (name scope : String) (s : Assembler) :
    createScope name scope s =
      match s.storage.scopes.create scope with
      | .ok scopes =>
        .ok () { s with
          storage := { s.storage with scopes }
          definitions := s.definitions.modify name ({ · with scope := some scope }) }
      | .error f => .error (.ofFault f) s := by
  simp only [createScope, bind_apply, get_apply, ofFault_apply]
  cases s.storage.scopes.create scope <;> rfl

theorem enterScope_apply (scope : String) (s : Assembler) :
    enterScope scope s =
      .ok () ({ s with
        storage := { s.storage with scopes := s.storage.scopes.enter scope } }.report
          (.entered scope)) := rfl

theorem leaveScope_apply (s : Assembler) :
    leaveScope s =
      match s.storage.scopes.leave with
      | .ok (name, scopes) =>
        .ok () ({ s with storage := { s.storage with scopes } }.report (.left name))
      | .error m => .error (.misuse m) s := by
  simp only [leaveScope, bind_apply, get_apply, ofMisuse_apply]
  cases s.storage.scopes.leave <;> rfl

theorem popBlock_apply (c : Construct) (s : Assembler) :
    popBlock c s =
      match s.blocks with
      | [] => .error (.misuse .position) s
      | inner :: blocks =>
        if inner.construct = c then .ok () { s with blocks }
        else .error (.ofFault (.crossedBlocks c.closer inner.construct.opener inner.line)) s := by
  simp only [popBlock, bind_apply, get_apply]
  cases s.blocks with
  | nil => rfl
  | cons inner blocks =>
    by_cases h : inner.construct = c <;> simp only [h, if_true, if_false] <;> rfl

end Step

open Step

theorem find?_eq_none_iff {d : Definitions} {name : String} :
    d.find? name = none ↔ ∀ x ∈ d.all, x.name ≠ name := by
  simp [Definitions.find?]

/-- Changing a definition that is not there changes nothing. -/
theorem map_ite_of_find?_eq_none {d : Definitions} {name : String} (h : d.find? name = none)
    (g : Definition → Definition) :
    d.all.map (fun x => if x.name = name then g x else x) = d.all := by
  rw [List.map_congr_left fun x hx => if_neg (find?_eq_none_iff.mp h x hx), List.map_id']

/-- Changing definitions that keep their names changes what is found under a name. -/
theorem find?_map_all (d : Definitions) (opened : List String) {g : Definition → Definition}
    (hg : ∀ x, (g x).name = x.name) (name : String) :
    (⟨d.all.map g, opened⟩ : Definitions).find? name = (d.find? name).map g := by
  simp only [Definitions.find?, List.find?_map, Function.comp_def, hg]

theorem here_emitAll {L : Type} (t : Tape L) (code : List (Instruction L)) :
    (t.emitAll code).here = addressOf (t.size + code.length : Nat) := by
  rw [Tape.here, Tape.size_emitAll]

theorem exec_define_ok {s : Assembler} {f : Fault} (line : Nat) {name : String}
    (hl : s.definitions.latest = .error f) (hn : s.definitions.find? name = none)
    (hs : Statement.scopeOf name ∉ s.storage.scopes.names) :
    Statement.execDefine line name s = .ok () (s.define line name) := by
  have hcreate : ∀ start index, s.definitions.create name start index =
      let d : Definition := { name, start, index, stop := ⟨name ++ ".end", none⟩ }
      .ok (d, { s.definitions with all := s.definitions.all ++ [d] }) := by
    intro start index
    simp [Definitions.create, Definitions.contains, hn]
  have hscope : s.storage.scopes.create (Statement.scopeOf name) =
      .ok { s.storage.scopes with
        children := s.storage.scopes.children ++
          [(Statement.scopeOf name, s.storage.scopes.current)] } := by
    simp [Scopes.create, hs]
  simp only [Statement.execDefine, bind_apply, get_apply, hl, createDefinition_apply, hcreate,
    createScope_apply, Assembler.report, hscope, enterScope_apply, emit_apply, modify_apply,
    pushBlock_apply]
  simp [Assembler.define, Assembler.newDefinition, Definitions.modify, Definitions.opening,
    map_ite_of_find?_eq_none hn, Scopes.enter]

/-- A definition is started only outside all others and under a new name. -/
theorem enabled_of_exec_define {s s' : Assembler} {line : Nat} {name : String}
    (h : Statement.execDefine line name s = .ok () s') :
    (∃ f, s.definitions.latest = .error f) ∧ s.definitions.find? name = none := by
  simp only [Statement.execDefine, bind_apply, get_apply] at h
  cases hl : s.definitions.latest with
  | ok d => simp [hl, bind_apply, fault_apply] at h
  | error f =>
    refine ⟨⟨f, rfl⟩, ?_⟩
    cases hn : s.definitions.find? name with
    | none => rfl
    | some d =>
      simp [hl, bind_apply, createDefinition_apply, Definitions.create, Definitions.contains, hn]
        at h

theorem exec_endDefine_ok {s : Assembler} {d : Definition} {b : OpenBlock} {blocks : List OpenBlock}
    {scope : String} {scopes : List String} (hl : s.definitions.latest = .ok d)
    (hd : s.definitions.find? d.name = some d) (hstop : d.stop.address = none)
    (hb : s.blocks = b :: blocks) (hc : b.construct = .definition)
    (hs : s.storage.scopes.entered = scope :: scopes) :
    Statement.execEndDefine s = .ok () (s.endDefine d) := by
  have hclose : s.definitions.closeLatest =
      .ok ({ d with closed := true },
        ⟨(s.definitions.modify d.name ({ · with closed := true })).all,
          s.definitions.opened.tail⟩) := by
    rw [Definitions.closeLatest, hl]
    rfl
  have hfind : (⟨(s.definitions.modify d.name ({ · with closed := true })).all,
      s.definitions.opened.tail⟩ : Definitions).find? d.name = some { d with closed := true } := by
    rw [Definitions.modify, find?_map_all, hd]
    · simp
    · intro x
      split <;> rfl
  simp only [Statement.execEndDefine, bind_apply, get_apply, ofFault_apply, hl, popBlock_apply, hb,
    hc, if_true, hclose, modify_apply, emit_apply]
  simp only [bindHere, bind_apply, get_apply, ofMisuse_apply, Definitions.bindStop, hfind,
    Label.bind, hstop, ok_bind, set_apply, report_apply, leaveScope_apply]
  simp only [pure, Except.pure, Assembler.report, Scopes.leave, hs, Assembler.label, hfind,
    here_emitAll, Assembler.endDefine, hb, List.tail_cons, Scopes.current, List.headD_cons]
  congr 3
  simp only [Definitions.modify, List.map_map, Definitions.mk.injEq, and_true]
  refine List.map_congr_left fun x _ => ?_
  simp only [Function.comp_apply, Assembler.stopDefinition]
  by_cases hx : x.name = d.name <;> simp [hx, Code.epilogue]

/-- A definition is ended only as the innermost block. -/
theorem enabled_of_exec_endDefine {s s' : Assembler} (h : Statement.execEndDefine s = .ok () s') :
    ∃ b blocks, s.blocks = b :: blocks ∧ b.construct = .definition := by
  simp only [Statement.execEndDefine, bind_apply, get_apply, ofFault_apply, popBlock_apply] at h
  cases hl : s.definitions.latest with
  | error f => simp [hl] at h
  | ok d =>
    cases hb : s.blocks with
    | nil => simp [hl, hb] at h
    | cons b blocks =>
      refine ⟨b, blocks, rfl, ?_⟩
      by_contra hc
      simp [hl, hb, hc] at h

/-! ### Starting and ending a branch -/

theorem openBranch_apply (kind : BranchKind) (s : Assembler) :
    openBranch kind s =
      match (s.branches kind).opening s.tape.here with
      | .ok (_, branches) =>
        .ok (s.branches kind).all.length
          ((s.setBranches kind branches).report
            (.opened kind.form.opener (s.branches kind).all.length s.tape.here))
      | .error f => .error (.ofFault f) s := by
  simp only [openBranch, bind_apply, get_apply, ofFault_apply]
  cases (s.branches kind).opening s.tape.here <;> rfl

theorem exec_branch_ok {s : Assembler} (line : Nat) {kind : BranchKind} {words : List String}
    {condition : Condition} {test : List (Instruction Target)}
    (ho : (s.branches kind).isOpen = false) (hp : Condition.parse kind words = .ok condition)
    (ht : condition.assemble s.storage kind (s.nextBody kind) = .ok test) :
    Statement.execBranch line kind words s = .ok () (s.branch line kind test) := by
  -- with the kind known, the register of the branch is a field of the state
  cases kind
  all_goals
    simp only [Assembler.nextBody, Assembler.branches] at ho ht
    simp only [Statement.execBranch, bind_apply, openBranch_apply, Assembler.branches,
      Branches.opening, ho, Bool.false_eq_true, if_false, ofFault_apply, hp, testCode_apply,
      Assembler.report, Assembler.setBranches, ht, emit_apply, get_apply, recordSkip, modify_apply,
      bindHere, ofMisuse_apply, Branches.modify, Tape.modify_append_cons, Branches.bindBody,
      List.getElem?_concat_length, Label.bind, Branches.fresh, ok_bind, set_apply, report_apply,
      pushBlock_apply]
    simp only [pure, Except.pure, Assembler.branch, Assembler.branches, Assembler.setBranches,
      Assembler.branchCode, Assembler.newBranch, Branches.fresh, Tape.emitAll_append, here_emitAll,
      Assembler.label, Assembler.branchLabel, List.getElem?_concat_length, Tape.size_emitAll,
      List.length_singleton]

/-- A branch is started only if none of its kind is open and its condition is good. -/
theorem enabled_of_exec_branch {s s' : Assembler} {line : Nat} {kind : BranchKind}
    {words : List String} (h : Statement.execBranch line kind words s = .ok () s') :
    (s.branches kind).isOpen = false ∧
      ∃ condition test, Condition.parse kind words = .ok condition ∧
        condition.assemble s.storage kind (s.nextBody kind) = .ok test := by
  simp only [Statement.execBranch, bind_apply, openBranch_apply, Branches.opening, ofFault_apply,
    testCode_apply] at h
  cases ho : (s.branches kind).isOpen with
  | true => simp [ho] at h
  | false =>
    refine ⟨rfl, ?_⟩
    have hst : ∀ b, (s.setBranches kind b).storage = s.storage := by
      intro b
      cases kind <;> rfl
    cases hp : Condition.parse kind words with
    | error f => simp [ho, hp] at h
    | ok condition =>
      refine ⟨condition, ?_⟩
      cases ht : condition.assemble s.storage kind (s.nextBody kind) with
      | ok test => exact ⟨test, rfl, rfl⟩
      | error f =>
        rw [Assembler.nextBody] at ht
        simp [ho, hp, Assembler.report, hst, ht] at h

theorem exec_endBranch_ok {s : Assembler} {kind : BranchKind} {pre : List Branch} {b : Branch}
    {block : OpenBlock} {blocks : List OpenBlock} (ho : (s.branches kind).isOpen = true)
    (hall : (s.branches kind).all = pre ++ [b]) (hstop : b.stop.address = none)
    (hb : s.blocks = block :: blocks) (hc : block.construct = .branch kind) :
    Statement.execEndBranch kind s = .ok () (s.endBranch kind pre.length b) := by
  have hlen : (pre ++ [b]).length - 1 = pre.length := by simp
  cases kind
  all_goals
    simp only [Assembler.branches] at ho hall
    simp only [Statement.execEndBranch, bind_apply, get_apply, Assembler.branches, Branches.latest,
      ho, if_true, hall, List.getLast?_concat, ofFault_apply, popBlock_apply, hb, hc,
      Branches.close, ok_bind, pure, Except.pure, modify_apply]
    simp only [Assembler.setBranches, reduceCtorEq, if_false, hlen, emit_apply, bindHere,
      bind_apply, get_apply, Assembler.branches, Branches.bindStop, List.getElem?_concat_length,
      Label.bind, hstop, ok_bind, ofMisuse_apply, set_apply, report_apply, Branches.modify]
    simp [pure, Except.pure, Assembler.endBranch, Assembler.backCode, Assembler.branches,
      Assembler.setBranches, Assembler.report, Assembler.label, Assembler.branchLabel, hall, hb,
      Tape.here, Tape.size, Tape.emitAll]

/-- A branch is ended only as the innermost block. -/
theorem enabled_of_exec_endBranch {s s' : Assembler} {kind : BranchKind}
    (h : Statement.execEndBranch kind s = .ok () s') :
    ∃ b blocks, s.blocks = b :: blocks ∧ b.construct = .branch kind := by
  simp only [Statement.execEndBranch, bind_apply, get_apply, ofFault_apply, popBlock_apply] at h
  cases hl : (s.branches kind).latest with
  | error f => simp [hl] at h
  | ok d =>
    cases hb : s.blocks with
    | nil => simp [hl, hb] at h
    | cons b blocks =>
      refine ⟨b, blocks, rfl, ?_⟩
      by_contra hc
      simp [hl, hb, hc] at h

end TapeMachine

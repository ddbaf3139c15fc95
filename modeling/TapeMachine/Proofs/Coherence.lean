import Mathlib.Data.List.Nodup
import TapeMachine.Proofs.Effect
import TapeMachine.Proofs.Generator

/-!
# Coherent states

The assembler keeps a stack of open blocks, a register of definitions, two registers of branches, a
stack of scopes and a pool of cells. `Coherent` says how they hang together: each kind of block is
open at most once, the open definition is the one whose scope is current, the open branch of a kind
is the last of its kind, the cells of the variables are handed out in order.

A branch whose condition is at fault stays open without a block of its own. `Coherent` takes the
kinds for which this has happened as a parameter; in a run without a fault there are none.

* `process_eq_ok_iff`: in a coherent state a line is carried out exactly if it is a clause that is
  enabled, and then the state is `Clause.effect`.
* `Coherent.effect`: what is enabled keeps the state coherent.
-/

namespace TapeMachine

/-- The kinds of the open blocks, the innermost first. -/
def Assembler.constructs (s : Assembler) : List Construct := s.blocks.map (·.construct)

/-- The names of the definitions in the order of their creation. -/
def Definitions.names (d : Definitions) : List String := d.all.map (·.name)

/-- The scope of the main program, or of a definition. -/
def scopeName : Option String → String
  | none => Scopes.mainName
  | some name => Statement.scopeOf name

/-- The definition that is being written, if one is. -/
def Assembler.scope (s : Assembler) : Option String := s.definitions.opened.head?

/-- The variables that have cells, in the order of the cells. -/
def Storage.keys (st : Storage) : List (String × String) :=
  st.scopes.bindings.map fun b => (b.scope, b.name)

/-- What the state knows about the body that is being written: none is, and the main scope is
current, or one is, and its scope is current. -/
inductive BodyCoherent (s : Assembler) : Prop
  | outside (hb : .definition ∉ s.constructs) (ho : s.definitions.opened = [])
      (he : s.storage.scopes.entered = [])
  | inside (d : Definition) (hb : .definition ∈ s.constructs) (hd : d ∈ s.definitions.all)
      (hs : d.stop.address = none) (ho : s.definitions.opened = [d.name])
      (he : s.storage.scopes.entered = [Statement.scopeOf d.name])

/-- How the parts of the state hang together. For the kinds in `stuck` a branch is open that has no
block, since its condition was at fault. -/
structure Coherent (stuck : BranchKind → Prop) (s : Assembler) : Prop where
  constructs_nodup : s.constructs.Nodup
  names_nodup : s.definitions.names.Nodup
  root : s.storage.scopes.root = Scopes.mainName
  children : s.storage.scopes.children.map (·.1) = s.definitions.names.map Statement.scopeOf
  body : BodyCoherent s
  form : ∀ kind, (s.branches kind).form = kind.form
  isOpen : ∀ kind, (s.branches kind).isOpen = true ↔ .branch kind ∈ s.constructs ∨ stuck kind
  stuck_blockless : ∀ kind, stuck kind → .branch kind ∉ s.constructs
  last : ∀ kind, (s.branches kind).isOpen = true →
    ∃ pre b, (s.branches kind).all = pre ++ [b] ∧ b.stop.address = none
  keys_nodup : s.storage.keys.Nodup
  cells : s.storage.scopes.bindings.map (·.cell) = (List.range s.storage.pool.used).map Int.ofNat
  tape : s.tape.Fresh

namespace Clause

/-- The clause can be carried out. -/
def Enabled (s : Assembler) : Clause → Prop
  | simple c => ∃ r, c.assemble s = .ok r
  | opening (.define name) => .definition ∉ s.constructs ∧ s.definitions.find? name = none
  | opening (.branch kind condition) =>
    (s.branches kind).isOpen = false ∧
      ∃ test, condition.assemble s.storage kind (s.nextBody kind) = .ok test
  | closing c => s.constructs.head? = some c

/-- The state after a clause that can be carried out. -/
def effect (line : Nat) (s : Assembler) : Clause → Assembler
  | simple c =>
    match c.assemble s with
    | .ok (storage, code) =>
      { s with storage, tape := s.tape.emitAll code, log := s.log ++ s.storage.news storage }
    | .error _ => s
  | opening (.define name) => s.define line name
  | opening (.branch kind condition) =>
    match condition.assemble s.storage kind (s.nextBody kind) with
    | .ok test => s.branch line kind test
    | .error _ => s
  | closing .definition =>
    match s.definitions.latest with
    | .ok d => s.endDefine d
    | .error _ => s
  | closing (.branch kind) =>
    match (s.branches kind).latest with
    | .ok (number, b) => s.endBranch kind number b
    | .error _ => s

end Clause

/-! ## Looking up by name -/

/-- An element is found under its key if no two elements have the same. -/
theorem find?_key_of_mem {α κ : Type} [DecidableEq κ] {key : α → κ} {xs : List α}
    (h : (xs.map key).Nodup) {x : α} (hx : x ∈ xs) : xs.find? (key · = key x) = some x := by
  cases hf : xs.find? (key · = key x) with
  | none => simpa using List.find?_eq_none.mp hf x hx
  | some y =>
    have hkey : key y = key x := by simpa using List.find?_some hf
    rw [List.inj_on_of_nodup_map h (List.mem_of_find?_eq_some hf) hx hkey]

theorem find?_of_mem {d : Definitions} (h : d.names.Nodup) {x : Definition} (hx : x ∈ d.all) :
    d.find? x.name = some x :=
  find?_key_of_mem h hx

theorem cellIn?_eq_none_iff {st : Storage} {scope name : String} :
    st.scopes.cellIn? scope name = none ↔ (scope, name) ∉ st.keys := by
  simp [Scopes.cellIn?, Storage.keys]

theorem scopeOf_inj {a b : String} (h : Statement.scopeOf a = Statement.scopeOf b) : a = b := by
  simpa [Statement.scopeOf] using h

theorem scopeOf_ne_mainName (a : String) : Statement.scopeOf a ≠ Scopes.mainName := by
  intro h
  have hl := congrArg String.toList h
  simp [Statement.scopeOf, Scopes.mainName] at hl

/-- No two scopes have the same name. -/
theorem scopeName_injective : Function.Injective scopeName := by
  intro a b h
  cases a with
  | none =>
    cases b with
    | none => rfl
    | some b => exact absurd h.symm (scopeOf_ne_mainName b)
  | some a =>
    cases b with
    | none => exact absurd h (scopeOf_ne_mainName a)
    | some b => rw [scopeOf_inj h]

/-! ## What coherence gives -/

namespace Coherent

variable {stuck : BranchKind → Prop} {s : Assembler}

/-- If a definition is open, everything agrees on which. -/
theorem inside (h : Coherent stuck s) (hb : .definition ∈ s.constructs) :
    ∃ d ∈ s.definitions.all, s.definitions.latest = .ok d ∧
      s.definitions.find? d.name = some d ∧ d.stop.address = none ∧
      s.definitions.opened = [d.name] ∧ s.storage.scopes.entered = [Statement.scopeOf d.name] := by
  cases h.body with
  | outside hno => exact absurd hb hno
  | inside d _ hd hs ho he =>
    have hf := find?_of_mem h.names_nodup hd
    refine ⟨d, hd, ?_, hf, hs, ho, he⟩
    simp [Definitions.latest, ho, hf]

theorem latest_error_iff (h : Coherent stuck s) :
    (∃ f, s.definitions.latest = .error f) ↔ .definition ∉ s.constructs := by
  constructor
  · rintro ⟨f, hf⟩ hb
    obtain ⟨d, -, hl, -⟩ := h.inside hb
    rw [hl] at hf
    cases hf
  · intro hb
    cases h.body with
    | outside _ ho => exact ⟨_, by simp [Definitions.latest, ho]; rfl⟩
    | inside d hin => exact absurd hin hb

theorem current_eq (h : Coherent stuck s) : s.storage.scopes.current = scopeName s.scope := by
  cases h.body with
  | outside _ ho he => simp [Scopes.current, he, h.root, Assembler.scope, ho, scopeName]
  | inside d _ _ _ ho he => simp [Scopes.current, he, Assembler.scope, ho, scopeName]

/-- A definition with a new name has a new scope. -/
theorem scopeOf_not_mem (h : Coherent stuck s) {name : String}
    (hn : s.definitions.find? name = none) :
    Statement.scopeOf name ∉ s.storage.scopes.names := by
  rw [Scopes.names, h.root, h.children, List.mem_cons, List.mem_map]
  rintro (hm | ⟨other, hmem, he⟩)
  · exact scopeOf_ne_mainName name hm
  · obtain ⟨d, hd, rfl⟩ := List.mem_map.mp hmem
    exact find?_eq_none_iff.mp hn d hd (scopeOf_inj he)

/-- If a branch is the innermost block, it is the last of its kind. -/
theorem last_of_mem (h : Coherent stuck s) {kind : BranchKind}
    (hb : .branch kind ∈ s.constructs) :
    ∃ pre b, (s.branches kind).isOpen = true ∧ (s.branches kind).all = pre ++ [b] ∧
      b.stop.address = none ∧ (s.branches kind).latest = .ok (pre.length, b) := by
  have ho := (h.isOpen kind).mpr (.inl hb)
  obtain ⟨pre, b, hall, hstop⟩ := h.last kind ho
  refine ⟨pre, b, ho, hall, hstop, ?_⟩
  simp [Branches.latest, ho, hall]

end Coherent

/-! ## A line is carried out if its clause is enabled -/

theorem constructs_head? {s : Assembler} {c : Construct} :
    s.constructs.head? = some c ↔ ∃ b blocks, s.blocks = b :: blocks ∧ b.construct = c := by
  unfold Assembler.constructs
  cases s.blocks with
  | nil => simp
  | cons b blocks => simp

/-- The statement of a simple clause. -/
theorem ofStatement?_eq_simple_iff {st : Statement} {c : Simple} :
    Clause.ofStatement? st = some (.simple c) ↔ st = c.statement := by
  constructor
  · intro h
    cases st with
    | branch kind words =>
      rw [Clause.ofStatement?] at h
      cases hp : Condition.parse kind words <;> simp [hp] at h
    | define name => simp [Clause.ofStatement?] at h
    | endDefine => simp [Clause.ofStatement?] at h
    | endBranch kind => simp [Clause.ofStatement?] at h
    | _ =>
      simp only [Clause.ofStatement?, Option.some.injEq, Clause.simple.injEq] at h
      rw [← h]
      rfl
  · rintro rfl
    cases c <;> rfl

section

variable {stuck : BranchKind → Prop} {s s' : Assembler} {line : Nat} {st : Statement} {c : Clause}

/-- A statement whose clause is enabled is carried out. -/
theorem exec_of_enabled (h : Coherent stuck s) (hc : Clause.ofStatement? st = some c)
    (he : c.Enabled s) : st.exec line s = .ok () (c.effect line s) := by
  cases c with
  | simple c =>
    obtain rfl := ofStatement?_eq_simple_iff.mp hc
    obtain ⟨⟨storage, code⟩, hr⟩ := he
    rw [exec_simple]
    simp only [hr, Clause.effect]
  | opening o =>
    cases st with
    | define name =>
      cases hc
      obtain ⟨hb, hn⟩ := he
      obtain ⟨f, hl⟩ := h.latest_error_iff.mpr hb
      exact exec_define_ok line hl hn (h.scopeOf_not_mem hn)
    | branch kind words =>
      simp only [Clause.ofStatement?] at hc
      cases hp : Condition.parse kind words with
      | error f => simp [hp] at hc
      | ok condition =>
        simp only [hp, Option.some.injEq, Clause.opening.injEq] at hc
        subst hc
        obtain ⟨ho, test, ht⟩ := he
        rw [Statement.exec, exec_branch_ok line ho hp ht]
        simp only [Clause.effect, ht]
    | _ => cases hc
  | closing construct =>
    obtain ⟨b, blocks, hb, hbc⟩ := constructs_head?.mp he
    have hmem : construct ∈ s.constructs := List.mem_of_head? he
    cases st with
    | endDefine =>
      cases hc
      obtain ⟨d, -, hl, hf, hstop, -, hent⟩ := h.inside hmem
      rw [Statement.exec, exec_endDefine_ok hl hf hstop hb hbc hent]
      simp only [Clause.effect, hl]
    | endBranch kind =>
      cases hc
      obtain ⟨pre, x, ho, hall, hstop, hl⟩ := h.last_of_mem hmem
      rw [Statement.exec, exec_endBranch_ok ho hall hstop hb hbc]
      simp only [Clause.effect, hl]
    | branch kind words =>
      simp only [Clause.ofStatement?] at hc
      cases hp : Condition.parse kind words <;> simp [hp] at hc
    | _ => cases hc

/-- What is carried out is a clause that is enabled. -/
theorem enabled_of_exec (h : Coherent stuck s) (he : st.exec line s = .ok () s') :
    ∃ c, Clause.ofStatement? st = some c ∧ c.Enabled s := by
  have hsimple : ∀ c : Simple, st = c.statement → (Clause.simple c).Enabled s := by
    rintro c rfl
    rw [exec_simple] at he
    cases hr : c.assemble s with
    | ok r => exact ⟨r, hr⟩
    | error f => simp [hr] at he
  cases st with
  | define name =>
    obtain ⟨hl, hn⟩ := enabled_of_exec_define he
    exact ⟨_, rfl, h.latest_error_iff.mp hl, hn⟩
  | endDefine => exact ⟨_, rfl, constructs_head?.mpr (enabled_of_exec_endDefine he)⟩
  | branch kind words =>
    obtain ⟨ho, condition, test, hp, ht⟩ := enabled_of_exec_branch he
    exact ⟨.opening (.branch kind condition), by simp [Clause.ofStatement?, hp], ho, test, ht⟩
  | endBranch kind => exact ⟨_, rfl, constructs_head?.mpr (enabled_of_exec_endBranch he)⟩
  | assign d src => exact ⟨_, rfl, hsimple (.assign d src) rfl⟩
  | combine op l r d => exact ⟨_, rfl, hsimple (.combine op l r d) rfl⟩
  | compare p l r d => exact ⟨_, rfl, hsimple (.compare p l r d) rfl⟩
  | constant p d => exact ⟨_, rfl, hsimple (.constant p d) rfl⟩
  | call name => exact ⟨_, rfl, hsimple (.call name) rfl⟩

end

open Step in
/-- **A line is carried out exactly if it reads as a clause that is enabled.** -/
theorem process_eq_ok_iff {stuck : BranchKind → Prop} {s s' : Assembler} {line : SourceLine}
    (h : Coherent stuck s) :
    Assembler.process line s = .ok () s' ↔
      ∃ c : Clause, Reads line.head line.args c ∧ c.Named ∧ c.Enabled s ∧
        s' = c.effect line.number s := by
  simp only [Assembler.process, bind_apply, ofFault_apply]
  constructor
  · intro hp
    cases hst : Statement.parse line.head line.args with
    | error f => simp [hst] at hp
    | ok st =>
      simp only [hst] at hp
      obtain ⟨c, hc, he⟩ := enabled_of_exec h hp
      obtain ⟨hr, hn⟩ := reads_of_parse hst hc
      rw [exec_of_enabled h hc he, EStateM.Result.ok.injEq] at hp
      exact ⟨c, hr, hn, he, hp.2.symm⟩
  · rintro ⟨c, hr, hn, he, rfl⟩
    obtain ⟨st, hst, hc⟩ := parse_of_reads hr hn
    simp only [hst]
    exact exec_of_enabled h hc he

/-! ## How the storage grows -/

/-- The storage with a cell for one more variable of the current scope. -/
def Storage.grow (st : Storage) (name : String) (pool : CellPool) : Storage where
  pool
  scopes :=
    { st.scopes with
      bindings := st.scopes.bindings ++ [⟨st.scopes.current, name, st.pool.used⟩] }

theorem place_eq_ok {st st' : Storage} {name : String} {cell : Int}
    (h : st.place name = .ok (cell, st')) :
    (st.scopes.cell? name = some cell ∧ st' = st) ∨
      st.scopes.cell? name = none ∧ cell = st.pool.used ∧
        ∃ pool : CellPool, pool.used = st.pool.used + 1 ∧ pool.size = st.pool.size ∧
          st' = st.grow name pool := by
  unfold Storage.place at h
  cases hc : st.scopes.cell? name with
  | some c =>
    simp only [hc, Except.ok.injEq, Prod.mk.injEq] at h
    exact .inl ⟨by rw [h.1], h.2.symm⟩
  | none =>
    simp only [hc, bind_eq_ok_iff] at h
    obtain ⟨⟨n, pool⟩, ha, hr⟩ := h
    obtain ⟨-, rfl, hsize, -⟩ := CellPool.allocate_eq_ok_iff.mp ha
    cases hr
    exact .inr ⟨rfl, rfl, pool, CellPool.used_of_allocate ha, hsize,
      by simp [Storage.grow, Scopes.bind, hc]⟩

theorem claim_eq_ok {st st' : Storage} {token : String} {cell : Int}
    (h : st.claim token = .ok (cell, st')) :
    (Operand.parse token = .ok (.direct cell) ∧ st' = st) ∨
      ∃ name, Operand.parse token = .ok (.var name) ∧ st.place name = .ok (cell, st') := by
  unfold Storage.claim at h
  obtain ⟨operand, hp, h⟩ := bind_eq_ok_iff.mp h
  cases operand with
  | immediate n => cases h
  | direct address =>
    cases h
    exact .inl ⟨hp, rfl⟩
  | var name => exact .inr ⟨name, hp, h⟩

/-- **A statement leaves the storage as it is or gives one variable a cell.** -/
theorem assemble_storage {s : Assembler} {c : Simple} {st : Storage}
    {code : List (Instruction Target)} (h : c.assemble s = .ok (st, code)) :
    (st = s.storage ∧ ∀ name, c.assignee? = some name → (s.storage.scopes.cell? name).isSome) ∨
      ∃ name pool, c.assignee? = some name ∧ s.storage.scopes.cell? name = none ∧
        pool.used = s.storage.pool.used + 1 ∧ pool.size = s.storage.pool.size ∧
        st = s.storage.grow name pool := by
  cases c with
  | assign d src =>
    simp only [Simple.assemble, bind_eq_ok_iff] at h
    obtain ⟨value, -, ⟨cell, st'⟩, hclaim, hr⟩ := h
    cases hr
    rcases claim_eq_ok hclaim with ⟨hp, rfl⟩ | ⟨name, hp, hplace⟩
    · exact .inl ⟨rfl, by simp [Simple.assignee?, Operand.denote_of_parse hp]⟩
    · have hvar : (Simple.assign d src).assignee? = some name := by
        simp [Simple.assignee?, Operand.denote_of_parse hp]
      rcases place_eq_ok hplace with ⟨hc, rfl⟩ | ⟨hc, -, pool, hused, hsize, rfl⟩
      · refine .inl ⟨rfl, fun x hx => ?_⟩
        rw [hvar, Option.some.injEq] at hx
        rw [← hx, hc]
        rfl
      · exact .inr ⟨name, pool, hvar, hc, hused, hsize, rfl⟩
  | combine op l r d =>
    simp only [Simple.assemble, bind_eq_ok_iff] at h
    obtain ⟨_, -, _, -, _, -, hr⟩ := h
    cases hr
    exact .inl ⟨rfl, fun x hx => by cases hx⟩
  | compare p l r d =>
    simp only [Simple.assemble, bind_eq_ok_iff] at h
    obtain ⟨_, -, _, -, _, -, hr⟩ := h
    cases hr
    exact .inl ⟨rfl, fun x hx => by cases hx⟩
  | constant p d =>
    simp only [Simple.assemble, bind_eq_ok_iff] at h
    obtain ⟨_, -, hr⟩ := h
    cases hr
    exact .inl ⟨rfl, fun x hx => by cases hx⟩
  | call name =>
    simp only [Simple.assemble, bind_eq_ok_iff] at h
    obtain ⟨_, -, hr⟩ := h
    cases hr
    exact .inl ⟨rfl, fun x hx => by cases hx⟩

/-! ## What a clause does to the state -/

section Takes

variable {stuck : BranchKind → Prop} {s : Assembler}

/-- The state after a closing line. -/
theorem effect_closing_definition (h : Coherent stuck s)
    (hc : s.constructs.head? = some .definition) (line : Nat) :
    ∃ d ∈ s.definitions.all, d.stop.address = none ∧ s.definitions.find? d.name = some d ∧
      s.definitions.opened = [d.name] ∧
      (Clause.closing .definition).effect line s = s.endDefine d := by
  obtain ⟨d, hd, hl, hf, hstop, ho, -⟩ := h.inside (List.mem_of_head? hc)
  refine ⟨d, hd, hstop, hf, ho, ?_⟩
  rw [Clause.effect, hl]

theorem effect_closing_branch (h : Coherent stuck s) {kind : BranchKind}
    (hc : s.constructs.head? = some (.branch kind)) (line : Nat) :
    ∃ pre b, (s.branches kind).all = pre ++ [b] ∧ b.stop.address = none ∧
      (Clause.closing (.branch kind)).effect line s = s.endBranch kind pre.length b := by
  obtain ⟨pre, b, -, hall, hstop, hl⟩ := h.last_of_mem (List.mem_of_head? hc)
  refine ⟨pre, b, hall, hstop, ?_⟩
  rw [Clause.effect, hl]

/-- What a clause that can be carried out does to the state, one case for each kind of clause. -/
inductive Takes (line : Nat) (s : Assembler) : Clause → Assembler → Prop
  | simple {c : Simple} {st : Storage} {code : List (Instruction Target)}
      (hr : c.assemble s = .ok (st, code)) :
      Takes line s (.simple c)
        { s with storage := st, tape := s.tape.emitAll code, log := s.log ++ s.storage.news st }
  | define {name : String} (hb : .definition ∉ s.constructs)
      (hn : s.definitions.find? name = none) :
      Takes line s (.opening (.define name)) (s.define line name)
  | branch {kind : BranchKind} {condition : Condition} {test : List (Instruction Target)}
      (ho : (s.branches kind).isOpen = false)
      (ht : condition.assemble s.storage kind (s.nextBody kind) = .ok test) :
      Takes line s (.opening (.branch kind condition)) (s.branch line kind test)
  | endDefine {d : Definition} (hc : s.constructs.head? = some .definition)
      (hstop : d.stop.address = none) (hf : s.definitions.find? d.name = some d)
      (ho : s.definitions.opened = [d.name]) :
      Takes line s (.closing .definition) (s.endDefine d)
  | endBranch {kind : BranchKind} {pre : List Branch} {b : Branch}
      (hc : s.constructs.head? = some (.branch kind)) (hall : (s.branches kind).all = pre ++ [b])
      (hstop : b.stop.address = none) :
      Takes line s (.closing (.branch kind)) (s.endBranch kind pre.length b)

theorem Coherent.takes (h : Coherent stuck s) {c : Clause} (he : c.Enabled s) (line : Nat) :
    Takes line s c (c.effect line s) := by
  match c, he with
  | .simple c, ⟨(st, code), hr⟩ =>
    rw [Clause.effect, hr]
    exact .simple hr
  | .opening (.define name), ⟨hb, hn⟩ => exact .define hb hn
  | .opening (.branch kind condition), ⟨ho, test, ht⟩ =>
    rw [Clause.effect, ht]
    exact .branch ho ht
  | .closing .definition, hc =>
    obtain ⟨d, -, hstop, hf, ho, hd⟩ := effect_closing_definition h hc line
    rw [hd]
    exact .endDefine hc hstop hf ho
  | .closing (.branch kind), hc =>
    obtain ⟨pre, b, hall, hstop, hb⟩ := effect_closing_branch h hc line
    rw [hb]
    exact .endBranch hc hall hstop

end Takes

/-! ## What is enabled keeps the state coherent -/

section setBranches

variable (s : Assembler) (kind : BranchKind) (b : Branches)

@[simp] theorem storage_setBranches : (s.setBranches kind b).storage = s.storage := by
  cases kind <;> rfl

@[simp] theorem definitions_setBranches : (s.setBranches kind b).definitions = s.definitions := by
  cases kind <;> rfl

@[simp] theorem tape_setBranches : (s.setBranches kind b).tape = s.tape := by
  cases kind <;> rfl

@[simp] theorem blocks_setBranches : (s.setBranches kind b).blocks = s.blocks := by
  cases kind <;> rfl

end setBranches

theorem names_endDefine (s : Assembler) (d : Definition) :
    (s.endDefine d).definitions.names = s.definitions.names := by
  simp only [Definitions.names, Assembler.endDefine, List.map_map]
  refine List.map_congr_left fun x _ => ?_
  simp only [Function.comp_apply, Assembler.stopDefinition]
  split <;> rfl

theorem BodyCoherent.congr {s s' : Assembler} (h : BodyCoherent s)
    (hc : .definition ∈ s'.constructs ↔ .definition ∈ s.constructs)
    (hd : s'.definitions = s.definitions)
    (he : s'.storage.scopes.entered = s.storage.scopes.entered) : BodyCoherent s' := by
  cases h with
  | outside hb ho hent => exact .outside (by rwa [hc]) (by rwa [hd]) (by rwa [he])
  | inside d hb hmem hs ho hent =>
    exact .inside d (hc.mpr hb) (by rwa [hd]) hs (by rwa [hd]) (by rwa [he])

namespace Coherent

variable {stuck : BranchKind → Prop} {s : Assembler}

theorem simple (h : Coherent stuck s) {c : Simple} {st : Storage}
    {code : List (Instruction Target)} (log : Array Event) (hr : c.assemble s = .ok (st, code)) :
    Coherent stuck { s with storage := st, tape := s.tape.emitAll code, log } := by
  have htape := h.tape.emitAll code
  rcases assemble_storage hr with ⟨rfl, -⟩ | ⟨name, pool, -, hc, hused, -, rfl⟩
  · exact { h with tape := htape, body := h.body.congr Iff.rfl rfl rfl }
  · refine { h with
      tape := htape, body := h.body.congr Iff.rfl rfl rfl, keys_nodup := ?_, cells := ?_ }
    · have hkeys : (s.storage.grow name pool).keys =
          s.storage.keys ++ [(s.storage.scopes.current, name)] := by
        simp [Storage.keys, Storage.grow]
      rw [hkeys, List.nodup_append_comm, List.singleton_append, List.nodup_cons]
      exact ⟨cellIn?_eq_none_iff.mp hc, h.keys_nodup⟩
    · simp only [Storage.grow, List.map_append, hused, List.range_succ, h.cells]
      rfl

theorem define (h : Coherent stuck s) (line : Nat) {name : String}
    (hb : .definition ∉ s.constructs) (hn : s.definitions.find? name = none) :
    Coherent stuck (s.define line name) := by
  have hout : s.definitions.opened = [] ∧ s.storage.scopes.entered = [] := by
    cases h.body with
    | outside _ ho he => exact ⟨ho, he⟩
    | inside d hin => exact absurd hin hb
  have hc : (s.define line name).constructs = .definition :: s.constructs := rfl
  have hnames : (s.define line name).definitions.names = s.definitions.names ++ [name] := by
    simp [Definitions.names, Assembler.define, Assembler.newDefinition]
  refine { h with
    constructs_nodup := ?_, names_nodup := ?_, children := ?_, body := ?_, isOpen := ?_,
    stuck_blockless := ?_, tape := h.tape.emitAll _ }
  · rw [hc, List.nodup_cons]
    exact ⟨hb, h.constructs_nodup⟩
  · rw [hnames, List.nodup_append_comm, List.singleton_append, List.nodup_cons]
    refine ⟨fun hmem => ?_, h.names_nodup⟩
    obtain ⟨d, hd, hname⟩ := List.mem_map.mp hmem
    exact find?_eq_none_iff.mp hn d hd hname
  · rw [hnames, List.map_append, ← h.children]
    simp [Assembler.define]
  · refine .inside (s.newDefinition name) ?_ ?_ rfl ?_ ?_
    · simp [hc]
    · simp [Assembler.define]
    · simp [Assembler.define, Assembler.newDefinition, hout.1]
    · simp [Assembler.define, Assembler.newDefinition, hout.2]
  · intro kind
    have hk : (s.define line name).branches kind = s.branches kind := rfl
    rw [hk, hc, List.mem_cons]
    simpa using h.isOpen kind
  · intro kind hk
    rw [hc, List.mem_cons]
    simpa using h.stuck_blockless kind hk

/-- The blocks that are open when the innermost is closed. -/
theorem not_mem_tail (h : Coherent stuck s) {c : Construct} (hc : s.constructs.head? = some c) :
    s.constructs = c :: s.constructs.tail ∧ c ∉ s.constructs.tail := by
  have heq := List.cons_head?_tail hc
  have hnd := h.constructs_nodup
  rw [← heq, List.nodup_cons] at hnd
  exact ⟨heq.symm, hnd.1⟩

theorem endDefine (h : Coherent stuck s) (hc : s.constructs.head? = some .definition)
    (d : Definition) : Coherent stuck (s.endDefine d) := by
  obtain ⟨heq, hnot⟩ := h.not_mem_tail hc
  obtain ⟨d', -, -, -, -, ho, he⟩ := h.inside (by rw [heq]; exact List.mem_cons_self)
  have hcs : (s.endDefine d).constructs = s.constructs.tail := by
    simp [Assembler.constructs, Assembler.endDefine, List.map_tail]
  have hnames := names_endDefine s d
  have hmem : ∀ kind, .branch kind ∈ s.constructs.tail ↔ .branch kind ∈ s.constructs := by
    intro kind
    rw [heq, List.tail_cons]
    simp
  refine { h with
    constructs_nodup := ?_, names_nodup := ?_, children := ?_, body := ?_, isOpen := ?_,
    stuck_blockless := ?_, tape := h.tape.emitAll _ }
  · rw [hcs]
    exact h.constructs_nodup.tail
  · rw [hnames]
    exact h.names_nodup
  · rw [hnames]
    exact h.children
  · refine .outside (by rwa [hcs]) ?_ ?_
    · simp [Assembler.endDefine, ho]
    · simp [Assembler.endDefine, he]
  · intro kind
    rw [hcs, hmem]
    exact h.isOpen kind
  · intro kind hk
    rw [hcs, hmem]
    exact h.stuck_blockless kind hk

/-- A change to the blocks and to the branches of one kind keeps the state coherent if it does so
for that kind. -/
theorem of_branches (h : Coherent stuck s) {e : Assembler} {kind : BranchKind}
    (hstorage : e.storage = s.storage) (hdefs : e.definitions = s.definitions)
    (htape : e.tape.Fresh) (hnodup : e.constructs.Nodup)
    (hmem : ∀ c, c ≠ .branch kind → (c ∈ e.constructs ↔ c ∈ s.constructs))
    (hother : ∀ kind', kind' ≠ kind → e.branches kind' = s.branches kind')
    (hform : (e.branches kind).form = kind.form)
    (hopen : (e.branches kind).isOpen = true ↔ .branch kind ∈ e.constructs)
    (hlast : (e.branches kind).isOpen = true →
      ∃ pre b, (e.branches kind).all = pre ++ [b] ∧ b.stop.address = none)
    (hfree : ¬ stuck kind) : Coherent stuck e := by
  have hne : ∀ {kind'}, kind' ≠ kind → Construct.branch kind' ≠ .branch kind := by
    intro kind' hk he
    exact hk (Construct.branch.inj he)
  refine
    { constructs_nodup := hnodup, names_nodup := ?_, root := ?_, children := ?_, body := ?_,
      form := ?_, isOpen := ?_, stuck_blockless := ?_, last := ?_, keys_nodup := ?_, cells := ?_,
      tape := htape }
  · rw [hdefs]
    exact h.names_nodup
  · rw [hstorage]
    exact h.root
  · rw [hstorage, hdefs]
    exact h.children
  · exact h.body.congr (hmem _ (by simp)) hdefs (by rw [hstorage])
  · intro kind'
    by_cases hk : kind' = kind
    · rwa [hk]
    · rw [hother kind' hk]
      exact h.form kind'
  · intro kind'
    by_cases hk : kind' = kind
    · simp [hk, hopen, hfree]
    · rw [hother kind' hk, hmem _ (hne hk)]
      exact h.isOpen kind'
  · intro kind' hs
    have hk : kind' ≠ kind := by
      rintro rfl
      exact hfree hs
    rw [hmem _ (hne hk)]
    exact h.stuck_blockless kind' hs
  · intro kind'
    by_cases hk : kind' = kind
    · rwa [hk]
    · rw [hother kind' hk]
      exact h.last kind'
  · rw [hstorage]
    exact h.keys_nodup
  · rw [hstorage]
    exact h.cells

theorem branch (h : Coherent stuck s) (line : Nat) {kind : BranchKind}
    (test : List (Instruction Target)) (ho : (s.branches kind).isOpen = false) :
    Coherent stuck (s.branch line kind test) := by
  have hc : (s.branch line kind test).constructs = .branch kind :: s.constructs := by
    simp [Assembler.constructs, Assembler.branch]
  have hnot : ¬ (.branch kind ∈ s.constructs ∨ stuck kind) := by
    rw [← h.isOpen kind, ho]
    simp
  have hself : (s.branch line kind test).branches kind =
      ⟨(s.branches kind).form, (s.branches kind).all ++ [s.newBranch kind test.length], true⟩ := by
    cases kind <;> rfl
  refine h.of_branches (by simp [Assembler.branch]) (by simp [Assembler.branch])
    (h.tape.emitAll _) ?_ ?_ ?_ ?_ ?_ ?_ fun hs => hnot (.inr hs)
  · rw [hc, List.nodup_cons]
    exact ⟨fun hmem => hnot (.inl hmem), h.constructs_nodup⟩
  · intro c hne
    rw [hc, List.mem_cons]
    simp [hne]
  · intro kind' hne
    cases kind <;> cases kind' <;> first | rfl | exact absurd rfl hne
  · rw [hself]
    exact h.form kind
  · simp [hself, hc]
  · rw [hself]
    exact fun _ => ⟨_, _, rfl, rfl⟩

theorem endBranch (h : Coherent stuck s) {kind : BranchKind}
    (hc : s.constructs.head? = some (.branch kind)) (number : Nat) (b : Branch) :
    Coherent stuck (s.endBranch kind number b) := by
  obtain ⟨heq, hnot⟩ := h.not_mem_tail hc
  have hcs : (s.endBranch kind number b).constructs = s.constructs.tail := by
    simp [Assembler.constructs, Assembler.endBranch, List.map_tail]
  have hfree : ¬ stuck kind := fun hs =>
    h.stuck_blockless kind hs (by rw [heq]; exact List.mem_cons_self)
  have hself : ((s.endBranch kind number b).branches kind).form = (s.branches kind).form ∧
      ((s.endBranch kind number b).branches kind).isOpen = false := by
    cases kind <;> exact ⟨rfl, rfl⟩
  refine h.of_branches (by simp [Assembler.endBranch])
    (by simp [Assembler.endBranch]) (h.tape.emitAll _) ?_ ?_ ?_ ?_ ?_ ?_ hfree
  · rw [hcs]
    exact h.constructs_nodup.tail
  · intro c hne
    rw [hcs]
    conv_rhs => rw [heq, List.mem_cons]
    simp [hne]
  · intro kind' hne
    cases kind <;> cases kind' <;> first | rfl | exact absurd rfl hne
  · rw [hself.1]
    exact h.form kind
  · simp [hself.2, hcs, hnot]
  · simp [hself.2]

/-- **What is enabled keeps the state coherent.** -/
theorem effect (h : Coherent stuck s) {c : Clause} (he : c.Enabled s) (line : Nat) :
    Coherent stuck (c.effect line s) := by
  have ht := h.takes he line
  generalize c.effect line s = e at ht ⊢
  cases ht with
  | simple hr => exact h.simple _ hr
  | define hb hn => exact h.define line hb hn
  | @branch kind condition test ho => exact h.branch line test ho
  | @endDefine d hc => exact h.endDefine hc d
  | @endBranch kind pre b hc => exact h.endBranch hc pre.length b

/-- The state before the first line. -/
theorem initial (st : Storage) (hr : st.scopes = { root := Scopes.mainName })
    (hu : st.pool.used = 0) : Coherent (fun _ => False) { storage := st } := by
  refine
    { constructs_nodup := List.nodup_nil, names_nodup := List.nodup_nil, root := by simp [hr],
      children := by simp [hr, Definitions.names], body := .outside (by simp [Assembler.constructs])
        rfl (by simp [hr]), form := ?_,
      isOpen := ?_, stuck_blockless := ?_, last := ?_, keys_nodup := ?_, cells := ?_,
      tape := Tape.fresh_empty }
  · intro kind
    cases kind <;> rfl
  · intro kind
    cases kind <;> simp [Assembler.branches, Assembler.constructs]
  · exact fun _ hf => hf.elim
  · intro kind ho
    cases kind <;> simp [Assembler.branches] at ho
  · simp [Storage.keys, hr]
  · simp [hr, hu]

end Coherent

/-! ## Runs -/

/-- Clauses that are carried out one after the other, each on some line. -/
inductive Steps : List Clause → Assembler → Assembler → Prop
  | nil {s : Assembler} : Steps [] s s
  | cons {c : Clause} {cs : List Clause} {s s' : Assembler} (line : Nat) (he : c.Enabled s)
      (h : Steps cs (c.effect line s) s') : Steps (c :: cs) s s'

theorem steps_append_iff {cs ds : List Clause} {s s' : Assembler} :
    Steps (cs ++ ds) s s' ↔ ∃ m, Steps cs s m ∧ Steps ds m s' := by
  induction cs generalizing s with
  | nil =>
    constructor
    · exact fun h => ⟨s, .nil, h⟩
    · rintro ⟨m, h, h'⟩
      cases h
      exact h'
  | cons c cs ih =>
    constructor
    · intro h
      cases h with
      | cons line he h =>
        obtain ⟨m, hm, hm'⟩ := ih.mp h
        exact ⟨m, .cons line he hm, hm'⟩
    · rintro ⟨m, h, h'⟩
      cases h with
      | cons line he h => exact .cons line he (ih.mpr ⟨m, h, h'⟩)

theorem Steps.coherent {stuck : BranchKind → Prop} {cs : List Clause} {s s' : Assembler}
    (hs : Steps cs s s') (h : Coherent stuck s) : Coherent stuck s' := by
  induction hs with
  | nil => exact h
  | cons line he _ ih => exact ih (h.effect he line)

theorem run_cons_eq_ok_iff {source : String} {line : SourceLine} {lines : List SourceLine}
    {s s' : Assembler} :
    Assembler.run source (line :: lines) s = .ok () s' ↔
      ∃ m, Assembler.process line s = .ok () m ∧ Assembler.run source lines m = .ok () s' := by
  simp only [Assembler.run, Step.bind_apply, Assembler.step]
  cases Assembler.process line s <;> simp

/-- **A run without a fault carries out the clauses that the lines read as.** -/
theorem steps_of_run {stuck : BranchKind → Prop} {source : String} {lines : List SourceLine}
    {s s' : Assembler} (h : Coherent stuck s) (hr : Assembler.run source lines s = .ok () s') :
    ∃ cs, ReadsLines lines cs ∧ (∀ c ∈ cs, c.Named) ∧ Steps cs s s' := by
  induction lines generalizing s with
  | nil =>
    cases hr
    exact ⟨[], .nil, by simp, .nil⟩
  | cons line lines ih =>
    obtain ⟨m, hp, hr⟩ := run_cons_eq_ok_iff.mp hr
    obtain ⟨c, hreads, hnamed, he, rfl⟩ := (process_eq_ok_iff h).mp hp
    obtain ⟨cs, hcs, hn, hsteps⟩ := ih (h.effect he line.number) hr
    refine ⟨c :: cs, .cons hreads hcs, ?_, .cons line.number he hsteps⟩
    simpa using ⟨hnamed, hn⟩

end TapeMachine

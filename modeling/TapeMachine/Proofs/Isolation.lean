import TapeMachine.Proofs.Renaming

/-!
# Names do not matter

A program means the same under other names. The proof runs the program and the renamed one side by
side. What is kept (`Assembler.Mirrors`) says of the storage only what a line can ask for: in the
current scope, and in the main scope that it may come back to, every variable has under its new name
the cell that it has under its old one. The scopes that have been left are never asked again, so
nothing is said about them, and that is why each can be renamed on its own.

* `Assembler.Mirrors.exec`: a statement keeps the two states alike.
* `Assembler.Mirrors.words_settled`: states that are alike have the same words on their tapes.
* `verdict_of_renames`: a text and the renamed text come to the same.
-/

namespace TapeMachine

variable {r : Renaming} {body : Option Nat}

/-! ## Variables -/

/-- The second storage is the first under the new names. -/
structure Storage.Mirrors (r : Renaming) (body : Option Nat) (st st' : Storage) : Prop where
  pool : st'.pool = st.pool
  main : ∀ name, st'.scopes.cellIn? Scopes.mainName (respell r.main name) =
    st.scopes.cellIn? Scopes.mainName name
  current : ∀ name, st'.scopes.cell? (respell (r.names body) name) = st.scopes.cell? name
  /-- Both are in the main scope, or neither is. -/
  level : st'.scopes.current = Scopes.mainName ↔ st.scopes.current = Scopes.mainName
  /-- No body is renamed in the main scope. -/
  outside : st.scopes.current = Scopes.mainName → body = none

namespace Storage.Mirrors

variable {st st' : Storage}

theorem agree_resolve (h : st.Mirrors r body st') (name : String) :
    Agree .reasons (· = ·) (st.scopes.resolve name)
      (st'.scopes.resolve (respell (r.names body) name)) := by
  unfold Scopes.resolve
  rw [h.current]
  cases st.scopes.cell? name with
  | some cell => exact .ok rfl
  | none => exact .fault rfl

theorem agree_read (h : st.Mirrors r body st') (word : String) :
    Agree .reasons (· = ·) (st.read word) (st'.read (respellOperand (r.names body) word)) := by
  unfold Storage.read
  rw [parse_respellOperand]
  cases Operand.parse word with
  | error f => exact .fault rfl
  | ok operand =>
    cases operand with
    | immediate n => exact .ok rfl
    | direct address => exact .ok rfl
    | var name =>
      refine (h.agree_resolve name).bind fun cell cell' hcell => ?_
      subst hcell
      exact .ok rfl

theorem agree_write (h : st.Mirrors r body st') (word : String) :
    Agree .reasons (· = ·) (st.write word) (st'.write (respellOperand (r.names body) word)) := by
  unfold Storage.write
  rw [parse_respellOperand]
  cases Operand.parse word with
  | error f => exact .fault rfl
  | ok operand =>
    cases operand with
    | immediate n => exact .fault rfl
    | direct address => exact .ok rfl
    | var name => exact h.agree_resolve name

/-- A variable that gets a cell gets it under both names. -/
theorem bind (h : st.Mirrors r body st') {name : String} (hn : st.scopes.cell? name = none)
    (pool : CellPool) (cell : Int) :
    Storage.Mirrors r body ⟨pool, st.scopes.bind name cell⟩
      ⟨pool, st'.scopes.bind (respell (r.names body) name) cell⟩ where
  pool := rfl
  main := by
    intro x
    have hn' := (h.current name).trans hn
    rw [Scopes.cellIn?_bind hn, Scopes.cellIn?_bind hn', h.main]
    by_cases hc : st.scopes.current = Scopes.mainName
    · -- the main scope is the current one, and its variables go by the same new names
      have hnames : r.names body = r.main := by
        rw [h.outside hc]
        rfl
      simp only [hc, h.level.mpr hc, hnames, (respell_injective r.main).eq_iff]
    · have hc' := mt h.level.mp hc
      rw [if_neg fun heq => hc' heq.1.symm, if_neg fun heq => hc heq.1.symm]
  current := by
    intro x
    have hn' := (h.current name).trans hn
    simp only [Scopes.cell?, Scopes.current_bind, Scopes.cellIn?_bind hn,
      Scopes.cellIn?_bind hn', true_and, (respell_injective (r.names body)).eq_iff]
    split
    · rfl
    · exact h.current x
  level := by
    rw [Scopes.current_bind, Scopes.current_bind]
    exact h.level
  outside := by
    rw [Scopes.current_bind]
    exact h.outside

theorem agree_claim (h : st.Mirrors r body st') (word : String) :
    Agree .reasons (fun p p' => p'.1 = p.1 ∧ p.2.Mirrors r body p'.2) (st.claim word)
      (st'.claim (respellOperand (r.names body) word)) := by
  unfold Storage.claim
  rw [parse_respellOperand]
  cases Operand.parse word with
  | error f => exact .fault rfl
  | ok operand =>
    cases operand with
    | immediate n => exact .fault rfl
    | direct address => exact .ok ⟨rfl, h⟩
    | var name =>
      show Agree .reasons _ (st.place name) (st'.place (respell (r.names body) name))
      unfold Storage.place
      rw [h.current, h.pool]
      cases hn : st.scopes.cell? name with
      | some cell => exact .ok ⟨rfl, h⟩
      | none =>
        refine (Agree.refl _).bind fun p p' hp => ?_
        subst hp
        exact .ok ⟨rfl, h.bind hn p.2 p.1⟩

end Storage.Mirrors

/-! ## Definitions -/

/-- A definition under another name. -/
def Definition.respell (g : Identifier ↪ Identifier) (d : Definition) : Definition :=
  { d with
    name := TapeMachine.respell g d.name
    stop := ⟨TapeMachine.respell g d.name ++ ".end", d.stop.address⟩
    scope := some (Statement.scopeOf (TapeMachine.respell g d.name)) }

/-- A place behind a definition under its other name. -/
def Target.respell (g : Identifier ↪ Identifier) : Target → Target
  | .behindDefinition name => .behindDefinition (TapeMachine.respell g name)
  | .body kind number => .body kind number
  | .behindBranch kind number => .behindBranch kind number

/-- The second register is the first under other names. -/
structure Definitions.Mirrors (g : Identifier ↪ Identifier) (d d' : Definitions) : Prop where
  all : d'.all = d.all.map (Definition.respell g)
  opened : d'.opened = d.opened.map (respell g)

namespace Definitions.Mirrors

variable {g : Identifier ↪ Identifier} {d d' : Definitions}

theorem find? (h : d.Mirrors g d') (name : String) :
    d'.find? (respell g name) = (d.find? name).map (Definition.respell g) := by
  have hkey : ∀ x : Definition, (x.respell g).name = respell g name ↔ x.name = name :=
    fun x => (respell_injective g).eq_iff
  simp only [Definitions.find?, h.all, List.find?_map, Function.comp_def, hkey]

theorem latest (h : d.Mirrors g d') : d'.latest = d.latest.map (Definition.respell g) := by
  unfold Definitions.latest
  rw [h.opened, List.head?_map]
  cases d.opened.head? with
  | none => rfl
  | some name =>
    simp only [Option.map_some, Option.bind_some, h.find?]
    cases d.find? name <;> rfl

theorem agree_latest (h : d.Mirrors g d') :
    Agree .reasons (fun x x' => x' = x.respell g) d.latest d'.latest := by
  rw [h.latest]
  cases d.latest with
  | error f => exact .fault rfl
  | ok x => exact .ok rfl

theorem agree_resolve (h : d.Mirrors g d') (name : String) :
    Agree .reasons (fun x x' => x' = x.respell g) (d.resolve name)
      (d'.resolve (respell g name)) := by
  unfold Definitions.resolve
  rw [h.find?]
  cases d.find? name with
  | none => exact .fault rfl
  | some x => exact .ok rfl

end Definitions.Mirrors

/-! ## Code -/

section Code

variable {L M : Type}

/-- A field with another label. -/
def Slot.relabel (f : L → M) : Slot L → Slot M
  | .number n => .number n
  | .register x => .register x
  | .label l => .label (f l)

/-- An instruction with other labels and without its comment. -/
def Instruction.outline (f : L → M) (i : Instruction L) : Instruction M where
  opcode := i.opcode
  a := i.a.relabel f
  b := i.b.relabel f
  destination := i.destination.relabel f

/-- Labels can be replaced by addresses under either name. -/
theorem words?_settle_outline (f : L → M) (address : M → Option Int) (i : Instruction L) :
    ((i.outline f).settle address).words? = (i.settle fun l => address (f l)).words? := by
  have hslot : ∀ slot : Slot L, ((slot.relabel f).settle address).word? =
      (slot.settle fun l => address (f l)).word? := by
    intro slot
    cases slot with
    | number n => rfl
    | register x => rfl
    | label l =>
      simp only [Slot.relabel, Slot.settle]
      cases address (f l) <;> rfl
  simp only [Instruction.words?, Instruction.settle, Instruction.outline, hslot]

end Code

/-- The second code is the first under other names of the definitions. -/
def SameCode (g : Identifier ↪ Identifier) (code code' : List (Instruction Target)) : Prop :=
  code'.map (Instruction.outline id) = code.map (Instruction.outline (Target.respell g))

namespace SameCode

variable {g : Identifier ↪ Identifier} {code code' more more' : List (Instruction Target)}

theorem length_eq (h : SameCode g code code') : code'.length = code.length := by
  simpa using congrArg List.length h

theorem append (h : SameCode g code code') (hmore : SameCode g more more') :
    SameCode g (code ++ more) (code' ++ more') := by
  unfold SameCode at *
  rw [List.map_append, List.map_append, h, hmore]

theorem store (opcode : Opcode) (left right : Value) (cell : Int) (comment comment' : String) :
    SameCode g (Code.store opcode left right cell comment)
      (Code.store opcode left right cell comment') := by
  cases left <;> cases right <;> rfl

theorem branch (p : Predicate) (left right : Value) (kind : BranchKind) (number : Nat)
    (comment comment' : String) :
    SameCode g (Code.branch p left right (.label (.body kind number)) comment)
      (Code.branch p left right (.label (.body kind number)) comment') := by
  cases left <;> cases right <;> rfl

end SameCode

/-! ## States -/

/-- The second state is the first under the new names; the line to come lies in the given body. -/
structure Assembler.Mirrors (r : Renaming) (body : Option Nat) (s s' : Assembler) : Prop where
  storage : s.storage.Mirrors r body s'.storage
  definitions : s.definitions.Mirrors r.definition s'.definitions
  branches : ∀ kind, s'.branches kind = s.branches kind
  blocks : s'.blocks = s.blocks
  code : SameCode r.definition s.tape.instructions s'.tape.instructions

/-- A simple statement under the new names. -/
def Simple.respell (f g : Identifier ↪ Identifier) : Simple → Simple
  | .assign destination source => .assign (respellOperand f destination) (respellOperand f source)
  | .combine op left right destination =>
    .combine op (respellOperand f left) (respellOperand f right) (respellOperand f destination)
  | .compare c left right destination =>
    .compare c (respellOperand f left) (respellOperand f right) (respellOperand f destination)
  | .constant c destination => .constant c (respellOperand f destination)
  | .call name => .call (TapeMachine.respell g name)

namespace Assembler.Mirrors

variable {s s' : Assembler}

theorem size_eq (h : s.Mirrors r body s') : s'.tape.size = s.tape.size := h.code.length_eq

theorem agree_assemble (h : s.Mirrors r body s') (c : Simple) :
    Agree .reasons (fun p p' => p.1.Mirrors r body p'.1 ∧ SameCode r.definition p.2 p'.2)
      (c.assemble s) ((c.respell (r.names body) r.definition).assemble s') := by
  cases c with
  | assign destination source =>
    refine (h.storage.agree_read source).bind fun v v' hv => ?_
    refine (h.storage.agree_claim destination).bind fun p p' hp => ?_
    obtain ⟨cell, st⟩ := p
    obtain ⟨cell', st'⟩ := p'
    obtain ⟨hcell, hst⟩ := hp
    dsimp only at hcell hst
    subst hv hcell
    exact .ok ⟨hst, rfl⟩
  | combine op left right destination =>
    refine (h.storage.agree_read left).bind fun v v' hv => ?_
    refine (h.storage.agree_read right).bind fun w w' hw => ?_
    refine (h.storage.agree_write destination).bind fun cell cell' hcell => ?_
    subst hv hw hcell
    exact .ok ⟨h.storage, .store _ _ _ _ _ _⟩
  | compare c left right destination =>
    refine (h.storage.agree_read left).bind fun v v' hv => ?_
    refine (h.storage.agree_read right).bind fun w w' hw => ?_
    refine (h.storage.agree_write destination).bind fun cell cell' hcell => ?_
    subst hv hw hcell
    exact .ok ⟨h.storage, .store _ _ _ _ _ _⟩
  | constant c destination =>
    refine (h.storage.agree_write destination).bind fun cell cell' hcell => ?_
    subst hcell
    exact .ok ⟨h.storage, rfl⟩
  | call name =>
    refine (h.definitions.agree_resolve name).bind fun d d' hd => ?_
    subst hd
    rw [h.size_eq]
    exact .ok ⟨h.storage, rfl⟩

theorem agree_test (h : s.Mirrors r body s') (kind : BranchKind) (words : List String) :
    Agree .reasons (SameCode r.definition) (s.test kind words)
      (s'.test kind (words.map (respellOperand (r.names body)))) := by
  refine (agree_parse_condition _ kind words).bind fun c c' hc => ?_
  have hnext : s'.nextBody kind = s.nextBody kind := by
    rw [Assembler.nextBody, Assembler.nextBody, h.branches]
  subst hc
  rw [hnext]
  cases c with
  | compare p left right =>
    refine (h.storage.agree_read left).bind fun v v' hv => ?_
    refine (h.storage.agree_read right).bind fun w w' hw => ?_
    subst hv hw
    exact .ok (.branch _ _ _ _ _ _ _)
  | constant p => exact .ok rfl

/-- A simple statement, on both sides. -/
theorem simple (h : s.Mirrors r body s') (line : Nat) (c : Simple) :
    Alongside .reasons (Assembler.Mirrors r body) (c.statement.exec line s)
      ((c.respell (r.names body) r.definition).statement.exec line s') := by
  refine .simple (h.agree_assemble c) trivial fun p p' hp => ?_
  refine { h with storage := hp.1, code := ?_ }
  simp only [Assembler.extend, Tape.instructions_emitAll]
  exact h.code.append hp.2

/-- A definition is started: its scope is new on both sides, so no variable of it has a cell. -/
theorem define (h : s.Mirrors r body s') (hs : Healthy s) (hs' : Healthy s') {name : String}
    (hn : s.definitions.find? name = none) (line : Nat) :
    Assembler.Mirrors r (some line) (s.define line name)
      (s'.define line (respell r.definition name)) where
  storage := by
    have hn' : s'.definitions.find? (respell r.definition name) = none := by
      rw [h.definitions.find?, hn]
      rfl
    refine ⟨h.storage.pool, h.storage.main, fun x => ?_, ?_, fun hmain => ?_⟩
    · exact (hs'.cellIn?_scopeOf hn' _).trans (hs.cellIn?_scopeOf hn x).symm
    · exact iff_of_false (scopeOf_ne_mainName _) (scopeOf_ne_mainName _)
    · exact absurd hmain (scopeOf_ne_mainName _)
  definitions := by
    refine ⟨?_, ?_⟩
    · simp only [Assembler.define, h.definitions.all, List.map_append, List.map_cons, List.map_nil,
        Assembler.newDefinition, Definition.respell, h.size_eq]
    · simp only [Assembler.define, h.definitions.opened, List.map_cons]
  branches := h.branches
  blocks := by simp only [Assembler.define, h.blocks]
  code := by
    simp only [Assembler.define, Tape.instructions_emitAll]
    exact h.code.append rfl

/-- Behind a definition the main scope is current again. -/
theorem current_endDefine {stuck : BranchKind → Prop} (hs : Coherent stuck s)
    (hb : .definition ∈ s.constructs) (d : Definition) :
    (s.endDefine d).storage.scopes.current = Scopes.mainName := by
  obtain ⟨_, -, -, -, -, -, hentered⟩ := hs.inside hb
  simp only [Assembler.endDefine, Scopes.current, hentered, List.tail_cons, List.headD_nil, hs.root]

/-- A definition is ended. What was the current scope is not looked at any more. -/
theorem endDefine (h : s.Mirrors r body s') (hs : Healthy s) (hs' : Healthy s')
    (hb : .definition ∈ s.constructs) (d : Definition) :
    Assembler.Mirrors r none (s.endDefine d) (s'.endDefine (d.respell r.definition)) where
  storage := by
    have hb' : .definition ∈ s'.constructs := by rwa [Assembler.constructs, h.blocks]
    have hcurrent := current_endDefine hs.coherent hb d
    have hcurrent' := current_endDefine hs'.coherent hb' (d.respell r.definition)
    refine ⟨h.storage.pool, h.storage.main, fun x => ?_, ?_, fun _ => rfl⟩
    · rw [Scopes.cell?, Scopes.cell?, hcurrent, hcurrent']
      exact h.storage.main x
    · exact iff_of_true hcurrent' hcurrent
  definitions := by
    refine ⟨?_, ?_⟩
    · simp only [Assembler.endDefine, h.definitions.all, h.size_eq, List.map_map]
      refine List.map_congr_left fun x _ => ?_
      have hkey : (x.respell r.definition).name = (d.respell r.definition).name ↔ x.name = d.name :=
        (respell_injective r.definition).eq_iff
      by_cases hx : x.name = d.name
      · simp [Assembler.stopDefinition, Definition.respell, hx]
      · simp only [Function.comp_apply, Assembler.stopDefinition, if_neg hx, if_neg (mt hkey.mp hx)]
    · simp only [Assembler.endDefine, h.definitions.opened, List.map_tail]
  branches := h.branches
  blocks := by simp only [Assembler.endDefine, h.blocks]
  code := by
    simp only [Assembler.endDefine, Tape.instructions_emitAll]
    exact h.code.append rfl

/-- The branches of a kind are replaced by the same on both sides. -/
theorem branches_setBranches (h : s.Mirrors r body s') (kind k : BranchKind) (b : Branches) :
    (s'.setBranches kind b).branches k = (s.setBranches kind b).branches k := by
  have hk := h.branches k
  cases kind <;> cases k <;> first | rfl | exact hk

theorem branch (h : s.Mirrors r body s') {test test' : List (Instruction Target)}
    (ht : SameCode r.definition test test') (line : Nat) (kind : BranchKind) :
    Assembler.Mirrors r body (s.branch line kind test) (s'.branch line kind test') where
  storage := by
    simp only [Assembler.branch, storage_setBranches]
    exact h.storage
  definitions := by
    simp only [Assembler.branch, definitions_setBranches]
    exact h.definitions
  branches := by
    have hnew : s'.newBranch kind test'.length = s.newBranch kind test.length := by
      simp only [Assembler.newBranch, h.branches, Tape.here, h.size_eq, ht.length_eq]
    intro k
    unfold Assembler.branch
    rw [hnew, h.branches]
    exact h.branches_setBranches kind k _
  blocks := by simp only [Assembler.branch, h.blocks]
  code := by
    simp only [Assembler.branch, Tape.instructions_emitAll]
    refine h.code.append (ht.append ?_)
    rw [h.branches]
    rfl

theorem endBranch (h : s.Mirrors r body s') (kind : BranchKind) (number : Nat) (b : Branch) :
    Assembler.Mirrors r body (s.endBranch kind number b) (s'.endBranch kind number b) where
  storage := by
    simp only [Assembler.endBranch, storage_setBranches]
    exact h.storage
  definitions := by
    simp only [Assembler.endBranch, definitions_setBranches]
    exact h.definitions
  branches := by
    intro k
    unfold Assembler.endBranch
    rw [h.branches, h.size_eq]
    exact h.branches_setBranches kind k _
  blocks := by simp only [Assembler.endBranch, h.blocks]
  code := by
    simp only [Assembler.endBranch, Tape.instructions_emitAll]
    refine h.code.append ?_
    cases kind <;> rfl

theorem constructs_eq (h : s.Mirrors r body s') : s'.constructs = s.constructs := by
  rw [Assembler.constructs, Assembler.constructs, h.blocks]

/-- **A statement keeps the two states alike, or fails on both sides.** -/
theorem exec (h : s.Mirrors r body s') (hs : Healthy s) (hs' : Healthy s') (line : Nat)
    (st : Statement) :
    Alongside .reasons (Assembler.Mirrors r (st.bodyBehind line body)) (st.exec line s)
      ((st.respell (r.names body) r.definition).exec line s') := by
  cases st with
  | assign d src => exact h.simple line (.assign d src)
  | combine op x y d => exact h.simple line (.combine op x y d)
  | compare c x y d => exact h.simple line (.compare c x y d)
  | constant c d => exact h.simple line (.constant c d)
  | call name => exact h.simple line (.call name)
  | define name =>
    exact .define hs hs' (.mayDefine h.definitions.latest (h.definitions.find? name)) trivial
      fun hn _ => h.define hs hs' hn line
  | endDefine =>
    refine .endDefine hs hs' (.mayClose h.constructs_eq h.definitions.agree_latest) trivial ?_
    rintro hb d _ rfl
    exact h.endDefine hs hs' hb d
  | branch kind words =>
    exact .branch hs hs' (.mayBranch (by rw [h.branches]) (h.agree_test kind words)) trivial
      fun _ _ ht => h.branch ht line kind
  | endBranch kind =>
    exact .endBranch hs hs' (.mayClose h.constructs_eq (.of_eq (by rw [h.branches]))) trivial
      (h.endBranch kind)

/-- A line and the renamed line. -/
theorem process (h : s.Mirrors r body s') (hs : Healthy s) (hs' : Healthy s')
    (line : SourceLine) :
    Alongside .reasons (Assembler.Mirrors r (line.bodyBehind body)) (Assembler.process line s)
      (Assembler.process (r.line body line) s') := by
  have hparse : Agree .reasons (fun st st' => st' = st.respell (r.names body) r.definition)
      (Statement.parse line.head line.args)
      (Statement.parse (r.line body line).head (r.line body line).args) := by
    rw [r.parse_line]
    cases Statement.parse line.head line.args with
    | error f => exact .fault rfl
    | ok st => exact .ok rfl
  refine .process hparse trivial ?_
  rintro st _ rfl hst
  rw [SourceLine.bodyBehind, hst]
  exact h.exec hs hs' line.number st

theorem address_eq (h : s.Mirrors r body s') (t : Target) :
    s'.address (t.respell r.definition) = s.address t := by
  cases t with
  | behindDefinition name =>
    simp only [Assembler.address, Target.respell, Assembler.label, h.definitions.find?]
    cases s.definitions.find? name <;> rfl
  | body kind number => simp only [Assembler.address, Target.respell, Assembler.label, h.branches]
  | behindBranch kind number =>
    simp only [Assembler.address, Target.respell, Assembler.label, h.branches]

/-- **States that are alike have the same words on their tapes.** -/
theorem words_settled (h : s.Mirrors r body s') :
    s'.settled.map Instruction.words? = s.settled.map Instruction.words? := by
  have hwords := congrArg (List.map fun i => (i.settle s'.address).words?) h.code
  simp only [List.map_map, Function.comp_def, words?_settle_outline, id, h.address_eq] at hwords
  simpa only [Assembler.settled, List.map_map, Function.comp_def] using hwords

theorem start (r : Renaming) (options : Options) :
    Assembler.Mirrors r none options.start options.start where
  storage := ⟨rfl, fun _ => rfl, fun _ => rfl, Iff.rfl, fun _ => rfl⟩
  definitions := ⟨rfl, rfl⟩
  branches := fun _ => rfl
  blocks := rfl
  code := rfl

end Assembler.Mirrors

/-! ## Texts -/

/-- The program and the renamed program, run side by side. -/
theorem alongside_renamed (r : Renaming) (options : Options) (source : String)
    (lines : List SourceLine) :
    Alongside .reasons (fun e e' => ∃ body, e.Mirrors r body e')
      (Assembler.run source lines options.start)
      (Assembler.run source (r.lines none lines) options.start) := by
  let R : List SourceLine → List SourceLine → Assembler → Assembler → Prop :=
    fun lines lines' s s' => ∃ body, lines' = r.lines body lines ∧ s.Mirrors r body s'
  have hnil : ∀ lines' s s', R [] lines' s s' → lines' = [] := by
    rintro lines' s s' ⟨body, rfl, -⟩
    rfl
  have hcons : ∀ line lines more s s', R (line :: lines) more s s' → Healthy s → Healthy s' →
      ∃ line' lines', more = line' :: lines' ∧ line'.number = line.number ∧
        Alongside .reasons (R lines lines') (Assembler.process line s)
          (Assembler.process line' s') := by
    rintro line lines more s s' ⟨body, rfl, h⟩ hs hs'
    refine ⟨r.line body line, r.lines (line.bodyBehind body) lines, rfl, rfl, ?_⟩
    exact (h.process hs hs' line).mono fun e e' he => ⟨line.bodyBehind body, rfl, he⟩
  have hrun := Alongside.run hnil hcons source lines (r.lines none lines)
    ⟨none, rfl, .start r options⟩ (.start options) (.start options)
  exact hrun.mono fun e e' ⟨body, _, h⟩ => ⟨body, h⟩

/-- **Names do not matter.** Give new names to the variables of the main program, to the variables
of each body and to the definitions, each in its own way: there is a text with the new names, and
every such text comes to the same as the old one, under all options. -/
theorem verdict_of_renames (r : Renaming) (text : String) :
    (∃ text', r.Renames text text') ∧
      ∀ text', r.Renames text text' → ∀ options source,
        verdict text' options source = verdict text options source := by
  refine ⟨r.exists_renames text, fun text' hr options source => ?_⟩
  by_cases hm : 0 < options.memorySize
  · have hrun := alongside_renamed r options source (Source.statements text)
    rw [← hr] at hrun
    exact verdict_eq_of_alongside hm hrun fun e e' ⟨_, h⟩ => ⟨h.blocks, h.words_settled⟩
  · rw [verdict_of_memorySize_nonpos hm, verdict_of_memorySize_nonpos hm]

/-- A text whose body reads a variable that only another scope could have. -/
def strangerText : String := "VAR $x 1\nDEF f\nADD $y 1 $y\nENDDEF"

/-- In bodies `x` and `y` change places, and `f` becomes `x`; the main program stays. -/
def strangerRenaming : Renaming where
  main := .refl _
  body := fun _ => (Equiv.swap (⟨"x", by decide⟩ : Identifier) ⟨"y", by decide⟩).toEmbedding
  definition := (Equiv.swap (⟨"f", by decide⟩ : Identifier) ⟨"x", by decide⟩).toEmbedding

/-- Now the body reads a variable of the name that the main program has bound, and still in vain. -/
theorem verdict_of_strangerText :
    strangerRenaming.Renames strangerText "VAR $x 1\nDEF x\nADD $x 1 $x\nENDDEF" ∧
      verdict strangerText {} "main" = .error (.mistake .address (some 3)) ∧
      verdict "VAR $x 1\nDEF x\nADD $x 1 $x\nENDDEF" {} "main" =
        .error (.mistake .address (some 3)) := by
  have hr : strangerRenaming.Renames strangerText "VAR $x 1\nDEF x\nADD $x 1 $x\nENDDEF" := by
    decide +kernel
  have hfails : verdict strangerText {} "main" = .error (.mistake .address (some 3)) := by
    rw [verdict_of_run (by decide)]
    decide +kernel
  exact ⟨hr, hfails, ((verdict_of_renames strangerRenaming strangerText).2 _ hr {} "main").trans
    hfails⟩

end TapeMachine

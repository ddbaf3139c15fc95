import TapeMachine.Proofs.Sessions

/-!
# The books of a session

The blocks that are open are known in five places: in the stack of blocks, in the register of
definitions, in the two registers of branches, in the stack of scopes, and on the tape, where the
jumps over the open blocks wait for an address. Each of them is kept by other statements, and
statements may fail halfway.

* `bookkeeping_of_reaches`: the five agree (`Bookkeeping`), however often a session has failed.
* `preserved_of_process_eq_error`: this is so because a line that fails changes nothing
  (`Preserved`), unless it starts a branch whose condition is at fault. That branch is left in its
  register, open and without a block.
-/

namespace TapeMachine

/-- How the parts of the state agree after the given lines. -/
structure Bookkeeping (past : List Outcome) (s : Assembler) : Prop where
  /-- No kind of block is open twice. -/
  blocks : s.constructs.Nodup
  /-- A body is being written exactly if a definition is among the open blocks. -/
  definition : s.definitions.isOpen = true ↔ .definition ∈ s.constructs
  /-- Inside a definition: it is the only one, and its scope is the only one that is entered. -/
  inside : .definition ∈ s.constructs →
    ∃ d ∈ s.definitions.all, s.definitions.opened = [d.name] ∧ s.storage.scopes.depth = 1 ∧
      d.scope = some s.storage.scopes.current
  /-- Outside all definitions: the root is current. -/
  outside : .definition ∉ s.constructs →
    s.storage.scopes.depth = 0 ∧ s.storage.scopes.current = s.storage.scopes.root
  /-- The scopes are the root and those of the definitions. -/
  names : s.storage.scopes.names =
    s.storage.scopes.root :: s.definitions.names.map Statement.scopeOf
  /-- So a definition whose name is new never meets a scope that is there already. -/
  scope_free : ∀ line failure e, Assembler.process line s = .error failure e →
    ∀ name, failure ≠ .ofFault (.scopeTaken name)
  /-- A register of branches is open exactly if such a branch is among the open blocks, or if one
  has failed in its condition. -/
  branches : ∀ kind, (s.branches kind).isOpen = true ↔
    .branch kind ∈ s.constructs ∨ ∃ o ∈ past, o.FailedInside kind
  /-- After such a failure no branch of the kind can be started any more. -/
  stuck : ∀ kind, (∃ o ∈ past, o.FailedInside kind) → .branch kind ∉ s.constructs ∧
    ∀ line, Keyword.ofWord? line.head = some (.branch kind) →
      Assembler.process line s = .error (.ofFault (.nestedBranch kind.form.opener)) s
  /-- Nothing is left of a condition that has failed: a line is read as a statement of its own, and
  only one that starts a branch is refused for a keyword that no condition has. -/
  no_condition : ∀ line,
    (∀ e, Assembler.process line s = .ok () e → ∃ c, Reads line.head line.args c) ∧
      ∀ keyword opener e,
        Assembler.process line s = .error (.ofFault (.notACondition keyword opener)) e →
          ∃ kind, Keyword.ofWord? line.head = some (.branch kind)
  /-- The fields that wait for an address are those of the jumps over the open blocks, one for each
  block and in the order in which the blocks were opened. -/
  pending : s.pending.map some = s.constructs.reverse.map s.skip?
  /-- They are the first fields of jumps. -/
  jumps : ∀ f ∈ s.pending, f.field = .a ∧
    ∃ comment, s.tape.instructions[f.index]? = some (Code.jump (.label f.label) comment)
  /-- So the addresses can be written where no block is open: no label is left then, nothing waits
  for an address, and the instructions can be listed. -/
  resolves : s.blocks = [] → ∃ instructions e, Session.resolve s = .ok instructions e ∧
    Resolved instructions ∧ e.tape = ⟨instructions, []⟩ ∧
    ∀ style index, ∃ lines, listing e.label style index instructions = .ok lines

variable {past : List Outcome} {s e : Assembler} {line : SourceLine} {failure : Failure}

/-! ## Where the places agree -/

namespace Coherent

variable {stuck : BranchKind → Prop}

theorem definition_isOpen_iff (h : Coherent stuck s) :
    s.definitions.isOpen = true ↔ .definition ∈ s.constructs := by
  cases h.body with
  | outside hb ho => simp [Definitions.isOpen, ho, hb]
  | inside d hb _ _ ho => simp [Definitions.isOpen, ho, hb]

theorem outside (h : Coherent stuck s) (hb : .definition ∉ s.constructs) :
    s.storage.scopes.depth = 0 ∧ s.storage.scopes.current = s.storage.scopes.root := by
  cases h.body with
  | outside _ _ he => simp [Scopes.depth, Scopes.current, he]
  | inside d hin => exact absurd hin hb

theorem names (h : Coherent stuck s) :
    s.storage.scopes.names =
      s.storage.scopes.root :: s.definitions.names.map Statement.scopeOf := by
  rw [Scopes.names, h.children]

end Coherent

namespace Sound

theorem inside (h : Sound past s) (hb : .definition ∈ s.constructs) :
    ∃ d ∈ s.definitions.all, s.definitions.opened = [d.name] ∧ s.storage.scopes.depth = 1 ∧
      d.scope = some s.storage.scopes.current := by
  obtain ⟨d, hd, -, -, -, ho, he⟩ := h.coherent.inside hb
  refine ⟨d, hd, ho, by simp [Scopes.depth, he], ?_⟩
  rw [h.wired.scopes d hd]
  simp [Scopes.current, he]

/-- A branch of a kind of which one has failed in its condition is always refused, since that one
is never closed. -/
theorem stuck (h : Sound past s) {kind : BranchKind} (hstuck : Stuck past kind)
    (hk : Keyword.ofWord? line.head = some (.branch kind)) :
    Assembler.process line s = .error (.ofFault (.nestedBranch kind.form.opener)) s := by
  have hopen := (h.coherent.isOpen kind).mpr (.inr hstuck)
  cases hp : Assembler.process line s with
  | ok u e =>
    obtain ⟨c, hreads, -, he, -⟩ := (process_eq_ok_iff h.coherent).mp hp
    obtain ⟨condition, rfl⟩ := hreads.eq_branch hk
    rw [he.1] at hopen
    cases hopen
  | error failure e =>
    rcases (h.refused hp).state with ⟨hnested, rfl⟩ | ⟨kind', _, hk', hclosed, -⟩
    · rw [(hnested kind hk).2]
    · rw [hk, Option.some.injEq, Keyword.branch.injEq] at hk'
      subst hk'
      rw [hclosed] at hopen
      cases hopen

theorem reads (h : Sound past s) (hp : Assembler.process line s = .ok () e) :
    ∃ c, Reads line.head line.args c := by
  obtain ⟨c, hreads, -⟩ := (process_eq_ok_iff h.coherent).mp hp
  exact ⟨c, hreads⟩

/-- A field that waits for an address is that of a jump. -/
theorem jumps (h : Sound past s) {f : Fixup Target} (hf : f ∈ s.pending) :
    f.field = .a ∧
      ∃ comment, s.tape.instructions[f.index]? = some (Code.jump (.label f.label) comment) := by
  obtain ⟨c, -, hskip⟩ := h.wired.skip?_of_mem hf
  have hfield := (label_of_skip? hskip).1
  have hmem := List.mem_of_mem_filter hf
  rw [h.coherent.tape.fixups_eq, Tape.mem_fixupsFrom_iff] at hmem
  obtain ⟨k, i, hi, hindex, hlabel⟩ := hmem
  rw [hfield] at hlabel
  obtain ⟨comment, rfl⟩ := h.wired.jumps i (List.mem_of_getElem? hi) f.label hlabel
  refine ⟨hfield, comment, ?_⟩
  rw [hindex, Nat.zero_add, hi]

theorem resolves (h : Sound past s) (hb : s.blocks = []) :
    ∃ instructions e, Session.resolve s = .ok instructions e ∧ Resolved instructions ∧
      e.tape = ⟨instructions, []⟩ ∧
      ∀ style index, ∃ lines, listing e.label style index instructions = .ok lines := by
  obtain ⟨hres, e, hresolve, he⟩ := h.wired.resolve h.coherent hb
  refine ⟨s.settled, e, hresolve, hres, by rw [he], fun style index => ?_⟩
  exact listing_of_resolved hres e.label style index

end Sound

/-- **The books of a session agree**, whatever texts it has been given and however often it has
failed. -/
theorem bookkeeping_of_reaches {text source : String} {options : Options} {s₀ s : Session}
    (h₀ : Session.create text options source = .ok s₀) (h : Session.Reaches s₀ past s) :
    Bookkeeping past s.assembler := by
  have hs := h.sound h₀
  exact
    { blocks := hs.coherent.constructs_nodup
      definition := hs.coherent.definition_isOpen_iff
      inside := hs.inside
      outside := hs.coherent.outside
      names := hs.coherent.names
      scope_free := fun _ _ _ hp => (hs.refused hp).ne_scopeTaken
      branches := hs.coherent.isOpen
      stuck := fun kind hstuck =>
        ⟨hs.coherent.stuck_blockless kind hstuck, fun _ => hs.stuck hstuck⟩
      no_condition := fun _ =>
        ⟨fun _ hp => hs.reads hp, fun _ _ _ hp => (hs.refused hp).branch_of_notACondition⟩
      pending := hs.wired.pending
      jumps := fun _ => hs.jumps
      resolves := hs.resolves }

/-- A session that is about to fail in the condition of a branch inside a definition. -/
def interrupted : Session where
  text := "VAR $x 1\nDEF f\nIF EQ $x 1"
  options := {}
  source := "main"
  assembler := .ofSize 255

/-- The same session with another text, which leaves the definition open and starts a loop. -/
def resumed : Session := { interrupted.tried with text := "WHILE AW\nVAR $x 2" }

theorem bookkeeping_of_resumed :
    Session.create interrupted.text {} "main" = .ok interrupted ∧
      Session.Reaches interrupted (interrupted.outcomes ++ resumed.outcomes) resumed.tried ∧
      resumed.tried.assembler.constructs = [.branch .loop, .definition] ∧
      (∃ o ∈ interrupted.outcomes, o.FailedInside .conditional) ∧
      Bookkeeping (interrupted.outcomes ++ resumed.outcomes) resumed.tried.assembler := by
  have h₀ : Session.create interrupted.text {} "main" = .ok interrupted :=
    create_eq_ok_iff.mpr ⟨by decide, rfl⟩
  have h : Session.Reaches interrupted (interrupted.outcomes ++ resumed.outcomes) resumed.tried :=
    (Session.Reaches.start.tried.edit _ _ _).tried
  have hfailed : ⟨⟨3, "IF", ["EQ", "$x", "1"]⟩, some (.ofFault (.unbound "x" "definition.f"))⟩ ∈
      interrupted.outcomes := by
    decide +kernel
  refine ⟨h₀, h, by decide +kernel, ⟨_, hfailed, by decide +kernel, _, rfl, by decide⟩, ?_⟩
  exact bookkeeping_of_reaches h₀ h

/-! ## What a line that fails leaves alone -/

/-- What a line that fails never changes. -/
structure Preserved (s e : Assembler) : Prop where
  /-- The instructions and the fields to be patched. -/
  tape : e.tape = s.tape
  /-- The pool of cells, the scopes with their bindings, and the scopes that are entered. -/
  storage : e.storage = s.storage
  definitions : e.definitions = s.definitions
  blocks : e.blocks = s.blocks
  /-- No label gets an address or loses it. -/
  labels : ∀ t, (e.label t).address = (s.label t).address
  /-- The branches that are known stay as they are. -/
  branches : ∀ kind, (s.branches kind).all <+: (e.branches kind).all

theorem Preserved.refl (s : Assembler) : Preserved s s :=
  ⟨rfl, rfl, rfl, rfl, fun _ => rfl, fun _ => List.prefix_refl _⟩

theorem Preserved.strand (s : Assembler) (kind : BranchKind) : Preserved s (s.strand kind) := by
  refine ⟨by simp, by simp, by simp, by simp, address_strand s kind, fun kind' => ?_⟩
  by_cases hk : kind' = kind
  · subst hk
    rw [branches_strand_self]
    exact List.prefix_append _ _
  · exact ⟨[], by rw [branches_strand_of_ne s kind hk, List.append_nil]⟩

/-- **A line that fails changes nothing but one register of branches**, in every state that a
session comes to. The register is changed only if it has no branch open and the line starts one
whose condition is missing or at fault. Then that branch is added to it and open, without an address
for its labels and without a jump over its block. -/
theorem preserved_of_process_eq_error {text source : String} {options : Options} {s₀ s : Session}
    (h₀ : Session.create text options source = .ok s₀) (h : Session.Reaches s₀ past s)
    (hp : Assembler.process line s.assembler = .error failure e) :
    Preserved s.assembler e ∧
      ((e = s.assembler ∧ ∀ kind, Keyword.ofWord? line.head = some (.branch kind) →
          (s.assembler.branches kind).isOpen = true) ∨
        ∃ kind f b, Keyword.ofWord? line.head = some (.branch kind) ∧
          (s.assembler.branches kind).isOpen = false ∧
          s.assembler.test kind line.args = .error f ∧ failure = .ofFault f ∧
          e.branches kind =
            { s.assembler.branches kind with
              all := (s.assembler.branches kind).all ++ [b]
              isOpen := true } ∧
          b.body.address = none ∧ b.stop.address = none ∧ b.skip = none ∧
          ∀ other, other ≠ kind → e.branches other = s.assembler.branches other) := by
  rcases ((h.sound h₀).refused hp).state with
    ⟨hnested, rfl⟩ | ⟨kind, f, hk, ho, ht, rfl, rfl⟩
  · exact ⟨.refl _, .inl ⟨rfl, fun kind hk => (hnested kind hk).1⟩⟩
  · exact ⟨.strand _ kind, .inr ⟨kind, f, _, hk, ho, ht, rfl, branches_strand_self _ kind, rfl,
      rfl, rfl, fun other hne => branches_strand_of_ne _ kind hne⟩⟩

/-- In the resumed session a loop whose condition reads a variable that is not bound leaves a loop
behind, and nothing else. -/
theorem preserved_of_resumed :
    ∃ f e b, Assembler.process ⟨1, "while", ["SM", "$z", "*7"]⟩ resumed.assembler =
        .error (.ofFault f) e ∧
      Preserved resumed.assembler e ∧ resumed.assembler.loops.all = [] ∧ e.loops.all = [b] ∧
      e.loops.isOpen = true ∧ b.stop.address = none ∧ b.skip = none ∧
      e.conditionals = resumed.assembler.conditionals := by
  let line : SourceLine := ⟨1, "while", ["SM", "$z", "*7"]⟩
  have h₀ : Session.create interrupted.text {} "main" = .ok interrupted :=
    create_eq_ok_iff.mpr ⟨by decide, rfl⟩
  have h : Session.Reaches interrupted interrupted.outcomes resumed :=
    Session.Reaches.start.tried.edit _ _ _
  have hout : Assembler.outcomes [line] resumed.assembler =
      [⟨line, some (.ofFault (.unbound "z" "definition.f"))⟩] := by
    decide +kernel
  have hloops : resumed.assembler.loops = { form := .loop } := by decide +kernel
  cases hp : Assembler.process line resumed.assembler with
  | ok u e => simp [Assembler.outcomes, hp] at hout
  | error failure e =>
    obtain ⟨hpreserved, ⟨-, hopen⟩ | ⟨kind, f, b, hk, -, -, rfl, hb, -, hstop, hskip, hother⟩⟩ :=
      preserved_of_process_eq_error h₀ h hp
    · have hloop := hopen .loop (by decide +kernel)
      rw [Assembler.branches, hloops] at hloop
      cases hloop
    · have hkind : Keyword.ofWord? line.head = some (.branch .loop) := by decide +kernel
      rw [hkind] at hk
      cases hk
      simp only [Assembler.branches, hloops] at hb
      refine ⟨f, e, b, rfl, hpreserved, by rw [hloops], by rw [hb]; rfl, by rw [hb], hstop, hskip,
        hother .conditional (by decide)⟩

end TapeMachine

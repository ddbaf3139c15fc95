import TapeMachine.Proofs.Cells
import TapeMachine.Proofs.Extension

/-!
# Two runs side by side

Two texts come to the same if they have the same words of instructions, or fail with the same kind
of mistake on the same line. The wording of a mistake and the comments in a listing may differ:
they quote the text. `verdict` is what a text comes to in this sense.

What two runs may differ in when they fail is a `Tolerance`. A statement is a check and, if the
check succeeds, a change of the state (`outcome`), so two statements go together if their checks
agree and the changes keep the states related. This is said once for each kind of statement; a
relation between states only has to bring what it knows about the checks and the changes.

* `Agree` and `Alongside` compare two checks, and two statements.
* `Alongside.simple`, `Alongside.define`, `Alongside.branch` and so on: the kinds of statements.
* `Alongside.run`: two runs that agree line by line agree at the end.
* `verdict_eq_of_alongside`: then the texts come to the same.
-/

namespace TapeMachine

/-! ## What a text comes to -/

/-- Why a text has no listing: the kind of mistake and its line. -/
inductive Reason where
  | mistake (kind : Fault.Kind) (line : Option Int)
  | misuse (m : Misuse)
deriving DecidableEq, Repr

/-- The kind and the line of a failure, without its wording. -/
def Failure.reason : Failure → Reason
  | .diagnostic d => .mistake d.fault.kind d.line
  | .misuse m => .misuse m

/-- What a text comes to: the words of its instructions, or the reason why it has none. -/
def verdict (text : String) (options : Options) (source : String) :
    Except Reason (List (Option Words)) :=
  match Session.create text options source with
  | .error m => .error (.misuse m)
  | .ok session =>
    match session.compile with
    | .ok _ done => .ok (done.instructions.map Instruction.words?)
    | .error failure _ => .error failure.reason

/-- The verdict is read off the run. -/
theorem verdict_of_run {options : Options} (hm : 0 < options.memorySize) (text source : String) :
    verdict text options source =
      match Assembler.run source (Source.statements text) options.start with
      | .error failure _ => .error failure.reason
      | .ok _ e =>
        match e.blocks with
        | b :: _ => .error (.mistake .unclosed (some b.line))
        | [] => .ok (e.settled.map Instruction.words?) := by
  have hcreate : Session.create text options source =
      .ok { text, options, source, assembler := options.start } :=
    create_eq_ok_iff.mpr ⟨hm, rfl⟩
  rw [verdict, hcreate]
  cases hrun : Assembler.run source (Source.statements text) options.start with
  | error failure e => simp only [Session.compile, hrun]
  | ok u e =>
    cases hb : e.blocks with
    | cons b blocks =>
      simp only [Session.compile, hrun, hb]
      rfl
    | nil =>
      have hs := options.sound_start.leads (leads_of_run (.inl hrun))
      obtain ⟨lines, done, hfinish, hinstructions, -⟩ := hs.wired.finish hs.coherent hb
        { text, options, source, assembler := options.start }
      simp only [Session.compile, hrun, hb, hfinish, hinstructions]

/-- Without cells all texts fail alike. -/
theorem verdict_of_memorySize_nonpos {options : Options} (hm : ¬ 0 < options.memorySize)
    (text source : String) : verdict text options source = .error (.misuse .poolSize) := by
  rw [verdict, create_of_memorySize_nonpos hm]

/-! ## States of a run without failures -/

/-- The state after lines that have all been carried out: coherent, and every variable stands in a
scope that is there. -/
structure Healthy (s : Assembler) : Prop where
  coherent : Coherent (fun _ => False) s
  housed : ∀ b ∈ s.storage.scopes.bindings, b.scope ∈ s.storage.scopes.names

namespace Healthy

variable {s e : Assembler}

theorem start (options : Options) : Healthy options.start where
  coherent := Coherent.ofSize _
  housed := fun _ hb => absurd hb List.not_mem_nil

theorem process (h : Healthy s) {line : SourceLine}
    (hp : Assembler.process line s = .ok () e) : Healthy e := by
  obtain ⟨c, -, -, he, rfl⟩ := (process_eq_ok_iff h.coherent).mp hp
  have hnext := next_of_takes (h.coherent.takes he line.number)
  have hext := hnext.extends h.coherent.current_mem
  refine ⟨h.coherent.effect he line.number, fun b hb => ?_⟩
  rcases hext.housed b hb with hold | hnew
  · exact hext.names.subset (h.housed b hold)
  · exact hnew

/-- A definition with a new name has no variables yet. -/
theorem cellIn?_scopeOf (h : Healthy s) {name : String} (hn : s.definitions.find? name = none)
    (x : String) : s.storage.scopes.cellIn? (Statement.scopeOf name) x = none := by
  rw [cellIn?_eq_none_iff]
  intro hmem
  obtain ⟨b, hb, hkey⟩ := List.mem_map.mp hmem
  obtain ⟨hscope, -⟩ := Prod.mk.inj hkey
  have hhoused := h.housed b hb
  rw [hscope] at hhoused
  exact h.coherent.scopeOf_not_mem hn hhoused

end Healthy

/-! ## Statements as checks -/

/-- What comes of a statement that is checked before it changes anything: if the check fails, the
state `left` is left. -/
def outcome {α : Type} (check : Except Fault α) (left : Assembler) (next : α → Assembler) :
    EStateM.Result Failure Assembler Unit :=
  match check with
  | .ok a => .ok () (next a)
  | .error f => .error (.ofFault f) left

namespace Assembler

/-- The state with new storage and more code. -/
def extend (s : Assembler) (p : Storage × List (Instruction Target)) : Assembler :=
  { s with storage := p.1, tape := s.tape.emitAll p.2, log := s.log ++ s.storage.news p.1 }

/-- Checks that a definition may start. -/
def mayDefine (s : Assembler) (name : String) : Except Fault Unit :=
  match s.definitions.latest, s.definitions.find? name with
  | .ok d, _ => .error (.nestedDefinition name d.name)
  | .error _, some _ => .error (.definitionTaken name)
  | .error _, none => .ok ()

/-- Checks that a branch may start; gives the code of its condition. -/
def mayBranch (s : Assembler) (kind : BranchKind) (words : List String) :
    Except Fault (List (Instruction Target)) :=
  if (s.branches kind).isOpen then .error (.nestedBranch kind.form.opener) else s.test kind words

/-- What is left if a branch may not start: one that is open, unless one was open before. -/
def notBranched (s : Assembler) (kind : BranchKind) : Assembler :=
  if (s.branches kind).isOpen then s else s.strand kind

/-- Checks that a block may end, which is the one that was started last: what is known of it is
given. -/
def mayClose {α : Type} (s : Assembler) (construct : Construct) (latest : Except Fault α) :
    Except Fault α :=
  match latest, s.blocks with
  | .ok a, b :: _ =>
    if b.construct = construct then .ok a
    else .error (.crossedBlocks construct.closer b.construct.opener b.line)
  | _, _ => .error (.nothingToClose construct.closer construct.opener)

theorem find?_of_mayDefine {s : Assembler} {name : String} {u : Unit}
    (h : s.mayDefine name = .ok u) : s.definitions.find? name = none := by
  unfold mayDefine at h
  split at h
  · cases h
  · cases h
  · assumption

theorem mem_of_mayClose {α : Type} {s : Assembler} {construct : Construct}
    {latest : Except Fault α} {a : α} (h : s.mayClose construct latest = .ok a) :
    construct ∈ s.constructs := by
  unfold mayClose at h
  split at h
  · rename_i b blocks hb
    split at h
    · rename_i hc
      simp [constructs, hb, hc]
    · cases h
  · cases h

end Assembler

theorem exec_simple_eq_outcome (n : Nat) (c : Simple) (s : Assembler) :
    c.statement.exec n s = outcome (c.assemble s) s s.extend := by
  rw [exec_simple]
  cases c.assemble s <;> rfl

namespace Healthy

variable {s : Assembler}

theorem execDefine (h : Healthy s) (n : Nat) (name : String) :
    Statement.execDefine n name s = outcome (s.mayDefine name) s fun _ => s.define n name := by
  rw [h.coherent.exec_define, Assembler.mayDefine]
  cases s.definitions.latest with
  | ok d => rfl
  | error f => cases s.definitions.find? name <;> rfl

theorem execEndDefine (h : Healthy s) :
    Statement.execEndDefine s =
      outcome (s.mayClose .definition s.definitions.latest) s s.endDefine := by
  rw [h.coherent.exec_endDefine]
  unfold Assembler.mayClose
  cases s.definitions.latest with
  | error f => rfl
  | ok d =>
    cases s.blocks with
    | nil => rfl
    | cons b blocks =>
      dsimp only
      split <;> rfl

theorem execBranch (h : Healthy s) (n : Nat) (kind : BranchKind) (words : List String) :
    Statement.execBranch n kind words s =
      outcome (s.mayBranch kind words) (s.notBranched kind) (s.branch n kind) := by
  rw [h.coherent.exec_branch, Assembler.mayBranch, Assembler.notBranched]
  split
  · rfl
  · cases s.test kind words <;> rfl

/-- Without a line that has failed, a branch that is open has a block. -/
theorem execEndBranch (h : Healthy s) (kind : BranchKind) :
    Statement.execEndBranch kind s =
      outcome (s.mayClose (.branch kind) (s.branches kind).latest) s
        fun p => s.endBranch kind p.1 p.2 := by
  rw [h.coherent.exec_endBranch]
  unfold Assembler.mayClose
  cases hl : (s.branches kind).latest with
  | error f => rfl
  | ok p =>
    cases hb : s.blocks with
    | nil =>
      have hopen : (s.branches kind).isOpen = true := by
        by_contra hclosed
        simp [Branches.latest, hclosed] at hl
      rcases (h.coherent.isOpen kind).mp hopen with hmem | hstuck
      · simp [Assembler.constructs, hb] at hmem
      · exact hstuck.elim
    | cons b blocks =>
      dsimp only
      split <;> rfl

end Healthy

/-! ## What may differ -/

/-- What two runs may differ in when lines fail. -/
structure Tolerance where
  /-- The failures of the two runs go together. -/
  alike : Failure → Failure → Prop
  /-- If the first run fails like this, the second may do anything. -/
  excuses : Failure → Prop
  /-- The states that lines leave if they fail in both runs. -/
  leaves : Assembler → Assembler → Prop
  alike_refl : ∀ failure, alike failure failure
  alike_locate : ∀ {failure failure' line source}, alike failure failure' →
    alike (failure.locate line source) (failure'.locate line source)
  excuses_locate : ∀ {failure line source}, excuses failure →
    excuses (failure.locate line source)

/-- Failures go together if they have the same reason, whatever they leave. Where a failure is
located depends on the line only. -/
def Tolerance.reasons : Tolerance where
  alike failure failure' := failure'.reason = failure.reason
  excuses _ := False
  leaves _ _ := True
  alike_refl _ := rfl
  alike_locate := by
    intro failure failure' line source h
    cases failure with
    | diagnostic d =>
      cases failure' with
      | diagnostic d' =>
        simp only [Failure.reason, Reason.mistake.injEq] at h
        simp only [Failure.locate, Diagnostic.locate, Failure.reason, h.1, h.2]
      | misuse m => cases h
    | misuse m =>
      cases failure' with
      | diagnostic d' => cases h
      | misuse m' => exact h
  excuses_locate h := h

theorem Tolerance.reasons_alike_iff {f f' : Fault} :
    reasons.alike (.ofFault f) (.ofFault f') ↔ f'.kind = f.kind := by
  simp [reasons, Failure.ofFault, Failure.reason]

variable {T : Tolerance}

/-- Two checks that give related results, or fail alike. -/
inductive Agree (T : Tolerance) {α β : Type} (R : α → β → Prop) :
    Except Fault α → Except Fault β → Prop
  | ok {a : α} {b : β} (h : R a b) : Agree T R (.ok a) (.ok b)
  | error {f f' : Fault} (h : T.alike (.ofFault f) (.ofFault f')) : Agree T R (.error f) (.error f')
  | excused {f : Fault} (h : T.excuses (.ofFault f)) (x : Except Fault β) : Agree T R (.error f) x

namespace Agree

variable {α β γ δ : Type} {R : α → β → Prop} {Q : γ → δ → Prop}

theorem bind {x : Except Fault α} {x' : Except Fault β} {g : α → Except Fault γ}
    {g' : β → Except Fault δ} (h : Agree T R x x') (hg : ∀ a b, R a b → Agree T Q (g a) (g' b)) :
    Agree T Q (x >>= g) (x' >>= g') := by
  cases h with
  | ok hab => exact hg _ _ hab
  | error h => exact .error h
  | excused h => exact .excused h _

theorem mono {R' : α → β → Prop} {x : Except Fault α} {x' : Except Fault β}
    (h : Agree T R x x') (hR : ∀ a b, R a b → R' a b) : Agree T R' x x' := by
  cases h with
  | ok h => exact .ok (hR _ _ h)
  | error h => exact .error h
  | excused h => exact .excused h _

theorem refl (x : Except Fault α) : Agree T (· = ·) x x := by
  cases x with
  | ok a => exact .ok rfl
  | error f => exact .error (T.alike_refl _)

theorem of_eq {x x' : Except Fault α} (h : x' = x) : Agree T (· = ·) x x' := by
  rw [h]
  exact .refl x

/-- Two faults of the same kind. -/
theorem fault {f f' : Fault} (h : f'.kind = f.kind) : Agree .reasons R (.error f) (.error f') :=
  .error (Tolerance.reasons_alike_iff.mpr h)

variable {s s' : Assembler}

/-- A definition may start in both states or in neither, up to the names. -/
theorem mayDefine {name name' : String} {d : Definition → Definition}
    (hlatest : s'.definitions.latest = s.definitions.latest.map d)
    (hfind : s'.definitions.find? name' = (s.definitions.find? name).map d) :
    Agree .reasons (· = ·) (s.mayDefine name) (s'.mayDefine name') := by
  rw [Assembler.mayDefine, Assembler.mayDefine, hlatest, hfind]
  cases s.definitions.latest with
  | ok x => exact .fault rfl
  | error f =>
    cases s.definitions.find? name with
    | some x => exact .fault rfl
    | none => exact .ok rfl

theorem mayBranch {kind : BranchKind} {words words' : List String}
    {Q : List (Instruction Target) → List (Instruction Target) → Prop}
    (hopen : (s'.branches kind).isOpen = (s.branches kind).isOpen)
    (htest : Agree T Q (s.test kind words) (s'.test kind words')) :
    Agree T Q (s.mayBranch kind words) (s'.mayBranch kind words') := by
  rw [Assembler.mayBranch, Assembler.mayBranch, hopen]
  split
  · exact .error (T.alike_refl _)
  · exact htest

/-- A block may end in both states or in neither, if the same blocks are open. -/
theorem mayClose {construct : Construct} {latest : Except Fault α} {latest' : Except Fault β}
    (hblocks : s'.constructs = s.constructs) (h : Agree .reasons R latest latest') :
    Agree .reasons R (s.mayClose construct latest) (s'.mayClose construct latest') := by
  unfold Assembler.mayClose
  unfold Assembler.constructs at hblocks
  cases h with
  | error h => exact .fault rfl
  | excused h => exact h.elim
  | ok h =>
    cases hb : s.blocks with
    | nil =>
      rw [hb, List.map_nil, List.map_eq_nil_iff] at hblocks
      rw [hblocks]
      exact .fault rfl
    | cons b blocks =>
      rw [hb, List.map_cons, List.map_eq_cons_iff] at hblocks
      obtain ⟨b', blocks', hb', hc, -⟩ := hblocks
      rw [hb']
      dsimp only
      rw [hc]
      split
      · exact .ok h
      · exact .fault rfl

end Agree

/-! ## Statements and runs that go together -/

/-- Two steps that lead to related states, or fail alike. -/
inductive Alongside (T : Tolerance) (R : Assembler → Assembler → Prop) :
    EStateM.Result Failure Assembler Unit → EStateM.Result Failure Assembler Unit → Prop
  | ok {e e' : Assembler} (h : R e e') : Alongside T R (.ok () e) (.ok () e')
  | error {failure failure' : Failure} {e e' : Assembler} (h : T.alike failure failure')
      (he : T.leaves e e') : Alongside T R (.error failure e) (.error failure' e')
  | excused {failure : Failure} (h : T.excuses failure) (e : Assembler)
      (x : EStateM.Result Failure Assembler Unit) : Alongside T R (.error failure e) x

namespace Alongside

variable {R : Assembler → Assembler → Prop} {s s' : Assembler}

theorem mono {R' : Assembler → Assembler → Prop} {x x' : EStateM.Result Failure Assembler Unit}
    (h : Alongside T R x x') (hR : ∀ e e', R e e' → R' e e') : Alongside T R' x x' := by
  cases h with
  | ok h => exact .ok (hR _ _ h)
  | error h he => exact .error h he
  | excused h => exact .excused h _ _

/-- **Two statements whose checks agree.** -/
theorem outcome {α β : Type} {Q : α → β → Prop} {check : Except Fault α}
    {check' : Except Fault β} {left left' : Assembler} {next : α → Assembler}
    {next' : β → Assembler} (hcheck : Agree T Q check check') (hleft : T.leaves left left')
    (hnext : ∀ a b, Q a b → check = .ok a → check' = .ok b → R (next a) (next' b)) :
    Alongside T R (outcome check left next) (outcome check' left' next') := by
  cases hcheck with
  | ok h => exact .ok (hnext _ _ h rfl rfl)
  | error h => exact .error h hleft
  | excused h => exact .excused h _ _

theorem simple {n n' : Nat} {c c' : Simple}
    {Q : Storage × List (Instruction Target) → Storage × List (Instruction Target) → Prop}
    (hcheck : Agree T Q (c.assemble s) (c'.assemble s'))
    (hleft : T.leaves s s') (hnext : ∀ p p', Q p p' → R (s.extend p) (s'.extend p')) :
    Alongside T R (c.statement.exec n s) (c'.statement.exec n' s') := by
  rw [exec_simple_eq_outcome, exec_simple_eq_outcome]
  exact .outcome hcheck hleft fun p p' hp _ _ => hnext p p' hp

theorem define {n n' : Nat} {name name' : String} (hs : Healthy s) (hs' : Healthy s')
    (hcheck : Agree T (· = ·) (s.mayDefine name) (s'.mayDefine name')) (hleft : T.leaves s s')
    (hnext : s.definitions.find? name = none → s'.definitions.find? name' = none →
      R (s.define n name) (s'.define n' name')) :
    Alongside T R (Statement.execDefine n name s) (Statement.execDefine n' name' s') := by
  rw [hs.execDefine, hs'.execDefine]
  exact .outcome hcheck hleft fun _ _ _ hok hok' =>
    hnext (Assembler.find?_of_mayDefine hok) (Assembler.find?_of_mayDefine hok')

theorem branch {Q : List (Instruction Target) → List (Instruction Target) → Prop} {n n' : Nat}
    {kind : BranchKind} {words words' : List String} (hs : Healthy s) (hs' : Healthy s')
    (hcheck : Agree T Q (s.mayBranch kind words) (s'.mayBranch kind words'))
    (hleft : T.leaves (s.notBranched kind) (s'.notBranched kind))
    (hnext : ∀ test test', Q test test' → R (s.branch n kind test) (s'.branch n' kind test')) :
    Alongside T R (Statement.execBranch n kind words s)
      (Statement.execBranch n' kind words' s') := by
  rw [hs.execBranch, hs'.execBranch]
  exact .outcome hcheck hleft fun test test' ht _ _ => hnext test test' ht

theorem endDefine {Q : Definition → Definition → Prop} (hs : Healthy s) (hs' : Healthy s')
    (hcheck : Agree T Q (s.mayClose .definition s.definitions.latest)
      (s'.mayClose .definition s'.definitions.latest)) (hleft : T.leaves s s')
    (hnext : .definition ∈ s.constructs → ∀ d d', Q d d' → R (s.endDefine d) (s'.endDefine d')) :
    Alongside T R (Statement.execEndDefine s) (Statement.execEndDefine s') := by
  rw [hs.execEndDefine, hs'.execEndDefine]
  exact .outcome hcheck hleft fun d d' hd hok _ => hnext (Assembler.mem_of_mayClose hok) d d' hd

theorem endBranch {kind : BranchKind} (hs : Healthy s) (hs' : Healthy s')
    (hcheck : Agree T (· = ·) (s.mayClose (.branch kind) (s.branches kind).latest)
      (s'.mayClose (.branch kind) (s'.branches kind).latest)) (hleft : T.leaves s s')
    (hnext : ∀ number b, R (s.endBranch kind number b) (s'.endBranch kind number b)) :
    Alongside T R (Statement.execEndBranch kind s) (Statement.execEndBranch kind s') := by
  rw [hs.execEndBranch, hs'.execEndBranch]
  refine .outcome hcheck hleft fun p p' hp _ _ => ?_
  subst hp
  exact hnext p.1 p.2

/-- Two lines that are read as statements which go together. -/
theorem process {line line' : SourceLine} {Q : Statement → Statement → Prop}
    (hparse : Agree T Q (Statement.parse line.head line.args)
      (Statement.parse line'.head line'.args)) (hleft : T.leaves s s')
    (hexec : ∀ st st', Q st st' → Statement.parse line.head line.args = .ok st →
      Alongside T R (st.exec line.number s) (st'.exec line'.number s')) :
    Alongside T R (Assembler.process line s) (Assembler.process line' s') := by
  simp only [Assembler.process, Step.bind_apply, Step.ofFault_apply]
  generalize Statement.parse line.head line.args = x at hparse hexec ⊢
  generalize Statement.parse line'.head line'.args = x' at hparse ⊢
  cases hparse with
  | ok hst => exact hexec _ _ hst rfl
  | error h => exact .error h hleft
  | excused h => exact .excused h _ _

theorem step {line line' : SourceLine} (hn : line'.number = line.number) (source : String)
    (h : Alongside T R (Assembler.process line s) (Assembler.process line' s')) :
    Alongside T R (Assembler.step source line s) (Assembler.step source line' s') := by
  unfold Assembler.step
  rw [hn]
  generalize Assembler.process line s = x at h ⊢
  generalize Assembler.process line' s' = x' at h ⊢
  cases h with
  | ok h => exact .ok h
  | error h he => exact .error (T.alike_locate h) he
  | excused h => exact .excused (T.excuses_locate h) _ _

theorem with_results {x x' : EStateM.Result Failure Assembler Unit} (h : Alongside T R x x') :
    Alongside T (fun e e' => R e e' ∧ x = .ok () e ∧ x' = .ok () e') x x' := by
  cases h with
  | ok h => exact .ok ⟨h, rfl, rfl⟩
  | error h he => exact .error h he
  | excused h => exact .excused h _ _

/-- **Two runs that agree line by line.** What relates the states may depend on the lines that are
still to come. -/
theorem run {R : List SourceLine → List SourceLine → Assembler → Assembler → Prop}
    (hnil : ∀ lines' s s', R [] lines' s s' → lines' = [])
    (hcons : ∀ line lines more s s', R (line :: lines) more s s' → Healthy s → Healthy s' →
      ∃ line' lines', more = line' :: lines' ∧ line'.number = line.number ∧
        Alongside T (R lines lines') (Assembler.process line s) (Assembler.process line' s'))
    (source : String) (lines lines' : List SourceLine) (h : R lines lines' s s') (hs : Healthy s)
    (hs' : Healthy s') :
    Alongside T (R [] []) (Assembler.run source lines s) (Assembler.run source lines' s') := by
  induction lines generalizing lines' s s' with
  | nil =>
    obtain rfl := hnil lines' s s' h
    exact .ok h
  | cons line lines ih =>
    obtain ⟨line', rest, rfl, hn, hstep⟩ := hcons line lines lines' s s' h hs hs'
    have hlocated := hstep.with_results.step hn source
    simp only [Assembler.run, Step.bind_apply]
    generalize Assembler.step source line s = x at hlocated ⊢
    generalize Assembler.step source line' s' = x' at hlocated ⊢
    cases hlocated with
    | ok h => exact ih rest h.1 (hs.process h.2.1) (hs'.process h.2.2)
    | error h he => exact .error h he
    | excused h => exact .excused h _ _

end Alongside

/-- Two texts come to the same if their runs agree and leave the same blocks open and the same
words behind. -/
theorem verdict_eq_of_alongside {text text' source : String} {options : Options}
    {R : Assembler → Assembler → Prop} (hm : 0 < options.memorySize)
    (h : Alongside .reasons R (Assembler.run source (Source.statements text) options.start)
      (Assembler.run source (Source.statements text') options.start))
    (hR : ∀ e e', R e e' → e'.blocks = e.blocks ∧
      e'.settled.map Instruction.words? = e.settled.map Instruction.words?) :
    verdict text' options source = verdict text options source := by
  rw [verdict_of_run hm, verdict_of_run hm]
  generalize Assembler.run source (Source.statements text) options.start = x at h ⊢
  generalize Assembler.run source (Source.statements text') options.start = x' at h ⊢
  cases h with
  | ok h =>
    obtain ⟨hblocks, hwords⟩ := hR _ _ h
    simp only [hblocks, hwords]
  | error h _ =>
    have hreason : _ = _ := h
    simp only [hreason]
  | excused h => exact h.elim

end TapeMachine

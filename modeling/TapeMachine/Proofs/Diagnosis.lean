import TapeMachine.Proofs.Sessions

/-!
# What is reported, and where

A text that is assembled from scratch gives a listing or a diagnostic. There are many ways to fail
that are no diagnostics: a label that is bound twice, the root scope that is left, an instruction
with a label that cannot be listed. None of them is ever met.

* `run_eq_error`: a run fails at the first line that does.
* `leftOpen_of_run`: the blocks that are open at the end of a run are those that the lines open and
  do not close (`LeftOpen`), so the innermost is opened by the last line that is not inside or at
  the end of a complete block.
* `diagnosis_of_compile`: a diagnostic names the source and the line that is at fault.
-/

namespace TapeMachine

variable {source : String} {s e : Assembler} {line : SourceLine} {lines : List SourceLine}

/-! ## Statements and the lines of the text -/

/-- The statements of a text around one of them: it stands on a line of its own, and the others on
the lines before and behind. -/
theorem statementsFrom_eq_append_cons {n : Nat} {ls : List (List Char)}
    {before behind : List SourceLine}
    (h : Source.statementsFrom n ls = before ++ line :: behind) :
    ∃ k l, ls[k]? = some l ∧ Source.statement? (n + k) l = some line ∧
      before = Source.statementsFrom n (ls.take k) ∧
      behind = Source.statementsFrom (n + k + 1) (ls.drop (k + 1)) := by
  induction ls generalizing n before with
  | nil => simp [Source.statementsFrom] at h
  | cons l ls ih =>
    -- the line is one of those behind the first
    have hlater : ∀ rest, Source.statementsFrom (n + 1) ls = rest ++ line :: behind →
        ∃ k l', ls[k]? = some l' ∧ Source.statement? (n + (k + 1)) l' = some line ∧
          rest = Source.statementsFrom (n + 1) (ls.take k) ∧
          behind = Source.statementsFrom (n + (k + 1) + 1) (ls.drop (k + 1)) := by
      intro rest hrest
      obtain ⟨k, l', hk, hline, hbefore, hbehind⟩ := ih hrest
      have hadd : n + 1 + k = n + (k + 1) := by omega
      rw [hadd] at hline hbehind
      exact ⟨k, l', hk, hline, hbefore, hbehind⟩
    rw [Source.statementsFrom] at h
    cases hl : Source.statement? n l with
    | none =>
      simp only [hl] at h
      obtain ⟨k, l', hk, hline, hbefore, hbehind⟩ := hlater before h
      refine ⟨k + 1, l', hk, hline, ?_, hbehind⟩
      rw [List.take_succ_cons, Source.statementsFrom, hl]
      exact hbefore
    | some first =>
      simp only [hl] at h
      cases before with
      | nil =>
        cases h
        exact ⟨0, l, rfl, hl, rfl, rfl⟩
      | cons head rest =>
        rw [List.cons_append, List.cons.injEq] at h
        obtain ⟨k, l', hk, hline, hbefore, hbehind⟩ := hlater rest h.2
        refine ⟨k + 1, l', hk, hline, ?_, hbehind⟩
        rw [List.take_succ_cons, Source.statementsFrom, hl, ← h.1, hbefore]

theorem number_of_statement? {n : Nat} {l : List Char} (h : Source.statement? n l = some line) :
    line.number = n := by
  unfold Source.statement? at h
  split at h <;> cases h
  rfl

/-! ## Where a run fails -/

/-- A run that fails has carried out the lines before the one that fails. -/
theorem run_eq_error {failure : Failure} (h : Assembler.run source lines s = .error failure e) :
    ∃ before line behind m f, lines = before ++ line :: behind ∧
      Assembler.run source before s = .ok () m ∧ Assembler.process line m = .error f e ∧
      failure = f.locate line.number source := by
  induction lines generalizing s with
  | nil => cases h
  | cons line lines ih =>
    simp only [Assembler.run, Step.bind_apply, Assembler.step] at h
    cases hp : Assembler.process line s with
    | ok u m =>
      simp only [hp] at h
      obtain ⟨before, line', behind, m', f, rfl, hrun, hp', hf⟩ := ih h
      exact ⟨line :: before, line', behind, m', f, rfl, run_cons_eq_ok_iff.mpr ⟨m, hp, hrun⟩, hp',
        hf⟩
    | error f m =>
      simp only [hp] at h
      cases h
      exact ⟨[], line, lines, s, f, rfl, rfl, hp, rfl⟩

/-- If no branch is stuck, what fails is a fault of the program. -/
theorem exists_fault_of_process {failure : Failure} (h : Coherent (fun _ => False) s)
    (hp : Assembler.process line s = .error failure e) :
    ∃ f : Fault, failure = .ofFault f ∧ f.kind ≠ .unclosed ∧ f.kind ≠ .general := by
  rcases (refused_of_process h hp).fault with hf | ⟨kind, -, hopen, hb⟩
  · exact hf
  · rcases (h.isOpen kind).mp hopen with hmem | hstuck
    · simp [Assembler.constructs, hb] at hmem
    · exact hstuck.elim

/-! ## Which blocks are left open -/

/-- The open blocks after a line. -/
def Clause.blocksAfter (line : Nat) (blocks : List OpenBlock) : Clause → List OpenBlock
  | .simple _ => blocks
  | .opening o => ⟨o.construct, line⟩ :: blocks
  | .closing _ => blocks.tail

theorem blocks_of_takes {n : Nat} {c : Clause} (h : Takes n s c e) :
    e.blocks = c.blocksAfter n s.blocks := by
  cases h with
  | simple => rfl
  | define => rfl
  | branch => simp [Assembler.branch, Clause.blocksAfter, Opening.construct]
  | endDefine => rfl
  | endBranch => simp [Assembler.endBranch, Clause.blocksAfter]

/-- The blocks that are open behind the lines, the innermost first: between the lines that open
them there are only complete blocks and statements outside all blocks. -/
inductive LeftOpen : List SourceLine → List OpenBlock → Prop
  | nil {lines : List SourceLine} {F : Forest} (h : ReadsLines lines F.clauses) : LeftOpen lines []
  | cons {before behind : List SourceLine} {line : SourceLine} {blocks : List OpenBlock}
      {o : Opening} {F : Forest} (h : LeftOpen before blocks)
      (ho : Reads line.head line.args (.opening o)) (hF : ReadsLines behind F.clauses) :
      LeftOpen (before ++ line :: behind) (⟨o.construct, line.number⟩ :: blocks)

theorem Forest.exists_clauses_append (F G : Forest) :
    ∃ H : Forest, H.clauses = F.clauses ++ G.clauses := by
  induction F with
  | done => exact ⟨G, rfl⟩
  | simple c rest ih =>
    obtain ⟨H, hH⟩ := ih
    exact ⟨.simple c H, by simp [clauses, hH]⟩
  | block o body rest _ ih =>
    obtain ⟨H, hH⟩ := ih
    exact ⟨.block o body H, by simp [clauses, hH]⟩

namespace LeftOpen

variable {blocks : List OpenBlock}

/-- Complete blocks may follow. -/
theorem append (h : LeftOpen lines blocks) {more : List SourceLine} {G : Forest}
    (hG : ReadsLines more G.clauses) : LeftOpen (lines ++ more) blocks := by
  cases h with
  | @nil _ F hF =>
    obtain ⟨H, hH⟩ := F.exists_clauses_append G
    refine .nil (F := H) ?_
    rw [hH]
    exact List.rel_append hF hG
  | @cons before behind line blocks o F h ho hF =>
    obtain ⟨H, hH⟩ := F.exists_clauses_append G
    rw [List.append_assoc, List.cons_append]
    refine .cons (F := H) h ho ?_
    rw [hH]
    exact List.rel_append hF hG

/-- One more line. The end of a block makes it complete, with all that stands in it. -/
theorem step {stuck : BranchKind → Prop} (h : LeftOpen lines s.blocks) (hs : Coherent stuck s)
    (hp : Assembler.process line s = .ok () e) : LeftOpen (lines ++ [line]) e.blocks := by
  obtain ⟨c, hreads, -, he, rfl⟩ := (process_eq_ok_iff hs).mp hp
  rw [blocks_of_takes (hs.takes he line.number)]
  cases c with
  | simple c => exact h.append (G := .simple c .done) (.cons hreads .nil)
  | opening o => exact .cons (F := .done) h hreads .nil
  | closing c =>
    obtain ⟨b, blocks, hb, rfl⟩ := constructs_head?.mp he
    rw [hb] at h ⊢
    cases h with
    | @cons before behind first _ o F h ho hF =>
      have hclosed : ReadsLines (first :: (behind ++ [line])) (Forest.block o F .done).clauses :=
        .cons ho (List.rel_append hF (.cons hreads .nil))
      rw [List.append_assoc]
      exact h.append hclosed

end LeftOpen

/-- **The blocks that are open at the end of a run** are those that its lines leave open. -/
theorem leftOpen_of_run {stuck : BranchKind → Prop} {before : List SourceLine}
    (h : LeftOpen before s.blocks) (hs : Coherent stuck s)
    (hrun : Assembler.run source lines s = .ok () e) : LeftOpen (before ++ lines) e.blocks := by
  induction lines generalizing s before with
  | nil =>
    cases hrun
    rwa [List.append_nil]
  | cons line lines ih =>
    obtain ⟨m, hp, hrun⟩ := run_cons_eq_ok_iff.mp hrun
    obtain ⟨c, -, -, he, hm⟩ := (process_eq_ok_iff hs).mp hp
    have hcoherent : Coherent stuck m := by
      rw [hm]
      exact hs.effect he line.number
    rw [List.append_cons]
    exact ih (h.step hs hp) hcoherent hrun

/-! ## From scratch -/

section Fresh

variable {text : String} {options : Options}

/-- The state before the first line. -/
def Options.start (options : Options) : Assembler := .ofSize options.memorySize.toNat

theorem Options.sound_start (options : Options) : Sound [] options.start := Sound.ofSize _

theorem compile_of_session (hm : 0 < options.memorySize) :
    (compile text options source).1 =
      match Session.compile { text, options, source, assembler := options.start } with
      | .ok lines _ => .ok lines
      | .error failure _ => .error failure := by
  have hcreate : Session.create text options source =
      .ok { text, options, source, assembler := options.start } :=
    create_eq_ok_iff.mpr ⟨hm, rfl⟩
  simp only [compile, hcreate]
  cases Session.compile { text, options, source, assembler := options.start } <;> rfl

/-- The listing or the failure, and the log. -/
def Session.shown : EStateM.Result Failure Session (List String) →
    Except Failure (List String) × Array Event
  | .ok lines done => (.ok lines, done.assembler.log)
  | .error failure done => (.error failure, done.assembler.log)

/-- What a text gives is read off the run. -/
theorem compile_of_run (text source : String) (options : Options)
    (hm : 0 < options.memorySize) :
    compile text options source =
      match Assembler.run source (Source.statements text) options.start with
      | .error failure e => (.error failure, e.log)
      | .ok _ e =>
        match e.blocks with
        | b :: _ => (.error (Session.unclosed b source), e.log)
        | [] => Session.shown (Session.finish { text, options, source, assembler := e }) := by
  have hcreate : Session.create text options source =
      .ok { text, options, source, assembler := options.start } :=
    create_eq_ok_iff.mpr ⟨hm, rfl⟩
  simp only [compile, hcreate, Session.compile]
  cases Assembler.run source (Source.statements text) options.start with
  | error failure e => rfl
  | ok u e =>
    dsimp only
    cases e.blocks with
    | nil => rfl
    | cons b blocks => rfl

/-- What is shown of a session that is finished does not depend on its text. -/
theorem shown_finish (s : Session) :
    Session.shown s.finish =
      match Session.resolve s.assembler with
      | .error failure e => (.error failure, e.log)
      | .ok instructions e =>
        match listing e.label s.options.toStyle 0 instructions with
        | .error m => (.error (.misuse m), e.log)
        | .ok lines => (.ok lines, (e.report (Session.summary s.source e instructions)).log) := by
  unfold Session.finish
  cases Session.resolve s.assembler with
  | error failure e => rfl
  | ok instructions e =>
    dsimp only
    cases listing e.label s.options.toStyle 0 instructions <;> rfl

/-- A line fails. -/
theorem compile_of_run_eq_error (hm : 0 < options.memorySize) {failure : Failure}
    (hrun : Assembler.run source (Source.statements text) options.start = .error failure e) :
    (compile text options source).1 = .error failure := by
  rw [compile_of_session hm]
  simp only [Session.compile, hrun]

/-- The failure of a run, if it fails. -/
def failureOf : EStateM.Result Failure Assembler Unit → Option Failure
  | .ok _ _ => none
  | .error failure _ => some failure

theorem compile_of_failureOf (hm : 0 < options.memorySize) {failure : Failure}
    (h : failureOf (Assembler.run source (Source.statements text) options.start) = some failure) :
    (compile text options source).1 = .error failure := by
  cases hrun : Assembler.run source (Source.statements text) options.start with
  | ok u e => simp [hrun, failureOf] at h
  | error f e =>
    simp only [hrun, failureOf, Option.some.injEq] at h
    rw [compile_of_run_eq_error hm hrun, h]

/-- All lines are carried out, and blocks are left open. -/
theorem compile_of_blocks_eq_cons (hm : 0 < options.memorySize) {b : OpenBlock}
    {blocks : List OpenBlock}
    (hrun : Assembler.run source (Source.statements text) options.start = .ok () e)
    (hb : e.blocks = b :: blocks) :
    (compile text options source).1 = .error (Session.unclosed b source) := by
  rw [compile_of_session hm]
  simp only [Session.compile, hrun, hb]

/-- All lines are carried out, and no block is left open. -/
theorem compile_of_blocks_eq_nil (hm : 0 < options.memorySize)
    (hrun : Assembler.run source (Source.statements text) options.start = .ok () e)
    (hb : e.blocks = []) : ∃ lines, (compile text options source).1 = .ok lines := by
  have hs := options.sound_start.leads (leads_of_run (.inl hrun))
  obtain ⟨lines, done, hfinish, -⟩ := hs.wired.finish hs.coherent hb
    { text, options, source, assembler := options.start }
  refine ⟨lines, ?_⟩
  rw [compile_of_session hm]
  simp only [Session.compile, hrun, hb, hfinish]

/-- The place of a statement in a text: the line that it stands on, counted from zero. -/
def StandsOn (text : String) (k : Nat) (line : SourceLine) : Prop :=
  ∃ l, (Text.lines text.toList)[k]? = some l ∧ Source.statement? (k + 1) l = some line

/-- The statements before a line of the text. -/
def statementsBefore (text : String) (k : Nat) : List SourceLine :=
  Source.statementsFrom 1 ((Text.lines text.toList).take k)

/-- The statements behind a line of the text. -/
def statementsBehind (text : String) (k : Nat) : List SourceLine :=
  Source.statementsFrom (k + 2) ((Text.lines text.toList).drop (k + 1))

theorem exists_standsOn {before behind : List SourceLine}
    (h : Source.statements text = before ++ line :: behind) :
    ∃ k, StandsOn text k line ∧ line.number = k + 1 ∧ before = statementsBefore text k ∧
      behind = statementsBehind text k := by
  obtain ⟨k, l, hl, hline, hbefore, hbehind⟩ := statementsFrom_eq_append_cons h
  rw [Nat.add_comm 1 k] at hline hbehind
  exact ⟨k, ⟨l, hl, hline⟩, number_of_statement? hline, hbefore, hbehind⟩

/-- The text fails on a line: the statements before it are carried out, and that on the line
fails. -/
def FailsOn (text source : String) (options : Options) (k : Nat) (f : Fault) : Prop :=
  ∃ line m e, StandsOn text k line ∧
    Assembler.run source (statementsBefore text k) options.start = .ok () m ∧
    Assembler.process line m = .error (.ofFault f) e

/-- The text ends inside a block: all statements are carried out, and the innermost block that is
open then is started on the line. Behind that line there are only complete blocks. -/
def EndsInside (text source : String) (options : Options) (k : Nat) (o : Opening) : Prop :=
  ∃ line e blocks, ∃ F : Forest, StandsOn text k line ∧ Reads line.head line.args (.opening o) ∧
    Assembler.run source (Source.statements text) options.start = .ok () e ∧
    e.blocks = ⟨o.construct, k + 1⟩ :: blocks ∧ ReadsLines (statementsBehind text k) F.clauses

/-- A run that fails does so on a line. -/
theorem exists_failsOn {failure : Failure}
    (hrun : Assembler.run source (Source.statements text) options.start = .error failure e) :
    ∃ k f, failure = .diagnostic ⟨f, some (k + 1 : Nat), some source⟩ ∧ f.kind ≠ .unclosed ∧
      f.kind ≠ .general ∧ FailsOn text source options k f := by
  obtain ⟨before, line, behind, m, failure, hlines, hbefore, hp, rfl⟩ := run_eq_error hrun
  obtain ⟨k, hstands, hnumber, rfl, -⟩ := exists_standsOn hlines
  have h₀ : Coherent (fun _ => False) options.start := Coherent.ofSize _
  obtain ⟨cs, -, -, hsteps⟩ := steps_of_run h₀ hbefore
  obtain ⟨f, rfl, hunclosed, hgeneral⟩ := exists_fault_of_process (hsteps.coherent h₀) hp
  refine ⟨k, f, ?_, hunclosed, hgeneral, line, m, _, hstands, hbefore, hp⟩
  rw [hnumber]
  rfl

/-- A run that leaves blocks open ends inside the one that was opened last. -/
theorem exists_endsInside {b : OpenBlock} {blocks : List OpenBlock}
    (hrun : Assembler.run source (Source.statements text) options.start = .ok () e)
    (hb : e.blocks = b :: blocks) :
    ∃ k o, b = ⟨o.construct, k + 1⟩ ∧ EndsInside text source options k o := by
  have h₀ : Coherent (fun _ => False) options.start := Coherent.ofSize _
  have hopen : LeftOpen ([] ++ Source.statements text) e.blocks :=
    leftOpen_of_run (.nil (F := .done) .nil) h₀ hrun
  rw [hb, List.nil_append] at hopen
  generalize hlines : Source.statements text = lines at hopen
  cases hopen with
  | @cons before behind line _ o F h ho hF =>
    obtain ⟨k, hstands, hnumber, -, rfl⟩ := exists_standsOn hlines
    rw [hnumber] at hb
    exact ⟨k, o, by rw [hnumber], line, e, blocks, F, hstands, ho, hrun, hb, hF⟩

/-- **A text gives a listing or a diagnostic with its place.** Whatever fails, the diagnostic names
the source and a line. Unless the text ends inside a block, this is the first line that fails; if it
does, it is the line that starts the innermost block, and this is reported exactly if all lines are
carried out and a block is left open. -/
theorem diagnosis_of_compile (text source : String) (options : Options)
    (hm : 0 < options.memorySize) :
    ((∃ lines, (compile text options source).1 = .ok lines) ∨
      ∃ d k, (compile text options source).1 = .error (.diagnostic d) ∧
        d.source = some source ∧ d.line = some (k + 1 : Nat) ∧ d.fault.kind ≠ .general ∧
        (d.fault.kind ≠ .unclosed → FailsOn text source options k d.fault) ∧
        (d.fault.kind = .unclosed → ∃ o, d.fault = .neverClosed o.construct.opener ∧
          EndsInside text source options k o)) ∧
      ((∃ d, (compile text options source).1 = .error (.diagnostic d) ∧
          d.fault.kind = .unclosed) ↔
        ∃ e, Assembler.run source (Source.statements text) options.start = .ok () e ∧
          e.blocks ≠ []) := by
  cases hrun : Assembler.run source (Source.statements text) options.start with
  | error failure e =>
    obtain ⟨k, f, rfl, hunclosed, hgeneral, hfails⟩ := exists_failsOn hrun
    have hc := compile_of_run_eq_error hm hrun
    refine ⟨.inr ⟨_, k, hc, rfl, rfl, hgeneral, fun _ => hfails, fun h => absurd h hunclosed⟩, ?_⟩
    constructor
    · rintro ⟨d, hd, hkind⟩
      rw [hc] at hd
      cases hd
      exact absurd hkind hunclosed
    · rintro ⟨_, he, -⟩
      cases he
  | ok u e =>
    cases hb : e.blocks with
    | nil =>
      obtain ⟨lines, hc⟩ := compile_of_blocks_eq_nil hm hrun hb
      refine ⟨.inl ⟨lines, hc⟩, ?_⟩
      constructor
      · rintro ⟨d, hd, -⟩
        rw [hc] at hd
        cases hd
      · rintro ⟨_, he, hne⟩
        cases he
        exact absurd hb hne
    | cons b blocks =>
      obtain ⟨k, o, rfl, hends⟩ := exists_endsInside hrun hb
      have hc := compile_of_blocks_eq_cons hm hrun hb
      refine ⟨.inr ⟨_, k, hc, rfl, rfl, by simp [Fault.kind], fun h => absurd rfl h,
        fun _ => ⟨o, rfl, hends⟩⟩, ?_⟩
      constructor
      · intro _
        exact ⟨e, rfl, by simp [hb]⟩
      · intro _
        exact ⟨_, hc, rfl⟩

end Fresh

/-- A definition that is never closed. The blocks in it are. -/
def unfinishedText : String := "\n DEF f # body\nIF AW\nENDIF\n\nWHILE NV\nENDWHILE"

/-- The blocks that a run leaves open, none if it fails. -/
def openBlocks : EStateM.Result Failure Assembler Unit → List OpenBlock
  | .ok _ e => e.blocks
  | .error _ _ => []

theorem diagnosis_of_unfinishedText :
    0 < ({} : Options).memorySize ∧
      ∃ d o, (compile unfinishedText {} "main").1 = .error (.diagnostic d) ∧
        d.source = some "main" ∧ d.line = some 2 ∧ o.construct = .definition ∧
        EndsInside unfinishedText "main" {} 1 o := by
  have hm : 0 < ({} : Options).memorySize := by decide
  obtain ⟨hor, hiff⟩ := diagnosis_of_compile unfinishedText "main" {} hm
  have hblocks : openBlocks (Assembler.run "main" (Source.statements unfinishedText)
      ({} : Options).start) = [⟨.definition, 2⟩] := by
    decide +kernel
  cases hrun : Assembler.run "main" (Source.statements unfinishedText) ({} : Options).start with
  | error failure e => simp [hrun, openBlocks] at hblocks
  | ok u e =>
    simp only [hrun, openBlocks] at hblocks
    obtain ⟨d, hd, hkind⟩ := hiff.mpr ⟨e, hrun, by simp [hblocks]⟩
    rcases hor with ⟨lines, hl⟩ | ⟨d', k, hd', hsource, hline, -, -, hinside⟩
    · rw [hl] at hd
      cases hd
    · rw [hd] at hd'
      cases hd'
      obtain ⟨o, -, hends⟩ := hinside hkind
      -- the innermost block is the only one
      have hinnermost := hends
      obtain ⟨_, _, _, _, -, -, hrun', hb, -⟩ := hinnermost
      rw [hrun] at hrun'
      cases hrun'
      rw [hblocks, List.cons.injEq, OpenBlock.mk.injEq] at hb
      obtain ⟨⟨hconstruct, hk⟩, -⟩ := hb
      obtain rfl : k = 1 := by omega
      exact ⟨hm, d, o, hd, hsource, hline, hconstruct.symm, hends⟩

end TapeMachine

import TapeMachine.Proofs.Diagnosis

/-!
# Texts that are continued

A text is read from its first line to its last, and what has been read is settled: more lines behind
it add instructions and change none.

* `statements_append`: the statements of a text are the first of those of the longer text. What is
  added stands on later lines.
* `settled_prefix_of_run`: the instructions of a run that leaves no block open are the first of
  those of a longer run, also when all labels are replaced.
* `extension_of_compile`: what a text and one that continues it have in common, the listing or the
  failure.
-/

namespace TapeMachine

/-! ## Lines and statements -/

/-- What follows a line feed stands on lines of its own. The line feed adds an empty line if the
text before it ends in a break already, unless the two are one break. -/
theorem Text.lines_append_lineFeed (cs ds : List Char) :
    ∃ gap, (gap = [] ∨ gap = [[]]) ∧ lines (cs ++ '\n' :: ds) = lines cs ++ (gap ++ lines ds) := by
  induction cs using lines.induct with
  | case1 => exact ⟨[[]], .inr rfl, rfl⟩
  | case2 cs ih =>
    obtain ⟨gap, hgap, h⟩ := ih
    refine ⟨gap, hgap, ?_⟩
    rw [List.cons_append, List.cons_append, lines, lines, h]
    rfl
  | case3 c cs hne hbreak ih =>
    have hcons : lines (c :: cs) = [] :: lines cs := by
      rw [lines.eq_3 c cs hne, if_pos hbreak]
    by_cases hr : c = '\r' ∧ cs = []
    · -- the carriage return and the line feed are one break
      obtain ⟨rfl, rfl⟩ := hr
      exact ⟨[], .inl rfl, rfl⟩
    · obtain ⟨gap, hgap, h⟩ := ih
      refine ⟨gap, hgap, ?_⟩
      have hhead : c = '\r' → (cs ++ '\n' :: ds).head? ≠ some '\n' := by
        rintro rfl hd
        cases cs with
        | nil => exact hr ⟨rfl, rfl⟩
        | cons d cs =>
          obtain rfl : d = '\n' := by simpa using hd
          exact hne cs rfl rfl
      rw [hcons, List.cons_append, lines_cons hhead, if_pos hbreak, h]
      rfl
  | case4 c cs hne hbreak ih =>
    have hc : isBreak c = false := by simpa using hbreak
    rw [List.cons_append, lines_cons_of_not_isBreak hc, lines_cons_of_not_isBreak hc]
    by_cases hcs : cs = []
    · -- the line feed ends the line of this character
      subst hcs
      exact ⟨[], .inl rfl, rfl⟩
    · obtain ⟨gap, hgap, h⟩ := ih
      refine ⟨gap, hgap, ?_⟩
      rw [h, consHead_append (mt lines_eq_nil_iff.mp hcs)]

theorem statementsFrom_append (n : Nat) (ls ms : List (List Char)) :
    Source.statementsFrom n (ls ++ ms) =
      Source.statementsFrom n ls ++ Source.statementsFrom (n + ls.length) ms := by
  induction ls generalizing n with
  | nil => rfl
  | cons l ls ih =>
    have hadd : n + (ls.length + 1) = n + 1 + ls.length := by omega
    rw [List.cons_append, Source.statementsFrom, Source.statementsFrom, List.length_cons, hadd,
      ih (n + 1)]
    cases Source.statement? n l <;> rfl

theorem le_number_of_mem {n : Nat} {ls : List (List Char)} {line : SourceLine}
    (h : line ∈ Source.statementsFrom n ls) : n ≤ line.number := by
  obtain ⟨before, behind, hsplit⟩ := List.append_of_mem h
  obtain ⟨k, l, -, hline, -⟩ := statementsFrom_eq_append_cons hsplit
  rw [number_of_statement? hline]
  exact Nat.le_add_right n k

/-- **The statements of a longer text.** -/
theorem statements_append (text rest : String) :
    ∃ more, Source.statements (text ++ "\n" ++ rest) = Source.statements text ++ more ∧
      ∀ line ∈ more, (Text.lines text.toList).length < line.number := by
  obtain ⟨gap, -, h⟩ := Text.lines_append_lineFeed text.toList rest.toList
  have hchars : (text ++ "\n" ++ rest).toList = text.toList ++ '\n' :: rest.toList := by simp
  refine ⟨Source.statementsFrom (1 + (Text.lines text.toList).length)
    (gap ++ Text.lines rest.toList), ?_, fun line hline => ?_⟩
  · rw [Source.statements, hchars, h, statementsFrom_append]
    rfl
  · have hle := le_number_of_mem hline
    omega

/-! ## Runs -/

variable {source : String} {m e : Assembler}

/-- Lines in two parts. -/
theorem run_append (source : String) (lines more : List SourceLine) (s : Assembler) :
    Assembler.run source (lines ++ more) s =
      match Assembler.run source lines s with
      | .ok _ m => Assembler.run source more m
      | .error failure e => .error failure e := by
  induction lines generalizing s with
  | nil => rfl
  | cons line lines ih =>
    simp only [List.cons_append, Assembler.run, Step.bind_apply]
    cases Assembler.step source line s with
    | ok u m => exact ih m
    | error failure e => rfl

/-- **What is written stays as it is.** The labels of instructions outside all blocks have their
addresses, and keep them. -/
theorem settled_prefix_of_run {past : List Outcome} {more : List SourceLine} (h : Sound past m)
    (hb : m.blocks = []) (hrun : Assembler.run source more m = .ok () e) (hbe : e.blocks = []) :
    m.settled <+: e.settled := by
  obtain ⟨cs, -, -, hsteps⟩ := steps_of_run h.coherent hrun
  have hbalanced : balanced [] cs = true := by
    have hc := balanced_of_steps hsteps h.coherent hbe
    rwa [Assembler.constructs, hb, List.map_nil] at hc
  obtain ⟨F, rfl, -⟩ := balanced_iff.mp hbalanced
  obtain ⟨code, htape, -⟩ := emits_of_steps F.layout hsteps h.coherent
  have hgrows := hsteps.grows h.coherent
  have hkept : m.settled = m.tape.instructions.map (Instruction.settle e.address) := by
    refine List.map_congr_left fun i hi => Instruction.settle_congr fun l hl => ?_
    obtain ⟨a, ha⟩ := Option.isSome_iff_exists.mp (h.wired.isBound_of_uses h.coherent hb hi hl)
    exact ha.trans (hgrows.label l a ha).symm
  rw [hkept, Assembler.settled, htape, Tape.instructions_emitAll, List.map_append]
  exact List.prefix_append _ _

theorem Lists.prefix_of_append {L : Type} {style : Style} {index : Int}
    {code rest : List (Instruction L)} {ls ls' : List String} (h : Lists style index code ls)
    (h' : Lists style index (code ++ rest) ls') : ls <+: ls' := by
  induction h generalizing ls' with
  | nil => exact List.nil_prefix
  | cons hw _ ih =>
    cases h' with
    | cons hw' h' =>
      rw [hw] at hw'
      cases hw'
      exact (List.prefix_cons_inj _).mpr (ih h')

/-! ## Texts -/

section Fresh

variable {text : String} {options : Options}

/-- The failure is that the text ends inside a block. -/
def Failure.IsUnclosed : Failure → Prop
  | .diagnostic d => d.fault.kind = .unclosed
  | .misuse _ => False

/-- Without cells there is no session, whatever the text. -/
theorem create_of_memorySize_nonpos (hm : ¬ 0 < options.memorySize) (text source : String) :
    Session.create text options source = .error .poolSize := by
  unfold Session.create Storage.ofSize CellPool.ofSize
  rw [if_pos (by omega)]
  rfl

theorem compile_of_memorySize_nonpos (hm : ¬ 0 < options.memorySize) (text source : String) :
    (compile text options source).1 = .error (.misuse .poolSize) := by
  simp only [compile, create_of_memorySize_nonpos hm]

/-- A session that succeeds has carried out all lines and left no block open. -/
theorem run_of_session {ls : List String} {done : Session}
    (hc : Session.compile { text, options, source, assembler := options.start } = .ok ls done) :
    ∃ e, Assembler.run source (Source.statements text) options.start = .ok () e ∧
      e.blocks = [] ∧ done.instructions = e.settled ∧ Lists options.toStyle 0 e.settled ls := by
  obtain ⟨e, hrun, hb, hfinish⟩ := (compile_eq_ok_iff rfl).mp hc
  have hs := options.sound_start.leads (leads_of_run (.inl hrun))
  obtain ⟨_, _, hfinish', hinstructions, hlists⟩ := hs.wired.finish hs.coherent hb
    { text, options, source, assembler := options.start }
  rw [hfinish] at hfinish'
  cases hfinish'
  exact ⟨e, hrun, hb, hinstructions, hlists⟩

/-- A listing is that of a run that leaves no block open. -/
theorem run_of_compile_eq_ok (hm : 0 < options.memorySize) {ls : List String}
    (hc : (compile text options source).1 = .ok ls) :
    ∃ e, Assembler.run source (Source.statements text) options.start = .ok () e ∧
      e.blocks = [] ∧ Lists options.toStyle 0 e.settled ls := by
  rw [compile_of_session hm] at hc
  cases hcompile : Session.compile { text, options, source, assembler := options.start } with
  | error failure done => simp [hcompile] at hc
  | ok ls' done =>
    simp only [hcompile, Except.ok.injEq] at hc
    subst hc
    obtain ⟨e, hrun, hb, -, hlists⟩ := run_of_session hcompile
    exact ⟨e, hrun, hb, hlists⟩

/-- Unless the text ends inside a block, a failure is that of a line. -/
theorem run_of_compile_eq_error (hm : 0 < options.memorySize) {failure : Failure}
    (hc : (compile text options source).1 = .error failure) (hf : ¬ failure.IsUnclosed) :
    ∃ e, Assembler.run source (Source.statements text) options.start = .error failure e := by
  cases hrun : Assembler.run source (Source.statements text) options.start with
  | error f e =>
    rw [compile_of_run_eq_error hm hrun] at hc
    cases hc
    exact ⟨e, rfl⟩
  | ok u e =>
    cases hb : e.blocks with
    | nil =>
      obtain ⟨ls, hok⟩ := compile_of_blocks_eq_nil hm hrun hb
      rw [hok] at hc
      cases hc
    | cons b blocks =>
      rw [compile_of_blocks_eq_cons hm hrun hb] at hc
      cases hc
      exact absurd rfl hf

/-- A text has a listing or only ends inside a block if no line fails. -/
theorem forall_isUnclosed_iff (hm : 0 < options.memorySize) :
    (∀ failure, (compile text options source).1 = .error failure → failure.IsUnclosed) ↔
      ∃ e, Assembler.run source (Source.statements text) options.start = .ok () e := by
  constructor
  · intro h
    cases hrun : Assembler.run source (Source.statements text) options.start with
    | ok u e => exact ⟨e, rfl⟩
    | error failure e =>
      have hunclosed := h failure (compile_of_run_eq_error hm hrun)
      obtain ⟨k, f, rfl, hkind, -⟩ := exists_failsOn hrun
      exact absurd hunclosed hkind
  · rintro ⟨e, hrun⟩ failure hc
    by_contra hf
    obtain ⟨e', hrun'⟩ := run_of_compile_eq_error hm hc hf
    rw [hrun] at hrun'
    cases hrun'

/-- A line that fails behind others is one of those behind. -/
theorem exists_line_of_run {before more : List SourceLine} {failure : Failure} {n : Nat}
    (hrun : Assembler.run source before options.start = .ok () m)
    (hmore : Assembler.run source more m = .error failure e)
    (hn : ∀ line ∈ more, n < line.number) :
    ∃ d k, failure = .diagnostic d ∧ d.line = some (k : Nat) ∧ n < k := by
  have h₀ : Coherent (fun _ => False) options.start := Coherent.ofSize _
  obtain ⟨first, line, behind, m', f, rfl, hfirst, hp, rfl⟩ := run_eq_error hmore
  obtain ⟨cs, -, -, hsteps⟩ := steps_of_run h₀ hrun
  have hm := hsteps.coherent h₀
  obtain ⟨cs', -, -, hsteps'⟩ := steps_of_run hm hfirst
  obtain ⟨f, rfl, -⟩ := exists_fault_of_process (hsteps'.coherent hm) hp
  exact ⟨_, line.number, rfl, rfl, hn line (by simp)⟩

end Fresh

/-- **A longer text changes nothing of what came before.** The listing of a text is the first part
of that of a text that continues it; a failure is the failure of both, unless the text only ends
inside a block; and if the text has none but that, the longer text fails behind it. -/
theorem extension_of_compile (text rest source : String) (options : Options) :
    (∀ ls ls', (compile text options source).1 = .ok ls →
        (compile (text ++ "\n" ++ rest) options source).1 = .ok ls' → ls <+: ls') ∧
      (∀ failure, (compile text options source).1 = .error failure → ¬ failure.IsUnclosed →
        (compile (text ++ "\n" ++ rest) options source).1 = .error failure) ∧
      (∀ failure,
        (∀ f, (compile text options source).1 = .error f → f.IsUnclosed) →
        (compile (text ++ "\n" ++ rest) options source).1 = .error failure →
        ¬ failure.IsUnclosed →
        ∃ d n, failure = .diagnostic d ∧ d.line = some (n : Nat) ∧
          (Text.lines text.toList).length < n) := by
  by_cases hm : 0 < options.memorySize
  · obtain ⟨more, hstatements, hnumbers⟩ := statements_append text rest
    have hrunAll := run_append source (Source.statements text) more options.start
    rw [← hstatements] at hrunAll
    refine ⟨fun ls ls' hc hc' => ?_, fun failure hc hf => ?_, fun failure hok hc hf => ?_⟩
    · obtain ⟨m, hrun, hb, hlists⟩ := run_of_compile_eq_ok hm hc
      obtain ⟨e, hrun', hb', hlists'⟩ := run_of_compile_eq_ok hm hc'
      rw [hrunAll, hrun] at hrun'
      have hs := options.sound_start.leads (leads_of_run (.inl hrun))
      obtain ⟨code, hcode⟩ := settled_prefix_of_run hs hb hrun' hb'
      rw [← hcode] at hlists'
      exact hlists.prefix_of_append hlists'
    · obtain ⟨e, hrun⟩ := run_of_compile_eq_error hm hc hf
      rw [hrun] at hrunAll
      exact compile_of_run_eq_error hm hrunAll
    · obtain ⟨m, hrun⟩ := (forall_isUnclosed_iff hm).mp hok
      obtain ⟨e, hrun'⟩ := run_of_compile_eq_error hm hc hf
      rw [hrunAll, hrun] at hrun'
      exact exists_line_of_run hrun hrun' hnumbers
  · simp only [compile_of_memorySize_nonpos hm]
    refine ⟨fun ls ls' hc => ?_, fun failure hc _ => hc, fun failure hok => ?_⟩
    · cases hc
    · exact (hok _ rfl).elim

/-- A text that ends in a carriage return: the line feed behind it starts no line of its own. -/
theorem extension_of_carriageReturn :
    (∃ ls ls', (compile "VAR $x 1\r" {} "main").1 = .ok ls ∧
        (compile ("VAR $x 1\r" ++ "\n" ++ "ADD $x 1 $x") {} "main").1 = .ok ls' ∧ ls <+: ls') ∧
      (∃ failure, (compile "ADD $x 1 $x\r" {} "main").1 = .error failure ∧
        ¬ failure.IsUnclosed ∧
        (compile ("ADD $x 1 $x\r" ++ "\n" ++ "VAR $x 1") {} "main").1 = .error failure) ∧
      ∃ failure d, ∃ n : Nat,
        (∀ f, (compile "DEF f\r" {} "main").1 = .error f → f.IsUnclosed) ∧
        (compile ("DEF f\r" ++ "\n" ++ "ENDIF") {} "main").1 = .error failure ∧
        ¬ failure.IsUnclosed ∧ failure = .diagnostic d ∧ d.line = some (n : Int) ∧ 1 < n := by
  have hm : 0 < ({} : Options).memorySize := by decide
  refine ⟨?_, ?_, ?_⟩
  · obtain ⟨ls, hls⟩ : ∃ ls, (compile "VAR $x 1\r" {} "main").1 = .ok ls :=
      exists_compile_eq_ok_iff.mpr (exists_assembles_iff.mpr ⟨hm, by decide +kernel⟩)
    obtain ⟨ls', hls'⟩ :
        ∃ ls, (compile ("VAR $x 1\r" ++ "\n" ++ "ADD $x 1 $x") {} "main").1 = .ok ls :=
      exists_compile_eq_ok_iff.mpr (exists_assembles_iff.mpr ⟨hm, by decide +kernel⟩)
    exact ⟨ls, ls', hls, hls', (extension_of_compile _ _ _ _).1 ls ls' hls hls'⟩
  · have hunbound : (compile "ADD $x 1 $x\r" {} "main").1 =
        .error (.diagnostic ⟨.unbound "x" "global", some 1, some "main"⟩) :=
      compile_of_failureOf hm (by decide +kernel)
    have hclosed :
        ¬ (Failure.diagnostic ⟨.unbound "x" "global", some 1, some "main"⟩).IsUnclosed := by
      simp [Failure.IsUnclosed, Fault.kind]
    exact ⟨_, hunbound, hclosed, (extension_of_compile _ _ _ _).2.1 _ hunbound hclosed⟩
  · have hopen : ∀ f, (compile "DEF f\r" {} "main").1 = .error f → f.IsUnclosed := by
      have hcarried : failureOf
          (Assembler.run "main" (Source.statements "DEF f\r") ({} : Options).start) = none := by
        decide +kernel
      refine (forall_isUnclosed_iff hm).mpr ?_
      cases hrun : Assembler.run "main" (Source.statements "DEF f\r") ({} : Options).start with
      | ok u e => exact ⟨e, rfl⟩
      | error f e => simp [hrun, failureOf] at hcarried
    have hcrossed : (compile ("DEF f\r" ++ "\n" ++ "ENDIF") {} "main").1 =
        .error (.diagnostic ⟨.nothingToClose "ENDIF" "IF", some 2, some "main"⟩) :=
      compile_of_failureOf hm (by decide +kernel)
    have hclosed :
        ¬ (Failure.diagnostic ⟨.nothingToClose "ENDIF" "IF", some 2, some "main"⟩).IsUnclosed := by
      simp [Failure.IsUnclosed, Fault.kind]
    obtain ⟨d, n, hd, hline, hn⟩ := (extension_of_compile _ _ _ _).2.2 _ hopen hcrossed hclosed
    exact ⟨_, d, n, hopen, hcrossed, hclosed, hd, hline, hn⟩

end TapeMachine

import TapeMachine.Proofs.Cells
import TapeMachine.Proofs.Extension

/-!
# Trying again

A session that has failed keeps all it knows, and the next attempt starts on top of that with the
first line of the text. It does not get further than to a failure, whatever has been changed in
between but the text.

`Doomed` says why, in terms of the lines and of what is left behind. A definition of the text is
known already, and its line fails (`taken`). A block that no other block of the text encloses was
left open, and its line fails (`barred`). Or nothing but branches and statements stood before the
line that failed: they find all their variables bound, change nothing, and the line fails again
(`stalled`).

* `Steps.suffix`: a part of a forest does not close the blocks around it.
* `Doomed.run`: an attempt on top of such a state fails and leaves such a state behind.
* `doomed_of_run_eq_error`, `doomed_of_blocks`: the first attempt, however it fails, leaves such a
  state behind.
* `failure_of_retried`: so every later attempt fails.
-/

namespace TapeMachine

variable {stuck : BranchKind → Prop} {source : String} {s m e : Assembler} {line : SourceLine}
  {lines : List SourceLine} {cs : List Clause}

/-! ## What lines leave alone -/

/-- A failure keeps the storage, the definitions and the open blocks. -/
structure Kept (m e : Assembler) : Prop where
  storage : e.storage = m.storage
  definitions : e.definitions = m.definitions
  blocks : e.blocks = m.blocks

theorem Refused.kept {failure : Failure} (h : Refused m line failure e) : Kept m e := by
  rcases h.state with ⟨-, rfl⟩ | ⟨kind, _, -, -, -, -, rfl⟩
  · exact ⟨rfl, rfl, rfl⟩
  · exact ⟨by simp, by simp, by simp⟩

theorem Kept.constructs (h : Kept m e) : e.constructs = m.constructs := by
  rw [Assembler.constructs, h.blocks]
  rfl

/-- **A part of a forest does not close the blocks around it.** -/
theorem Steps.suffix {F : Forest} (hp : cs <+: F.clauses) (hs : Steps cs s e)
    (h : Coherent stuck s) : s.blocks <:+ e.blocks := by
  induction F generalizing cs s e with
  | done =>
    rw [Forest.clauses, List.prefix_nil] at hp
    subst hp
    cases hs
    exact List.suffix_rfl
  | simple c rest ih =>
    cases hs with
    | nil => exact List.suffix_rfl
    | cons line he hs =>
      rw [Forest.clauses, List.cons_prefix_cons] at hp
      obtain ⟨rfl, hp⟩ := hp
      have hrest := ih hp hs (h.effect he line)
      rwa [blocks_of_takes (h.takes he line)] at hrest
  | block o body rest ihb ihr =>
    cases hs with
    | nil => exact List.suffix_rfl
    | @cons c cs _ _ line he hs =>
      rw [Forest.clauses, List.cons_prefix_cons] at hp
      obtain ⟨rfl, hp⟩ := hp
      have h₁ := h.effect he line
      have hopened : ((Clause.opening o).effect line s).blocks = ⟨o.construct, line⟩ :: s.blocks :=
        blocks_of_takes (h.takes he line)
      rcases List.prefix_or_prefix_of_prefix hp (List.prefix_append body.clauses _) with
        hbody | ⟨more, rfl⟩
      · -- the part ends inside the body
        have hsuffix := ihb hbody hs h₁
        rw [hopened] at hsuffix
        exact (List.suffix_cons _ s.blocks).trans hsuffix
      · rw [List.prefix_append_right_inj] at hp
        obtain ⟨m, hbody, hs⟩ := steps_append_iff.mp hs
        have hframe := hbody.frame h₁
        cases hs with
        | nil =>
          -- the part ends with the body
          rw [hframe.blocks, hopened]
          exact List.suffix_cons _ s.blocks
        | cons line' he' hs =>
          rw [List.cons_prefix_cons] at hp
          obtain ⟨rfl, hp⟩ := hp
          have h₂ := hbody.coherent h₁
          have hclosed : ((Clause.closing o.construct).effect line' m).blocks = s.blocks := by
            rw [blocks_of_takes (h₂.takes he' line'), hframe.blocks, hopened]
            rfl
          have hrest := ihr hp hs (h₂.effect he' line')
          rwa [hclosed] at hrest

/-- Neither the start nor the end of a definition. -/
def Clause.Quiet : Clause → Prop
  | .simple _ => True
  | .opening (.define _) => False
  | .opening (.branch _ _) => True
  | .closing .definition => False
  | .closing (.branch _) => True

/-- Without definitions in it, a forest is quiet. -/
theorem Forest.quiet {F : Forest} (h : ∀ name, .opening (.define name) ∉ F.clauses) :
    ∀ c ∈ F.clauses, c.Quiet := by
  induction F with
  | done => exact fun c hc => absurd hc List.not_mem_nil
  | simple s rest ih =>
    rw [clauses, List.forall_mem_cons]
    exact ⟨trivial, ih fun name hn => h name (List.mem_cons_of_mem _ hn)⟩
  | block o body rest ihb ihr =>
    simp only [clauses, List.mem_cons, List.mem_append, not_or] at h ⊢
    have hbody := ihb fun name => (h name).2.1
    have hrest := ihr fun name => (h name).2.2.2
    cases o with
    | define name => exact absurd rfl (h name).1
    | branch kind condition =>
      rintro c (rfl | hc | rfl | hc)
      · trivial
      · exact hbody c hc
      · trivial
      · exact hrest c hc

theorem Steps.definitions_of_quiet (hs : Steps cs s e) (h : Coherent stuck s)
    (hq : ∀ c ∈ cs, c.Quiet) : e.definitions = s.definitions := by
  induction hs with
  | nil => rfl
  | @cons c cs s e line he hs ih =>
    obtain ⟨hc, hq⟩ := List.forall_mem_cons.mp hq
    rw [ih (h.effect he line) hq]
    have ht := h.takes he line
    generalize c.effect line s = m at ht
    cases ht with
    | simple => rfl
    | define => exact hc.elim
    | branch => simp [Assembler.branch]
    | endDefine => exact hc.elim
    | endBranch => simp [Assembler.endBranch]

/-- The variables that the lines assign have cells. -/
def Bound (cs : List Clause) (st : Storage) : Prop :=
  ∀ c, .simple c ∈ cs → ∀ name, c.assignee? = some name → (st.scopes.cell? name).isSome

/-- Lines that find their variables bound leave the storage as it is. -/
theorem Steps.storage_of_bound (hs : Steps cs s e) (h : Coherent stuck s)
    (hq : ∀ c ∈ cs, c.Quiet) (hb : Bound cs s.storage) : e.storage = s.storage := by
  induction hs with
  | nil => rfl
  | @cons c cs s e line he hs ih =>
    obtain ⟨hc, hq⟩ := List.forall_mem_cons.mp hq
    have hstorage : (c.effect line s).storage = s.storage := by
      have ht := h.takes he line
      generalize c.effect line s = m at ht
      cases ht with
      | @simple c st code hr =>
        rcases assemble_storage hr with ⟨rfl, -⟩ | ⟨name, pool, hname, hnone, -⟩
        · rfl
        · have hsome := hb c List.mem_cons_self name hname
          rw [hnone] at hsome
          cases hsome
      | define => exact hc.elim
      | branch => simp [Assembler.branch]
      | endDefine => exact hc.elim
      | endBranch => simp [Assembler.endBranch]
    rw [ih (h.effect he line) hq, hstorage]
    rw [hstorage]
    exact fun c hc => hb c (List.mem_cons_of_mem _ hc)

theorem Grows.find?_ne_none (h : Grows s e) {name : String}
    (hn : s.definitions.find? name ≠ none) : e.definitions.find? name ≠ none := by
  obtain ⟨d, hd⟩ := Option.ne_none_iff_exists'.mp hn
  obtain ⟨d', hd', -⟩ := h.definition name d hd
  exact Option.ne_none_iff_exists'.mpr ⟨d', hd'⟩

/-- The definitions of lines that are carried out are known afterwards, and were not before. -/
theorem Steps.find?_of_define (hs : Steps cs s e) (h : Coherent stuck s) {name : String}
    (hc : .opening (.define name) ∈ cs) :
    s.definitions.find? name = none ∧ e.definitions.find? name ≠ none := by
  induction hs with
  | nil => cases hc
  | @cons c cs s e line he hs ih =>
    have h₁ := h.effect he line
    rcases List.mem_cons.mp hc with rfl | hmem
    · refine ⟨he.2, (hs.grows h₁).find?_ne_none fun hn => ?_⟩
      exact find?_eq_none_iff.mp hn (s.newDefinition name)
        (by simp [Clause.effect, Assembler.define]) rfl
    · obtain ⟨hnone, hsome⟩ := ih h₁ hmem
      refine ⟨?_, hsome⟩
      by_contra hne
      exact (grows_effect h he line).find?_ne_none hne hnone

/-! ## Why the next attempt fails -/

/-- Complete blocks without definitions change nothing, and the line behind them cannot be carried
out as long as nothing is changed. -/
structure Stalled (before : List SourceLine) (line : SourceLine) (F : Forest) (s : Assembler) :
    Prop where
  reads : ReadsLines before F.clauses
  quiet : ∀ c ∈ F.clauses, c.Quiet
  bound : Bound F.clauses s.storage
  blocks : s.blocks = []
  definitions : s.definitions.all = []
  stop : ∀ (stuck : BranchKind → Prop) (m m' : Assembler), Coherent stuck m → m.blocks = [] →
    m.definitions.all = [] → m.storage = s.storage → Assembler.process line m ≠ .ok () m'

/-- What dooms an attempt to carry out the lines on top of a state. -/
inductive Doomed (lines : List SourceLine) (s : Assembler) : Prop
  /-- A definition of the lines is known already. -/
  | taken {line : SourceLine} {name : String} (hl : line ∈ lines)
      (hr : Reads line.head line.args (.opening (.define name)))
      (hn : s.definitions.find? name ≠ none)
  /-- Behind complete blocks, a line starts a block of a kind that is open already. -/
  | barred {before behind : List SourceLine} {line : SourceLine} {F : Forest} {o : Opening}
      (hl : lines = before ++ line :: behind) (hF : ReadsLines before F.clauses)
      (ho : Reads line.head line.args (.opening o)) (hb : o.construct ∈ s.constructs)
  /-- Behind complete blocks that change nothing, a line cannot be carried out. -/
  | stalled {before behind : List SourceLine} {line : SourceLine} {F : Forest}
      (hl : lines = before ++ line :: behind) (h : Stalled before line F s)

/-- Every line reads as a clause. -/
theorem ReadsLines.exists_clause (h : ReadsLines lines cs) (hl : line ∈ lines) :
    ∃ c ∈ cs, Reads line.head line.args c := by
  induction h with
  | nil => cases hl
  | @cons line' c _ _ hr _ ih =>
    rcases List.mem_cons.mp hl with rfl | hl
    · exact ⟨c, List.mem_cons_self, hr⟩
    · obtain ⟨c', hmem, hr'⟩ := ih hl
      exact ⟨c', List.mem_cons_of_mem _ hmem, hr'⟩

/-- The first lines of a program read as the first of its clauses. -/
theorem ReadsLines.initial {before behind : List SourceLine} {cs ds : List Clause}
    (h : ReadsLines before cs) (h' : ReadsLines (before ++ behind) ds) : cs <+: ds := by
  induction h generalizing ds with
  | nil => exact List.nil_prefix
  | cons hr _ ih =>
    cases h' with
    | cons hr' h' =>
      rw [reads_unique hr hr']
      exact (List.prefix_cons_inj _).mpr (ih h')

/-- An attempt that does not get past a line fails there or before, and what it leaves behind is
what the lines before the failure have done. -/
theorem run_of_stop {before : List SourceLine} {F : Forest} (h : Coherent stuck s)
    (hF : ReadsLines before F.clauses) (source : String) (line : SourceLine)
    (behind : List SourceLine)
    (hstop : ∀ m m', Steps F.clauses s m → Coherent stuck m →
      Assembler.process line m ≠ .ok () m') :
    ∃ failure e first rest cs m,
      Assembler.run source (before ++ line :: behind) s = .error failure e ∧
        before = first ++ rest ∧ Assembler.run source first s = .ok () m ∧
        ReadsLines first cs ∧ Steps cs s m ∧ Kept m e := by
  rw [run_append]
  cases hrun : Assembler.run source before s with
  | ok u m =>
    obtain ⟨cs, hreads, -, hsteps⟩ := steps_of_run h hrun
    obtain rfl := readsLines_unique hreads hF
    have hm := hsteps.coherent h
    cases hp : Assembler.process line m with
    | ok u m' => exact absurd hp (hstop m m' hsteps hm)
    | error failure e =>
      refine ⟨failure.locate line.number source, e, before, [], F.clauses, m, ?_, by simp, hrun, hF,
        hsteps, (refused_of_process hm hp).kept⟩
      simp only [Assembler.run, Step.bind_apply, Assembler.step, hp]
  | error failure e =>
    obtain ⟨first, line', rest, m, f, rfl, hfirst, hp, rfl⟩ := run_eq_error hrun
    obtain ⟨cs, hreads, -, hsteps⟩ := steps_of_run h hfirst
    exact ⟨_, e, first, line' :: rest, cs, m, rfl, rfl, hfirst, hreads, hsteps,
      (refused_of_process (hsteps.coherent h) hp).kept⟩

/-- If blocks are left open, the outermost is started behind complete blocks. -/
theorem LeftOpen.outermost {blocks : List OpenBlock} (h : LeftOpen lines blocks)
    (hne : blocks ≠ []) :
    ∃ before line behind, ∃ F : Forest, ∃ o, lines = before ++ line :: behind ∧
      ReadsLines before F.clauses ∧ Reads line.head line.args (.opening o) ∧
      o.construct ∈ blocks.map (·.construct) := by
  induction h with
  | nil => exact absurd rfl hne
  | @cons before behind line blocks o F h ho hF ih =>
    by_cases hb : blocks = []
    · subst hb
      cases h with
      | nil hF' => exact ⟨before, line, behind, _, o, rfl, hF', ho, by simp⟩
    · obtain ⟨first, line', rest, G, o', rfl, hG, ho', hmem⟩ := ih hb
      refine ⟨first, line', rest ++ line :: behind, G, o', by simp, hG, ho', ?_⟩
      exact List.mem_cons_of_mem _ hmem

theorem Doomed.of_leftOpen {before : List SourceLine} (h : LeftOpen before m.blocks)
    (hne : m.blocks ≠ []) (hk : Kept m e) (behind : List SourceLine) :
    Doomed (before ++ behind) e := by
  obtain ⟨first, line, rest, F, o, rfl, hF, ho, hmem⟩ := h.outermost hne
  rw [List.append_assoc, List.cons_append]
  refine .barred rfl hF ho ?_
  rw [hk.constructs]
  exact hmem

/-- A definition that is known stays known, so it cannot be started again. -/
theorem run_of_taken {name : String} (hs : Coherent stuck s) (hl : line ∈ lines)
    (hr : Reads line.head line.args (.opening (.define name)))
    (hn : s.definitions.find? name ≠ none) (source : String) :
    ∃ failure e, Assembler.run source lines s = .error failure e ∧
      e.definitions.find? name ≠ none := by
  cases hrun : Assembler.run source lines s with
  | ok u e =>
    obtain ⟨cs, hreads, -, hsteps⟩ := steps_of_run hs hrun
    obtain ⟨c, hc, hread⟩ := hreads.exists_clause hl
    obtain rfl := reads_unique hread hr
    exact absurd (hsteps.find?_of_define hs hc).1 hn
  | error failure e =>
    obtain ⟨before, line', behind, m, f, hlines, hbefore, hp, -⟩ := run_eq_error hrun
    obtain ⟨cs, -, -, hsteps⟩ := steps_of_run hs hbefore
    have hkept := (refused_of_process (hsteps.coherent hs) hp).kept
    refine ⟨failure, e, rfl, ?_⟩
    rw [hkept.definitions]
    exact (hsteps.grows hs).find?_ne_none hn

/-- A block that is open stays open, so no other of its kind can be started. -/
theorem run_of_barred {before : List SourceLine} {F : Forest} {o : Opening} (hs : Coherent stuck s)
    (hF : ReadsLines before F.clauses) (ho : Reads line.head line.args (.opening o))
    (hb : o.construct ∈ s.constructs) (source : String) (behind : List SourceLine) :
    ∃ failure e, Assembler.run source (before ++ line :: behind) s = .error failure e ∧
      o.construct ∈ e.constructs := by
  obtain ⟨failure, e, first, rest, cs, m, hrun, rfl, -, hreads, hsteps, hkept⟩ :=
    run_of_stop hs hF source line behind fun m m' hsteps hm hp => by
      obtain ⟨c, hread, -, he, -⟩ := (process_eq_ok_iff hm).mp hp
      obtain rfl := reads_unique hread ho
      refine construct_not_mem hm he ?_
      rwa [(hsteps.frame hs).constructs]
  refine ⟨failure, e, hrun, ?_⟩
  rw [hkept.constructs]
  exact ((hsteps.suffix (hreads.initial hF) hs).map (·.construct)).subset hb

namespace Stalled

variable {before : List SourceLine} {F : Forest}

/-- The blocks before the line, or a part of them, change neither the storage nor the
definitions. -/
theorem same (h : Stalled before line F s) (hs : Coherent stuck s) (hcs : cs <+: F.clauses)
    (hsteps : Steps cs s m) : m.storage = s.storage ∧ m.definitions.all = [] := by
  have hq : ∀ c ∈ cs, c.Quiet := fun c hc => h.quiet c (hcs.subset hc)
  refine ⟨hsteps.storage_of_bound hs hq fun c hc => h.bound c (hcs.subset hc), ?_⟩
  rw [hsteps.definitions_of_quiet hs hq, h.definitions]

/-- The attempt fails at the line, or before it inside a block, which is open from then on. -/
theorem run (h : Stalled before line F s) (hs : Coherent stuck s) (source : String)
    (behind : List SourceLine) :
    ∃ failure e, Assembler.run source (before ++ line :: behind) s = .error failure e ∧
      Doomed (before ++ line :: behind) e := by
  obtain ⟨failure, e, first, rest, cs, m, hrun, rfl, hfirst, hreads, hsteps, hkept⟩ :=
    run_of_stop hs h.reads source line behind fun m m' hsteps hm =>
      h.stop stuck m m' hm (by rw [(hsteps.frame hs).blocks, h.blocks])
        (h.same hs List.prefix_rfl hsteps).2 (h.same hs List.prefix_rfl hsteps).1
  obtain ⟨hstorage, hdefs⟩ := h.same hs (hreads.initial h.reads) hsteps
  refine ⟨failure, e, hrun, ?_⟩
  by_cases hopen : m.blocks = []
  · refine .stalled rfl ⟨h.reads, h.quiet, ?_, ?_, ?_, ?_⟩
    · rw [hkept.storage, hstorage]
      exact h.bound
    · rw [hkept.blocks, hopen]
    · rw [hkept.definitions, hdefs]
    · rw [hkept.storage, hstorage]
      exact h.stop
  · have hleft : LeftOpen ([] ++ first) m.blocks := by
      refine leftOpen_of_run ?_ hs hfirst
      rw [h.blocks]
      exact .nil (F := .done) .nil
    rw [List.append_assoc]
    exact .of_leftOpen hleft hopen hkept _

end Stalled

/-- **An attempt on top of a doomed state** fails and leaves a doomed state behind. -/
theorem Doomed.run (h : Doomed lines s) (hs : Coherent stuck s) (source : String) :
    ∃ failure e, Assembler.run source lines s = .error failure e ∧ Doomed lines e := by
  cases h with
  | taken hl hr hn =>
    obtain ⟨failure, e, hrun, hn'⟩ := run_of_taken hs hl hr hn source
    exact ⟨failure, e, hrun, .taken hl hr hn'⟩
  | @barred before behind line F o hl hF ho hb =>
    subst hl
    obtain ⟨failure, e, hrun, hb'⟩ := run_of_barred hs hF ho hb source behind
    exact ⟨failure, e, hrun, .barred rfl hF ho hb'⟩
  | @stalled before behind line F hl h =>
    subst hl
    exact h.run hs source behind

/-! ## The first attempt -/

section First

variable {text : String} {options : Options}

theorem mem_assigned {c : Simple} {name : String} (hq : ∀ c ∈ cs, c.Quiet) (hc : .simple c ∈ cs)
    (hn : c.assignee? = some name) (scope : Option String) : (scope, name) ∈ assigned scope cs := by
  induction cs with
  | nil => cases hc
  | cons d cs ih =>
    obtain ⟨hd, hq⟩ := List.forall_mem_cons.mp hq
    rw [assigned, List.mem_append]
    rcases List.mem_cons.mp hc with rfl | hc
    · exact .inl (by simp [Clause.assigned, hn])
    · refine .inr ?_
      have hscope : d.scopeAfter scope = scope := by
        unfold Clause.scopeAfter
        split
        · exact hd.elim
        · exact hd.elim
        · rfl
      rw [hscope]
      exact ih hq hc

/-- What the lines of a first attempt assign is bound behind them. -/
theorem bound_of_steps (hs : Steps cs options.start e) (hq : ∀ c ∈ cs, c.Quiet) :
    Bound cs e.storage := by
  have h₀ : Coherent (fun _ => False) options.start := Coherent.ofSize _
  have hknows : Knows e ([] ++ assigned none cs) := Knows.of_steps hs rfl h₀
  have hscope : e.scope = none := by
    rw [Assembler.scope, hs.definitions_of_quiet h₀ hq]
    rfl
  intro c hc name hn
  rw [Option.isSome_iff_ne_none, ne_eq, hknows.cell?_eq_none_iff (hs.coherent h₀), hscope,
    not_not, List.nil_append]
  exact mem_assigned hq hc hn none

/-- Whether a condition can be tested does not depend on where its test jumps to. -/
theorem exists_assemble_of_storage_eq {st : Storage} {kind : BranchKind} {target : Target}
    {condition : Condition} {test : List (Instruction Target)}
    (h : condition.assemble st kind target = .ok test) (target' : Target) :
    ∃ test', condition.assemble st kind target' = .ok test' := by
  cases condition with
  | constant c => exact ⟨_, rfl⟩
  | compare c left right =>
    simp only [Condition.assemble, bind_eq_ok_iff] at h ⊢
    obtain ⟨l, hl, r, hr, -⟩ := h
    exact ⟨_, l, hl, r, hr, rfl⟩

/-- With no block open and no definition known, what can be carried out depends on the storage. -/
theorem enabled_of_storage_eq {c : Clause} (h : Coherent (fun _ => False) s) (hb : s.blocks = [])
    (hd : s.definitions.all = []) (hbm : m.blocks = []) (hdm : m.definitions.all = [])
    (hst : m.storage = s.storage) (he : c.Enabled m) : c.Enabled s := by
  have hconstructs : s.constructs = [] := by simp [Assembler.constructs, hb]
  cases c with
  | simple c =>
    obtain ⟨r, hr⟩ := he
    cases c with
    | call name =>
      simp only [Simple.assemble, bind_eq_ok_iff] at hr
      obtain ⟨d, hd', -⟩ := hr
      have hfind := resolve_definition_eq_ok hd'
      simp [Definitions.find?, hdm] at hfind
    | _ =>
      simp only [Simple.assemble, hst] at hr
      exact ⟨_, hr⟩
  | opening o =>
    cases o with
    | define name => exact ⟨by simp [hconstructs], by simp [Definitions.find?, hd]⟩
    | branch kind condition =>
      obtain ⟨-, test, ht⟩ := he
      rw [hst] at ht
      refine ⟨?_, exists_assemble_of_storage_eq ht _⟩
      rw [Bool.eq_false_iff]
      intro hopen
      simpa [hconstructs] using (h.isOpen kind).mp hopen
  | closing c => simp [Clause.Enabled, Assembler.constructs, hbm] at he

/-- **What a first attempt that fails in a line leaves behind.** -/
theorem doomed_of_run_eq_error {failure : Failure}
    (hrun : Assembler.run source lines options.start = .error failure e) : Doomed lines e := by
  have h₀ : Coherent (fun _ => False) options.start := Coherent.ofSize _
  obtain ⟨before, line, behind, m, f, rfl, hbefore, hp, -⟩ := run_eq_error hrun
  obtain ⟨cs, hreads, -, hsteps⟩ := steps_of_run h₀ hbefore
  have hm := hsteps.coherent h₀
  have hkept := (refused_of_process hm hp).kept
  by_cases hopen : m.blocks = []
  · obtain ⟨F, rfl, -⟩ := balanced_iff.mp (balanced_of_steps hsteps h₀ hopen)
    by_cases hdefine : ∃ name, .opening (.define name) ∈ F.clauses
    · obtain ⟨name, hname⟩ := hdefine
      obtain ⟨line', hline, hread⟩ := hreads.exists_line hname
      refine .taken (List.mem_append_left _ hline) hread ?_
      rw [hkept.definitions]
      exact (hsteps.find?_of_define h₀ hname).2
    · have hq := Forest.quiet (not_exists.mp hdefine)
      have hd : m.definitions.all = [] := by
        rw [hsteps.definitions_of_quiet h₀ hq]
        rfl
      refine .stalled rfl ⟨hreads, hq, ?_, ?_, ?_, fun stuck n n' hn hnb hnd hst hpn => ?_⟩
      · rw [hkept.storage]
        exact bound_of_steps hsteps hq
      · rw [hkept.blocks, hopen]
      · rw [hkept.definitions, hd]
      · -- what is carried out there would have been carried out the first time
        obtain ⟨c, hread, hnamed, he, -⟩ := (process_eq_ok_iff hn).mp hpn
        rw [hkept.storage] at hst
        have hok := (process_eq_ok_iff hm).mpr
          ⟨c, hread, hnamed, enabled_of_storage_eq hm hopen hd hnb hnd hst he, rfl⟩
        rw [hp] at hok
        cases hok
  · have hleft : LeftOpen ([] ++ before) m.blocks :=
      leftOpen_of_run (.nil (F := .done) .nil) h₀ hbefore
    exact .of_leftOpen hleft hopen hkept _

/-- **What a first attempt that leaves blocks open leaves behind.** -/
theorem doomed_of_blocks (hrun : Assembler.run source lines options.start = .ok () e)
    (hne : e.blocks ≠ []) : Doomed lines e := by
  have h₀ : Coherent (fun _ => False) options.start := Coherent.ofSize _
  have hleft : LeftOpen ([] ++ lines) e.blocks :=
    leftOpen_of_run (.nil (F := .done) .nil) h₀ hrun
  rw [← List.append_nil lines]
  exact .of_leftOpen hleft hne ⟨rfl, rfl, rfl⟩ _

end First

/-! ## Sessions -/

/-- What becomes of a session whose text is not changed: its settings are, and it is tried again. -/
inductive Session.Retried (s₁ : Session) : Session → Prop
  | start : Retried s₁ s₁
  | configure {s : Session} (h : Retried s₁ s) (options : Options) (source : String) :
      Retried s₁ { s with options, source }
  | again {s : Session} (h : Retried s₁ s) : Retried s₁ s.tried

/-- A session that has failed so far, on top of what dooms it. -/
structure Session.Hopeless (s : Session) : Prop where
  unfinished : s.result = none
  sound : ∃ past, Sound past s.assembler
  doomed : Doomed (Source.statements s.text) s.assembler

/-- Such a session fails, and is no better off afterwards. -/
theorem Session.Hopeless.compile {s : Session} (h : s.Hopeless) :
    ∃ failure e, s.compile = .error failure e ∧ e.Hopeless := by
  obtain ⟨past, hs⟩ := h.sound
  obtain ⟨failure, a, hrun, hdoomed⟩ := h.doomed.run hs.coherent s.source
  refine ⟨failure, { s with assembler := a }, ?_, h.unfinished, ?_, hdoomed⟩
  · simp only [Session.compile, h.unfinished, hrun]
  · exact ⟨_, hs.leads (leads_of_run (.inr ⟨failure, hrun⟩))⟩

/-- **The first failure makes a session hopeless.** -/
theorem Session.hopeless_of_compile {text source : String} {options : Options} {s₀ s₁ : Session}
    {failure : Failure} (h₀ : Session.create text options source = .ok s₀)
    (h₁ : s₀.compile = .error failure s₁) : s₁.Hopeless := by
  obtain ⟨-, rfl⟩ := create_eq_ok_iff.mp h₀
  obtain ⟨a, ⟨hrun, rfl⟩ | ⟨hrun, ⟨block, blocks, hb, -, rfl⟩ | ⟨hb, hfinish⟩⟩⟩ :=
    Session.compile_eq_error rfl h₁
  · exact ⟨rfl, ⟨_, options.sound_start.leads (leads_of_run (.inr ⟨failure, hrun⟩))⟩,
      doomed_of_run_eq_error hrun⟩
  · exact ⟨rfl, ⟨_, options.sound_start.leads (leads_of_run (.inl hrun))⟩,
      doomed_of_blocks hrun (by simp [hb])⟩
  · -- with no block open there is nothing left that could fail
    have ha := options.sound_start.leads (leads_of_run (.inl hrun))
    obtain ⟨lines, done, hok, -⟩ := ha.wired.finish ha.coherent hb
      { text, options, source, assembler := options.start }
    rw [Options.start] at hok
    rw [hok] at hfinish
    cases hfinish

/-- **A failed attempt is never retried into a listing.** Whatever settings are chosen in between
and however often it is tried again, a session whose first attempt has failed fails, as long as its
text is the same. -/
theorem failure_of_retried {text source : String} {options : Options} {s₀ s₁ s : Session}
    {failure : Failure} (h₀ : Session.create text options source = .ok s₀)
    (h₁ : s₀.compile = .error failure s₁) (h : Session.Retried s₁ s) :
    ∃ failure' s', s.compile = .error failure' s' := by
  have hhopeless : s.Hopeless := by
    induction h with
    | start => exact Session.hopeless_of_compile h₀ h₁
    | configure _ options source ih => exact ⟨ih.unfinished, ih.sound, ih.doomed⟩
    | again _ ih =>
      obtain ⟨failure', e, he, hopeless⟩ := ih.compile
      rwa [Session.tried, he]
  obtain ⟨failure', s', hs', -⟩ := hhopeless.compile
  exact ⟨failure', s', hs'⟩

/-- A condition that fails inside a loop: the loop and the branch stay open. -/
def strandedText : String := "WHILE NV\nIF EQ $x 1\nENDIF\nENDWHILE"

/-- Tried once more, and then with other settings. -/
theorem failure_of_strandedText :
    ∃ s₀ s₁ failure, Session.create strandedText {} "main" = .ok s₀ ∧
      s₀.compile = .error failure s₁ ∧
      Session.Retried s₁ { s₁.tried with options := { comments := false }, source := "again" } ∧
      ∃ failure' s',
        Session.compile { s₁.tried with options := { comments := false }, source := "again" } =
          .error failure' s' := by
  have hnot : ¬ ∃ done, Assembles strandedText {} "main" done := by
    rw [exists_assembles_iff]
    decide +kernel
  have h₀ : Session.create strandedText {} "main" =
      .ok { text := strandedText, options := {}, source := "main",
            assembler := Options.start {} } :=
    create_eq_ok_iff.mpr ⟨by decide, rfl⟩
  cases h₁ : Session.compile
      { text := strandedText, options := {}, source := "main", assembler := Options.start {} } with
  | ok lines done => exact absurd ⟨done, _, lines, h₀, h₁⟩ hnot
  | error failure s₁ =>
    have h := (Session.Retried.start : s₁.Retried s₁).again.configure { comments := false } "again"
    exact ⟨_, s₁, failure, h₀, h₁, h, failure_of_retried h₀ h₁ h⟩

end TapeMachine

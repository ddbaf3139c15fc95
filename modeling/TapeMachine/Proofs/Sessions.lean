import TapeMachine.Proofs.Pending

/-!
# What a session goes through

A session may fail and be tried again, with another text and other settings, on top of all that
the earlier attempts have left behind. `Session.Reaches` says which sessions come of this, also in
the middle of an attempt, and keeps a record of the lines and of what came of them.

However many lines have failed, the state of the assembler is coherent and its labels are in order
(`Sound`): only branches of a kind of which one has failed in its condition are stuck. This is shown
for one line (`Sound.carried`, `Sound.failed`), for lines in any order (`Sound.leads`) and for
sessions (`Session.Reaches.sound`).
-/

namespace TapeMachine

/-! ## Lines and their outcomes -/

/-- A line that was read, with its failure if it was not carried out. -/
structure Outcome where
  line : SourceLine
  failure? : Option Failure := none
deriving DecidableEq

/-- The line starts a branch of the kind, and fails in its condition: it fails, and not because a
branch of its kind is open. -/
def Outcome.FailedInside (kind : BranchKind) (o : Outcome) : Prop :=
  Keyword.ofWord? o.line.head = some (.branch kind) ∧
    ∃ f, o.failure? = some (.ofFault f) ∧ f ≠ .nestedBranch kind.form.opener

/-- The kinds of which a branch has failed in its condition. -/
def Stuck (past : List Outcome) (kind : BranchKind) : Prop := ∃ o ∈ past, o.FailedInside kind

/-- Lines one after the other, each carried out or failing. -/
inductive Leads : Assembler → List Outcome → Assembler → Prop
  | nil {s : Assembler} : Leads s [] s
  | carried {s m e : Assembler} {line : SourceLine} {new : List Outcome}
      (hp : Assembler.process line s = .ok () m) (h : Leads m new e) :
      Leads s (⟨line, none⟩ :: new) e
  | failed {s m e : Assembler} {line : SourceLine} {failure : Failure} {new : List Outcome}
      (hp : Assembler.process line s = .error failure m) (h : Leads m new e) :
      Leads s (⟨line, some failure⟩ :: new) e

/-- The lines that an attempt gets to: it stops behind the first that fails. -/
def Assembler.outcomes : List SourceLine → Assembler → List Outcome
  | [], _ => []
  | line :: lines, s =>
    match process line s with
    | .ok _ e => ⟨line, none⟩ :: outcomes lines e
    | .error failure _ => [⟨line, some failure⟩]

/-- An attempt goes through its lines. -/
theorem leads_of_run {source : String} {lines : List SourceLine} {s e : Assembler}
    (h : Assembler.run source lines s = .ok () e ∨
      ∃ failure, Assembler.run source lines s = .error failure e) :
    Leads s (Assembler.outcomes lines s) e := by
  induction lines generalizing s with
  | nil =>
    rcases h with h | ⟨failure, h⟩
    · cases h
      exact .nil
    · cases h
  | cons line lines ih =>
    simp only [Assembler.run, Step.bind_apply, Assembler.step] at h
    rw [Assembler.outcomes]
    cases hp : Assembler.process line s with
    | ok u m =>
      simp only [hp] at h
      exact .carried hp (ih h)
    | error failure m =>
      simp only [hp, reduceCtorEq, false_or] at h
      obtain ⟨_, h⟩ := h
      cases h
      exact .failed hp .nil

/-! ## Sessions -/

namespace Session

/-- The lines that the next attempt gets to. There is none once there is a listing. -/
def outcomes (s : Session) : List Outcome :=
  match s.result with
  | some _ => []
  | none => Assembler.outcomes (Source.statements s.text) s.assembler

/-- The session behind the next attempt, whether it succeeds or fails. -/
def tried (s : Session) : Session :=
  match s.compile with
  | .ok _ e => e
  | .error _ e => e

/-- What becomes of a session, with the lines that were read on the way. -/
inductive Reaches (s₀ : Session) : List Outcome → Session → Prop
  | start : Reaches s₀ [] s₀
  /-- The text and the settings are changed; what is known stays. -/
  | edit {past : List Outcome} {s : Session} (h : Reaches s₀ past s) (text : String)
      (options : Options) (source : String) : Reaches s₀ past { s with text, options, source }
  /-- Some lines are read, as in the middle of an attempt. -/
  | lines {past new : List Outcome} {s : Session} {e : Assembler} (h : Reaches s₀ past s)
      (hl : Leads s.assembler new e) : Reaches s₀ (past ++ new) { s with assembler := e }
  /-- The current text is tried, on top of what is known. -/
  | tried {past : List Outcome} {s : Session} (h : Reaches s₀ past s) :
      Reaches s₀ (past ++ s.outcomes) s.tried

theorem Reaches.trans {s₀ s e : Session} {past new : List Outcome} (h : Reaches s₀ past s)
    (h' : Reaches s new e) : Reaches s₀ (past ++ new) e := by
  induction h' with
  | start => rwa [List.append_nil]
  | edit _ text options source ih => exact ih.edit text options source
  | lines _ hl ih =>
    rw [← List.append_assoc]
    exact ih.lines hl
  | tried _ ih =>
    rw [← List.append_assoc]
    exact ih.tried

/-- How an attempt fails. -/
theorem compile_eq_error {s e : Session} {failure : Failure} (hr : s.result = none)
    (h : s.compile = .error failure e) :
    ∃ a, (Assembler.run s.source (Source.statements s.text) s.assembler = .error failure a ∧
        e = { s with assembler := a }) ∨
      Assembler.run s.source (Source.statements s.text) s.assembler = .ok () a ∧
        ((∃ block blocks, a.blocks = block :: blocks ∧ failure = unclosed block s.source ∧
            e = { s with assembler := a }) ∨
          a.blocks = [] ∧ { s with assembler := a }.finish = .error failure e) := by
  obtain ⟨text, options, source, assembler, instructions, result⟩ := s
  subst hr
  simp only [compile] at h
  cases hrun : Assembler.run source (Source.statements text) assembler with
  | error f a =>
    simp only [hrun] at h
    cases h
    exact ⟨a, .inl ⟨rfl, rfl⟩⟩
  | ok u a =>
    simp only [hrun] at h
    refine ⟨a, .inr ⟨rfl, ?_⟩⟩
    cases hb : a.blocks with
    | cons block blocks =>
      simp only [hb] at h
      cases h
      exact .inl ⟨block, blocks, rfl, rfl, rfl⟩
    | nil =>
      simp only [hb] at h
      exact .inr ⟨rfl, h⟩

/-- What is left when the listing is written. -/
theorem finish_eq_ok {s done : Session} {lines : List String} (h : s.finish = .ok lines done) :
    ∃ instructions e, resolve s.assembler = .ok instructions e ∧
      done.assembler = e.report (summary s.source e instructions) := by
  unfold finish at h
  cases hresolve : resolve s.assembler with
  | error f e => simp [hresolve] at h
  | ok instructions e =>
    simp only [hresolve] at h
    cases hl : listing e.label s.options.toStyle 0 instructions with
    | error m => simp [hl] at h
    | ok ls =>
      simp only [hl] at h
      cases h
      exact ⟨instructions, e, rfl, rfl⟩

end Session

/-! ## What every line keeps -/

/-- The state after the given lines: coherent, with its labels in order. -/
structure Sound (past : List Outcome) (s : Assembler) : Prop where
  coherent : Coherent (Stuck past) s
  wired : Wired s

namespace Sound

variable {past : List Outcome} {s e : Assembler} {line : SourceLine}

theorem ofSize (size : Nat) : Sound [] (.ofSize size) where
  coherent := by
    have hstuck : Stuck [] = fun _ => False := by
      funext kind
      simp [Stuck]
    rw [hstuck]
    exact Coherent.ofSize size
  wired := Wired.initial _

/-- A line that is carried out. -/
theorem carried (h : Sound past s) (hp : Assembler.process line s = .ok () e) :
    Sound (past ++ [⟨line, none⟩]) e := by
  have hstuck : Stuck (past ++ [⟨line, none⟩]) = Stuck past := by
    funext kind
    simp [Stuck, Outcome.FailedInside]
  obtain ⟨c, -, -, he, rfl⟩ := (process_eq_ok_iff h.coherent).mp hp
  refine ⟨?_, h.wired.effect h.coherent he line.number⟩
  rw [hstuck]
  exact h.coherent.effect he line.number

theorem refused (h : Sound past s) {failure : Failure}
    (hp : Assembler.process line s = .error failure e) : Refused s line failure e :=
  refused_of_process h.coherent hp

/-- A line that fails. If it starts a branch and fails in its condition, the kind is stuck from
then on; in all other cases the state is what it was. -/
theorem failed (h : Sound past s) {failure : Failure}
    (hp : Assembler.process line s = .error failure e) :
    Sound (past ++ [⟨line, some failure⟩]) e := by
  have hconcat : ∀ kind, Stuck (past ++ [⟨line, some failure⟩]) kind ↔
      Stuck past kind ∨ (⟨line, some failure⟩ : Outcome).FailedInside kind := by
    intro kind
    simp [Stuck, or_and_right, exists_or]
  rcases (h.refused hp).state with
    ⟨hnested, rfl⟩ | ⟨kind, f, hk, ho, ht, rfl, rfl⟩
  · have hstuck : Stuck (past ++ [⟨line, some failure⟩]) = Stuck past := by
      funext kind
      rw [hconcat, eq_iff_iff]
      refine or_iff_left ?_
      rintro ⟨hk, f, hf, hne⟩
      rw [(hnested kind hk).2] at hf
      cases hf
      exact hne rfl
    refine ⟨?_, h.wired⟩
    rw [hstuck]
    exact h.coherent
  · have hstuck : Stuck (past ++ [⟨line, some (.ofFault f)⟩]) =
        fun k => Stuck past k ∨ k = kind := by
      funext k
      rw [hconcat, eq_iff_iff]
      refine or_congr_right ⟨?_, ?_⟩
      · rintro ⟨hk', -⟩
        rw [hk, Option.some.injEq, Keyword.branch.injEq] at hk'
        exact hk'.symm
      · rintro rfl
        refine ⟨hk, f, rfl, ?_⟩
        rintro rfl
        rcases test_eq_error ht with hf | hf | ⟨_, hf⟩ <;> cases hf
    refine ⟨?_, h.wired.strand (h.coherent.branch_not_mem ho)⟩
    rw [hstuck]
    exact h.coherent.strand ho

/-- **Lines in any order, carried out or failing.** -/
theorem leads (h : Sound past s) {new : List Outcome} (hl : Leads s new e) :
    Sound (past ++ new) e := by
  induction hl generalizing past with
  | nil => rwa [List.append_nil]
  | carried hp _ ih =>
    rw [List.append_cons]
    exact ih (h.carried hp)
  | failed hp _ ih =>
    rw [List.append_cons]
    exact ih (h.failed hp)

end Sound

/-! ## What every session keeps -/

/-- Finished instructions leave nothing open on the tape. -/
theorem Sound.finished {past : List Outcome} {s : Assembler} (h : Sound past s)
    (hb : s.blocks = []) {instructions : List (Instruction Target)} (hres : Resolved instructions)
    (log : Array Event) : Sound past { s with tape := ⟨instructions, []⟩, log } where
  coherent :=
    { h.coherent with
      tape := Tape.fresh_of_resolved hres
      body := h.coherent.body.congr Iff.rfl rfl rfl }
  wired :=
    { pending := by simp [Assembler.pending, Assembler.constructs, hb]
      jumps := jumping_of_resolved hres
      scopes := h.wired.scopes }

/-- **What an attempt does**: it goes through lines, and the state behind it is sound. The listing,
if it comes to that, is made from the tape and leaves the storage alone. -/
theorem Sound.tried {past : List Outcome} {s : Session} (h : Sound past s.assembler) :
    ∃ a, Leads s.assembler s.outcomes a ∧ s.tried.assembler.storage = a.storage ∧
      Sound (past ++ s.outcomes) s.tried.assembler := by
  cases hr : s.result with
  | some lines =>
    -- the listing is kept, and nothing is read
    have hout : s.outcomes = [] := by simp [Session.outcomes, hr]
    have he : s.tried = s := by simp [Session.tried, Session.compile, hr]
    rw [hout, he, List.append_nil]
    exact ⟨s.assembler, .nil, rfl, h⟩
  | none =>
    have hout : s.outcomes = Assembler.outcomes (Source.statements s.text) s.assembler := by
      simp [Session.outcomes, hr]
    rw [hout]
    cases hc : s.compile with
    | error failure e =>
      have he : s.tried = e := by simp [Session.tried, hc]
      rw [he]
      obtain ⟨a, ⟨hrun, rfl⟩ | ⟨hrun, ⟨_, _, -, -, rfl⟩ | ⟨hb, hfinish⟩⟩⟩ :=
        Session.compile_eq_error hr hc
      · have hl := leads_of_run (.inr ⟨failure, hrun⟩)
        exact ⟨a, hl, rfl, h.leads hl⟩
      · have hl := leads_of_run (.inl hrun)
        exact ⟨a, hl, rfl, h.leads hl⟩
      · -- with no block open there is nothing left that could fail
        have ha := h.leads (leads_of_run (.inl hrun))
        obtain ⟨lines, done, hok, -⟩ := ha.wired.finish ha.coherent hb s
        rw [hok] at hfinish
        cases hfinish
    | ok lines e =>
      have he : s.tried = e := by simp [Session.tried, hc]
      rw [he]
      obtain ⟨a, hrun, hb, hfinish⟩ := (compile_eq_ok_iff hr).mp hc
      have hl := leads_of_run (.inl hrun)
      have ha := h.leads hl
      obtain ⟨instructions, e', hresolve, hassembler⟩ := Session.finish_eq_ok hfinish
      obtain ⟨hres, _, hresolve', htape⟩ := ha.wired.resolve ha.coherent hb
      rw [hresolve] at hresolve'
      cases hresolve'
      rw [hassembler, htape]
      exact ⟨a, hl, rfl, ha.finished hb hres _⟩

/-- **However often a session has been tried**, its state is sound. -/
theorem Session.Reaches.sound {text source : String} {options : Options} {s₀ s : Session}
    {past : List Outcome} (h₀ : Session.create text options source = .ok s₀)
    (h : Session.Reaches s₀ past s) : Sound past s.assembler := by
  induction h with
  | start =>
    obtain ⟨-, rfl⟩ := create_eq_ok_iff.mp h₀
    exact Sound.ofSize options.memorySize.toNat
  | edit _ _ _ _ ih => exact ih
  | lines _ hl ih => exact ih.leads hl
  | tried _ ih =>
    obtain ⟨_, -, -, hs⟩ := ih.tried
    exact hs

end TapeMachine

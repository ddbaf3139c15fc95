import TapeMachine.Proofs.Coherence

/-!
# What a run keeps

While a program is assembled the state only grows: a cell that a variable has, the start of a
definition and the address of a label stay what they are (`Grows`, `Steps.grows`). The size of the
tape, the open blocks and the scope after a line are functions of the line (`size_effect`,
`constructs_effect`, `scope_effect`).

A forest leaves the blocks around it alone (`Steps.frame`): while the body of a block is written,
the branch or definition that it belongs to is not touched.
-/

namespace TapeMachine

variable {stuck : BranchKind → Prop} {s s' : Assembler} {c : Clause} {cs : List Clause}

/-! ## Reading and writing operands -/

/-- What an operand denotes. -/
inductive Denotes (st : Storage) (token : String) : Value → Prop
  | immediate {n : Int} (hp : Operand.parse token = .ok (.immediate n)) :
      Denotes st token (.literal n)
  | direct {address : Int} (hp : Operand.parse token = .ok (.direct address)) :
      Denotes st token (.cell address)
  | var {name : String} {cell : Int} (hp : Operand.parse token = .ok (.var name))
      (hc : st.scopes.cell? name = some cell) : Denotes st token (.cell cell)

theorem resolve_eq_ok_iff {sc : Scopes} {name : String} {cell : Int} :
    sc.resolve name = .ok cell ↔ sc.cell? name = some cell := by
  unfold Scopes.resolve
  cases sc.cell? name <;> simp

theorem read_eq_ok_iff {st : Storage} {token : String} {v : Value} :
    st.read token = .ok v ↔ Denotes st token v := by
  rw [Storage.read, bind_eq_ok_iff]
  constructor
  · rintro ⟨operand, hp, h⟩
    cases operand with
    | immediate n =>
      cases h
      exact .immediate hp
    | direct address =>
      cases h
      exact .direct hp
    | var name =>
      obtain ⟨cell, hc, hr⟩ := bind_eq_ok_iff.mp h
      cases hr
      exact .var hp (resolve_eq_ok_iff.mp hc)
  · rintro (hp | hp | ⟨hp, hc⟩)
    · exact ⟨_, hp, rfl⟩
    · exact ⟨_, hp, rfl⟩
    · refine ⟨_, hp, ?_⟩
      rw [bind_eq_ok_iff]
      exact ⟨_, resolve_eq_ok_iff.mpr hc, rfl⟩

theorem write_eq_ok_iff {st : Storage} {token : String} {cell : Int} :
    st.write token = .ok cell ↔ Denotes st token (.cell cell) := by
  rw [Storage.write, bind_eq_ok_iff]
  constructor
  · rintro ⟨operand, hp, h⟩
    cases operand with
    | immediate n => cases h
    | direct address =>
      cases h
      exact .direct hp
    | var name => exact .var hp (resolve_eq_ok_iff.mp h)
  · intro h
    cases h with
    | direct hp => exact ⟨_, hp, rfl⟩
    | var hp hc => exact ⟨_, hp, resolve_eq_ok_iff.mpr hc⟩

theorem claim_denotes {st st' : Storage} {token : String} {cell : Int}
    (h : st.claim token = .ok (cell, st')) : Denotes st' token (.cell cell) := by
  rcases claim_eq_ok h with ⟨hp, rfl⟩ | ⟨name, hp, hplace⟩
  · exact .direct hp
  · refine .var hp ?_
    rcases place_eq_ok hplace with ⟨hc, rfl⟩ | ⟨hc, rfl, pool, -, -, rfl⟩
    · exact hc
    · have hb := Scopes.cell?_bind_self hc st.pool.used
      rw [Scopes.bind, hc] at hb
      exact hb

/-! ## Sizes -/

theorem stagingSize_of_denotes {st : Storage} {token : String} {v : Value}
    (h : Denotes st token v) : stagingSize token = if v.isLiteral then 0 else 2 := by
  cases h with
  | immediate hp => simp [stagingSize, Operand.denote_of_parse hp, Value.isLiteral]
  | direct hp => simp [stagingSize, Operand.denote_of_parse hp, Value.isLiteral]
  | var hp _ => simp [stagingSize, Operand.denote_of_parse hp, Value.isLiteral]

theorem length_staging_of_read {st : Storage} {left right : String} {l r : Value}
    (hl : st.read left = .ok l) (hr : st.read right = .ok r) :
    (Code.staging l r : List (Instruction Target)).length =
      stagingSize left + stagingSize right := by
  rw [length_staging, stagingSize_of_denotes (read_eq_ok_iff.mp hl),
    stagingSize_of_denotes (read_eq_ok_iff.mp hr)]

theorem length_assemble {c : Simple} {st : Storage} {code : List (Instruction Target)}
    (h : c.assemble s = .ok (st, code)) : code.length = c.size := by
  cases c with
  | assign d src =>
    simp only [Simple.assemble, bind_eq_ok_iff] at h
    obtain ⟨_, -, _, -, hr⟩ := h
    cases hr
    rfl
  | combine op l r d =>
    simp only [Simple.assemble, bind_eq_ok_iff] at h
    obtain ⟨_, hl, _, hr, _, -, he⟩ := h
    cases he
    simp [Code.store, length_staging_of_read hl hr, Simple.size]
  | compare p l r d =>
    simp only [Simple.assemble, bind_eq_ok_iff] at h
    obtain ⟨_, hl, _, hr, _, -, he⟩ := h
    cases he
    simp [Code.store, length_staging_of_read hl hr, Simple.size]
  | constant p d =>
    simp only [Simple.assemble, bind_eq_ok_iff] at h
    obtain ⟨_, -, hr⟩ := h
    cases hr
    rfl
  | call name =>
    simp only [Simple.assemble, bind_eq_ok_iff] at h
    obtain ⟨_, -, hr⟩ := h
    cases hr
    rfl

theorem length_condition_assemble {st : Storage} {kind : BranchKind} {target : Target}
    {condition : Condition} {test : List (Instruction Target)}
    (h : condition.assemble st kind target = .ok test) : test.length = condition.size := by
  cases condition with
  | compare p l r =>
    simp only [Condition.assemble, bind_eq_ok_iff] at h
    obtain ⟨_, hl, _, hr, he⟩ := h
    cases he
    simp [Code.branch, length_staging_of_read hl hr, Condition.size]
  | constant p =>
    cases h
    rfl

/-! ## What a line does to the blocks, the scope and the size of the tape -/

theorem length_backCode (kind : BranchKind) (start : Int) :
    (Assembler.backCode kind start).length = (Construct.branch kind).tailSize := by
  cases kind <;> rfl

theorem size_effect (h : Coherent stuck s) (he : c.Enabled s) (line : Nat) :
    (c.effect line s).tape.size = s.tape.size + c.size := by
  have ht := h.takes he line
  generalize c.effect line s = e at ht ⊢
  cases ht with
  | simple hr =>
    rw [Clause.size, ← length_assemble hr]
    exact Tape.size_emitAll _ _
  | define => exact Tape.size_emitAll _ _
  | branch ho ht =>
    rw [Clause.size, Opening.size, ← length_condition_assemble ht]
    simp [Assembler.branch, Assembler.branchCode]
  | endDefine => exact Tape.size_emitAll _ _
  | @endBranch kind pre b =>
    rw [Clause.size, ← length_backCode kind b.start]
    simp [Assembler.endBranch]

theorem size_of_steps (hs : Steps cs s s') (h : Coherent stuck s) :
    s'.tape.size = s.tape.size + linesSize cs := by
  induction hs with
  | nil => rfl
  | cons line he _ ih =>
    rw [ih (h.effect he line), size_effect h he line, linesSize, Nat.add_assoc]

/-- The open blocks after a line. -/
def Clause.constructsAfter (open_ : List Construct) : Clause → List Construct
  | .simple _ => open_
  | .opening o => o.construct :: open_
  | .closing _ => open_.tail

theorem constructs_effect (h : Coherent stuck s) (he : c.Enabled s) (line : Nat) :
    (c.effect line s).constructs = c.constructsAfter s.constructs := by
  have ht := h.takes he line
  generalize c.effect line s = e at ht ⊢
  cases ht with
  | simple => rfl
  | define => rfl
  | branch =>
    simp [Assembler.branch, Assembler.constructs, Clause.constructsAfter, Opening.construct]
  | endDefine =>
    simp [Assembler.endDefine, Assembler.constructs, Clause.constructsAfter, List.map_tail]
  | endBranch =>
    simp [Assembler.endBranch, Assembler.constructs, Clause.constructsAfter, List.map_tail]

theorem scope_effect (h : Coherent stuck s) (he : c.Enabled s) (line : Nat) :
    (c.effect line s).scope = c.scopeAfter s.scope := by
  have ht := h.takes he line
  generalize c.effect line s = e at ht ⊢
  cases ht with
  | simple => rfl
  | define => rfl
  | branch => simp [Assembler.branch, Assembler.scope, Clause.scopeAfter]
  | endDefine hc hstop hf ho => simp [Assembler.endDefine, Assembler.scope, Clause.scopeAfter, ho]
  | endBranch => simp [Assembler.endBranch, Assembler.scope, Clause.scopeAfter]

/-- A block that is started is of a kind that is not open. -/
theorem construct_not_mem (h : Coherent stuck s) {o : Opening} (he : (Clause.opening o).Enabled s) :
    o.construct ∉ s.constructs := by
  cases o with
  | define name => exact he.1
  | branch kind condition =>
    intro hmem
    have ho := (h.isOpen kind).mpr (.inl hmem)
    rw [he.1] at ho
    cases ho

/-- **A run that ends outside all blocks has gone through balanced lines.** -/
theorem balanced_of_steps (hs : Steps cs s s') (h : Coherent stuck s) (hb : s'.blocks = []) :
    balanced s.constructs cs = true := by
  induction hs with
  | nil => simp [balanced, Assembler.constructs, hb]
  | @cons c cs s s' line he _ ih =>
    have hrest := ih (h.effect he line) hb
    rw [constructs_effect h he line] at hrest
    cases c with
    | simple c => exact hrest
    | opening o =>
      simp only [balanced, Bool.and_eq_true, decide_eq_true_eq]
      exact ⟨construct_not_mem h he, hrest⟩
    | closing k =>
      rw [(h.not_mem_tail he).1]
      simp only [balanced, decide_true, Bool.true_and]
      exact hrest

/-! ## The state only grows -/

/-- What was known stays known. -/
structure Grows (s s' : Assembler) : Prop where
  cell : ∀ scope name cell, s.storage.scopes.cellIn? scope name = some cell →
    s'.storage.scopes.cellIn? scope name = some cell
  definition : ∀ name d, s.definitions.find? name = some d →
    ∃ d', s'.definitions.find? name = some d' ∧ d'.start = d.start
  label : ∀ t address, (s.label t).address = some address → (s'.label t).address = some address

theorem Grows.refl (s : Assembler) : Grows s s where
  cell _ _ _ h := h
  definition _ d h := ⟨d, h, rfl⟩
  label _ _ h := h

theorem Grows.trans {s₁ s₂ s₃ : Assembler} (h : Grows s₁ s₂) (h' : Grows s₂ s₃) : Grows s₁ s₃ where
  cell scope name cell hc := h'.cell scope name cell (h.cell scope name cell hc)
  definition name d hd := by
    obtain ⟨d', hd', hs'⟩ := h.definition name d hd
    obtain ⟨d'', hd'', hs''⟩ := h'.definition name d' hd'
    exact ⟨d'', hd'', hs''.trans hs'⟩
  label t address ha := h'.label t address (h.label t address ha)

theorem grows_simple {c : Simple} {st : Storage} {code : List (Instruction Target)}
    (log : Array Event) (hr : c.assemble s = .ok (st, code)) :
    Grows s { s with storage := st, tape := s.tape.emitAll code, log } where
  cell scope name cell hc := by
    rcases assemble_storage hr with ⟨rfl, -⟩ | ⟨x, pool, -, -, -, -, rfl⟩
    · exact hc
    · obtain ⟨b, hb, rfl⟩ := Option.map_eq_some_iff.mp hc
      rw [Scopes.cellIn?, Storage.grow, List.find?_append, hb]
      rfl
  definition _ d hd := ⟨d, hd, rfl⟩
  label t address ha := by
    cases t <;> exact ha

theorem grows_define (line : Nat) (name : String) : Grows s (s.define line name) where
  cell _ _ _ hc := hc
  definition x d hd := by
    refine ⟨d, ?_, rfl⟩
    rw [Definitions.find?] at hd ⊢
    simp [Assembler.define, List.find?_append, hd]
  label t address ha := by
    cases t with
    | behindDefinition x =>
      simp only [Assembler.label] at ha ⊢
      cases hf : s.definitions.find? x with
      | none => simp [hf] at ha
      | some d =>
        have hf' : (s.define line name).definitions.find? x = some d := by
          rw [Definitions.find?] at hf ⊢
          simp [Assembler.define, List.find?_append, hf]
        rw [hf'] at *
        simpa [hf] using ha
    | body kind number => cases kind <;> exact ha
    | behindBranch kind number => cases kind <;> exact ha

theorem find?_endDefine (d : Definition) (name : String) :
    (s.endDefine d).definitions.find? name =
      (s.definitions.find? name).map
        (Assembler.stopDefinition d (addressOf (s.tape.size + 3 : Nat))) := by
  refine find?_map_all s.definitions _ (fun x => ?_) name
  unfold Assembler.stopDefinition
  split <;> rfl

theorem grows_endDefine {d : Definition} (hd : s.definitions.find? d.name = some d)
    (hstop : d.stop.address = none) : Grows s (s.endDefine d) := by
  refine ⟨fun _ _ _ hc => hc, fun x y hy => ?_, fun t address ha => ?_⟩
  · refine ⟨_, by rw [find?_endDefine, hy]; rfl, ?_⟩
    unfold Assembler.stopDefinition
    split <;> rfl
  · cases t with
    | behindDefinition x =>
      simp only [Assembler.label, find?_endDefine] at ha ⊢
      cases hf : s.definitions.find? x with
      | none => simp [hf] at ha
      | some y =>
        simp only [hf, Option.map_some] at ha ⊢
        -- the one label that is bound here had no address before
        have hne : y.name ≠ d.name := by
          intro hname
          have hx : y.name = x := by simpa using List.find?_some hf
          rw [← hx, hname, hd, Option.some.injEq] at hf
          rw [← hf, hstop] at ha
          cases ha
        rw [Assembler.stopDefinition, if_neg hne]
        exact ha
    | body kind number => cases kind <;> exact ha
    | behindBranch kind number => cases kind <;> exact ha

/-- Branches whose labels keep their addresses. -/
theorem grows_of_branches {kind : BranchKind} (hst : s'.storage = s.storage)
    (hd : s'.definitions = s.definitions)
    (hother : ∀ kind', kind' ≠ kind → s'.branches kind' = s.branches kind')
    (hself : ∀ (n : Nat) (b : Branch), (s.branches kind).all[n]? = some b →
      ∃ b', (s'.branches kind).all[n]? = some b' ∧ b'.body = b.body ∧
        (b.stop.address = none ∨ b'.stop = b.stop)) : Grows s s' := by
  have hlabel : ∀ (part : Branch → Label), (∀ b b' : Branch, b'.body = b.body →
      (b.stop.address = none ∨ b'.stop = b.stop) → ∀ address, (part b).address = some address →
        (part b').address = some address) → ∀ (k : BranchKind) (n : Nat) (address : Int),
      (Assembler.branchLabel (s.branches k) n part).address = some address →
      (Assembler.branchLabel (s'.branches k) n part).address = some address := by
    intro part hpart k n address ha
    by_cases hk : k = kind
    · subst hk
      unfold Assembler.branchLabel at ha ⊢
      cases hb : (s.branches k).all[n]? with
      | none => simp [hb] at ha
      | some b =>
        simp only [hb] at ha
        obtain ⟨b', hb', hbody, hstop⟩ := hself n b hb
        simp only [hb']
        exact hpart b b' hbody hstop address ha
    · rw [hother k hk]
      exact ha
  refine ⟨fun _ _ _ hc => by rwa [hst], fun x d hx => ⟨d, by rwa [hd], rfl⟩, fun t a ha => ?_⟩
  cases t with
  | behindDefinition x =>
    simp only [Assembler.label, hd] at ha ⊢
    exact ha
  | body k n =>
    refine hlabel (·.body) (fun b b' hbody _ address h => ?_) k n a ha
    rw [hbody]
    exact h
  | behindBranch k n =>
    refine hlabel (·.stop) (fun b b' _ hstop address h => ?_) k n a ha
    rcases hstop with hnone | heq
    · rw [hnone] at h
      cases h
    · rw [heq]
      exact h

theorem grows_branch (line : Nat) (kind : BranchKind) (test : List (Instruction Target)) :
    Grows s (s.branch line kind test) := by
  refine @grows_of_branches s _ kind (by simp [Assembler.branch]) (by simp [Assembler.branch])
    (fun kind' hne => ?_) (fun n b hb => ⟨b, ?_, rfl, .inr rfl⟩)
  · cases kind <;> cases kind' <;> first | rfl | exact absurd rfl hne
  · have hself : ((s.branch line kind test).branches kind).all =
        (s.branches kind).all ++ [s.newBranch kind test.length] := by
      cases kind <;> rfl
    rw [hself, List.getElem?_append_left (List.getElem?_eq_some_iff.mp hb).1]
    exact hb

/-- The branch that is ended is the last, and it gets its address. -/
theorem all_endBranch {kind : BranchKind} {pre : List Branch} {b : Branch}
    (hall : (s.branches kind).all = pre ++ [b]) :
    ((s.endBranch kind pre.length b).branches kind).all =
      pre ++ [{ b with stop := ⟨b.stop.name, some (addressOf
        (s.tape.size + (Construct.branch kind).tailSize : Nat))⟩ }] := by
  rw [← length_backCode kind b.start, ← Tape.modify_append_cons pre b [] fun x =>
    { x with stop := ⟨b.stop.name, some (addressOf
      (s.tape.size + (Assembler.backCode kind b.start).length : Nat))⟩ }, ← hall]
  cases kind <;> rfl

theorem grows_endBranch {kind : BranchKind} {pre : List Branch} {b : Branch}
    (hall : (s.branches kind).all = pre ++ [b]) (hstop : b.stop.address = none) :
    Grows s (s.endBranch kind pre.length b) := by
  refine @grows_of_branches s _ kind (by simp [Assembler.endBranch]) (by simp [Assembler.endBranch])
    (fun kind' hne => ?_) (fun n x hx => ?_)
  · cases kind <;> cases kind' <;> first | rfl | exact absurd rfl hne
  · rw [hall] at hx
    rw [all_endBranch hall]
    rcases Nat.lt_trichotomy n pre.length with hlt | rfl | hgt
    · rw [List.getElem?_append_left hlt] at hx ⊢
      exact ⟨x, hx, rfl, .inr rfl⟩
    · rw [List.getElem?_concat_length, Option.some.injEq] at hx
      subst hx
      exact ⟨_, List.getElem?_concat_length, rfl, .inl hstop⟩
    · rw [List.getElem?_eq_none (by simp; omega)] at hx
      cases hx

theorem grows_effect (h : Coherent stuck s) (he : c.Enabled s) (line : Nat) :
    Grows s (c.effect line s) := by
  have ht := h.takes he line
  generalize c.effect line s = e at ht ⊢
  cases ht with
  | simple hr => exact grows_simple _ hr
  | @define name => exact grows_define line name
  | @branch kind condition test => exact grows_branch line kind test
  | endDefine hc hstop hf => exact grows_endDefine hf hstop
  | endBranch hc hall hstop => exact grows_endBranch hall hstop

/-- **While a program is assembled the state only grows.** -/
theorem Steps.grows (hs : Steps cs s s') (h : Coherent stuck s) : Grows s s' := by
  induction hs with
  | nil => exact Grows.refl _
  | cons line he _ ih => exact (grows_effect h he line).trans (ih (h.effect he line))

/-! ## A forest leaves what is around it alone -/

/-- What the body of a block leaves alone: the open blocks, and the definition and branches that
they belong to. -/
structure Framed (s s' : Assembler) : Prop where
  blocks : s'.blocks = s.blocks
  branches : ∀ kind, .branch kind ∈ s.constructs → s'.branches kind = s.branches kind
  definitions : .definition ∈ s.constructs → s'.definitions = s.definitions

theorem Framed.constructs (h : Framed s s') : s'.constructs = s.constructs := by
  rw [Assembler.constructs, h.blocks]
  rfl

theorem Framed.trans {s₁ s₂ s₃ : Assembler} (h : Framed s₁ s₂) (h' : Framed s₂ s₃) :
    Framed s₁ s₃ where
  blocks := h'.blocks.trans h.blocks
  branches kind hk := (h'.branches kind (by rwa [h.constructs])).trans (h.branches kind hk)
  definitions hd := (h'.definitions (by rwa [h.constructs])).trans (h.definitions hd)

theorem Framed.scope (h : Framed s s') (hs : Coherent stuck s) (hs' : Coherent stuck s') :
    s'.scope = s.scope := by
  by_cases hd : .definition ∈ s.constructs
  · rw [Assembler.scope, h.definitions hd]
    rfl
  · have hd' : .definition ∉ s'.constructs := by rwa [h.constructs]
    cases hs.body with
    | inside d hin => exact absurd hin hd
    | outside _ ho =>
      cases hs'.body with
      | inside d hin => exact absurd hin hd'
      | outside _ ho' => rw [Assembler.scope, Assembler.scope, ho, ho']

/-- A block as a whole: what its first and last line do is undone or new. -/
theorem framed_block {o : Opening} {s₁ s₂ : Assembler} {line : Nat} (line' : Nat)
    (h : Coherent stuck s) (he : (Clause.opening o).Enabled s)
    (h₁ : s₁ = (Clause.opening o).effect line s) (hbody : Framed s₁ s₂) (h₂ : Coherent stuck s₂)
    (he' : (Clause.closing o.construct).Enabled s₂) :
    Framed s ((Clause.closing o.construct).effect line' s₂) := by
  have hnot := construct_not_mem h he
  cases o with
  | define name =>
    obtain ⟨d, -, -, -, -, hd⟩ := effect_closing_definition h₂ he' line'
    have hb₁ : s₁.blocks = ⟨.definition, line⟩ :: s.blocks := by rw [h₁]; rfl
    have hc₁ : s₁.constructs = .definition :: s.constructs := by
      rw [Assembler.constructs, hb₁]
      rfl
    rw [Opening.construct, hd]
    refine ⟨?_, fun kind hk => ?_, fun hk => absurd hk hnot⟩
    · simp [Assembler.endDefine, hbody.blocks, hb₁]
    · have hk₁ : s₁.branches kind = s.branches kind := by
        rw [h₁]
        cases kind <;> rfl
      rw [← hk₁, ← hbody.branches kind (by simp [hc₁, hk])]
      cases kind <;> rfl
  | branch kind condition =>
    obtain ⟨pre, b, -, -, hb⟩ := effect_closing_branch h₂ he' line'
    obtain ⟨-, test, ht⟩ := he
    rw [Clause.effect, ht] at h₁
    have hb₁ : s₁.blocks = ⟨.branch kind, line⟩ :: s.blocks := by rw [h₁]; rfl
    have hc₁ : s₁.constructs = .branch kind :: s.constructs := by
      rw [Assembler.constructs, hb₁]
      rfl
    rw [Opening.construct, hb]
    refine ⟨?_, fun kind' hk => ?_, fun hk => ?_⟩
    · simp [Assembler.endBranch, hbody.blocks, hb₁]
    · have hne : kind' ≠ kind := by
        rintro rfl
        exact hnot hk
      have hk₁ : s₁.branches kind' = s.branches kind' := by
        rw [h₁]
        cases kind <;> cases kind' <;> first | rfl | exact absurd rfl hne
      rw [← hk₁, ← hbody.branches kind' (by simp [hc₁, hk])]
      cases kind <;> cases kind' <;> first | rfl | exact absurd rfl hne
    · have hd₁ : s₁.definitions = s.definitions := by simp [h₁, Assembler.branch]
      rw [← hd₁, ← hbody.definitions (by simp [hc₁, hk])]
      simp [Assembler.endBranch]

/-- The lines of a block, taken apart. -/
theorem steps_block {o : Opening} {body rest : Forest}
    (hs : Steps (Forest.block o body rest).clauses s s') :
    ∃ line line' s₂, (Clause.opening o).Enabled s ∧
      Steps body.clauses ((Clause.opening o).effect line s) s₂ ∧
      (Clause.closing o.construct).Enabled s₂ ∧
      Steps rest.clauses ((Clause.closing o.construct).effect line' s₂) s' := by
  cases hs with
  | cons line he hs =>
    obtain ⟨s₂, hbody, hs⟩ := steps_append_iff.mp hs
    cases hs with
    | cons line' he' hs => exact ⟨line, line', s₂, he, hbody, he', hs⟩

/-- **A forest leaves what is around it alone.** -/
theorem Steps.frame {F : Forest} (hs : Steps F.clauses s s') (h : Coherent stuck s) :
    Framed s s' := by
  induction F generalizing s s' with
  | done =>
    cases hs
    exact ⟨rfl, fun _ _ => rfl, fun _ => rfl⟩
  | simple c rest ih =>
    cases hs with
    | cons line he hs =>
      have hrest := ih hs (h.effect he line)
      obtain ⟨⟨st, code⟩, hr⟩ := he
      simp only [Clause.effect, hr] at hrest
      exact ⟨hrest.blocks, hrest.branches, hrest.definitions⟩
  | block o body rest ihb ihr =>
    obtain ⟨line, line', s₂, he, hbody, he', hrest⟩ := steps_block hs
    have h₁ := h.effect he line
    have h₂ := hbody.coherent h₁
    have hblock := framed_block line' h he rfl (ihb hbody h₁) h₂ he'
    exact hblock.trans (ihr hrest (h₂.effect he' line'))

end TapeMachine

import TapeMachine.Proofs.Growth
import TapeMachine.Session

/-!
# The assembler writes the code of the forest

The assembler emits code with labels, binds the labels as it goes and patches them at the end.
`Forest.gen` computes all addresses beforehand. Here the two are shown to agree.

The induction is over the forest. What the assembler emits for a part of the program need not be
right yet, since labels of the part may be bound in a later state only; it is right once its labels
are replaced by the addresses they have in some state that comes later and knows the layout
(`Emits`).

* `emits_of_steps`: what is emitted for a forest is `Forest.gen`.
* `fits_of_steps`: the layout that the assembler arrives at is `Forest.layout`.
* `resolve_of_steps`: the finished instructions of a program are `Forest.code`.
-/

namespace TapeMachine

variable {stuck : BranchKind → Prop} {s s' : Assembler} {lay : Layout}

/-- The layout has the cells and entries that the state knows. -/
structure Layout.Fits (lay : Layout) (s : Assembler) : Prop where
  cell : ∀ scope name cell, s.storage.scopes.cellIn? (scopeName scope) name = some cell →
    lay.cell scope name = cell
  entry : ∀ name d, s.definitions.find? name = some d → lay.entry name = d.start

theorem Layout.Fits.of_grows (h : lay.Fits s') (hg : Grows s s') : lay.Fits s where
  cell scope name cell hc := h.cell scope name cell (hg.cell _ name cell hc)
  entry name d hd := by
    obtain ⟨d', hd', hs⟩ := hg.definition name d hd
    rw [h.entry name d' hd', hs]

/-- The labels of a state. -/
def Assembler.address (s : Assembler) (t : Target) : Option Int := (s.label t).address

/-- The instructions are the given ones once their labels have their addresses: in every later
state that fits the layout. -/
def Emits (lay : Layout) (s : Assembler) (code : List (Instruction Target))
    (final : List (Instruction Target)) : Prop :=
  ∀ e, Grows s e → lay.Fits e → code.map (Instruction.settle e.address) = final

theorem Emits.mono {code final : List (Instruction Target)} (h : Emits lay s code final)
    (hg : Grows s s') : Emits lay s' code final :=
  fun e he hf => h e (hg.trans he) hf

theorem Emits.append {code₁ code₂ final₁ final₂ : List (Instruction Target)}
    (h₁ : Emits lay s code₁ final₁) (h₂ : Emits lay s code₂ final₂) :
    Emits lay s (code₁ ++ code₂) (final₁ ++ final₂) := by
  intro e he hf
  rw [List.map_append, h₁ e he hf, h₂ e he hf]

/-! ## The code of one line -/

section Line

variable {st : Storage} {token : String}

/-- What an operand denotes in the state it denotes in the layout. -/
theorem Denotes.value_eq {v : Value} (hd : Denotes st token v) (h : Coherent stuck s)
    (hcur : st.scopes.current = s.storage.scopes.current)
    (hf : lay.Fits { s with storage := st }) : lay.value s.scope token = v := by
  unfold Layout.value
  cases hd with
  | immediate hp => simp [Operand.denote_of_parse hp]
  | direct hp => simp [Operand.denote_of_parse hp]
  | @var name cell hp hc =>
    rw [Scopes.cell?, hcur, h.current_eq] at hc
    simp [Operand.denote_of_parse hp, hf.cell s.scope name cell hc]

theorem value_of_read {v : Value} (hr : s.storage.read token = .ok v) (h : Coherent stuck s)
    (hf : lay.Fits s) : lay.value s.scope token = v :=
  (read_eq_ok_iff.mp hr).value_eq h rfl hf

theorem place_of_write {cell : Int} (hw : s.storage.write token = .ok cell) (h : Coherent stuck s)
    (hf : lay.Fits s) : lay.place s.scope token = cell := by
  rw [Layout.place, (write_eq_ok_iff.mp hw).value_eq h rfl hf]

theorem place_of_claim {cell : Int} (hw : s.storage.claim token = .ok (cell, st))
    (h : Coherent stuck s) (hf : lay.Fits { s with storage := st }) :
    lay.place s.scope token = cell := by
  have hcur : st.scopes.current = s.storage.scopes.current := by
    rcases claim_eq_ok hw with ⟨-, rfl⟩ | ⟨name, -, hplace⟩
    · rfl
    · rcases place_eq_ok hplace with ⟨-, rfl⟩ | ⟨-, -, pool, -, -, rfl⟩ <;> rfl
  rw [Layout.place, (claim_denotes hw).value_eq h hcur hf]

theorem resolve_definition_eq_ok {defs : Definitions} {name : String} {d : Definition}
    (h : defs.resolve name = .ok d) : defs.find? name = some d := by
  unfold Definitions.resolve at h
  cases hn : defs.find? name with
  | none => simp [hn] at h
  | some d' => simpa [hn] using h

/-- A statement has the code of its template from the start: it uses no label. -/
theorem code_of_assemble {c : Simple} {code : List (Instruction Target)}
    (hr : c.assemble s = .ok (st, code)) (h : Coherent stuck s)
    (hf : lay.Fits { s with storage := st }) : code = c.code lay s.scope s.tape.size := by
  have hf₀ : lay.Fits s := by
    have hg := grows_simple (s := s) #[] hr
    exact (show lay.Fits { s with storage := st, tape := s.tape.emitAll code, log := #[] } from
      ⟨hf.cell, hf.entry⟩).of_grows hg
  rw [Simple.code_eq_template]
  cases c with
  | assign d src =>
    simp only [Simple.assemble, bind_eq_ok_iff] at hr
    obtain ⟨v, hv, ⟨cell, st'⟩, hw, he⟩ := hr
    cases he
    rw [Simple.template, value_of_read hv h hf₀, place_of_claim hw h hf]
  | combine op l r d =>
    simp only [Simple.assemble, bind_eq_ok_iff] at hr
    obtain ⟨vl, hl, vr, hr, cell, hw, he⟩ := hr
    cases he
    rw [Simple.template, value_of_read hl h hf₀, value_of_read hr h hf₀, place_of_write hw h hf₀]
  | compare p l r d =>
    simp only [Simple.assemble, bind_eq_ok_iff] at hr
    obtain ⟨vl, hl, vr, hr, cell, hw, he⟩ := hr
    cases he
    rw [Simple.template, value_of_read hl h hf₀, value_of_read hr h hf₀, place_of_write hw h hf₀]
  | constant p d =>
    simp only [Simple.assemble, bind_eq_ok_iff] at hr
    obtain ⟨cell, hw, he⟩ := hr
    cases he
    rw [Simple.template, place_of_write hw h hf₀]
  | call name =>
    simp only [Simple.assemble, bind_eq_ok_iff] at hr
    obtain ⟨d, hd, he⟩ := hr
    cases he
    have hfind := resolve_definition_eq_ok hd
    have hname : d.name = name := by simpa using List.find?_some hfind
    rw [Simple.template, hf₀.entry name d hfind, hname]

/-- A condition has the code of its template, with a label for the target. -/
theorem code_of_condition_assemble {c : Condition} {kind : BranchKind} {target : Target}
    {test : List (Instruction Target)} (hr : c.assemble s.storage kind target = .ok test)
    (h : Coherent stuck s) (hf : lay.Fits s) : test = c.code lay s.scope kind (.label target) := by
  rw [Condition.code_eq_template]
  cases c with
  | compare p l r =>
    simp only [Condition.assemble, bind_eq_ok_iff] at hr
    obtain ⟨vl, hl, vr, hr, he⟩ := hr
    cases he
    rw [Condition.template, value_of_read hl h hf, value_of_read hr h hf]
  | constant p =>
    cases hr
    rfl

end Line

section Settle

variable {L : Type} {address : L → Option Int} {t : L} {a : Int}

theorem settle_jump (ht : address t = some a) (comment : String) :
    (Code.jump (.label t) comment).settle address = Code.jump (.number a) comment := by
  simp [Code.jump, Instruction.settle, Slot.settle, ht]

theorem settle_branch (ht : address t = some a) (p : Predicate) (left right : Value)
    (comment : String) :
    (Code.branch p left right (.label t) comment).map (Instruction.settle address) =
      Code.branch p left right (.number a) comment := by
  rw [Code.branch, List.map_append, (resolved_staging left right).map_settle]
  cases left <;> cases right <;>
    simp [Code.branch, Code.combineInto, Code.leftSlot, Code.rightSlot, Instruction.settle,
      Slot.settle, ht]

theorem settle_condition (ht : address t = some a) (scope : Option String) (kind : BranchKind)
    (c : Condition) :
    (c.code lay scope kind (.label t)).map (Instruction.settle address) =
      c.code lay scope kind (.number a) := by
  rw [Condition.code_eq_template, Condition.code_eq_template]
  cases c with
  | compare p l r => exact settle_branch ht _ _ _ _
  | constant p => exact settle_branch ht _ _ _ _

end Settle

/-! ## The code of a block -/

/-- The lines around a body of `n` instructions, which lead from `s` to `s₁` and from `s₂` to
`s₃`, emit the code of the block. -/
def EmitsAround (lay : Layout) (o : Opening) (n : Nat) (s s₁ s₂ s₃ : Assembler) : Prop :=
  ∃ head tail, s₁.tape = s.tape.emitAll head ∧ s₃.tape = s₂.tape.emitAll tail ∧
    Emits lay s₃ head (o.code lay s.scope s.tape.size n) ∧
    Emits lay s₃ tail (o.construct.tailCode s.tape.size)

/-- A definition: the label behind it is bound at its end. -/
theorem emitsAround_definition {name : String} {s₂ : Assembler} {line n : Nat} (line' : Nat)
    (hbody : Framed (s.define line name) s₂) (h₂ : Coherent stuck s₂)
    (he' : (Clause.closing .definition).Enabled s₂) (hn : s₂.tape.size = s.tape.size + 1 + n) :
    EmitsAround lay (.define name) n s (s.define line name) s₂
      ((Clause.closing .definition).effect line' s₂) := by
  obtain ⟨d, -, -, hfind, ho, heff⟩ := effect_closing_definition h₂ he' line'
  have hdefs : s₂.definitions = (s.define line name).definitions :=
    hbody.definitions (by simp [Assembler.constructs, Assembler.define])
  have hname : d.name = name := by
    rw [hdefs] at ho
    exact (List.cons.inj ho).1.symm
  subst hname
  have hlabel : (s₂.endDefine d).address (.behindDefinition d.name) =
      some (addressOf (s₂.tape.size + 3 : Nat)) := by
    simp [Assembler.address, Assembler.label, find?_endDefine, hfind, Assembler.stopDefinition]
  rw [heff]
  refine ⟨_, _, rfl, rfl, fun e he _ => ?_, fun e _ _ => resolved_epilogue.map_settle _⟩
  have ht : e.address (.behindDefinition d.name) = _ := he.label _ _ hlabel
  rw [hn] at ht
  rw [List.map_singleton, Code.skipDefinition, settle_jump ht, Opening.code_eq_template]
  rfl

/-- A branch: the label of its body is bound at its start, the label behind it at its end. -/
theorem emitsAround_branch {kind : BranchKind} {condition : Condition}
    {test : List (Instruction Target)} {s₂ : Assembler} {line n : Nat} (line' : Nat)
    (h : Coherent stuck s) (ht : condition.assemble s.storage kind (s.nextBody kind) = .ok test)
    (hbody : Framed (s.branch line kind test) s₂) (hg : Grows (s.branch line kind test) s₂)
    (h₂ : Coherent stuck s₂) (he' : (Clause.closing (.branch kind)).Enabled s₂)
    (hn : s₂.tape.size = s.tape.size + (condition.size + 1) + n) :
    EmitsAround lay (.branch kind condition) n s (s.branch line kind test) s₂
      ((Clause.closing (.branch kind)).effect line' s₂) := by
  obtain ⟨pre, b, hall, hstop, heff⟩ := effect_closing_branch h₂ he' line'
  have hg₃ := grows_endBranch hall hstop
  have hall₁ : ((s.branch line kind test).branches kind).all =
      (s.branches kind).all ++ [s.newBranch kind test.length] := by
    cases kind <;> rfl
  -- the body has not touched the branch it belongs to
  have hall₂ : (s₂.branches kind).all =
      (s.branches kind).all ++ [s.newBranch kind test.length] := by
    rw [hbody.branches kind (by simp [Assembler.constructs, Assembler.branch]), hall₁]
  obtain ⟨rfl, hb⟩ := List.append_inj' (hall.symm.trans hall₂) rfl
  obtain rfl := (List.cons.inj hb).1
  have hlabel₁ : (s.branch line kind test).address (s.nextBody kind) =
      some (addressOf (s.tape.size + condition.size + 1 : Nat)) := by
    rw [Assembler.address, Assembler.nextBody, Assembler.label, Assembler.branchLabel, hall₁,
      List.getElem?_concat_length, ← length_condition_assemble ht]
    rfl
  have hlabel₃ : (s₂.endBranch kind (s.branches kind).all.length
      (s.newBranch kind test.length)).address (.behindBranch kind (s.branches kind).all.length) =
      some (addressOf (s.tape.size + condition.size + 1 + n + (Construct.branch kind).tailSize
        : Nat)) := by
    rw [Assembler.address, Assembler.label, Assembler.branchLabel, all_endBranch hall₂,
      List.getElem?_concat_length, hn]
    rfl
  rw [heff]
  refine ⟨s.branchCode kind test, Assembler.backCode kind (s.newBranch kind test.length).start,
    rfl, rfl, fun e he hf => ?_, fun e _ _ => ?_⟩
  · have ht₁ : e.address (s.nextBody kind) = _ :=
      he.label _ _ (hg₃.label _ _ (hg.label _ _ hlabel₁))
    have ht₃ : e.address (.behindBranch kind _) = _ := he.label _ _ hlabel₃
    have hfs : lay.Fits s :=
      hf.of_grows ((grows_branch line kind test).trans (hg.trans (hg₃.trans he)))
    rw [Assembler.branchCode, List.map_append, List.map_singleton, Code.skipBranch,
      code_of_condition_assemble ht h hfs, settle_condition ht₁, settle_jump ht₃,
      Opening.code_eq_template, Condition.code_eq_template]
    rfl
  · rw [Construct.tailCode_eq_template]
    cases kind with
    | conditional => rfl
    | loop => rfl

theorem emitsAround_of_steps {o : Opening} {body : Forest} {s₂ : Assembler} {line : Nat}
    (line' : Nat) (h : Coherent stuck s) (he : (Clause.opening o).Enabled s)
    (hbody : Steps body.clauses ((Clause.opening o).effect line s) s₂)
    (he' : (Clause.closing o.construct).Enabled s₂) :
    EmitsAround lay o body.size s ((Clause.opening o).effect line s) s₂
      ((Clause.closing o.construct).effect line' s₂) := by
  have h₁ := h.effect he line
  have h₂ := hbody.coherent h₁
  have hframe := hbody.frame h₁
  have hg := hbody.grows h₁
  have hsize : s₂.tape.size = s.tape.size + o.size + body.size := by
    rw [size_of_steps hbody h₁, size_effect h he line, body.size_eq_linesSize]
    rfl
  cases o with
  | define name => exact emitsAround_definition line' hframe h₂ he' hsize
  | branch kind condition =>
    obtain ⟨-, test, ht⟩ := he
    simp only [Clause.effect, ht] at hframe hg ⊢
    exact emitsAround_branch line' h ht hframe hg h₂ he' hsize

/-- **What is emitted for a forest is its code.** -/
theorem emits_of_steps (lay : Layout) {F : Forest} (hs : Steps F.clauses s s')
    (h : Coherent stuck s) :
    ∃ code, s'.tape = s.tape.emitAll code ∧ Emits lay s' code (F.gen lay s.scope s.tape.size) := by
  induction F generalizing s s' with
  | done =>
    cases hs
    exact ⟨[], rfl, fun _ _ _ => rfl⟩
  | simple c rest ih =>
    cases hs with
    | cons line he hs =>
      have h₁ := h.effect he line
      obtain ⟨code, htape, hemits⟩ := ih hs h₁
      rw [scope_effect h he line, size_effect h he line] at hemits
      have hg := hs.grows h₁
      obtain ⟨⟨st, code₀⟩, hr⟩ := he
      simp only [Clause.effect, hr] at htape hg
      refine ⟨code₀ ++ code, by rw [htape, Tape.emitAll_append], fun e he hf => ?_⟩
      have hf₁ := hf.of_grows (hg.trans he)
      have hcode : code₀ = c.code lay s.scope s.tape.size :=
        code_of_assemble hr h ⟨hf₁.cell, hf₁.entry⟩
      rw [List.map_append, hemits e he hf, hcode, (resolved_simple_code _ _ _ _).map_settle]
      rfl
  | block o body rest ihb ihr =>
    obtain ⟨line, line', s₂, he, hbody, he', hrest⟩ := steps_block hs
    have h₁ := h.effect he line
    have h₂ := hbody.coherent h₁
    have h₃ := h₂.effect he' line'
    have hg₃ := grows_effect h₂ he' line'
    have hg := hrest.grows h₃
    have hframe := framed_block line' h he rfl (hbody.frame h₁) h₂ he'
    have haround : EmitsAround lay o body.size s _ s₂ _ :=
      emitsAround_of_steps line' h he hbody he'
    obtain ⟨head, tail, htape₁, htape₃, hhead, htail⟩ := haround
    obtain ⟨code₂, htape₂, hcode₂⟩ := ihb hbody h₁
    obtain ⟨code₄, htape₄, hcode₄⟩ := ihr hrest h₃
    have hscope : ((Clause.opening o).effect line s).scope = o.inner s.scope := by
      rw [scope_effect h he line]
      cases o <;> rfl
    have hsize₁ : ((Clause.opening o).effect line s).tape.size = s.tape.size + o.size :=
      size_effect h he line
    have hsize₃ : ((Clause.closing o.construct).effect line' s₂).tape.size =
        s.tape.size + o.size + body.size + o.construct.tailSize := by
      rw [size_effect h₂ he' line', size_of_steps hbody h₁, hsize₁, body.size_eq_linesSize]
      rfl
    rw [hscope, hsize₁] at hcode₂
    rw [hframe.scope h h₃, hsize₃] at hcode₄
    refine ⟨head ++ code₂ ++ tail ++ code₄, ?_, ?_⟩
    · rw [htape₄, htape₃, htape₂, htape₁]
      simp only [Tape.emitAll_append]
    · exact (((hhead.mono hg).append (hcode₂.mono (hg₃.trans hg))).append (htail.mono hg)).append
        hcode₄

/-! ## The layout of the program -/

/-- A variable of a scope as the storage names it. -/
def storageKey (p : Option String × String) : String × String := (scopeName p.1, p.2)

theorem storageKey_injective : Function.Injective storageKey := by
  rintro ⟨a, x⟩ ⟨b, y⟩ h
  obtain ⟨hscope, hname⟩ := Prod.mk.inj h
  exact Prod.ext (scopeName_injective hscope) hname

section EraseDups

variable {α : Type} [BEq α] [LawfulBEq α] {xs : List α} {x : α}

theorem eraseDups_concat_of_mem (hx : x ∈ xs) : (xs ++ [x]).eraseDups = xs.eraseDups := by
  rw [List.eraseDups_append]
  simp [List.removeAll, hx]

theorem eraseDups_concat_of_not_mem (hx : x ∉ xs) :
    (xs ++ [x]).eraseDups = xs.eraseDups ++ [x] := by
  rw [List.eraseDups_append]
  simp [List.removeAll, hx, List.eraseDups_cons]

end EraseDups

/-- The state has cells for the given variables, in the order in which they first occur. -/
def Knows (s : Assembler) (known : List (Option String × String)) : Prop :=
  s.storage.keys = known.eraseDups.map storageKey

theorem Knows.cell?_eq_none_iff {known : List (Option String × String)} (hk : Knows s known)
    (h : Coherent stuck s) {name : String} :
    s.storage.scopes.cell? name = none ↔ (s.scope, name) ∉ known := by
  have hkey : (scopeName s.scope, name) = storageKey (s.scope, name) := rfl
  rw [Scopes.cell?, h.current_eq, cellIn?_eq_none_iff, hk, hkey,
    List.mem_map_of_injective storageKey_injective, List.mem_eraseDups]

theorem Knows.effect {known : List (Option String × String)} {c : Clause} (hk : Knows s known)
    (h : Coherent stuck s) (he : c.Enabled s) (line : Nat) :
    Knows (c.effect line s) (known ++ c.assigned s.scope) := by
  have ht := h.takes he line
  generalize c.effect line s = e at ht ⊢
  cases ht with
  | @simple c st code hr =>
    rw [Clause.assigned]
    rcases assemble_storage hr with ⟨rfl, hbound⟩ | ⟨name, pool, hname, hnone, -, -, rfl⟩
    · cases hname : c.assignee? with
      | none => simpa [Knows] using hk
      | some name =>
        have hmem : (s.scope, name) ∈ known := by
          by_contra hnot
          have hsome := hbound name hname
          rw [(hk.cell?_eq_none_iff h).mpr hnot] at hsome
          cases hsome
        simpa [Knows, eraseDups_concat_of_mem hmem] using hk
    · have hnot := (hk.cell?_eq_none_iff h).mp hnone
      have hkeys : (s.storage.grow name pool).keys =
          s.storage.keys ++ [storageKey (s.scope, name)] := by
        simp [Storage.keys, Storage.grow, storageKey, h.current_eq]
      simp only [hname, Option.map_some, Option.toList_some, Knows, hkeys,
        eraseDups_concat_of_not_mem hnot, List.map_append, List.map_singleton]
      rw [hk]
  | define =>
    rw [Clause.assigned, List.append_nil]
    exact hk
  | branch => simpa [Knows, Clause.assigned, Assembler.branch] using hk
  | endDefine =>
    rw [Clause.assigned, List.append_nil]
    exact hk
  | endBranch => simpa [Knows, Clause.assigned, Assembler.endBranch] using hk

theorem Knows.of_steps {known : List (Option String × String)} {cs : List Clause}
    (hs : Steps cs s s') (hk : Knows s known) (h : Coherent stuck s) :
    Knows s' (known ++ assigned s.scope cs) := by
  induction hs generalizing known with
  | nil => simpa [assigned] using hk
  | cons line he _ ih =>
    have hrest := ih (hk.effect h he line) (h.effect he line)
    rw [scope_effect h he line] at hrest
    rw [assigned, ← List.append_assoc]
    exact hrest

/-- The cells are numbered in the order of the variables. -/
theorem Knows.cell_eq {known : List (Option String × String)} (hk : Knows s known)
    (h : Coherent stuck s) {scope : Option String} {name : String} {cell : Int}
    (hc : s.storage.scopes.cellIn? (scopeName scope) name = some cell) :
    cell = known.eraseDups.idxOf (scope, name) := by
  obtain ⟨b, hfind, rfl⟩ := Option.map_eq_some_iff.mp hc
  obtain ⟨i, hi, rfl⟩ := List.mem_iff_getElem.mp (List.mem_of_find?_eq_some hfind)
  obtain ⟨hscope, hname⟩ : (s.storage.scopes.bindings[i]).scope = scopeName scope ∧
      (s.storage.scopes.bindings[i]).name = name := by
    simpa using List.find?_some hfind
  have hnodup : known.eraseDups.Nodup := by
    refine List.Nodup.of_map storageKey ?_
    rw [← hk]
    exact h.keys_nodup
  -- the variable and its cell stand at the same position
  have hlen : i < known.eraseDups.length := by
    have hl := congrArg List.length hk
    simp only [Storage.keys, List.length_map] at hl
    omega
  have hkey : known.eraseDups[i] = (scope, name) := by
    refine storageKey_injective ?_
    have hat : s.storage.keys[i]? = (known.eraseDups.map storageKey)[i]? := by rw [hk]
    simp only [Storage.keys, List.getElem?_map, List.getElem?_eq_getElem hi,
      List.getElem?_eq_getElem hlen, Option.map_some, Option.some.injEq] at hat
    rw [← hat, storageKey, hscope, hname]
  have hcell : (s.storage.scopes.bindings[i]).cell = i := by
    have hat : (s.storage.scopes.bindings.map (·.cell))[i]? =
        ((List.range s.storage.pool.used).map Int.ofNat)[i]? := by rw [h.cells]
    have hl := congrArg List.length h.cells
    simp only [List.length_map, List.length_range] at hl
    rw [List.getElem?_map, List.getElem?_eq_getElem hi, List.getElem?_map,
      List.getElem?_range (by omega)] at hat
    simpa using hat
  rw [hcell, ← hkey, hnodup.idxOf_getElem]

/-- The definitions of a forest are added in order, each with its start. -/
theorem definitions_of_steps {F : Forest} (hs : Steps F.clauses s s') (h : Coherent stuck s) :
    s'.definitions.all.map (fun d => (d.name, d.start)) =
      s.definitions.all.map (fun d => (d.name, d.start)) ++
        (F.bodies s.tape.size).map fun b => (b.name, addressOf (b.index + 1 : Nat)) := by
  induction F generalizing s s' with
  | done =>
    cases hs
    simp [Forest.bodies]
  | simple c rest ih =>
    cases hs with
    | cons line he hs =>
      have hrest := ih hs (h.effect he line)
      rw [size_effect h he line] at hrest
      obtain ⟨⟨st, code⟩, hr⟩ := he
      simp only [Clause.effect, hr] at hrest
      exact hrest
  | block o body rest ihb ihr =>
    obtain ⟨line, line', s₂, he, hbody, he', hrest⟩ := steps_block hs
    have h₁ := h.effect he line
    have h₂ := hbody.coherent h₁
    have hsize₁ : ((Clause.opening o).effect line s).tape.size = s.tape.size + o.size :=
      size_effect h he line
    have hsize₃ : ((Clause.closing o.construct).effect line' s₂).tape.size =
        s.tape.size + o.size + body.size + o.construct.tailSize := by
      rw [size_effect h₂ he' line', size_of_steps hbody h₁, hsize₁, body.size_eq_linesSize]
      rfl
    have hopen : ((Clause.opening o).effect line s).definitions.all.map
        (fun d => (d.name, d.start)) = s.definitions.all.map (fun d => (d.name, d.start)) ++
          (o.bodies s.tape.size body).map fun b => (b.name, addressOf (b.index + 1 : Nat)) := by
      cases o with
      | define name =>
        simp [Clause.effect, Assembler.define, Assembler.newDefinition, Opening.bodies]
      | branch kind condition =>
        obtain ⟨-, test, ht⟩ := he
        simp [Clause.effect, ht, Assembler.branch, Opening.bodies]
    have hclose : ((Clause.closing o.construct).effect line' s₂).definitions.all.map
        (fun d => (d.name, d.start)) = s₂.definitions.all.map (fun d => (d.name, d.start)) := by
      cases o with
      | define name =>
        obtain ⟨d, -, -, -, -, hd⟩ := effect_closing_definition h₂ he' line'
        rw [Opening.construct, hd, Assembler.endDefine, List.map_map]
        refine List.map_congr_left fun x _ => ?_
        simp only [Function.comp_apply, Assembler.stopDefinition]
        split <;> rfl
      | branch kind condition =>
        obtain ⟨pre, b, -, -, hb⟩ := effect_closing_branch h₂ he' line'
        simp [Opening.construct, hb, Assembler.endBranch]
    rw [ihr hrest (h₂.effect he' line'), hclose, ihb hbody h₁, hopen, hsize₁, hsize₃, Forest.bodies]
    simp only [List.map_append, List.append_assoc]

/-- No two definitions of a program have the same name. -/
theorem bodies_nodup {F : Forest} (hs : Steps F.clauses s s') (h : Coherent stuck s)
    (hd : s.definitions.all = []) (hsize : s.tape.size = 0) :
    ((F.bodies 0).map (·.name)).Nodup := by
  have hdefs := definitions_of_steps hs h
  rw [hd, hsize, List.map_nil, List.nil_append] at hdefs
  have hmap : s'.definitions.names = (F.bodies 0).map (·.name) := by
    have hfst := congrArg (List.map Prod.fst) hdefs
    simpa [Definitions.names, Function.comp_def] using hfst
  rw [← hmap]
  exact (hs.coherent h).names_nodup

/-- A definition that the assembler has found is one of the forest, and starts where it says. -/
theorem body?_of_find? {F : Forest} (hs : Steps F.clauses s s') (h : Coherent stuck s)
    (hd : s.definitions.all = []) (hsize : s.tape.size = 0) {name : String} {d : Definition}
    (hfind : s'.definitions.find? name = some d) :
    ∃ b, F.body? name = some b ∧ addressOf (b.index + 1 : Nat) = d.start := by
  have hdefs := definitions_of_steps hs h
  rw [hd, hsize, List.map_nil, List.nil_append] at hdefs
  have hname : d.name = name := by simpa using List.find?_some hfind
  have hmem : (d.name, d.start) ∈ s'.definitions.all.map (fun d => (d.name, d.start)) :=
    List.mem_map_of_mem (List.mem_of_find?_eq_some hfind)
  rw [hdefs, List.mem_map] at hmem
  obtain ⟨b, hb, heq⟩ := hmem
  obtain ⟨hbn, hbs⟩ := Prod.mk.inj heq
  refine ⟨b, ?_, hbs⟩
  rw [Forest.body?, ← hname, ← hbn]
  exact find?_key_of_mem (bodies_nodup hs h hd hsize) hb

/-- **The layout that the assembler arrives at is that of the forest.** -/
theorem fits_of_steps {F : Forest} (hs : Steps F.clauses s s') (h : Coherent stuck s)
    (hk : Knows s []) (hd : s.definitions.all = []) (hscope : s.scope = none)
    (hsize : s.tape.size = 0) : F.layout.Fits s' := by
  have hk' := Knows.of_steps hs hk h
  rw [List.nil_append, hscope] at hk'
  refine ⟨fun scope name cell hc => (hk'.cell_eq (hs.coherent h) hc).symm, fun name d hfind => ?_⟩
  obtain ⟨b, hbody, hstart⟩ := body?_of_find? hs h hd hsize hfind
  rw [Forest.layout_entry hbody, hstart]

/-- What is called has been defined. -/
theorem find?_of_call {cs : List Clause} (hs : Steps cs s s') (h : Coherent stuck s) {name : String}
    (hc : .simple (.call name) ∈ cs) : ∃ d, s'.definitions.find? name = some d := by
  induction hs with
  | nil => cases hc
  | @cons c cs s s' line he hs ih =>
    have h₁ := h.effect he line
    have hgrows := (grows_effect h he line).trans (hs.grows h₁)
    rcases List.mem_cons.mp hc with rfl | hmem
    · obtain ⟨r, hr⟩ := he
      simp only [Simple.assemble, bind_eq_ok_iff] at hr
      obtain ⟨d, hd, -⟩ := hr
      obtain ⟨d', hd', -⟩ := hgrows.definition name d (resolve_definition_eq_ok hd)
      exact ⟨d', hd'⟩
    · exact ih h₁ hmem

/-! ## Whole programs -/

/-- The state before the first line, with the given number of cells. -/
def Assembler.ofSize (size : Nat) : Assembler where
  storage := { pool := .vacant size, scopes := { root := Scopes.mainName } }

theorem Coherent.ofSize (size : Nat) : Coherent (fun _ => False) (Assembler.ofSize size) :=
  Coherent.initial _ rfl rfl

theorem label_of_settle {L : Type} {address : L → Option Int} {i : Instruction L} {l : L}
    (hu : i.Uses l) (hr : (i.settle address).isResolved = true) : (address l).isSome = true := by
  rw [isResolved_eq] at hr
  have hslot : ∀ slot : Slot L, slot = .label l → (slot.settle address).label? = none →
      (address l).isSome = true := by
    rintro slot rfl hnone
    cases ha : address l with
    | none => simp [Slot.settle, ha, Slot.label?] at hnone
    | some a => rfl
  simp only [Bool.and_eq_true, Option.isNone_iff_eq_none] at hr
  obtain ⟨⟨ha, hb⟩, hd⟩ := hr
  rcases hu with h | h | h
  · exact hslot i.a h ha
  · exact hslot i.b h hb
  · exact hslot i.destination h hd

/-- **The labels of a whole program resolve to its code.** -/
theorem resolve_of_steps {F : Forest} {size : Nat} {e : Assembler}
    (hs : Steps F.clauses (Assembler.ofSize size) e) :
    ∃ e', Session.resolve e = .ok F.code e' := by
  have h := Coherent.ofSize size
  have hfits : F.layout.Fits e := fits_of_steps hs h rfl rfl rfl rfl
  obtain ⟨code, htape, hemits⟩ := emits_of_steps F.layout hs h
  have hcode : e.tape.instructions.map (Instruction.settle fun l => (e.label l).address) =
      F.code := by
    rw [htape, Tape.instructions_emitAll]
    exact hemits e (Grows.refl e) hfits
  have hbound : ∀ i ∈ e.tape.instructions, ∀ l, i.Uses l → (e.label l).isBound = true := by
    intro i hi l hu
    have hmem : i.settle e.address ∈ (F.code : List (Instruction Target)) := by
      rw [← hcode]
      exact List.mem_map_of_mem hi
    have hres : (i.settle e.address).isResolved = true := resolved_gen _ _ F _ _ hmem
    have hsome : (e.address l).isSome = true := label_of_settle hu hres
    exact hsome
  obtain ⟨t', ht'⟩ := (hs.coherent h).tape.resolve hbound
  rw [hcode] at ht'
  simp only [Session.resolve, ht']
  exact ⟨_, rfl⟩

/-- A fresh session assembles the text; `done` is the session when it is finished. -/
def Assembles (text : String) (options : Options) (source : String) (done : Session) : Prop :=
  ∃ s lines, Session.create text options source = .ok s ∧ s.compile = .ok lines done

theorem create_eq_ok_iff {text source : String} {options : Options} {s : Session} :
    Session.create text options source = .ok s ↔
      0 < options.memorySize ∧
        s = { text, options, source, assembler := .ofSize options.memorySize.toNat } := by
  unfold Session.create Storage.ofSize CellPool.ofSize
  by_cases hm : options.memorySize ≤ 0
  · simp only [if_pos hm, error_bind, reduceCtorEq, false_iff]
    omega
  · simp only [if_neg hm, ok_bind]
    constructor
    · intro h
      cases h
      exact ⟨by omega, rfl⟩
    · rintro ⟨-, rfl⟩
      rfl

theorem compile_eq_ok_iff {s done : Session} {lines : List String} (hr : s.result = none) :
    s.compile = .ok lines done ↔
      ∃ e, Assembler.run s.source (Source.statements s.text) s.assembler = .ok () e ∧
        e.blocks = [] ∧ { s with assembler := e }.finish = .ok lines done := by
  simp only [Session.compile, hr]
  cases Assembler.run s.source (Source.statements s.text) s.assembler with
  | error f e => simp
  | ok _ e =>
    cases hb : e.blocks with
    | nil => simp [hb]
    | cons b bs => simp [hb]

/-- **What a session assembles.** The lines of the text are those of a forest, and the finished
instructions are its code. -/
theorem forest_of_assembles {text source : String} {options : Options} {done : Session}
    (h : Assembles text options source done) :
    ∃ F : Forest, Says text F.clauses ∧ F.Nests [] ∧
      (∃ e, Steps F.clauses (.ofSize options.memorySize.toNat) e) ∧
      done.instructions = F.code := by
  obtain ⟨s, lines, hcreate, hcompile⟩ := h
  obtain ⟨-, rfl⟩ := create_eq_ok_iff.mp hcreate
  obtain ⟨e, hrun, hblocks, hfinish⟩ := (compile_eq_ok_iff rfl).mp hcompile
  have h₀ := Coherent.ofSize options.memorySize.toNat
  obtain ⟨cs, hreads, -, hsteps⟩ := steps_of_run h₀ hrun
  obtain ⟨F, rfl, hnests⟩ := balanced_iff.mp (balanced_of_steps hsteps h₀ hblocks)
  refine ⟨F, says_iff.mpr hreads, hnests, ⟨e, hsteps⟩, ?_⟩
  obtain ⟨e', hresolve⟩ := resolve_of_steps hsteps
  rw [Session.finish, hresolve] at hfinish
  simp only at hfinish
  cases hl : listing e'.label options.toStyle 0 (F.code : List (Instruction Target)) with
  | error m => simp [hl] at hfinish
  | ok ls =>
    simp only [hl, EStateM.Result.ok.injEq] at hfinish
    rw [← hfinish.2]

theorem words?_of_isResolved {L : Type} {i : Instruction L} (h : i.isResolved = true) :
    ∃ w, i.words? = some w := by
  rw [isResolved_eq] at h
  obtain ⟨opcode, a, b, destination, comment⟩ := i
  cases a <;> cases b <;> cases destination <;> first | exact ⟨_, rfl⟩ | simp [Slot.label?] at h

/-- The lines for instructions from the given position on. -/
inductive Lists {L : Type} (style : Style) : Int → List (Instruction L) → List String → Prop
  | nil {index : Int} : Lists style index [] []
  | cons {index : Int} {i : Instruction L} {w : Words} {code : List (Instruction L)}
      {lines : List String} (hw : i.words? = some w) (h : Lists style (index + 1) code lines) :
      Lists style index (i :: code) (w.line style index i.comment :: lines)

theorem line_eq_ok_iff {L : Type} {look : L → Label} {i : Instruction L} {style : Style}
    {index : Int} {line : String} :
    i.line look style index = .ok line ↔
      ∃ w, i.words? = some w ∧ line = w.line style index i.comment := by
  unfold Instruction.line Instruction.words
  cases i.words? with
  | none => simp
  | some w =>
    simp only [ok_bind, Option.some.injEq, exists_eq_left']
    exact ⟨fun h => (Except.ok.inj h).symm, fun h => congrArg Except.ok h.symm⟩

/-- What is listed does not depend on how labels are looked up: there are none. -/
theorem listing_eq_ok_iff {L : Type} {look : L → Label} {style : Style} {index : Int}
    {code : List (Instruction L)} {lines : List String} :
    listing look style index code = .ok lines ↔ Lists style index code lines := by
  induction code generalizing index lines with
  | nil =>
    constructor
    · rintro ⟨⟩
      exact .nil
    · rintro ⟨⟩
      rfl
  | cons i code ih =>
    simp only [listing, bind_eq_ok_iff, line_eq_ok_iff, ih]
    constructor
    · rintro ⟨_, ⟨w, hw, rfl⟩, rest, hrest, ⟨⟩⟩
      exact .cons hw hrest
    · intro h
      cases h with
      | @cons _ _ w _ rest hw hrest => exact ⟨_, ⟨w, hw, rfl⟩, rest, hrest, rfl⟩

/-- Instructions without labels can be listed. -/
theorem listing_of_resolved {L : Type} {code : List (Instruction L)} (h : Resolved code)
    (look : L → Label) (style : Style) (index : Int) :
    ∃ lines, listing look style index code = .ok lines := by
  simp only [listing_eq_ok_iff]
  induction code generalizing index with
  | nil => exact ⟨[], .nil⟩
  | cons i code ih =>
    rw [resolved_cons] at h
    obtain ⟨w, hw⟩ := words?_of_isResolved h.1
    obtain ⟨lines, hlines⟩ := ih h.2 (index + 1)
    exact ⟨_, .cons hw hlines⟩

/-- Whether all lines can be carried out and leave no block open. -/
def Assembler.completes (source : String) (lines : List SourceLine) (s : Assembler) : Bool :=
  match Assembler.run source lines s with
  | .ok _ e => e.blocks.isEmpty
  | .error _ _ => false

/-- **Nothing fails once all lines are carried out**: the labels are bound, and the listing can be
written. -/
theorem exists_assembles_iff {text source : String} {options : Options} :
    (∃ done, Assembles text options source done) ↔
      0 < options.memorySize ∧
        Assembler.completes source (Source.statements text) (.ofSize options.memorySize.toNat) := by
  unfold Assembler.completes
  constructor
  · rintro ⟨done, s, lines, hcreate, hcompile⟩
    obtain ⟨hm, rfl⟩ := create_eq_ok_iff.mp hcreate
    obtain ⟨e, hrun, hblocks, -⟩ := (compile_eq_ok_iff rfl).mp hcompile
    refine ⟨hm, ?_⟩
    simp only at hrun
    simp [hrun, hblocks]
  · rintro ⟨hm, hc⟩
    cases hrun : Assembler.run source (Source.statements text)
        (.ofSize options.memorySize.toNat) with
    | error f e => simp [hrun] at hc
    | ok u e =>
      simp only [hrun, List.isEmpty_iff] at hc
      have h₀ := Coherent.ofSize options.memorySize.toNat
      obtain ⟨cs, -, -, hsteps⟩ := steps_of_run h₀ hrun
      obtain ⟨F, rfl, -⟩ := balanced_iff.mp (balanced_of_steps hsteps h₀ hc)
      obtain ⟨e', hresolve⟩ := resolve_of_steps hsteps
      obtain ⟨lines, hlines⟩ :=
        listing_of_resolved (resolved_gen F.layout none F 0) e'.label options.toStyle 0
      let s : Session :=
        { text, options, source, assembler := .ofSize options.memorySize.toNat }
      have hfinish : ∃ done, { s with assembler := e }.finish = .ok lines done := by
        simp only [Session.finish, hresolve, Forest.code, s, hlines]
        exact ⟨_, rfl⟩
      obtain ⟨done, hdone⟩ := hfinish
      exact ⟨done, s, lines, create_eq_ok_iff.mpr ⟨hm, rfl⟩,
        (compile_eq_ok_iff rfl).mpr ⟨e, hrun, hc, hdone⟩⟩

theorem exists_compile_eq_ok_iff {text source : String} {options : Options} :
    (∃ lines, (compile text options source).1 = .ok lines) ↔
      ∃ done, Assembles text options source done := by
  unfold compile Assembles
  cases hcreate : Session.create text options source with
  | error m => simp
  | ok s => cases hcompile : s.compile <;> simp [hcompile]

/-- **Backpatching gives the code that is written down directly.** If a fresh session assembles a
text, the lines of the text are those of exactly one forest, and the finished instructions are the
code of that forest: opcodes, fields and comments. -/
theorem instructions_eq_code_of_assembles {text source : String} {options : Options}
    {done : Session} (h : Assembles text options source done) :
    ∃ F : Forest, Says text F.clauses ∧ (∀ G : Forest, Says text G.clauses → G = F) ∧
      done.instructions = F.code := by
  obtain ⟨F, hsaid, -, -, hcode⟩ := forest_of_assembles h
  exact ⟨F, hsaid, fun G hG => Forest.clauses_injective (hG.unique hsaid), hcode⟩

/-- A definition with a branch inside a loop, called from there while it is still open, and once
more behind it. -/
def recursiveText : String :=
  "def f  # calls itself\n\nVAR $x 0x1\nwhile Sm $x *7 # two cells\nIF aw\nSUB $x 1 $x\nCall f\n" ++
    "ENDIF\nEndWhile\nenddef\ncall f"

/-- The lines of the text, taken apart. -/
def recursiveForest : Forest :=
  .block (.define "f")
    (.simple (.assign "$x" "0x1") <|
      .block (.branch .loop (.compare .sm "$x" "*7"))
        (.block (.branch .conditional (.constant .always))
          (.simple (.combine .sub "$x" "1" "$x") <| .simple (.call "f") .done) .done) .done) <|
  .simple (.call "f") .done

theorem says_recursiveForest : Says recursiveText recursiveForest.clauses := by
  have hlines : Source.statements recursiveText =
      [⟨1, "def", ["f"]⟩, ⟨3, "VAR", ["$x", "0x1"]⟩, ⟨4, "while", ["Sm", "$x", "*7"]⟩,
       ⟨5, "IF", ["aw"]⟩, ⟨6, "SUB", ["$x", "1", "$x"]⟩, ⟨7, "Call", ["f"]⟩, ⟨8, "ENDIF", []⟩,
       ⟨9, "EndWhile", []⟩, ⟨10, "enddef", []⟩, ⟨11, "call", ["f"]⟩] := by
    decide +kernel
  rw [says_iff, hlines]
  refine .cons (.define ?_) <| .cons (.var ?_) <| .cons (.branch ?_ (.compare ?_)) <|
    .cons (.branch ?_ (.constant ?_)) <| .cons (.arithmetic ?_) <| .cons (.call ?_) <|
    .cons (.endBranch ?_) <| .cons (.endBranch ?_) <| .cons (.endDefine ?_) <| .cons (.call ?_) .nil
  all_goals decide +kernel

/-- The words of the text's program. -/
def recursiveProgram : List Words :=
  [⟨134, 92, 0, 2⟩, ⟨134, 0, 0, 3⟩, ⟨134, 1, 0, 0⟩, ⟨134, 0, 0, 3⟩, ⟨6, 0, 0, 5⟩, ⟨134, 7, 0, 3⟩,
   ⟨6, 0, 0, 6⟩, ⟨26, 5, 6, 36⟩, ⟨134, 80, 0, 2⟩, ⟨222, 0, 0, 44⟩, ⟨134, 76, 0, 2⟩,
   ⟨134, 0, 0, 3⟩, ⟨6, 0, 0, 5⟩, ⟨134, 0, 0, 3⟩, ⟨65, 5, 1, 0⟩, ⟨6, 8, 0, 4⟩, ⟨64, 8, 1, 8⟩,
   ⟨134, 76, 0, 1⟩, ⟨134, 4, 0, 2⟩, ⟨134, 12, 0, 2⟩, ⟨65, 8, 1, 8⟩, ⟨6, 8, 0, 4⟩, ⟨6, 1, 0, 2⟩,
   ⟨6, 8, 0, 4⟩, ⟨64, 8, 1, 8⟩, ⟨134, 108, 0, 1⟩, ⟨134, 4, 0, 2⟩]

theorem instructions_eq_code_of_recursiveText :
    ∃ done, Assembles recursiveText {} "main" done ∧ Says recursiveText recursiveForest.clauses ∧
      done.instructions = recursiveForest.code ∧
      done.instructions.map (·.words?) = recursiveProgram.map some := by
  have hex : ∃ done, Assembles recursiveText {} "main" done :=
    exists_assembles_iff.mpr ⟨by decide, by decide +kernel⟩
  obtain ⟨done, h⟩ := hex
  obtain ⟨F, -, hunique, hcode⟩ := instructions_eq_code_of_assembles h
  obtain rfl := hunique _ says_recursiveForest
  refine ⟨done, h, says_recursiveForest, hcode, ?_⟩
  rw [hcode]
  decide +kernel

end TapeMachine

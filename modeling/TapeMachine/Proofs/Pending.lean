import TapeMachine.Proofs.Refinement
import TapeMachine.Proofs.Refusal

/-!
# What waits for an address

A jump over a block is emitted before the place behind the block is known, so its target is a label
that has no address until the block is closed. All other labels are bound by the line that uses
them. So the fields that wait for an address are those of the jumps over the open blocks, one for
each block (`Wired.pending`), and where no block is open nothing stands in the way of the finished
instructions (`Wired.resolve`).

`Wired` is kept by every line, also by one that fails (`Wired.effect`, `Wired.strand`).
-/

namespace TapeMachine

/-! ## Fixups -/

namespace Tape

variable {L : Type}

/-- Instructions without labels need no fixups. -/
theorem fixupsFrom_of_resolved {code : List (Instruction L)} (h : Resolved code) (n : Nat) :
    fixupsFrom n code = [] := by
  rw [List.eq_nil_iff_forall_not_mem]
  intro f hf
  obtain ⟨i, hi, hu⟩ := mem_fixupsFrom hf
  obtain ⟨field, hl⟩ := Instruction.uses_iff.mp hu
  have hr := h i hi
  rw [Instruction.isResolved, List.isEmpty_iff] at hr
  simp [hr] at hl

/-- A fixup stands for a field with a label. -/
theorem mem_fixupsFrom_iff {n : Nat} {code : List (Instruction L)} {f : Fixup L} :
    f ∈ fixupsFrom n code ↔
      ∃ k i, code[k]? = some i ∧ f.index = n + k ∧ i.get f.field = .label f.label := by
  induction code generalizing n with
  | nil => simp [fixupsFrom]
  | cons i code ih =>
    rw [fixupsFrom, List.mem_append, ih, List.mem_map]
    constructor
    · rintro (⟨p, hp, rfl⟩ | ⟨k, j, hj, hindex, hget⟩)
      · exact ⟨0, i, rfl, rfl, Instruction.mem_labels_iff.mp hp⟩
      · exact ⟨k + 1, j, hj, by omega, hget⟩
    · rintro ⟨k, j, hj, hindex, hget⟩
      cases k with
      | zero =>
        cases hj
        rw [Nat.add_zero] at hindex
        exact .inl ⟨(f.field, f.label), Instruction.mem_labels_iff.mpr hget, by rw [← hindex]⟩
      | succ k => exact .inr ⟨k, j, hj, by omega, hget⟩

/-- Instructions without labels leave nothing to be patched. -/
theorem fresh_of_resolved {code : List (Instruction L)} (h : Resolved code) :
    Fresh (⟨code, []⟩ : Tape L) := by
  have hfixups := fixups_emitAll ({} : Tape L) code
  rw [fixupsFrom_of_resolved h] at hfixups
  have hcode := instructions_emitAll ({} : Tape L) code
  cases htape : emitAll ({} : Tape L) code with
  | mk instructions fixups =>
    rw [htape] at hfixups hcode
    rw [Fresh, htape, Tape.mk.injEq]
    exact ⟨hcode.symm, hfixups.symm⟩

/-- When all is patched, nothing is left to be patched. -/
theorem resolve_eq_ok {look : L → Label} {t t' : Tape L} {instructions : List (Instruction L)}
    (h : Tape.resolve look t = .ok instructions t') : t' = ⟨instructions, []⟩ := by
  unfold Tape.resolve at h
  split at h
  · cases h
  · rw [EStateM.Result.ok.injEq] at h
    rw [← h.1, ← h.2]

end Tape

/-! ## The jumps over the open blocks -/

namespace Assembler

/-- Whether the target has an address. -/
def isBound (s : Assembler) (t : Target) : Bool := (s.label t).isBound

/-- The fields whose labels have no address. -/
def pending (s : Assembler) : List (Fixup Target) := s.tape.fixups.filter (!s.isBound ·.label)

/-- The field of the jump over the open block of the given kind, as it is recorded with the
definition or branch that the block belongs to. -/
def skip? (s : Assembler) : Construct → Option (Fixup Target)
  | .definition =>
    s.definitions.latest.toOption.map fun d =>
      ⟨d.index.toNat, .a, .behindDefinition d.name⟩
  | .branch kind =>
    (s.branches kind).latest.toOption.bind fun (number, b) =>
      b.skip.map fun index => ⟨index, .a, .behindBranch kind number⟩

end Assembler

/-- The instructions whose first field is a label are jumps. -/
def Jumping (code : List (Instruction Target)) : Prop :=
  ∀ i ∈ code, ∀ t, i.a = .label t → ∃ comment, i = Code.jump (.label t) comment

/-- The labels on the tape: those without an address are the targets of the jumps over the open
blocks. -/
structure Wired (s : Assembler) : Prop where
  /-- The fields without an address, in the order in which the blocks were opened. -/
  pending : s.pending.map some = s.constructs.reverse.map s.skip?
  /-- A label in the first field is the target of a jump. -/
  jumps : Jumping s.tape.instructions
  /-- Every definition has its scope. -/
  scopes : ∀ d ∈ s.definitions.all, d.scope = some (Statement.scopeOf d.name)

variable {stuck : BranchKind → Prop} {s e : Assembler}

/-- The kinds of block have different targets. -/
theorem label_of_skip? {c : Construct} {f : Fixup Target} (h : s.skip? c = some f) :
    f.field = .a ∧
      match c with
      | .definition => ∃ name, f.label = .behindDefinition name
      | .branch kind => ∃ number, f.label = .behindBranch kind number := by
  cases c with
  | definition =>
    obtain ⟨d, -, rfl⟩ := Option.map_eq_some_iff.mp h
    exact ⟨rfl, d.name, rfl⟩
  | branch kind =>
    obtain ⟨⟨number, b⟩, -, h⟩ := Option.bind_eq_some_iff.mp h
    obtain ⟨index, -, rfl⟩ := Option.map_eq_some_iff.mp h
    exact ⟨rfl, number, rfl⟩

theorem label_ne_of_skip? {c c' : Construct} {f f' : Fixup Target} (hc : c ≠ c')
    (h : s.skip? c = some f) (h' : e.skip? c' = some f') : f.label ≠ f'.label := by
  intro hl
  have hf := (label_of_skip? h).2
  have hf' := (label_of_skip? h').2
  cases c with
  | definition =>
    obtain ⟨name, hname⟩ := hf
    cases c' with
    | definition => exact hc rfl
    | branch kind' =>
      obtain ⟨number, hnumber⟩ := hf'
      rw [hl, hnumber] at hname
      cases hname
  | branch kind =>
    obtain ⟨number, hnumber⟩ := hf
    cases c' with
    | definition =>
      obtain ⟨name, hname⟩ := hf'
      rw [hl, hname] at hnumber
      cases hnumber
    | branch kind' =>
      obtain ⟨number', hnumber'⟩ := hf'
      rw [hl, hnumber'] at hnumber
      cases hnumber
      exact hc rfl

theorem Wired.skip?_of_mem (h : Wired s) {f : Fixup Target} (hf : f ∈ s.pending) :
    ∃ c ∈ s.constructs, s.skip? c = some f := by
  have hmem : some f ∈ s.pending.map some := List.mem_map_of_mem hf
  rw [h.pending, List.mem_map] at hmem
  obtain ⟨c, hc, hs⟩ := hmem
  exact ⟨c, List.mem_reverse.mp hc, hs⟩

/-! ## Lines that keep, open and close blocks -/

section Pending

variable {c : Construct} {f : Fixup Target}

/-- A line that neither opens nor closes a block. -/
theorem Wired.pending_same (h : Wired s) (hfixups : e.tape.fixups = s.tape.fixups)
    (hcs : e.constructs = s.constructs) (hskip : ∀ k ∈ s.constructs, e.skip? k = s.skip? k)
    (hbound : ∀ t, e.isBound t = s.isBound t) :
    e.pending.map some = e.constructs.reverse.map e.skip? := by
  have hpending : e.pending = s.pending := by
    simp only [Assembler.pending, hfixups, hbound]
  rw [hpending, h.pending, hcs]
  exact List.map_congr_left fun k hk => (hskip k (List.mem_reverse.mp hk)).symm

/-- A line that opens a block: of its own labels, one is without an address. -/
theorem Wired.pending_open (h : Wired s) {code : List (Instruction Target)}
    (htape : e.tape = s.tape.emitAll code) (hcs : e.constructs = c :: s.constructs)
    (hself : e.skip? c = some f) (hskip : ∀ k ∈ s.constructs, e.skip? k = s.skip? k)
    (hbound : ∀ g ∈ s.tape.fixups, e.isBound g.label = s.isBound g.label)
    (hnew : (Tape.fixupsFrom s.tape.size code).filter (!e.isBound ·.label) = [f]) :
    e.pending.map some = e.constructs.reverse.map e.skip? := by
  have hold : s.tape.fixups.filter (!e.isBound ·.label) = s.pending :=
    List.filter_congr fun g hg => by rw [hbound g hg]
  rw [Assembler.pending, htape, Tape.fixups_emitAll, List.filter_append, hold, hnew,
    List.map_append, h.pending, hcs, List.reverse_cons, List.map_append, List.map_singleton,
    List.map_singleton, hself]
  refine congrArg (· ++ [some f]) (List.map_congr_left fun k hk => ?_)
  exact (hskip k (List.mem_reverse.mp hk)).symm

/-- A line that closes the innermost block: it binds the label behind it, and no other. -/
theorem Wired.pending_close (h : Wired s) (hfixups : e.tape.fixups = s.tape.fixups)
    (hcs : s.constructs = c :: e.constructs) (hnot : c ∉ e.constructs)
    (hself : s.skip? c = some f) (hskip : ∀ k ∈ e.constructs, e.skip? k = s.skip? k)
    (hbound : ∀ t, e.isBound t = (decide (t = f.label) || s.isBound t)) :
    e.pending.map some = e.constructs.reverse.map e.skip? := by
  have hpending : e.pending = s.pending.filter fun g => decide (g.label ≠ f.label) := by
    simp only [Assembler.pending, hfixups, hbound, List.filter_filter]
    refine List.filter_congr fun g _ => ?_
    by_cases hg : g.label = f.label <;> simp [hg]
  -- the jump over the closed block is the last of the pending ones
  have hall := h.pending
  rw [hcs, List.reverse_cons, List.map_append, List.map_singleton, hself] at hall
  obtain ⟨outer, last, hsplit, houter, hlast⟩ := List.map_eq_append_iff.mp hall
  obtain ⟨g, rfl, hg⟩ := List.map_eq_singleton_iff.mp hlast
  cases hg
  have hkeep : outer.filter (fun g => decide (g.label ≠ f.label)) = outer := by
    refine List.filter_eq_self.mpr fun g hg => ?_
    have hmem : some g ∈ outer.map some := List.mem_map_of_mem hg
    rw [houter, List.mem_map] at hmem
    obtain ⟨k, hk, hks⟩ := hmem
    have hne : k ≠ c := by
      rintro rfl
      exact hnot (List.mem_reverse.mp hk)
    exact decide_eq_true (label_ne_of_skip? hne hks hself)
  rw [hpending, hsplit, List.filter_append, hkeep]
  simp only [ne_eq, not_true_eq_false, decide_false, Bool.false_eq_true, not_false_eq_true,
    List.filter_cons_of_neg, List.filter_nil, List.append_nil]
  rw [houter]
  exact List.map_congr_left fun k hk => (hskip k (List.mem_reverse.mp hk)).symm

end Pending

/-! ## Which labels a line binds -/

theorem skip?_of_branches {kind : BranchKind} (h : e.branches kind = s.branches kind) :
    e.skip? (.branch kind) = s.skip? (.branch kind) := by
  simp only [Assembler.skip?, h]

theorem skip?_of_definitions (h : e.definitions = s.definitions) :
    e.skip? .definition = s.skip? .definition := by
  simp only [Assembler.skip?, h]

/-- A new definition binds no label. -/
theorem isBound_define (line : Nat) (name : String) (t : Target) :
    (s.define line name).isBound t = s.isBound t := by
  cases t with
  | behindDefinition x =>
    have hfind : (s.define line name).definitions.find? x =
        (s.definitions.find? x).or (if name = x then some (s.newDefinition name) else none) := by
      simp only [Assembler.define, Definitions.find?, List.find?_append]
      congr 1
      by_cases hx : name = x <;> simp [Assembler.newDefinition, hx]
    simp only [Assembler.isBound, Assembler.label, hfind]
    cases hx : s.definitions.find? x with
    | some d => rfl
    | none =>
      by_cases hname : name = x
      · simp only [hname, if_true]
        rfl
      · simp only [hname, if_false]
        rfl
  | body kind number => cases kind <;> rfl
  | behindBranch kind number => cases kind <;> rfl

/-- A new branch binds the label of its body if that is bound in it. -/
theorem isBound_of_concat {kind : BranchKind} {b : Branch} (hd : e.definitions = s.definitions)
    (hother : ∀ kind', kind' ≠ kind → e.branches kind' = s.branches kind')
    (hall : (e.branches kind).all = (s.branches kind).all ++ [b]) (hstop : b.stop.address = none)
    (t : Target) :
    e.isBound t = (b.body.isBound && decide (t = s.nextBody kind) || s.isBound t) := by
  -- whatever the part of the branches that is asked for, only that of the new branch is new
  have hlabel : ∀ (part : Branch → Label) (k : BranchKind) (n : Nat),
      (Assembler.branchLabel (e.branches k) n part).isBound =
        ((part b).isBound && decide (k = kind ∧ n = (s.branches kind).all.length) ||
          (Assembler.branchLabel (s.branches k) n part).isBound) := by
    intro part k n
    by_cases hk : k = kind
    · subst hk
      unfold Assembler.branchLabel
      rw [hall]
      rcases Nat.lt_trichotomy n (s.branches k).all.length with hlt | rfl | hgt
      · rw [List.getElem?_append_left hlt]
        simp [Nat.ne_of_lt hlt]
      · simp [Label.isBound]
      · rw [List.getElem?_eq_none (by simp; omega), List.getElem?_eq_none (by omega)]
        simp [Nat.ne_of_gt hgt]
    · rw [hother k hk]
      simp [hk]
  cases t with
  | behindDefinition x => simp [Assembler.isBound, Assembler.label, hd, Assembler.nextBody]
  | body k n => simp [Assembler.isBound, Assembler.label, hlabel, Assembler.nextBody]
  | behindBranch k n =>
    have hfalse : b.stop.isBound = false := by simp [Label.isBound, hstop]
    simp [Assembler.isBound, Assembler.label, hlabel, Assembler.nextBody, hfalse]

/-- The end of a definition binds the label behind it. -/
theorem isBound_endDefine {d : Definition} (hf : s.definitions.find? d.name = some d) (t : Target) :
    (s.endDefine d).isBound t = (decide (t = .behindDefinition d.name) || s.isBound t) := by
  cases t with
  | behindDefinition x =>
    simp only [Assembler.isBound, Assembler.label, find?_endDefine, Target.behindDefinition.injEq]
    cases hx : s.definitions.find? x with
    | none =>
      have hne : x ≠ d.name := by
        rintro rfl
        rw [hf] at hx
        cases hx
      simp [hne]
    | some y =>
      have hy : y.name = x := by simpa using List.find?_some hx
      by_cases hxd : x = d.name
      · simp [Assembler.stopDefinition, hy, hxd, Label.isBound]
      · simp [Assembler.stopDefinition, hy, hxd]
  | body kind number => cases kind <;> rfl
  | behindBranch kind number => cases kind <;> rfl

/-- The end of a branch binds the label behind it. -/
theorem isBound_endBranch {kind : BranchKind} {pre : List Branch} {b : Branch}
    (hall : (s.branches kind).all = pre ++ [b]) (t : Target) :
    (s.endBranch kind pre.length b).isBound t =
      (decide (t = .behindBranch kind pre.length) || s.isBound t) := by
  have hother : ∀ k, k ≠ kind → (s.endBranch kind pre.length b).branches k = s.branches k := by
    intro k hk
    cases kind <;> cases k <;> first | rfl | exact absurd rfl hk
  have hget : ∀ n, n ≠ pre.length → ((s.endBranch kind pre.length b).branches kind).all[n]? =
      (s.branches kind).all[n]? := by
    intro n hn
    rw [all_endBranch hall, hall]
    rcases Nat.lt_or_gt_of_ne hn with hlt | hgt
    · rw [List.getElem?_append_left hlt, List.getElem?_append_left hlt]
    · rw [List.getElem?_eq_none (by simp; omega), List.getElem?_eq_none (by simp; omega)]
  cases t with
  | behindDefinition x => simp [Assembler.isBound, Assembler.label, Assembler.endBranch]
  | body k n =>
    simp only [Assembler.isBound, Assembler.label, Assembler.branchLabel, reduceCtorEq,
      decide_false, Bool.false_or]
    by_cases hk : k = kind
    · subst hk
      by_cases hn : n = pre.length
      · rw [all_endBranch hall, hall, hn, List.getElem?_concat_length, List.getElem?_concat_length]
      · rw [hget n hn]
    · rw [hother k hk]
  | behindBranch k n =>
    simp only [Assembler.isBound, Assembler.label, Assembler.branchLabel,
      Target.behindBranch.injEq]
    by_cases hk : k = kind
    · subst hk
      by_cases hn : n = pre.length
      · rw [all_endBranch hall, hn, List.getElem?_concat_length]
        simp [Label.isBound]
      · rw [hget n hn]
        simp [hn]
    · rw [hother k hk]
      simp [hk]

/-! ## The code of a line -/

/-- What a simple statement emits holds no label. -/
theorem resolved_assemble {c : Simple} {st : Storage} {code : List (Instruction Target)}
    (h : c.assemble s = .ok (st, code)) : Resolved code := by
  cases c with
  | assign destination source =>
    simp only [Simple.assemble, bind_eq_ok_iff] at h
    obtain ⟨_, -, _, -, h⟩ := h
    cases h
    exact resolved_assign _ _ _
  | combine op left right destination =>
    simp only [Simple.assemble, bind_eq_ok_iff] at h
    obtain ⟨_, -, _, -, _, -, h⟩ := h
    cases h
    exact resolved_store _ _ _ _ _
  | compare c left right destination =>
    simp only [Simple.assemble, bind_eq_ok_iff] at h
    obtain ⟨_, -, _, -, _, -, h⟩ := h
    cases h
    exact resolved_store _ _ _ _ _
  | constant c destination =>
    simp only [Simple.assemble, bind_eq_ok_iff] at h
    obtain ⟨_, -, h⟩ := h
    cases h
    exact resolved_store _ _ _ _ _
  | call name =>
    simp only [Simple.assemble, bind_eq_ok_iff] at h
    obtain ⟨_, -, h⟩ := h
    cases h
    exact resolved_call _ _ _

/-- A test goes to its target and nowhere else. -/
theorem get_of_condition_assemble {st : Storage} {kind : BranchKind} {target : Target}
    {condition : Condition} {test : List (Instruction Target)}
    (h : condition.assemble st kind target = .ok test) {i : Instruction Target} (hi : i ∈ test)
    {field : Field} {t : Target} (hget : i.get field = .label t) :
    field = .destination ∧ t = target := by
  obtain ⟨p, l, r, comment, rfl⟩ :
      ∃ p l r comment, test = Code.branch p l r (.label target) comment := by
    cases condition with
    | compare c left right =>
      simp only [Condition.assemble, bind_eq_ok_iff] at h
      obtain ⟨l, -, r, -, h⟩ := h
      cases h
      exact ⟨_, l, r, _, rfl⟩
    | constant c =>
      cases h
      exact ⟨_, _, _, _, rfl⟩
  rw [Code.branch, List.mem_append, List.mem_singleton] at hi
  rcases hi with hi | rfl
  · have hr := resolved_staging l r i hi
    rw [Instruction.isResolved, List.isEmpty_iff] at hr
    have hmem := Instruction.mem_labels_iff.mpr hget
    simp [hr] at hmem
  · cases field with
    | a => cases l <;> simp [Code.combineInto, Code.leftSlot, Instruction.get] at hget
    | b =>
      cases l <;> cases r <;>
        simp [Code.combineInto, Code.rightSlot, Instruction.get] at hget
    | destination =>
      simp only [Code.combineInto, Instruction.get, Slot.label.injEq] at hget
      exact ⟨rfl, hget.symm⟩

theorem jumping_of_resolved {code : List (Instruction Target)} (h : Resolved code) :
    Jumping code := by
  intro i hi t ht
  have hr := h i hi
  rw [isResolved_eq, ht] at hr
  simp [Slot.label?] at hr

theorem jumping_branchCode {kind : BranchKind} {condition : Condition}
    {test : List (Instruction Target)}
    (h : condition.assemble s.storage kind (s.nextBody kind) = .ok test) :
    Jumping (s.branchCode kind test) := by
  intro i hi t ht
  rw [Assembler.branchCode, List.mem_append, List.mem_singleton] at hi
  rcases hi with hi | rfl
  · have hget : i.get .a = .label t := ht
    cases (get_of_condition_assemble h hi hget).1
  · cases ht
    exact ⟨_, rfl⟩

theorem Jumping.emitAll {code : List (Instruction Target)} {tape : Tape Target}
    (h : Jumping tape.instructions) (hcode : Jumping code) :
    Jumping (tape.emitAll code).instructions := by
  intro i hi
  rw [Tape.instructions_emitAll, List.mem_append] at hi
  rcases hi with hi | hi
  · exact h i hi
  · exact hcode i hi

/-! ## Every line keeps the labels in order -/

namespace Wired

theorem simple (h : Wired s) {c : Simple} {st : Storage} {code : List (Instruction Target)}
    (log : Array Event) (hr : c.assemble s = .ok (st, code)) :
    Wired { s with storage := st, tape := s.tape.emitAll code, log } where
  pending := by
    have hcode := resolved_assemble hr
    refine h.pending_same ?_ rfl (fun k _ => ?_) fun t => ?_
    · rw [Tape.fixups_emitAll, Tape.fixupsFrom_of_resolved hcode, List.append_nil]
    · cases k <;> rfl
    · cases t <;> rfl
  jumps := h.jumps.emitAll (jumping_of_resolved (resolved_assemble hr))
  scopes := h.scopes

theorem define (h : Wired s) (line : Nat) {name : String} (hb : .definition ∉ s.constructs)
    (hn : s.definitions.find? name = none) : Wired (s.define line name) where
  pending := by
    have hlatest : (s.define line name).definitions.latest = .ok (s.newDefinition name) := by
      have hfind : (s.define line name).definitions.find? name = some (s.newDefinition name) := by
        rw [Definitions.find?] at hn ⊢
        simp [Assembler.define, List.find?_append, hn, Assembler.newDefinition]
      simp only [Definitions.latest, Assembler.define, List.head?_cons, Option.bind_some] at hfind ⊢
      rw [hfind]
    refine h.pending_open rfl rfl (f := ⟨s.tape.size, .a, .behindDefinition name⟩) ?_
      (fun k hk => ?_) (fun g _ => isBound_define line name g.label) ?_
    · simp [Assembler.skip?, hlatest, Except.toOption, Assembler.newDefinition]
    · cases k with
      | definition => exact absurd hk hb
      | branch kind => exact skip?_of_branches (by cases kind <;> rfl)
    · have hlabel : (s.define line name).isBound (.behindDefinition name) = false := by
        rw [isBound_define]
        simp [Assembler.isBound, Assembler.label, hn, Label.isBound]
      have hfixups : Tape.fixupsFrom s.tape.size
          [Code.skipDefinition (.label (Target.behindDefinition name)) name] =
          [⟨s.tape.size, .a, .behindDefinition name⟩] := rfl
      rw [hfixups]
      simp [hlabel]
  jumps := by
    refine h.jumps.emitAll fun i hi t ht => ?_
    rw [List.mem_singleton] at hi
    subst hi
    cases ht
    exact ⟨_, rfl⟩
  scopes := by
    intro d hd
    simp only [Assembler.define, List.mem_append, List.mem_singleton] at hd
    rcases hd with hd | rfl
    · exact h.scopes d hd
    · rfl

/-- The fields of the lines before do not wait for the body of the next branch. -/
theorem label_ne_body (h : Wired s) {g : Fixup Target} (hg : g ∈ s.pending) (kind : BranchKind)
    (number : Nat) : g.label ≠ .body kind number := by
  obtain ⟨c, -, hc⟩ := h.skip?_of_mem hg
  have hl := (label_of_skip? hc).2
  cases c with
  | definition =>
    obtain ⟨name, hname⟩ := hl
    simp [hname]
  | branch kind' =>
    obtain ⟨number', hnumber⟩ := hl
    simp [hnumber]

theorem branch (h : Wired s) (line : Nat) {kind : BranchKind} {condition : Condition}
    {test : List (Instruction Target)} (hb : .branch kind ∉ s.constructs)
    (ht : condition.assemble s.storage kind (s.nextBody kind) = .ok test) :
    Wired (s.branch line kind test) := by
  have hdefs : (s.branch line kind test).definitions = s.definitions := by simp [Assembler.branch]
  have hother : ∀ k, k ≠ kind → (s.branch line kind test).branches k = s.branches k := by
    intro k hk
    cases kind <;> cases k <;> first | rfl | exact absurd rfl hk
  have hself : (s.branch line kind test).branches kind =
      ⟨(s.branches kind).form, (s.branches kind).all ++ [s.newBranch kind test.length], true⟩ := by
    cases kind <;> rfl
  have hbound := isBound_of_concat hdefs hother (congrArg Branches.all hself) rfl
  have hcs : (s.branch line kind test).constructs = .branch kind :: s.constructs := by
    simp [Assembler.branch, Assembler.constructs]
  refine ⟨h.pending_open rfl hcs (f := ⟨s.tape.size + test.length, .a,
    .behindBranch kind (s.branches kind).all.length⟩) ?_ (fun k hk => ?_) (fun g hg => ?_) ?_,
    h.jumps.emitAll (jumping_branchCode ht), ?_⟩
  · simp [Assembler.skip?, hself, Branches.latest, Except.toOption, Assembler.newBranch]
  · cases k with
    | definition => exact skip?_of_definitions hdefs
    | branch kind' =>
      refine skip?_of_branches (hother kind' ?_)
      rintro rfl
      exact hb hk
  · rw [hbound]
    by_cases hg' : s.isBound g.label = true
    · simp [hg']
    · have hpending : g ∈ s.pending := by
        rw [Assembler.pending, List.mem_filter]
        simp [hg, hg']
      simp [Assembler.nextBody, h.label_ne_body hpending]
  · -- the test is bound at once, the jump over the block is not
    have htest : (Tape.fixupsFrom s.tape.size test).filter
        (!(s.branch line kind test).isBound ·.label) = [] := by
      refine List.filter_eq_nil_iff.mpr fun g hg => ?_
      obtain ⟨k, i, hi, -, hget⟩ := Tape.mem_fixupsFrom_iff.mp hg
      have hlabel := (get_of_condition_assemble ht (List.mem_of_getElem? hi) hget).2
      simp [hbound, hlabel, Assembler.newBranch, Label.isBound]
    have hskip : (s.branch line kind test).isBound
        (.behindBranch kind (s.branches kind).all.length) = false := by
      rw [hbound]
      simp [Assembler.nextBody, Assembler.isBound, Assembler.label, Assembler.branchLabel,
        Label.isBound]
    have hfixups : Tape.fixupsFrom (s.tape.size + test.length)
        [Code.skipBranch (.label (Target.behindBranch kind (s.branches kind).all.length))
          kind.form.opener] =
        [⟨s.tape.size + test.length, .a, .behindBranch kind (s.branches kind).all.length⟩] := rfl
    rw [Assembler.branchCode, Tape.fixupsFrom_append, List.filter_append, htest, hfixups,
      List.nil_append]
    simp [hskip]
  · rw [hdefs]
    exact h.scopes

theorem endDefine (h : Wired s) (hs : Coherent stuck s) {d : Definition}
    (hc : s.constructs.head? = some .definition) (hf : s.definitions.find? d.name = some d)
    (ho : s.definitions.opened = [d.name]) : Wired (s.endDefine d) := by
  obtain ⟨heq, hnot⟩ := hs.not_mem_tail hc
  have hcs : (s.endDefine d).constructs = s.constructs.tail := by
    simp [Assembler.constructs, Assembler.endDefine, List.map_tail]
  have hlatest : s.definitions.latest = .ok d := by simp [Definitions.latest, ho, hf]
  have hfixups : (s.endDefine d).tape.fixups = s.tape.fixups := by
    rw [Assembler.endDefine, Tape.fixups_emitAll, Tape.fixupsFrom_of_resolved resolved_epilogue,
      List.append_nil]
  refine ⟨h.pending_close hfixups (by rw [hcs]; exact heq) (by rwa [hcs])
    (f := ⟨d.index.toNat, .a, .behindDefinition d.name⟩) ?_ (fun k hk => ?_)
    (isBound_endDefine hf), h.jumps.emitAll (jumping_of_resolved resolved_epilogue), ?_⟩
  · simp [Assembler.skip?, hlatest, Except.toOption]
  · cases k with
    | definition =>
      rw [hcs] at hk
      exact absurd hk hnot
    | branch kind => exact skip?_of_branches (by cases kind <;> rfl)
  · intro x hx
    obtain ⟨y, hy, rfl⟩ := List.mem_map.mp hx
    have hscope := h.scopes y hy
    unfold Assembler.stopDefinition
    split <;> exact hscope

theorem endBranch (h : Wired s) (hs : Coherent stuck s) {kind : BranchKind} {pre : List Branch}
    {b : Branch} (hc : s.constructs.head? = some (.branch kind))
    (hall : (s.branches kind).all = pre ++ [b]) : Wired (s.endBranch kind pre.length b) := by
  obtain ⟨heq, hnot⟩ := hs.not_mem_tail hc
  have hcs : (s.endBranch kind pre.length b).constructs = s.constructs.tail := by
    simp [Assembler.constructs, Assembler.endBranch, List.map_tail]
  have hdefs : (s.endBranch kind pre.length b).definitions = s.definitions := by
    simp [Assembler.endBranch]
  have hback : Resolved (Assembler.backCode kind b.start) := by
    cases kind with
    | conditional => exact resolved_nil
    | loop => simp [Assembler.backCode, Code.repeatLoop, isResolved_jump_number]
  have hfixups : (s.endBranch kind pre.length b).tape.fixups = s.tape.fixups := by
    rw [Assembler.endBranch, Tape.fixups_emitAll, Tape.fixupsFrom_of_resolved hback,
      List.append_nil]
  have hmem : .branch kind ∈ s.constructs := List.mem_of_head? hc
  -- the jump over the block is recorded with the branch
  obtain ⟨f, hskip⟩ : ∃ f, s.skip? (.branch kind) = some f := by
    have hin : s.skip? (.branch kind) ∈ s.pending.map some := by
      rw [h.pending]
      exact List.mem_map_of_mem (List.mem_reverse.mpr hmem)
    obtain ⟨f, -, hf⟩ := List.mem_map.mp hin
    exact ⟨f, hf.symm⟩
  have hlabel : f.label = .behindBranch kind pre.length := by
    obtain ⟨pre', b', -, hall', -, hl⟩ := hs.last_of_mem hmem
    obtain ⟨rfl, -⟩ := List.append_inj' (hall.symm.trans hall') rfl
    simp only [Assembler.skip?, hl, Except.toOption, Option.bind_some,
      Option.map_eq_some_iff] at hskip
    obtain ⟨index, -, rfl⟩ := hskip
    rfl
  refine ⟨h.pending_close hfixups (by rw [hcs]; exact heq) (by rwa [hcs]) hskip (fun k hk => ?_)
    (fun t => ?_), h.jumps.emitAll (jumping_of_resolved hback), ?_⟩
  · cases k with
    | definition => exact skip?_of_definitions hdefs
    | branch kind' =>
      have hne : kind' ≠ kind := by
        rintro rfl
        rw [hcs] at hk
        exact hnot hk
      refine skip?_of_branches ?_
      cases kind <;> cases kind' <;> first | rfl | exact absurd rfl hne
  · rw [hlabel]
    exact isBound_endBranch hall t
  · rw [hdefs]
    exact h.scopes

/-- **What is enabled keeps the labels in order.** -/
theorem effect (h : Wired s) (hs : Coherent stuck s) {c : Clause} (he : c.Enabled s) (line : Nat) :
    Wired (c.effect line s) := by
  have ht := hs.takes he line
  generalize c.effect line s = e at ht ⊢
  cases ht with
  | simple hr => exact h.simple _ hr
  | define hb hn => exact h.define line hb hn
  | branch ho ht => exact h.branch line (hs.branch_not_mem ho) ht
  | endDefine hc hstop hf ho => exact h.endDefine hs hc hf ho
  | endBranch hc hall hstop => exact h.endBranch hs hc hall

/-- A branch without a block has labels, but none of them is used. -/
theorem strand (h : Wired s) {kind : BranchKind} (hb : .branch kind ∉ s.constructs) :
    Wired (s.strand kind) := by
  refine ⟨h.pending_same (by simp) (by simp) (fun k hk => ?_) (fun t => ?_), by simpa using h.jumps,
    by simpa using h.scopes⟩
  · cases k with
    | definition => exact skip?_of_definitions (by simp)
    | branch kind' =>
      refine skip?_of_branches (branches_strand_of_ne s kind ?_)
      rintro rfl
      exact hb hk
  · simp [Assembler.isBound, Label.isBound, address_strand]

theorem initial (st : Storage) : Wired { storage := st } where
  pending := rfl
  jumps := fun _ hi => absurd hi List.not_mem_nil
  scopes := fun _ hd => absurd hd List.not_mem_nil

end Wired

/-! ## Where no block is open -/

theorem isResolved_settle {L : Type} {address : L → Option Int} {i : Instruction L}
    (h : ∀ l, i.Uses l → (address l).isSome = true) : (i.settle address).isResolved = true := by
  have hslot : ∀ slot : Slot L, (∀ l, slot = .label l → (address l).isSome = true) →
      (slot.settle address).label? = none := by
    intro slot hs
    cases slot with
    | number n => rfl
    | register r => rfl
    | label l =>
      obtain ⟨a, ha⟩ := Option.isSome_iff_exists.mp (hs l rfl)
      simp [Slot.settle, ha]
  rw [isResolved_eq]
  simp only [Bool.and_eq_true, Option.isNone_iff_eq_none]
  exact ⟨⟨hslot i.a fun l hl => h l (.inl hl), hslot i.b fun l hl => h l (.inr (.inl hl))⟩,
    hslot i.destination fun l hl => h l (.inr (.inr hl))⟩

/-- The instructions with the addresses of their labels written in. -/
def Assembler.settled (s : Assembler) : List (Instruction Target) :=
  s.tape.instructions.map (Instruction.settle s.address)

/-- Where no block is open, every label that is used has its address. -/
theorem Wired.isBound_of_uses (h : Wired s) (hs : Coherent stuck s) (hb : s.blocks = [])
    {i : Instruction Target} (hi : i ∈ s.tape.instructions) {l : Target} (hu : i.Uses l) :
    s.isBound l = true := by
  have hpending : s.pending = [] := by
    have hp := h.pending
    rw [Assembler.constructs, hb] at hp
    simpa using hp
  obtain ⟨field, hl⟩ := Instruction.uses_iff.mp hu
  obtain ⟨k, hk⟩ := List.mem_iff_getElem?.mp hi
  have hmem : (⟨k, field, l⟩ : Fixup Target) ∈ s.tape.fixups := by
    rw [hs.tape.fixups_eq, Tape.mem_fixupsFrom_iff]
    exact ⟨k, i, hk, by simp, Instruction.mem_labels_iff.mp hl⟩
  have hnot := List.filter_eq_nil_iff.mp hpending _ hmem
  simpa using hnot

/-- **Where no block is open, the instructions can be finished**: none of them holds a label then,
and nothing is left to be patched. -/
theorem Wired.resolve (h : Wired s) (hs : Coherent stuck s) (hb : s.blocks = []) :
    Resolved s.settled ∧ ∃ e, Session.resolve s = .ok s.settled e ∧
      e = { s with tape := ⟨s.settled, []⟩, log := e.log } := by
  obtain ⟨tape, htape⟩ := hs.tape.resolve fun i hi l hu => h.isBound_of_uses hs hb hi hu
  refine ⟨fun i hi => ?_, _, by simp only [Session.resolve, htape]; rfl,
    by rw [Tape.resolve_eq_ok htape]; rfl⟩
  obtain ⟨j, hj, rfl⟩ := List.mem_map.mp hi
  exact isResolved_settle fun l hl => h.isBound_of_uses hs hb hj hl

/-- A session whose lines are all carried out and that has no block open gets its listing. -/
theorem Wired.finish (h : Wired s) (hs : Coherent stuck s) (hb : s.blocks = [])
    (session : Session) :
    ∃ lines done, { session with assembler := s }.finish = .ok lines done ∧
      done.instructions = s.settled ∧ Lists session.options.toStyle 0 s.settled lines := by
  obtain ⟨hres, e, hresolve, -⟩ := h.resolve hs hb
  obtain ⟨lines, hlines⟩ := listing_of_resolved hres e.label session.options.toStyle 0
  refine ⟨lines, ?_⟩
  simp only [Session.finish, hresolve, hlines]
  exact ⟨_, rfl, rfl, listing_eq_ok_iff.mp hlines⟩

end TapeMachine

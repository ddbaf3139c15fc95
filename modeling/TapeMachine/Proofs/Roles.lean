import TapeMachine.Proofs.Preservation

/-!
# What part each instruction plays

`Forest.marks` says of each instruction of a program's code which definition it belongs to and what
part it plays there: it is one of the instructions of a call, one of the return at the end of a
body, or neither.

`Loaded.moves` says once what a step of the processor can do at an instruction with a given mark,
whatever the chip computes. Neither a branch nor a jump leads out of the body it stands in: an
instruction that is neither part of a call nor of a return leads to a place of the same owner
(`Forest.Entry`), and leaves the return addresses and the depth alone.
-/

namespace TapeMachine

/-! ## Marks -/

/-- The part that an instruction plays in calls and returns. -/
inductive Role where
  | plain
  | callSelect
  | callDeepen
  | callNote
  | callJump (name : String)
  | leaveRise
  | leaveSelect
  | leaveReturn
deriving DecidableEq, Repr

/-- The part of an instruction, and the definition to whose body or return it belongs; the owner is
`none` outside all definitions. -/
structure Mark where
  owner : Option String
  role : Role
deriving DecidableEq, Repr

/-- The marks of the instructions of a statement. -/
def Simple.marks (owner : Option String) : Simple → List Mark
  | .call name =>
    [⟨owner, .callSelect⟩, ⟨owner, .callDeepen⟩, ⟨owner, .callNote⟩, ⟨owner, .callJump name⟩]
  | s => List.replicate s.size ⟨owner, .plain⟩

/-- The marks of the instructions behind the body of a block. -/
def Construct.marks (owner : Option String) : Construct → List Mark
  | .definition => [⟨owner, .leaveRise⟩, ⟨owner, .leaveSelect⟩, ⟨owner, .leaveReturn⟩]
  | .branch kind => List.replicate (Construct.branch kind).tailSize ⟨owner, .plain⟩

/-- The marks of the instructions of a forest. The jump over a definition is not part of it. -/
def Forest.marks : Option String → Forest → List Mark
  | _, .done => []
  | owner, .simple s rest => s.marks owner ++ rest.marks owner
  | owner, .block o body rest =>
    List.replicate o.size ⟨owner, .plain⟩
      ++ body.marks (o.inner owner)
      ++ o.construct.marks (o.inner owner)
      ++ rest.marks owner

theorem marks_of_ne_call {s : Simple} (hs : ∀ name, s ≠ .call name) (owner : Option String) :
    s.marks owner = List.replicate s.size ⟨owner, .plain⟩ := by
  cases s with
  | call name => exact absurd rfl (hs name)
  | _ => rfl

theorem length_simple_marks (s : Simple) (owner : Option String) :
    (s.marks owner).length = s.size := by
  cases s <;> simp [Simple.marks, Simple.size]

theorem length_construct_marks (c : Construct) (owner : Option String) :
    (c.marks owner).length = c.tailSize := by
  cases c <;> simp [Construct.marks, Construct.tailSize]

/-- Every instruction has a mark. -/
theorem length_marks (F : Forest) (owner : Option String) : (F.marks owner).length = F.size := by
  induction F generalizing owner with
  | done => rfl
  | simple s rest ih => simp [Forest.marks, Forest.size, length_simple_marks, ih]
  | block o body rest ihb ihr =>
    simp [Forest.marks, Forest.size, length_construct_marks, ihb, ihr, Nat.add_assoc]

/-- Control may come here from elsewhere: not into the middle of a call or of a return. -/
def Role.starts : Role → Bool
  | .plain | .callSelect | .leaveRise => true
  | .callDeepen | .callNote | .callJump _ | .leaveSelect | .leaveReturn => false

variable {chip : Chip} {program : List Words} {m m' : Cpu} {base k n : Nat}
  {owner : Option String} {F G : Forest} {mark : Mark}

/-- A place of the given owner where control may come from elsewhere. The end of the program is such
a place outside all definitions. -/
def Forest.Entry (F : Forest) (owner : Option String) (position : Nat) : Prop :=
  (position = F.size ∧ owner = none) ∨
    ∃ role, (F.marks none)[position]? = some ⟨owner, role⟩ ∧ role.starts = true

theorem of_getElem?_replicate {mark' : Mark} (h : (List.replicate n mark)[k]? = some mark') :
    k < n ∧ mark' = mark := by
  rw [List.getElem?_replicate] at h
  split at h
  · exact ⟨‹_›, (Option.some.inj h).symm⟩
  · cases h

/-- A position in two lists, one behind the other, is one in the first or one in the second. -/
theorem of_getElem?_append {marks marks' : List Mark} (h : (marks ++ marks')[k]? = some mark) :
    marks[k]? = some mark ∨ ∃ d, k = marks.length + d ∧ marks'[d]? = some mark := by
  rcases Nat.lt_or_ge k marks.length with hlt | hge
  · rw [List.getElem?_append_left hlt] at h
    exact .inl h
  · obtain ⟨d, rfl⟩ := Nat.exists_eq_add_of_le hge
    rw [List.getElem?_append_right hge, Nat.add_sub_cancel_left] at h
    exact .inr ⟨d, rfl, h⟩

/-- The marks stand in those of the program from position `n` on. -/
def Marked (F : Forest) (n : Nat) (marks : List Mark) : Prop :=
  ∀ k mark, marks[k]? = some mark → (F.marks none)[n + k]? = some mark

theorem marked_append {marks marks' : List Mark} :
    Marked F n (marks ++ marks') ↔ Marked F n marks ∧ Marked F (n + marks.length) marks' := by
  constructor
  · intro h
    refine ⟨fun k mark hk => h k mark ?_, fun k mark hk => ?_⟩
    · rwa [List.getElem?_append_left (List.getElem?_eq_some_iff.mp hk).1]
    · rw [Nat.add_assoc]
      refine h (marks.length + k) mark ?_
      rwa [List.getElem?_append_right (Nat.le_add_right _ _), Nat.add_sub_cancel_left]
  · rintro ⟨hleft, hright⟩ k mark hk
    rcases of_getElem?_append hk with hk | ⟨d, rfl, hd⟩
    · exact hleft k mark hk
    · rw [← Nat.add_assoc]
      exact hright d mark hd

/-- Every place in plain code is one where control may come to, if its end is one. -/
theorem entry_of_plain (h : Marked F base (List.replicate n ⟨owner, .plain⟩))
    (hend : F.Entry owner (base + n)) (hk : k ≤ n) : F.Entry owner (base + k) := by
  rcases Nat.lt_or_eq_of_le hk with hlt | rfl
  · refine .inr ⟨.plain, h k _ ?_, rfl⟩
    rw [List.getElem?_replicate, if_pos hlt]
  · exact hend

/-! ## Parts of a program with their marks -/

/-- A part of the program stands at a position with its marks, and control that runs off its end
comes to a place of the same owner. -/
structure Laid (F : Forest) (program : List Words) (owner : Option String) (base : Nat)
    (G : Forest) : Prop extends PartAt F program owner base G where
  marked : Marked F base (G.marks owner)
  leads : F.Entry owner (base + G.size)

namespace Laid

variable {s : Simple} {o : Opening} {body rest : Forest}

theorem marked_simple (h : Laid F program owner base (.simple s rest)) :
    Marked F base (s.marks owner) ∧ Marked F (base + s.size) (rest.marks owner) := by
  have hm := h.marked
  rwa [Forest.marks, marked_append, length_simple_marks] at hm

theorem marked_block (h : Laid F program owner base (.block o body rest)) :
    Marked F base (List.replicate o.size ⟨owner, .plain⟩) ∧
      Marked F (base + o.size) (body.marks (o.inner owner)) ∧
      Marked F (base + o.size + body.size) (o.construct.marks (o.inner owner)) ∧
      Marked F (base + o.size + body.size + o.construct.tailSize) (rest.marks owner) := by
  have hm := h.marked
  rw [Forest.marks, marked_append, marked_append, marked_append] at hm
  simpa only [List.length_append, List.length_replicate, length_marks, length_construct_marks,
    Nat.add_assoc, and_assoc] using hm

theorem simple_rest (h : Laid F program owner base (.simple s rest)) :
    Laid F program owner (base + s.size) rest where
  toPartAt := h.toPartAt.simple_rest
  marked := h.marked_simple.2
  leads := by
    have hend := h.leads
    rwa [Forest.size, ← Nat.add_assoc] at hend

theorem block_rest (h : Laid F program owner base (.block o body rest)) :
    Laid F program owner (base + o.size + body.size + o.construct.tailSize) rest where
  toPartAt := h.toPartAt.block_rest
  marked := h.marked_block.2.2.2
  leads := by
    have hend := h.leads
    have hsize : base + (Forest.block o body rest).size =
        base + o.size + body.size + o.construct.tailSize + rest.size := by
      simp only [Forest.size]
      omega
    rwa [hsize] at hend

/-- Control may come to the start of a part. -/
theorem entry (h : Laid F program owner base G) : F.Entry owner base := by
  cases G with
  | done => exact h.leads
  | simple s rest =>
    cases s with
    | call name => exact .inr ⟨.callSelect, h.marked_simple.1 0 _ rfl, rfl⟩
    | _ => exact .inr ⟨.plain, h.marked_simple.1 0 _ rfl, rfl⟩
  | block o body rest =>
    refine .inr ⟨.plain, h.marked_block.1 0 _ ?_, rfl⟩
    cases o <;> rfl

/-- The body of a block ends before the return, the jump back or what stands behind the block. -/
theorem block_body (h : Laid F program owner base (.block o body rest)) :
    Laid F program (o.inner owner) (base + o.size) body where
  toPartAt := h.toPartAt.block_body
  marked := h.marked_block.2.1
  leads := by
    have htail := h.marked_block.2.2.1
    cases o with
    | define name => exact .inr ⟨.leaveRise, htail 0 _ rfl, rfl⟩
    | branch kind c =>
      cases kind with
      | conditional => exact h.block_rest.entry
      | loop => exact .inr ⟨.plain, htail 0 _ rfl, rfl⟩

end Laid

theorem Loaded.laid (h : Loaded F program) : Laid F program none 0 F where
  toPartAt := h.partAt
  marked k mark hk := by rwa [Nat.zero_add]
  leads := .inl ⟨Nat.zero_add _, rfl⟩

/-- The start of a body is a place of its definition. -/
theorem Laid.entry_of_body (h : Laid F program owner base G) {b : Body}
    (hb : b ∈ G.bodies base) : F.Entry (some b.name) (b.index + 1) := by
  induction G generalizing owner base with
  | done => cases hb
  | simple s rest ih => exact ih h.simple_rest hb
  | block o body rest ihb ihr =>
    rw [Forest.bodies, List.mem_append, List.mem_append] at hb
    rcases hb with (hb | hb) | hb
    · cases o with
      | define name =>
        rw [Opening.bodies, List.mem_singleton] at hb
        subst hb
        exact h.block_body.entry
      | branch kind c => cases hb
    · exact ihb h.block_body hb
    · exact ihr h.block_rest hb

/-! ## What a step can do -/

/-- What a step does at position `i`, where an instruction with the given mark stands. -/
inductive Moves (F : Forest) (i : Nat) (m m' : Cpu) : Mark → Prop
  | plain {owner : Option String} {j : Nat} (hpc : m'.pc = addressOf j) (hj : F.Entry owner j)
      (hdepth : m'.depth = m.depth) (hreturns : m'.returns = m.returns) :
      Moves F i m m' ⟨owner, .plain⟩
  | callSelect {owner : Option String} (hnext : (F.marks none)[i + 1]? = some ⟨owner, .callDeepen⟩)
      (hm : m' = { m with pc := addressOf (i + 1 : Nat), jumpBackAddress := m.depth }) :
      Moves F i m m' ⟨owner, .callSelect⟩
  | callDeepen {owner : Option String} (hnext : (F.marks none)[i + 1]? = some ⟨owner, .callNote⟩)
      (hm : m' = { m with pc := addressOf (i + 1 : Nat), depth := m.depth + 1 }) :
      Moves F i m m' ⟨owner, .callDeepen⟩
  | callNote {owner : Option String} {name : String}
      (hnext : (F.marks none)[i + 1]? = some ⟨owner, .callJump name⟩)
      (hm : m' = { m with
        pc := addressOf (i + 1 : Nat)
        returns := Function.update m.returns m.jumpBackAddress (addressOf (i + 2 : Nat)) }) :
      Moves F i m m' ⟨owner, .callNote⟩
  | callJump {owner : Option String} {name : String} {j : Nat} (hj : F.Entry (some name) j)
      (hback : F.Entry owner (i + 1)) (hm : m' = { m with pc := addressOf j }) :
      Moves F i m m' ⟨owner, .callJump name⟩
  | leaveRise {owner : Option String} (hnext : (F.marks none)[i + 1]? = some ⟨owner, .leaveSelect⟩)
      (hm : m' = { m with pc := addressOf (i + 1 : Nat), depth := m.depth - 1 }) :
      Moves F i m m' ⟨owner, .leaveRise⟩
  | leaveSelect {owner : Option String}
      (hnext : (F.marks none)[i + 1]? = some ⟨owner, .leaveReturn⟩)
      (hm : m' = { m with pc := addressOf (i + 1 : Nat), jumpBackAddress := m.depth }) :
      Moves F i m m' ⟨owner, .leaveSelect⟩
  | leaveReturn {owner : Option String} (howner : owner ≠ none)
      (hm : m' = { m with pc := m.returns m.jumpBackAddress }) :
      Moves F i m m' ⟨owner, .leaveReturn⟩

section Instruction

variable {L : Type} {i : Instruction L}

theorem placed_at {code : List (Instruction L)} (h : Placed program n code)
    (hk : k < code.length) : ∃ i ∈ code, ∃ rest, Placed program (n + k) (i :: rest) := by
  induction code generalizing n k with
  | nil => cases hk
  | cons i code ih =>
    cases k with
    | zero => exact ⟨i, List.mem_cons_self, code, h⟩
    | succ k =>
      obtain ⟨i', hi', rest, hrest⟩ := ih h.2 (Nat.lt_of_succ_lt_succ hk)
      rw [Nat.add_right_comm] at hrest
      exact ⟨i', List.mem_cons_of_mem _ hi', rest, hrest⟩

/-- The instruction stores a result where calls and returns do not look. -/
inductive Instruction.Works : Instruction L → Prop
  | intro {o : Opcode} {a b : Slot L} {x y : Int} {r : Register} {comment : String}
      (ho : o.Stores) (ha : a.word? = some x) (hb : b.word? = some y)
      (hr : r ∈ [Register.ram, .ramAddress, .scratch0, .scratch1]) :
      Works ⟨o, a, b, .register r, comment⟩

theorem step_of_works {code : List (Instruction L)} (hi : i.Works)
    (h : Placed program n (i :: code)) (hpc : m.pc = addressOf n)
    (hs : chip.step program m = some m') :
    m'.pc = addressOf (n + 1 : Nat) ∧ m'.depth = m.depth ∧ m'.returns = m.returns := by
  obtain ⟨ho, ha, hb, hr⟩ := hi
  rw [Circuit.step_store ho h hpc ha hb, next_eq hpc, Option.some.injEq] at hs
  subst hs
  simp only [List.mem_cons, List.not_mem_nil, or_false] at hr
  rcases hr with rfl | rfl | rfl | rfl <;> exact ⟨rfl, rfl, rfl⟩

theorem works_selectCell (address : Int) (role : String) :
    (Code.selectCell address role : Instruction L).Works :=
  .intro (.alu .move true false) rfl rfl (by simp)

theorem works_staging {left right : Value}
    (hi : i ∈ (Code.staging left right : List (Instruction L))) : i.Works := by
  have hfirst : ∀ address role, i ∈ (Code.stageFirst address role : List (Instruction L)) →
      i.Works := by
    intro address role hi
    simp only [Code.stageFirst, List.mem_cons, List.not_mem_nil, or_false] at hi
    rcases hi with rfl | rfl
    · exact works_selectCell _ _
    · exact .intro (.alu .move false false) rfl rfl (by simp)
  have hsecond : ∀ address role, i ∈ (Code.stageSecond address role : List (Instruction L)) →
      i.Works := by
    intro address role hi
    simp only [Code.stageSecond, List.mem_cons, List.not_mem_nil, or_false] at hi
    rcases hi with rfl | rfl
    · exact works_selectCell _ _
    · exact .intro (.alu .move false false) rfl rfl (by simp)
  cases left with
  | literal x =>
    cases right with
    | literal y => cases hi
    | cell r => exact hfirst _ _ hi
  | cell l =>
    cases right with
    | literal y => exact hfirst _ _ hi
    | cell r =>
      rcases List.mem_append.mp hi with hi | hi
      · exact hfirst _ _ hi
      · exact hsecond _ _ hi

theorem works_store {o : Opcode} (ho : o.Stores) {left right : Value} {cell : Int}
    {comment : String} (hi : i ∈ (Code.store o left right cell comment : List (Instruction L))) :
    i.Works := by
  simp only [Code.store, List.mem_append, List.mem_cons, List.not_mem_nil, or_false] at hi
  rcases hi with hi | rfl | rfl
  · exact works_staging hi
  · exact works_selectCell _ _
  · exact .intro (ho.withImmediates _ _) (word?_leftSlot _) (word?_rightSlot _ _) (by simp)

theorem works_simple {s : Simple} (hs : ∀ name, s ≠ .call name) {lay : Layout}
    (hi : i ∈ (s.code lay owner base : List (Instruction L))) : i.Works := by
  rw [Simple.code_eq_template] at hi
  cases s with
  | assign d src =>
    simp only [Simple.template, Code.assign, List.mem_cons, List.not_mem_nil, or_false] at hi
    rcases hi with rfl | rfl
    · exact works_selectCell _ _
    · exact .intro (.alu .move _ false) rfl rfl (by simp)
  | combine op l r d => exact works_store (.alu op.op false false) hi
  | compare c l r d => exact works_store (.condition c.predicate false false) hi
  | constant c d => exact works_store (.condition c.predicate false false) hi
  | call name => exact absurd rfl (hs name)

/-- The instruction is a condition that branches to the target. -/
inductive Instruction.Branches (target : Int) : Instruction L → Prop
  | intro {p : Predicate} {immediate0 immediate1 : Bool} {a b : Slot L} {x y : Int}
      {comment : String} (ha : a.word? = some x) (hb : b.word? = some y) :
      Branches target ⟨.condition p true immediate0 immediate1, a, b, .number target, comment⟩

theorem step_of_branches {code : List (Instruction L)} {target : Int} (hi : i.Branches target)
    (h : Placed program n (i :: code)) (hpc : m.pc = addressOf n)
    (hs : chip.step program m = some m') :
    (m'.pc = target ∨ m'.pc = addressOf (n + 1 : Nat)) ∧ m'.depth = m.depth ∧
      m'.returns = m.returns := by
  obtain ⟨ha, hb⟩ := hi
  rw [Circuit.step_branch h hpc ha hb, next_eq hpc, Option.some.injEq] at hs
  subst hs
  split
  · exact ⟨.inl rfl, rfl, rfl⟩
  · exact ⟨.inr rfl, rfl, rfl⟩

theorem works_or_branches {c : Condition} {kind : BranchKind} {target : Int} {lay : Layout}
    (hi : i ∈ (c.code lay owner kind (.number target) : List (Instruction L))) :
    i.Works ∨ i.Branches target := by
  have hbranch : ∀ {p left right comment},
      i ∈ (Code.branch p left right (.number target) comment : List (Instruction L)) →
        i.Works ∨ i.Branches target := by
    intro p left right comment hi
    simp only [Code.branch, List.mem_append, List.mem_cons, List.not_mem_nil, or_false] at hi
    rcases hi with hi | rfl
    · exact .inl (works_staging hi)
    · exact .inr (.intro (word?_leftSlot left) (word?_rightSlot left right))
  rw [Condition.code_eq_template] at hi
  cases c with
  | compare c l r => exact hbranch hi
  | constant c => exact hbranch hi

end Instruction

namespace Laid

variable {s : Simple} {o : Opening} {body rest : Forest}

/-- A statement that is no call goes on, instruction by instruction. -/
theorem moves_simple (h : Laid F program owner base (.simple s rest))
    (hne : ∀ name, s ≠ .call name) (hk : (s.marks owner)[k]? = some mark)
    (hpc : m.pc = addressOf (base + k : Nat)) (hs : chip.step program m = some m') :
    Moves F (base + k) m m' mark := by
  have hmarked := h.marked_simple.1
  rw [marks_of_ne_call hne] at hk hmarked
  obtain ⟨hlt, rfl⟩ := of_getElem?_replicate hk
  obtain ⟨i, hi, code, hat⟩ :=
    placed_at (placed_simple.mp h.placed).1 (by rwa [length_simple_code])
  obtain ⟨hpc', hdepth, hreturns⟩ := step_of_works (works_simple hne hi) hat hpc hs
  have hnext : F.Entry owner (base + (k + 1)) :=
    entry_of_plain hmarked h.simple_rest.entry hlt
  exact .plain hpc' hnext hdepth hreturns

/-- A call goes through its four instructions to the body of what it calls. -/
theorem moves_call (hl : Loaded F program) {name : String}
    (h : Laid F program owner base (.simple (.call name) rest))
    (hk : ((Simple.call name).marks owner)[k]? = some mark)
    (hpc : m.pc = addressOf (base + k : Nat)) (hs : chip.step program m = some m') :
    Moves F (base + k) m m' mark := by
  obtain ⟨b, hb⟩ := hl.calls name (h.clauses _ List.mem_cons_self)
  have hplaced := (placed_simple.mp h.placed).1
  rw [call_code hb] at hplaced
  have hmarked := h.marked_simple.1
  match k with
  | 0 =>
    cases hk
    rw [step_call_select hplaced hpc, Option.some.injEq] at hs
    exact .callSelect (hmarked 1 _ rfl) hs.symm
  | 1 =>
    cases hk
    rw [step_call_deepen hplaced hpc, Option.some.injEq] at hs
    exact .callDeepen (hmarked 2 _ rfl) hs.symm
  | 2 =>
    cases hk
    rw [step_call_note hplaced hpc, Option.some.injEq] at hs
    exact .callNote (hmarked 3 _ rfl) hs.symm
  | 3 =>
    cases hk
    rw [step_call_jump hplaced hpc, Option.some.injEq] at hs
    obtain ⟨hmem, rfl⟩ := mem_bodies_of_body? hb
    exact .callJump (hl.laid.entry_of_body hmem) h.simple_rest.entry hs.symm

/-- What stands before the body of a block leads on, into the body or behind the block. -/
theorem moves_opening (h : Laid F program owner base (.block o body rest)) (hk : k < o.size)
    (hpc : m.pc = addressOf (base + k : Nat)) (hs : chip.step program m = some m') :
    Moves F (base + k) m m' ⟨owner, .plain⟩ := by
  have hplaced := (placed_block.mp h.placed).1
  rw [Opening.code_eq_template] at hplaced
  have hrest := h.block_rest.entry
  cases o with
  | define name =>
    obtain rfl : k = 0 := by
      simp only [Opening.size] at hk
      omega
    rw [Circuit.step_jump hplaced hpc, Option.some.injEq] at hs
    subst hs
    exact .plain rfl hrest rfl rfl
  | branch kind c =>
    have hbody := h.block_body.entry
    have hnext := entry_of_plain h.marked_block.1 hbody hk
    rw [Opening.template, ← Condition.code_eq_template] at hplaced
    obtain ⟨htest, hskip⟩ := placed_append.mp hplaced
    rw [length_condition_code] at hskip
    rcases Nat.lt_or_eq_of_le (Nat.le_of_lt_succ hk) with hlt | rfl
    · obtain ⟨i, hi, code, hat⟩ := placed_at htest (by rwa [length_condition_code])
      rcases works_or_branches hi with hworks | hbranches
      · obtain ⟨hpc', hdepth, hreturns⟩ := step_of_works hworks hat hpc hs
        exact .plain hpc' hnext hdepth hreturns
      · obtain ⟨hpc' | hpc', hdepth, hreturns⟩ := step_of_branches hbranches hat hpc hs
        · exact .plain hpc' hbody hdepth hreturns
        · exact .plain hpc' hnext hdepth hreturns
    · rw [Circuit.step_jump hskip hpc, Option.some.injEq] at hs
      subst hs
      exact .plain rfl hrest rfl rfl

/-- What stands behind the body of a block returns, or leads back to the condition. -/
theorem moves_tail (h : Laid F program owner base (.block o body rest))
    (hk : (o.construct.marks (o.inner owner))[k]? = some mark)
    (hpc : m.pc = addressOf (base + o.size + body.size + k : Nat))
    (hs : chip.step program m = some m') :
    Moves F (base + o.size + body.size + k) m m' mark := by
  have hplaced := (placed_block.mp h.placed).2.2.1
  rw [Construct.tailCode_eq_template] at hplaced
  have hmarked := h.marked_block.2.2.1
  cases o with
  | define name =>
    match k with
    | 0 =>
      cases hk
      rw [step_epilogue_rise hplaced hpc, Option.some.injEq] at hs
      exact .leaveRise (hmarked 1 _ rfl) hs.symm
    | 1 =>
      cases hk
      rw [step_epilogue_select hplaced hpc, Option.some.injEq] at hs
      exact .leaveSelect (hmarked 2 _ rfl) hs.symm
    | 2 =>
      cases hk
      rw [step_epilogue_return hplaced hpc, Option.some.injEq] at hs
      exact .leaveReturn (Option.some_ne_none name) hs.symm
  | branch kind c =>
    cases kind with
    | conditional => cases hk
    | loop =>
      obtain ⟨hlt, rfl⟩ := of_getElem?_replicate hk
      obtain rfl : k = 0 := Nat.lt_one_iff.mp hlt
      rw [Circuit.step_jump hplaced hpc, Option.some.injEq] at hs
      subst hs
      exact .plain rfl h.entry rfl rfl

/-- The induction is on the forest, one case for each piece of its code. -/
theorem moves (hl : Loaded F program) (h : Laid F program owner base G)
    (hk : (G.marks owner)[k]? = some mark) (hpc : m.pc = addressOf (base + k : Nat))
    (hs : chip.step program m = some m') : Moves F (base + k) m m' mark := by
  induction G generalizing owner base k with
  | done => cases hk
  | simple s rest ih =>
    rcases of_getElem?_append hk with hk | ⟨d, rfl, hd⟩
    · by_cases hcall : ∃ name, s = .call name
      · obtain ⟨name, rfl⟩ := hcall
        exact h.moves_call hl hk hpc hs
      · exact h.moves_simple (fun name he => hcall ⟨name, he⟩) hk hpc hs
    · rw [length_simple_marks, ← Nat.add_assoc] at hpc ⊢
      exact ih h.simple_rest hd hpc
  | block o body rest ihb ihr =>
    rcases of_getElem?_append hk with hk | ⟨d, rfl, hd⟩
    · rcases of_getElem?_append hk with hk | ⟨d, rfl, hd⟩
      · rcases of_getElem?_append hk with hk | ⟨d, rfl, hd⟩
        · obtain ⟨hlt, rfl⟩ := of_getElem?_replicate hk
          exact h.moves_opening hlt hpc hs
        · rw [List.length_replicate, ← Nat.add_assoc] at hpc ⊢
          exact ihb h.block_body hd hpc
      · rw [List.length_append, List.length_replicate, length_marks, ← Nat.add_assoc,
          ← Nat.add_assoc] at hpc ⊢
        exact h.moves_tail hd hpc hs
    · rw [List.length_append, List.length_append, List.length_replicate, length_marks,
        length_construct_marks, ← Nat.add_assoc, ← Nat.add_assoc, ← Nat.add_assoc] at hpc ⊢
      exact ihr h.block_rest hd hpc

end Laid

/-- **What a step does in a loaded program**, whatever the chip computes. -/
theorem Loaded.moves (hl : Loaded F program) {i : Nat} (hi : (F.marks none)[i]? = some mark)
    (hpc : m.pc = addressOf i) (hs : chip.step program m = some m') : Moves F i m m' mark := by
  have hmoves := hl.laid.moves hl hi (by rwa [Nat.zero_add]) hs
  rwa [Nat.zero_add] at hmoves

end TapeMachine

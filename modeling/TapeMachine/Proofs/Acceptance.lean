import Mathlib.Data.List.Induction
import TapeMachine.Proofs.Refinement

/-!
# What is accepted

The assembler decides line by line, from what it remembers of the lines before, whether it can go
on. `Legal` says of the lines as a whole which programs are good: how blocks are nested, what the
operands look like, and which definitions and variables a line may name. Together with the grammar
of a line and the number of cells this is all there is: `compile_eq_ok_iff_legal`.

The link is `Tracks`: what the assembler remembers after some lines, read off the lines themselves.
A line can be carried out exactly if the lines before it allow it (`Tracks.enabled_iff`).
-/

namespace TapeMachine

/-! ## Legal programs -/

namespace Clause

/-- The operands of a line whose variables need to have a value: all but the destination of an
assignment. -/
def uses : Clause → List String
  | .simple (.assign _ source) => [source]
  | .simple (.combine _ left right destination) => [left, right, destination]
  | .simple (.compare _ left right destination) => [left, right, destination]
  | .simple (.constant _ destination) => [destination]
  | .opening (.branch _ (.compare _ left right)) => [left, right]
  | _ => []

/-- The operand that a line writes to. -/
def destination? : Clause → Option String
  | .simple (.assign destination _) => some destination
  | .simple (.combine _ _ _ destination) => some destination
  | .simple (.compare _ _ _ destination) => some destination
  | .simple (.constant _ destination) => some destination
  | _ => none

/-- The definition that a line starts. -/
def defined? : Clause → Option String
  | .opening (.define name) => some name
  | _ => none

end Clause

/-- The names of the definitions that are started on the lines. -/
def defined (cs : List Clause) : List String := cs.filterMap Clause.defined?

/-- **Programs that make sense**, but for the number of variables. Lines are given in order, and
`before` stands for the lines before a line. -/
structure Legal (cs : List Clause) : Prop where
  /-- Blocks are closed in order, and none lies inside a block of its own kind. -/
  nested : ∃ F : Forest, F.clauses = cs ∧ F.Nests []
  /-- Operands are numbers, addresses or variables. -/
  operand : ∀ c ∈ cs, ∀ token, token ∈ c.uses ∨ c.destination? = some token →
    ∃ operand, Operand.Spelled token.toList operand
  /-- Numbers are not written to. -/
  destination : ∀ c ∈ cs, ∀ token n, c.destination? = some token →
    ¬ Operand.Spelled token.toList (.immediate n)
  /-- Definitions have identifiers for names. -/
  identifier : ∀ name ∈ defined cs, IsName name.toList
  /-- No name is defined twice. -/
  distinct : (defined cs).Nodup
  /-- What is called is defined on a line before. -/
  called : ∀ before name behind, cs = before ++ .simple (.call name) :: behind →
    name ∈ defined before
  /-- A variable is assigned on a line before, in the same scope. -/
  bound : ∀ before c behind, cs = before ++ c :: behind → ∀ token ∈ c.uses, ∀ name,
    Operand.Spelled token.toList (.var name) →
      (scopeBehind none before, name) ∈ assigned none before

/-- The number of variables, each counted once for each scope. -/
def variableCount (cs : List Clause) : Nat := (assigned none cs).eraseDups.length

/-! ## What is remembered -/

theorem assigned_append (scope : Option String) (cs ds : List Clause) :
    assigned scope (cs ++ ds) = assigned scope cs ++ assigned (scopeBehind scope cs) ds := by
  induction cs generalizing scope with
  | nil => rfl
  | cons c cs ih => simp [assigned, ih, scopeBehind]

theorem assigned_concat (scope : Option String) (cs : List Clause) (c : Clause) :
    assigned scope (cs ++ [c]) = assigned scope cs ++ c.assigned (scopeBehind scope cs) := by
  rw [assigned_append]
  simp [assigned]

/-- What the assembler remembers of the lines it has carried out. -/
structure Tracks (size : Nat) (before : List Clause) (s : Assembler) : Prop where
  coherent : Coherent (fun _ => False) s
  scope : s.scope = scopeBehind none before
  knows : Knows s (assigned none before)
  names : s.definitions.names = defined before
  size : s.storage.pool.size = size

section Tracks

variable {size : Nat} {before : List Clause} {s : Assembler}

theorem Tracks.ofSize (size : Nat) : Tracks size [] (.ofSize size) :=
  ⟨Coherent.ofSize size, rfl, rfl, rfl, rfl⟩

/-- The cells in use are as many as there are variables. -/
theorem Tracks.used_eq (h : Tracks size before s) :
    s.storage.pool.used = variableCount before := by
  have hcells := congrArg List.length h.coherent.cells
  have hkeys := congrArg List.length h.knows
  simp only [Storage.keys, List.length_map, List.length_range] at hcells hkeys
  rw [variableCount, ← hkeys, hcells]

theorem Tracks.count_le (h : Tracks size before s) : variableCount before ≤ size := by
  rw [← h.used_eq, ← h.size]
  exact s.storage.pool.used_le

theorem names_effect {c : Clause} (h : Coherent (fun _ => False) s) (he : c.Enabled s)
    (line : Nat) :
    (c.effect line s).definitions.names = s.definitions.names ++ c.defined?.toList := by
  have ht := h.takes he line
  generalize c.effect line s = e at ht ⊢
  cases ht with
  | simple => simp [Clause.defined?]
  | define =>
    simp [Assembler.define, Definitions.names, Assembler.newDefinition, Clause.defined?]
  | branch => simp [Assembler.branch, Clause.defined?]
  | endDefine =>
    rw [names_endDefine]
    simp [Clause.defined?]
  | endBranch => simp [Assembler.endBranch, Clause.defined?]

theorem poolSize_effect {c : Clause} (h : Coherent (fun _ => False) s) (he : c.Enabled s)
    (line : Nat) : (c.effect line s).storage.pool.size = s.storage.pool.size := by
  have ht := h.takes he line
  generalize c.effect line s = e at ht ⊢
  cases ht with
  | simple hr =>
    rcases assemble_storage hr with ⟨rfl, -⟩ | ⟨name, pool, -, -, -, hsize, rfl⟩
    · rfl
    · exact hsize
  | define => rfl
  | branch => simp [Assembler.branch]
  | endDefine => rfl
  | endBranch => simp [Assembler.endBranch]

theorem Tracks.effect {c : Clause} (h : Tracks size before s) (he : c.Enabled s) (line : Nat) :
    Tracks size (before ++ [c]) (c.effect line s) where
  coherent := h.coherent.effect he line
  scope := by
    rw [scope_effect h.coherent he line, h.scope, scopeBehind_append]
    rfl
  knows := by
    rw [assigned_concat, ← h.scope]
    exact h.knows.effect h.coherent he line
  names := by
    rw [names_effect h.coherent he line, h.names, defined, defined, List.filterMap_append]
    cases hc : c.defined? <;> simp [hc]
  size := (poolSize_effect h.coherent he line).trans h.size

/-! ## What a line needs -/

/-- The operand can be used behind the lines: it is well written, and a variable has a value. -/
def Usable (before : List Clause) (token : String) : Prop :=
  ∃ operand, Operand.parse token = .ok operand ∧
    ∀ name, operand = .var name → (scopeBehind none before, name) ∈ assigned none before

theorem Tracks.cell?_isSome_iff (h : Tracks size before s) {name : String} :
    (∃ cell, s.storage.scopes.cell? name = some cell) ↔
      (scopeBehind none before, name) ∈ assigned none before := by
  have hnone : s.storage.scopes.cell? name = none ↔ _ := h.knows.cell?_eq_none_iff h.coherent
  rw [h.scope] at hnone
  rw [← Option.ne_none_iff_exists', ne_eq, hnone, not_not]

theorem Tracks.denotes_iff (h : Tracks size before s) {token : String} :
    (∃ v, Denotes s.storage token v) ↔ Usable before token := by
  constructor
  · rintro ⟨v, hp | hp | ⟨hp, hc⟩⟩
    · exact ⟨_, hp, fun name he => by cases he⟩
    · exact ⟨_, hp, fun name he => by cases he⟩
    · refine ⟨_, hp, fun name he => ?_⟩
      cases he
      exact h.cell?_isSome_iff.mp ⟨_, hc⟩
  · rintro ⟨operand, hp, hbound⟩
    cases operand with
    | immediate n => exact ⟨_, .immediate hp⟩
    | direct address => exact ⟨_, .direct hp⟩
    | var name =>
      obtain ⟨cell, hc⟩ := h.cell?_isSome_iff.mpr (hbound name rfl)
      exact ⟨_, .var hp hc⟩

theorem Tracks.read_iff (h : Tracks size before s) {token : String} :
    (∃ v, s.storage.read token = .ok v) ↔ Usable before token := by
  rw [← h.denotes_iff]
  exact exists_congr fun v => read_eq_ok_iff

/-- The operand can be written to: it is well written, and no number. -/
def Writable (token : String) : Prop :=
  ∃ operand, Operand.parse token = .ok operand ∧ ∀ n, operand ≠ .immediate n

theorem Tracks.write_iff (h : Tracks size before s) {token : String} :
    (∃ cell, s.storage.write token = .ok cell) ↔ Usable before token ∧ Writable token := by
  rw [← h.denotes_iff]
  constructor
  · rintro ⟨cell, hw⟩
    have hd := write_eq_ok_iff.mp hw
    refine ⟨⟨_, hd⟩, ?_⟩
    cases hd with
    | direct hp => exact ⟨_, hp, by simp⟩
    | var hp hc => exact ⟨_, hp, by simp⟩
  · rintro ⟨⟨v, hd⟩, operand, hp, himm⟩
    cases v with
    | cell cell => exact ⟨cell, write_eq_ok_iff.mpr hd⟩
    | literal n =>
      cases hd with
      | immediate hn =>
        rw [hp, Except.ok.injEq] at hn
        exact absurd hn (himm n)

/-- A new variable needs a cell. -/
theorem place_iff {st : Storage} {name : String} :
    (∃ r, st.place name = .ok r) ↔
      (st.scopes.cell? name = none → st.pool.used < st.pool.size) := by
  unfold Storage.place
  cases hc : st.scopes.cell? name with
  | some cell => simp
  | none =>
    simp only [forall_const]
    constructor
    · rintro ⟨r, hr⟩
      obtain ⟨⟨cell, pool⟩, hcell, -⟩ := bind_eq_ok_iff.mp hr
      exact (CellPool.allocate_eq_ok_iff.mp hcell).1
    · intro hlt
      cases ha : st.pool.allocate with
      | ok r => exact ⟨_, rfl⟩
      | error f => exact absurd (CellPool.allocate_eq_error_iff.mp ha).1 (Nat.ne_of_lt hlt)

theorem claim_iff {st : Storage} {token : String} :
    (∃ r, st.claim token = .ok r) ↔
      Writable token ∧
        ∀ name, Operand.parse token = .ok (.var name) → ∃ r, st.place name = .ok r := by
  constructor
  · rintro ⟨⟨cell, st'⟩, h⟩
    rcases claim_eq_ok h with ⟨hp, -⟩ | ⟨name, hp, hplace⟩
    · exact ⟨⟨_, hp, by simp⟩, by simp [hp]⟩
    · refine ⟨⟨_, hp, by simp⟩, fun name' he => ?_⟩
      rw [hp] at he
      cases he
      exact ⟨_, hplace⟩
  · rintro ⟨⟨operand, hp, himm⟩, hplace⟩
    simp only [Storage.claim, hp, ok_bind]
    cases operand with
    | immediate n => exact absurd rfl (himm n)
    | direct address => exact ⟨_, rfl⟩
    | var name => exact hplace name hp

/-- The lines before allow the line, but for the way it is nested and the number of variables. -/
structure Allowed (before : List Clause) (c : Clause) : Prop where
  operand : ∀ token, token ∈ c.uses ∨ c.destination? = some token →
    ∃ operand, Operand.parse token = .ok operand
  destination : ∀ token n, c.destination? = some token →
    Operand.parse token ≠ .ok (.immediate n)
  fresh : ∀ name, c.defined? = some name → name ∉ defined before
  called : ∀ name, c = .simple (.call name) → name ∈ defined before
  bound : ∀ token ∈ c.uses, ∀ name, Operand.parse token = .ok (.var name) →
    (scopeBehind none before, name) ∈ assigned none before

/-- A line is allowed if each of its operands and its definition are. -/
theorem allowed_iff {c : Clause} :
    Allowed before c ↔
      (∀ token ∈ c.uses, Usable before token) ∧ (∀ token ∈ c.destination?, Writable token) ∧
        (∀ name ∈ c.defined?, name ∉ defined before) ∧
        ∀ name, c = .simple (.call name) → name ∈ defined before := by
  constructor
  · intro h
    refine ⟨fun token ht => ?_, fun token ht => ?_, h.fresh, h.called⟩
    · obtain ⟨operand, hp⟩ := h.operand token (.inl ht)
      refine ⟨operand, hp, ?_⟩
      rintro name rfl
      exact h.bound token ht name hp
    · obtain ⟨operand, hp⟩ := h.operand token (.inr ht)
      refine ⟨operand, hp, ?_⟩
      rintro n rfl
      exact h.destination token n ht hp
  · rintro ⟨huses, hdest, hfresh, hcalled⟩
    refine ⟨?_, ?_, hfresh, hcalled, ?_⟩
    · rintro token (ht | ht)
      · obtain ⟨operand, hp, -⟩ := huses token ht
        exact ⟨operand, hp⟩
      · obtain ⟨operand, hp, -⟩ := hdest token ht
        exact ⟨operand, hp⟩
    · intro token n ht hn
      obtain ⟨operand, hp, himm⟩ := hdest token ht
      rw [hp, Except.ok.injEq] at hn
      exact himm n hn
    · intro token ht name hn
      obtain ⟨operand, hp, hbound⟩ := huses token ht
      rw [hp, Except.ok.injEq] at hn
      exact hbound name hn

/-! ## A line can be carried out exactly if it is allowed -/

/-- A line that assigns no variable needs no cell. -/
theorem Tracks.variableCount_le (h : Tracks size before s) {c : Clause}
    (hc : c.assigned (scopeBehind none before) = []) : variableCount (before ++ [c]) ≤ size := by
  rw [variableCount, assigned_concat, hc, List.append_nil]
  exact h.count_le

/-- A variable is placed exactly if the variables fit. -/
theorem Tracks.place_iff_variableCount_le (h : Tracks size before s) {token name : String}
    (source : String) (hp : Operand.parse token = .ok (.var name)) :
    (∃ r, s.storage.place name = .ok r) ↔
      variableCount (before ++ [.simple (.assign token source)]) ≤ size := by
  have hnone : s.storage.scopes.cell? name = none ↔ _ := h.knows.cell?_eq_none_iff h.coherent
  have hassigned : (Clause.simple (.assign token source)).assigned (scopeBehind none before) =
      [(scopeBehind none before, name)] := by
    simp [Clause.assigned, Simple.assignee?, Operand.denote_of_parse hp]
  rw [place_iff, hnone, h.scope, variableCount, assigned_concat, hassigned, h.used_eq, h.size]
  by_cases hmem : (scopeBehind none before, name) ∈ assigned none before
  · rw [eraseDups_concat_of_mem hmem]
    exact ⟨fun _ => h.count_le, fun _ hnot => absurd hmem hnot⟩
  · rw [eraseDups_concat_of_not_mem hmem, List.length_append, ← variableCount,
      List.length_singleton]
    exact ⟨fun hlt => hlt hmem, fun hle _ => hle⟩

/-- An assignment finds its cell exactly if it can be written to and the variables fit. -/
theorem Tracks.claim_iff (h : Tracks size before s) {token : String} (source : String) :
    (∃ r, s.storage.claim token = .ok r) ↔
      Writable token ∧ variableCount (before ++ [.simple (.assign token source)]) ≤ size := by
  rw [TapeMachine.claim_iff]
  refine and_congr_right ?_
  rintro ⟨operand, hp, himm⟩
  cases operand with
  | immediate n => exact absurd rfl (himm n)
  | direct address =>
    have hnil : (Clause.simple (.assign token source)).assigned (scopeBehind none before) = [] := by
      simp [Clause.assigned, Simple.assignee?, Operand.denote_of_parse hp]
    simp [hp, h.variableCount_le hnil]
  | var name =>
    rw [← h.place_iff_variableCount_le source hp]
    simp [hp]

/-- A definition that is known is one of the lines before. -/
theorem Tracks.find?_eq_none_iff_defined (h : Tracks size before s) {name : String} :
    s.definitions.find? name = none ↔ name ∉ defined before := by
  rw [find?_eq_none_iff, ← h.names]
  simp [Definitions.names]

/-- Two computations, one after the other, give a result if both do, where whether the second does
has nothing to do with what the first gives. -/
theorem exists_bind_eq_ok_iff {ε α β : Type} {x : Except ε α} {f : α → Except ε β} {p : Prop}
    (hf : ∀ a, (∃ r, f a = .ok r) ↔ p) : (∃ r, (x >>= f) = .ok r) ↔ (∃ a, x = .ok a) ∧ p := by
  constructor
  · rintro ⟨r, hr⟩
    obtain ⟨a, ha, hr⟩ := bind_eq_ok_iff.mp hr
    exact ⟨⟨a, ha⟩, (hf a).mp ⟨r, hr⟩⟩
  · rintro ⟨⟨a, ha⟩, hp⟩
    obtain ⟨r, hr⟩ := (hf a).mpr hp
    exact ⟨r, bind_eq_ok_iff.mpr ⟨a, ha, hr⟩⟩

theorem exists_pure_eq_ok_iff {ε α : Type} {a : α} :
    (∃ r, (pure a : Except ε α) = .ok r) ↔ True :=
  iff_true_intro ⟨a, rfl⟩

theorem resolve_iff {defs : Definitions} {name : String} :
    (∃ d, defs.resolve name = .ok d) ↔ ¬ defs.find? name = none := by
  unfold Definitions.resolve
  cases defs.find? name <;> simp

theorem Tracks.assemble_iff (h : Tracks size before s) (c : Simple) :
    (∃ r, c.assemble s = .ok r) ↔
      Allowed before (.simple c) ∧ variableCount (before ++ [.simple c]) ≤ size := by
  cases c with
  | assign destination source =>
    rw [Simple.assemble, exists_bind_eq_ok_iff fun _ => exists_bind_eq_ok_iff fun _ =>
      exists_pure_eq_ok_iff, h.read_iff, h.claim_iff source, allowed_iff]
    simp [Clause.uses, Clause.destination?, Clause.defined?, and_assoc]
  | combine op left right destination =>
    have hle := h.variableCount_le (c := .simple (.combine op left right destination)) rfl
    rw [Simple.assemble, exists_bind_eq_ok_iff fun _ => exists_bind_eq_ok_iff fun _ =>
      exists_bind_eq_ok_iff fun _ => exists_pure_eq_ok_iff, h.read_iff, h.read_iff, h.write_iff,
      and_iff_left hle, allowed_iff]
    simp [Clause.uses, Clause.destination?, Clause.defined?, and_assoc]
  | compare c left right destination =>
    have hle := h.variableCount_le (c := .simple (.compare c left right destination)) rfl
    rw [Simple.assemble, exists_bind_eq_ok_iff fun _ => exists_bind_eq_ok_iff fun _ =>
      exists_bind_eq_ok_iff fun _ => exists_pure_eq_ok_iff, h.read_iff, h.read_iff, h.write_iff,
      and_iff_left hle, allowed_iff]
    simp [Clause.uses, Clause.destination?, Clause.defined?, and_assoc]
  | constant c destination =>
    have hle := h.variableCount_le (c := .simple (.constant c destination)) rfl
    rw [Simple.assemble, exists_bind_eq_ok_iff fun _ => exists_pure_eq_ok_iff, h.write_iff,
      and_iff_left hle, allowed_iff]
    simp [Clause.uses, Clause.destination?, Clause.defined?]
  | call name =>
    have hle := h.variableCount_le (c := .simple (.call name)) rfl
    rw [Simple.assemble, exists_bind_eq_ok_iff fun _ => exists_pure_eq_ok_iff, resolve_iff,
      h.find?_eq_none_iff_defined, not_not, and_iff_left hle, allowed_iff]
    simp [Clause.uses, Clause.destination?, Clause.defined?]

theorem Tracks.condition_iff (h : Tracks size before s) {kind : BranchKind} {target : Target}
    (condition : Condition) :
    (∃ test, condition.assemble s.storage kind target = .ok test) ↔
      Allowed before (.opening (.branch kind condition)) := by
  rw [allowed_iff]
  cases condition with
  | compare c left right =>
    rw [Condition.assemble, exists_bind_eq_ok_iff fun _ => exists_bind_eq_ok_iff fun _ =>
      exists_pure_eq_ok_iff, h.read_iff, h.read_iff]
    simp [Clause.uses, Clause.destination?, Clause.defined?]
  | constant c =>
    rw [Condition.assemble, exists_pure_eq_ok_iff]
    simp [Clause.uses, Clause.destination?, Clause.defined?]

/-- The line may stand inside the open blocks. -/
def Clause.Fitting (stack : List Construct) : Clause → Prop
  | .simple _ => True
  | .opening o => o.construct ∉ stack
  | .closing construct => stack.head? = some construct

theorem balanced_cons_iff {stack : List Construct} {c : Clause} {cs : List Clause} :
    balanced stack (c :: cs) = true ↔
      c.Fitting stack ∧ balanced (c.constructsAfter stack) cs = true := by
  cases c with
  | simple c => simp [balanced, Clause.Fitting, Clause.constructsAfter]
  | opening o => simp [balanced, Clause.Fitting, Clause.constructsAfter]
  | closing construct =>
    cases stack <;> simp [balanced, Clause.Fitting, Clause.constructsAfter]

/-- **A line can be carried out exactly if it stands where it may, the lines before allow it and
there is a cell for its variable.** -/
theorem Tracks.enabled_iff (h : Tracks size before s) (c : Clause) :
    c.Enabled s ↔
      c.Fitting s.constructs ∧ Allowed before c ∧ variableCount (before ++ [c]) ≤ size := by
  match c with
  | .simple c => rw [Clause.Enabled, h.assemble_iff, Clause.Fitting, true_and]
  | .opening (.define name) =>
    have hle := h.variableCount_le (c := .opening (.define name)) rfl
    rw [Clause.Enabled, h.find?_eq_none_iff_defined, and_iff_left hle, allowed_iff]
    simp [Clause.Fitting, Opening.construct, Clause.uses, Clause.destination?, Clause.defined?]
  | .opening (.branch kind condition) =>
    have hle := h.variableCount_le (c := .opening (.branch kind condition)) rfl
    have hopen : (s.branches kind).isOpen = false ↔ .branch kind ∉ s.constructs := by
      rw [← Bool.not_eq_true, h.coherent.isOpen kind, or_false]
    rw [Clause.Enabled, h.condition_iff, hopen, and_iff_left hle]
    rfl
  | .closing construct =>
    have hle := h.variableCount_le (c := .closing construct) rfl
    rw [Clause.Enabled, and_iff_left hle, allowed_iff]
    simp [Clause.Fitting, Clause.uses, Clause.destination?, Clause.defined?]

/-! ## All lines -/

/-- Everything of the kind holds at each place in the lines: at the first line, and at each place
in the others. -/
theorem forall_split_cons {c : Clause} {cs : List Clause} {p : List Clause → Clause → Prop} :
    (∀ mid d behind, c :: cs = mid ++ d :: behind → p mid d) ↔
      p [] c ∧ ∀ mid d behind, cs = mid ++ d :: behind → p (c :: mid) d := by
  constructor
  · intro h
    refine ⟨h [] c cs rfl, fun mid d behind he => h (c :: mid) d behind ?_⟩
    rw [he, List.cons_append]
  · rintro ⟨hfirst, hrest⟩ mid d behind he
    cases mid with
    | nil =>
      cases he
      exact hfirst
    | cons c' mid =>
      cases he
      exact hrest mid d behind rfl

/-- More lines have no fewer variables. -/
theorem variableCount_le_append (cs ds : List Clause) :
    variableCount cs ≤ variableCount (cs ++ ds) := by
  rw [variableCount, variableCount, assigned_append, List.eraseDups_append, List.length_append]
  omega

/-- The first line is carried out, then the others. -/
theorem Tracks.run_cons_iff (h : Tracks size before s) {source : String} {line : SourceLine}
    {lines : List SourceLine} {c : Clause} (hr : Reads line.head line.args c) :
    (∃ e, Assembler.run source (line :: lines) s = .ok () e ∧ e.blocks = []) ↔
      c.Named ∧ c.Enabled s ∧
        ∃ e, Assembler.run source lines (c.effect line.number s) = .ok () e ∧ e.blocks = [] := by
  simp only [run_cons_eq_ok_iff, process_eq_ok_iff h.coherent]
  constructor
  · rintro ⟨e, ⟨m, ⟨c', hr', hnamed, he, rfl⟩, hrun⟩, hblocks⟩
    obtain rfl := reads_unique hr hr'
    exact ⟨hnamed, he, e, hrun, hblocks⟩
  · rintro ⟨hnamed, he, e, hrun, hblocks⟩
    exact ⟨e, ⟨_, ⟨c, hr, hnamed, he, rfl⟩, hrun⟩, hblocks⟩

/-- **The lines can be carried out and leave no block open exactly if each is allowed.** -/
theorem Tracks.run_iff {source : String} {lines : List SourceLine} {cs : List Clause}
    (hr : ReadsLines lines cs) (h : Tracks size before s) :
    (∃ e, Assembler.run source lines s = .ok () e ∧ e.blocks = []) ↔
      balanced s.constructs cs = true ∧ (∀ c ∈ cs, c.Named) ∧
        (∀ mid c behind, cs = mid ++ c :: behind → Allowed (before ++ mid) c) ∧
        variableCount (before ++ cs) ≤ size := by
  induction hr generalizing before s with
  | nil =>
    have hrun : (∃ e, Assembler.run source [] s = .ok () e ∧ e.blocks = []) ↔ s.blocks = [] := by
      constructor
      · rintro ⟨e, hrun, hblocks⟩
        cases hrun
        exact hblocks
      · exact fun hblocks => ⟨s, rfl, hblocks⟩
    rw [hrun]
    simp [balanced, Assembler.constructs, h.count_le]
  | @cons line c lines cs hline _ ih =>
    rw [h.run_cons_iff hline, balanced_cons_iff, forall_split_cons, List.append_nil]
    -- what stands before a later line begins with the lines before and this one
    have hmid : (∀ mid d behind, cs = mid ++ d :: behind → Allowed (before ++ c :: mid) d) ↔
        ∀ mid d behind, cs = mid ++ d :: behind → Allowed (before ++ [c] ++ mid) d := by
      simp only [List.append_assoc, List.singleton_append]
    rw [hmid, List.append_cons before c cs, List.forall_mem_cons]
    constructor
    · rintro ⟨hnamed, he, hrest⟩
      obtain ⟨hfit, hallowed, -⟩ := (h.enabled_iff c).mp he
      obtain ⟨hbal, hnames, hrest, hcount⟩ := (ih (h.effect he line.number)).mp hrest
      rw [constructs_effect h.coherent he line.number] at hbal
      exact ⟨⟨hfit, hbal⟩, ⟨hnamed, hnames⟩, ⟨hallowed, hrest⟩, hcount⟩
    · rintro ⟨⟨hfit, hbal⟩, ⟨hnamed, hnames⟩, ⟨hallowed, hrest⟩, hcount⟩
      have hfirst := Nat.le_trans (variableCount_le_append (before ++ [c]) cs) hcount
      have he : c.Enabled s := (h.enabled_iff c).mpr ⟨hfit, hallowed, hfirst⟩
      refine ⟨hnamed, he, (ih (h.effect he line.number)).mpr ?_⟩
      rw [constructs_effect h.coherent he line.number]
      exact ⟨hbal, hnames, hrest, hcount⟩

end Tracks

/-! ## Acceptance -/

theorem defined_append (cs ds : List Clause) : defined (cs ++ ds) = defined cs ++ defined ds :=
  List.filterMap_append

theorem mem_defined_iff {name : String} {cs : List Clause} :
    name ∈ defined cs ↔ .opening (.define name) ∈ cs := by
  rw [defined, List.mem_filterMap]
  constructor
  · rintro ⟨c, hc, hname⟩
    match c, hname with
    | .opening (.define _), hname =>
      cases hname
      exact hc
  · exact fun hc => ⟨_, hc, rfl⟩

/-- Names that are new on each line that starts a definition are distinct. -/
theorem nodup_defined {cs : List Clause}
    (h : ∀ before c behind, cs = before ++ c :: behind →
      ∀ name, c.defined? = some name → name ∉ defined before) : (defined cs).Nodup := by
  induction cs using List.reverseRecOn with
  | nil => exact List.nodup_nil
  | append_singleton cs c ih =>
    have hinit : (defined cs).Nodup := by
      refine ih fun before d behind he => h before d (behind ++ [c]) ?_
      rw [he, List.append_assoc, List.cons_append]
    rw [defined_append]
    cases hc : c.defined? with
    | none => simpa [defined, hc] using hinit
    | some name =>
      have hnew := h cs c [] rfl name hc
      have hlast : defined [c] = [name] := by simp [defined, hc]
      rw [hlast, List.nodup_append_comm, List.singleton_append, List.nodup_cons]
      exact ⟨hnew, hinit⟩

/-- All operands that a line uses or writes to are operands of the line. -/
theorem mem_operands {c : Clause} {token : String}
    (h : token ∈ c.uses ∨ c.destination? = some token) : token ∈ c.operands := by
  rcases h with h | h
  · unfold Clause.uses at h
    split at h <;> simp_all [Clause.operands, Condition.operands]
  · unfold Clause.destination? at h
    split at h <;> simp_all [Clause.operands]

/-- **Programs make sense if they do so line by line.** -/
theorem legal_iff {cs : List Clause}
    (hsolid : ∀ c ∈ cs, ∀ token ∈ c.operands, ∀ x ∈ token.toList, ¬ Text.Blank x) :
    Legal cs ↔
      balanced [] cs = true ∧ (∀ c ∈ cs, c.Named) ∧
        ∀ before c behind, cs = before ++ c :: behind → Allowed before c := by
  have hparse : ∀ c ∈ cs, ∀ token, token ∈ c.uses ∨ c.destination? = some token →
      ∀ operand, Operand.parse token = .ok operand ↔ Operand.Spelled token.toList operand :=
    fun c hc token ht _ => Operand.parse_eq_ok_iff (hsolid c hc token (mem_operands ht))
  constructor
  · intro h
    refine ⟨balanced_iff.mpr h.nested, ?_, ?_⟩
    · rintro c hc name rfl
      exact h.identifier name (mem_defined_iff.mpr hc)
    · intro before c behind he
      have hc : c ∈ cs := by simp [he]
      refine ⟨fun token ht => ?_, fun token n ht hn => ?_, fun name hname hmem => ?_, ?_,
        fun token ht name hn => ?_⟩
      · exact (h.operand c hc token ht).imp fun operand => (hparse c hc token ht operand).mpr
      · exact h.destination c hc token n ht ((hparse c hc token (.inr ht) _).mp hn)
      · have hnodup := h.distinct
        rw [he, defined_append, List.nodup_append] at hnodup
        have hin : name ∈ defined (c :: behind) := by simp [defined, hname]
        exact hnodup.2.2 name hmem name hin rfl
      · rintro name rfl
        exact h.called before name behind he
      · exact h.bound before c behind he token ht name ((hparse c hc token (.inl ht) _).mp hn)
  · rintro ⟨hbal, hnames, hallowed⟩
    have hat : ∀ c ∈ cs, ∃ before, Allowed before c := by
      intro c hc
      obtain ⟨before, behind, he⟩ := List.append_of_mem hc
      exact ⟨before, hallowed before c behind he⟩
    refine ⟨balanced_iff.mp hbal, ?_, ?_, ?_, ?_, ?_, ?_⟩
    · intro c hc token ht
      obtain ⟨before, ha⟩ := hat c hc
      exact (ha.operand token ht).imp fun operand => (hparse c hc token ht operand).mp
    · intro c hc token n ht hn
      obtain ⟨before, ha⟩ := hat c hc
      exact ha.destination token n ht ((hparse c hc token (.inr ht) _).mpr hn)
    · exact fun name hname => hnames _ (mem_defined_iff.mp hname) name rfl
    · exact nodup_defined fun before c behind he => (hallowed before c behind he).fresh
    · exact fun before name behind he => (hallowed before _ behind he).called name rfl
    · intro before c behind he token ht name hn
      have hc : c ∈ cs := by simp [he]
      exact (hallowed before c behind he).bound token ht name
        ((hparse c hc token (.inl ht) _).mpr hn)

/-- **What is accepted.** Given cells at all, a text has a listing exactly if each of its lines is
well formed, the lines make sense together and there are cells enough for the variables. -/
theorem compile_eq_ok_iff_legal {text source : String} {options : Options}
    (hm : 0 < options.memorySize) :
    (∃ lines, (compile text options source).1 = .ok lines) ↔
      ∃ cs, Says text cs ∧ Legal cs ∧ (variableCount cs : Int) ≤ options.memorySize := by
  have h₀ := Tracks.ofSize options.memorySize.toNat
  have hcompletes : Assembler.completes source (Source.statements text)
        (.ofSize options.memorySize.toNat) = true ↔
      ∃ e, Assembler.run source (Source.statements text)
        (.ofSize options.memorySize.toNat) = .ok () e ∧ e.blocks = [] := by
    unfold Assembler.completes
    cases Assembler.run source (Source.statements text) (.ofSize options.memorySize.toNat) <;> simp
  have hsize : ∀ n : Nat, n ≤ options.memorySize.toNat ↔ (n : Int) ≤ options.memorySize := by
    omega
  rw [exists_compile_eq_ok_iff, exists_assembles_iff, and_iff_right hm, hcompletes]
  constructor
  · rintro ⟨e, hrun, hblocks⟩
    obtain ⟨cs, hreads, -, -⟩ := steps_of_run h₀.coherent hrun
    obtain ⟨hbal, hnames, hallowed, hcount⟩ := (h₀.run_iff hreads).mp ⟨e, hrun, hblocks⟩
    have hsaid : Says text cs := says_iff.mpr hreads
    exact ⟨cs, hsaid, (legal_iff hsaid.not_blank).mpr ⟨hbal, hnames, hallowed⟩,
      (hsize _).mp hcount⟩
  · rintro ⟨cs, hsaid, hlegal, hcount⟩
    obtain ⟨hbal, hnames, hallowed⟩ := (legal_iff hsaid.not_blank).mp hlegal
    exact (h₀.run_iff (says_iff.mp hsaid)).mpr ⟨hbal, hnames, hallowed, (hsize _).mpr hcount⟩

/-- One name for two variables, one of them in a definition. -/
def homonymText : String :=
  "def f # inside\n\n  Var $x 0x1\nif greq $x -1#\nADD $x 1 $x\nEndif\nEndDef\n# outside\n" ++
    "VAR $x 2\n\n\tcall f\n"

/-- The lines of the text, taken apart. -/
def homonymClauses : List Clause :=
  [.opening (.define "f"), .simple (.assign "$x" "0x1"),
   .opening (.branch .conditional (.compare .greq "$x" "-1")),
   .simple (.combine .add "$x" "1" "$x"), .closing (.branch .conditional), .closing .definition,
   .simple (.assign "$x" "2"), .simple (.call "f")]

theorem says_homonymClauses : Says homonymText homonymClauses := by
  have hlines : Source.statements homonymText =
      [⟨1, "def", ["f"]⟩, ⟨3, "Var", ["$x", "0x1"]⟩, ⟨4, "if", ["greq", "$x", "-1"]⟩,
       ⟨5, "ADD", ["$x", "1", "$x"]⟩, ⟨6, "Endif", []⟩, ⟨7, "EndDef", []⟩,
       ⟨9, "VAR", ["$x", "2"]⟩, ⟨11, "call", ["f"]⟩] := by
    decide +kernel
  rw [says_iff, hlines]
  refine .cons (.define ?_) <| .cons (.var ?_) <| .cons (.branch ?_ (.compare ?_)) <|
    .cons (.arithmetic ?_) <| .cons (.endBranch ?_) <| .cons (.endDefine ?_) <| .cons (.var ?_) <|
    .cons (.call ?_) .nil
  all_goals decide +kernel

/-- The text makes sense, and two cells are enough for it, but one is not. -/
theorem compile_homonymText_iff :
    (0 < ({ memorySize := 2 } : Options).memorySize ∧
        ∃ lines, (compile homonymText { memorySize := 2 } "main").1 = .ok lines) ∧
      Says homonymText homonymClauses ∧ Legal homonymClauses ∧
      0 < ({ memorySize := 1 } : Options).memorySize ∧
        ¬ ∃ lines, (compile homonymText { memorySize := 1 } "main").1 = .ok lines := by
  have htwo : ∃ lines, (compile homonymText { memorySize := 2 } "main").1 = .ok lines :=
    exists_compile_eq_ok_iff.mpr (exists_assembles_iff.mpr ⟨by decide, by decide +kernel⟩)
  obtain ⟨cs, hsaid, hlegal, -⟩ := (compile_eq_ok_iff_legal (by decide)).mp htwo
  obtain rfl := hsaid.unique says_homonymClauses
  refine ⟨⟨by decide, htwo⟩, hsaid, hlegal, by decide, fun hone => ?_⟩
  obtain ⟨cs, hsaid, -, hcount⟩ := (compile_eq_ok_iff_legal (by decide)).mp hone
  obtain rfl := hsaid.unique says_homonymClauses
  have hvars : variableCount homonymClauses = 2 := by decide +kernel
  rw [hvars] at hcount
  exact absurd hcount (by decide)

end TapeMachine

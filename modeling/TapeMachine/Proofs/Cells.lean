import Mathlib.Algebra.GroupWithZero.Nat
import TapeMachine.Proofs.Sessions

/-!
# Variables and their cells

A cell is taken from the pool by one function, and the variable that it is for is bound by another,
in the scope that is current at the time. That no two variables share a cell follows from neither.

`Storage.Next` says what one line does to the storage, and `Storage.Extends` what any number of
lines do: bindings are added at the end and stay. So the cells in use are as many as there are
variables, and different variables have different cells (`Allocated`).

* `cells_of_reaches`: this holds in every state that a session comes to, a line gives a cell to at
  most one variable, and the pool is exhausted exactly when a new variable is to be assigned while
  all cells are in use.
-/

namespace TapeMachine

variable {past new : List Outcome} {s e : Assembler} {line : SourceLine}

/-! ## What a line does to the storage -/

/-- The storage before and after a line: no variable gets a cell, or one that had none in the
current scope gets the next. -/
inductive Storage.Next (st st' : Storage) : Prop
  | same (hp : st'.pool = st.pool) (hb : st'.scopes.bindings = st.scopes.bindings)
      (hn : st.scopes.names <+: st'.scopes.names)
  | bound (name : String) (pool : CellPool) (hc : st.scopes.cell? name = none)
      (hu : pool.used = st.pool.used + 1) (hs : pool.size = st.pool.size)
      (h : st' = st.grow name pool)

theorem Storage.Next.refl (st : Storage) : st.Next st := .same rfl rfl (List.prefix_refl _)

theorem next_of_takes {n : Nat} {c : Clause} (h : Takes n s c e) : s.storage.Next e.storage := by
  cases h with
  | simple hr =>
    rcases assemble_storage hr with ⟨rfl, -⟩ | ⟨name, pool, -, hc, hu, hs, rfl⟩
    · exact .refl _
    · exact .bound name pool hc hu hs rfl
  | @define name hb hn =>
    refine .same rfl rfl ?_
    simp [Assembler.define, Scopes.names]
  | @branch kind _ test =>
    have hst : (s.branch n kind test).storage = s.storage := by simp [Assembler.branch]
    rw [hst]
    exact .refl _
  | endDefine => exact .same rfl rfl (List.prefix_refl _)
  | @endBranch kind pre b =>
    have hst : (s.endBranch kind pre.length b).storage = s.storage := by simp [Assembler.endBranch]
    rw [hst]
    exact .refl _

/-- A line that fails leaves the storage as it was. -/
theorem Refused.storage_eq {failure : Failure} (h : Refused s line failure e) :
    e.storage = s.storage := by
  rcases h.state with ⟨-, rfl⟩ | ⟨kind, _, -, -, -, -, rfl⟩
  · rfl
  · simp

theorem Sound.next (h : Sound past s)
    (hp : Assembler.process line s = .ok () e ∨
      ∃ failure, Assembler.process line s = .error failure e) : s.storage.Next e.storage := by
  rcases hp with hp | ⟨failure, hp⟩
  · obtain ⟨c, -, -, he, rfl⟩ := (process_eq_ok_iff h.coherent).mp hp
    exact next_of_takes (h.coherent.takes he line.number)
  · rw [(h.refused hp).storage_eq]
    exact .refl _

/-! ## What all lines do to the storage -/

/-- The storage has grown: what was there is there, and what is new stands in a scope. -/
structure Storage.Extends (st st' : Storage) : Prop where
  size : st'.pool.size = st.pool.size
  bindings : st.scopes.bindings <+: st'.scopes.bindings
  names : st.scopes.names <+: st'.scopes.names
  housed : ∀ b ∈ st'.scopes.bindings, b ∈ st.scopes.bindings ∨ b.scope ∈ st'.scopes.names

namespace Storage.Extends

theorem refl (st : Storage) : st.Extends st :=
  ⟨rfl, List.prefix_refl _, List.prefix_refl _, fun _ hb => .inl hb⟩

theorem trans {st mid st' : Storage} (h : st.Extends mid) (h' : mid.Extends st') :
    st.Extends st' := by
  refine ⟨h'.size.trans h.size, h.bindings.trans h'.bindings, h.names.trans h'.names, ?_⟩
  intro b hb
  rcases h'.housed b hb with hb | hb
  · exact (h.housed b hb).imp_right fun hmem => h'.names.subset hmem
  · exact .inr hb

end Storage.Extends

/-- The current scope is there. -/
theorem Coherent.current_mem {stuck : BranchKind → Prop} (h : Coherent stuck s) :
    s.storage.scopes.current ∈ s.storage.scopes.names := by
  cases h.body with
  | outside _ _ he => simp [Scopes.current, Scopes.names, he]
  | inside d _ hd _ _ he =>
    have hmem : Statement.scopeOf d.name ∈ s.definitions.names.map Statement.scopeOf :=
      List.mem_map_of_mem (List.mem_map_of_mem hd)
    rw [Scopes.names, h.children, Scopes.current, he]
    exact List.mem_cons_of_mem _ hmem

theorem Storage.Next.extends {st st' : Storage} (h : st.Next st')
    (hcurrent : st.scopes.current ∈ st.scopes.names) : st.Extends st' := by
  cases h with
  | same hp hb hn =>
    refine ⟨by rw [hp], ⟨[], by rw [hb, List.append_nil]⟩, hn, fun b hmem => .inl ?_⟩
    rwa [hb] at hmem
  | bound name pool hc hu hs h =>
    subst h
    refine ⟨hs, List.prefix_append _ _, List.prefix_refl _, fun b hmem => ?_⟩
    rcases List.mem_append.mp hmem with hold | hnew
    · exact .inl hold
    · rw [List.mem_singleton.mp hnew]
      exact .inr hcurrent

/-- Lines in any order, carried out or failing. -/
theorem Sound.extends (h : Sound past s) (hl : Leads s new e) : s.storage.Extends e.storage := by
  induction hl generalizing past with
  | nil => exact .refl _
  | carried hp _ ih =>
    exact ((h.next (.inl hp)).extends h.coherent.current_mem).trans (ih (h.carried hp))
  | failed hp _ ih =>
    exact ((h.next (.inr ⟨_, hp⟩)).extends h.coherent.current_mem).trans (ih (h.failed hp))

/-- **However often a session is tried, its storage only grows.** The induction is on what happens
after `s`; that `s` itself has been reached keeps the states in between sound. -/
theorem Session.Reaches.extends {text source : String} {options : Options} {s₀ s s' : Session}
    (h₀ : Session.create text options source = .ok s₀) (h : Session.Reaches s₀ past s)
    (h' : Session.Reaches s new s') : s.assembler.storage.Extends s'.assembler.storage := by
  induction h' with
  | start => exact .refl _
  | edit _ _ _ _ ih => exact ih
  | lines hmid hl ih => exact ih.trans (((h.trans hmid).sound h₀).extends hl)
  | tried hmid ih =>
    have hs := (h.trans hmid).sound h₀
    obtain ⟨a, hl, hstorage, -⟩ := hs.tried
    rw [hstorage]
    exact ih.trans (hs.extends hl)

/-! ## Different variables have different cells -/

/-- The cells and the variables: the first cells are in use, one for each variable. -/
structure Allocated (capacity : Int) (st : Storage) : Prop where
  /-- The pool has the size that was asked for. -/
  size : st.pool.size = capacity
  /-- The variables of all scopes together are as many as there are bindings. -/
  count : (st.scopes.toList.map (·.bindings.length)).sum = st.scopes.bindings.length
  /-- The cells in use are the first ones, as many as there are variables. -/
  occupied : ∀ cell, st.pool.isOccupied cell = true ↔
    0 ≤ cell ∧ cell < st.scopes.bindings.length
  /-- The cell of a variable is a cell of the pool, and in use. -/
  below : ∀ scope name cell, st.scopes.cellIn? scope name = some cell →
    0 ≤ cell ∧ cell < capacity ∧ st.pool.isOccupied cell = true
  /-- No two variables of whatever scopes have the same cell. -/
  injective : ∀ scope name scope' name' cell, st.scopes.cellIn? scope name = some cell →
    st.scopes.cellIn? scope' name' = some cell → scope = scope' ∧ name = name'

/-- A variable has the cell that it is bound to. -/
theorem cellIn?_eq_some_iff {st : Storage} (h : st.keys.Nodup) {scope name : String} {cell : Int} :
    st.scopes.cellIn? scope name = some cell ↔ ⟨scope, name, cell⟩ ∈ st.scopes.bindings := by
  have hkey : (fun b : Binding => decide (b.scope = scope ∧ b.name = name)) =
      fun b => decide ((b.scope, b.name) = (scope, name)) := by
    funext b
    simp [Prod.mk.injEq]
  rw [Scopes.cellIn?, Option.map_eq_some_iff, hkey]
  constructor
  · rintro ⟨b, hb, rfl⟩
    have hmem := List.mem_of_find?_eq_some hb
    have heq : b.scope = scope ∧ b.name = name := by simpa using List.find?_some hb
    rw [← heq.1, ← heq.2]
    exact hmem
  · intro hmem
    exact ⟨_, find?_key_of_mem h hmem, rfl⟩

/-- Every element counts for exactly one of the keys. -/
theorem sum_length_filter {α κ : Type} [DecidableEq κ] (key : α → κ) {keys : List κ}
    (hnodup : keys.Nodup) (xs : List α) (hmem : ∀ x ∈ xs, key x ∈ keys) :
    (keys.map fun k => (xs.filter (key · = k)).length).sum = xs.length := by
  induction keys generalizing xs with
  | nil =>
    have hnil : xs = [] := List.eq_nil_iff_forall_not_mem.mpr fun x hx => by simpa using hmem x hx
    simp [hnil]
  | cons k ks ih =>
    -- the elements with other keys have the same count for these as all elements
    have hks : ∀ k' ∈ ks, ((xs.filter (key · ≠ k)).filter (key · = k')).length =
        (xs.filter (key · = k')).length := by
      intro k' hk'
      have hne : k' ≠ k := by
        rintro rfl
        exact (List.nodup_cons.mp hnodup).1 hk'
      rw [List.filter_filter]
      congr 1
      refine List.filter_congr fun x _ => ?_
      by_cases hx : key x = k' <;> simp [hx, hne]
    have hrest := ih (List.nodup_cons.mp hnodup).2 (xs.filter (key · ≠ k)) (by
      intro x hx
      obtain ⟨hx, hne⟩ := List.mem_filter.mp hx
      exact (List.mem_cons.mp (hmem x hx)).resolve_left (by simpa using hne))
    rw [List.map_congr_left hks] at hrest
    have hsplit := xs.length_eq_length_filter_add (key · = k)
    rw [List.map_cons, List.sum_cons, hrest, hsplit]
    simp

namespace Coherent

variable {stuck : BranchKind → Prop}

theorem used_eq (h : Coherent stuck s) :
    s.storage.pool.used = s.storage.scopes.bindings.length := by
  have hlength := congrArg List.length h.cells
  simpa using hlength.symm

theorem scopeNames_nodup (h : Coherent stuck s) : s.storage.scopes.names.Nodup := by
  rw [Scopes.names, h.root, h.children, List.nodup_cons]
  refine ⟨fun hmem => ?_, h.names_nodup.map fun _ _ => scopeOf_inj⟩
  obtain ⟨name, -, hname⟩ := List.mem_map.mp hmem
  exact scopeOf_ne_mainName name hname

/-- The cell of a variable is in use. -/
theorem cell_lt (h : Coherent stuck s) {b : Binding} (hb : b ∈ s.storage.scopes.bindings) :
    0 ≤ b.cell ∧ b.cell < s.storage.pool.used := by
  have hmem : b.cell ∈ s.storage.scopes.bindings.map (·.cell) := List.mem_map_of_mem hb
  rw [h.cells, List.mem_map] at hmem
  obtain ⟨n, hn, hcell⟩ := hmem
  rw [← hcell]
  exact ⟨Int.natCast_nonneg n, Int.ofNat_lt.mpr (List.mem_range.mp hn)⟩

/-- No two bindings have the same cell. -/
theorem eq_of_cell_eq (h : Coherent stuck s) {b b' : Binding}
    (hb : b ∈ s.storage.scopes.bindings) (hb' : b' ∈ s.storage.scopes.bindings)
    (hcell : b.cell = b'.cell) : b = b' := by
  have hnodup : (s.storage.scopes.bindings.map (·.cell)).Nodup := by
    rw [h.cells]
    exact List.nodup_range.map fun _ _ => Int.ofNat.inj
  exact List.inj_on_of_nodup_map hnodup hb hb' hcell

/-- The variables of the scopes, scope by scope. -/
theorem sum_bindings (h : Coherent stuck s)
    (hhoused : ∀ b ∈ s.storage.scopes.bindings, b.scope ∈ s.storage.scopes.names) :
    (s.storage.scopes.toList.map (·.bindings.length)).sum = s.storage.scopes.bindings.length := by
  have hlist : s.storage.scopes.toList = s.storage.scopes.names.map fun name =>
      ⟨name, s.storage.scopes.children.lookup name, s.storage.scopes.bindingsOf name⟩ := by
    rw [Scopes.toList, ← List.filterMap_eq_map]
    exact List.filterMap_congr fun name hname => by simp [Scopes.get?, hname]
  rw [hlist, List.map_map, ← sum_length_filter (·.scope) h.scopeNames_nodup _ hhoused]
  congr 1
  refine List.map_congr_left fun name _ => ?_
  simp [Scopes.bindingsOf]

theorem allocated (h : Coherent stuck s)
    (hhoused : ∀ b ∈ s.storage.scopes.bindings, b.scope ∈ s.storage.scopes.names) :
    Allocated s.storage.pool.size s.storage where
  size := rfl
  count := h.sum_bindings hhoused
  occupied := by
    intro cell
    rw [CellPool.isOccupied_iff, h.used_eq]
  below := by
    intro scope name cell hcell
    have hlt := h.cell_lt ((cellIn?_eq_some_iff h.keys_nodup).mp hcell)
    have hle : (s.storage.pool.used : Int) ≤ s.storage.pool.size :=
      Int.ofNat_le.mpr s.storage.pool.used_le
    exact ⟨hlt.1, Int.lt_of_lt_of_le hlt.2 hle, CellPool.isOccupied_iff.mpr hlt⟩
  injective := by
    intro scope name scope' name' cell hcell hcell'
    have heq := h.eq_of_cell_eq ((cellIn?_eq_some_iff h.keys_nodup).mp hcell)
      ((cellIn?_eq_some_iff h.keys_nodup).mp hcell') rfl
    rw [Binding.mk.injEq] at heq
    exact ⟨heq.1, heq.2.1⟩

end Coherent

/-! ## When the pool is exhausted -/

/-- The line assigns an operand that has a value to a variable that has no cell yet in the current
scope. -/
def Assembler.Introduces (s : Assembler) (line : SourceLine) : Prop :=
  ∃ destination source name v,
    (Keyword.ofWord? line.head = some .set ∨ Keyword.ofWord? line.head = some .var) ∧
    line.args = [destination, source] ∧ s.storage.read source = .ok v ∧
    Operand.parse destination = .ok (.var name) ∧ s.storage.scopes.cell? name = none

/-- Only a line that introduces a variable runs out of cells. -/
theorem Refused.introduces {f : Fault} (h : Refused s line (.ofFault f) e)
    (hf : f.kind = .outOfMemory) :
    s.Introduces line ∧ s.storage.pool.used = s.storage.pool.size ∧ e = s := by
  cases h with
  | unread hr => simp [kind_of_parse_error hr] at hf
  | simple hr ha =>
    rcases assemble_eq_error ha with hk | hk | ⟨d, src, name, v, rfl, hv, hp, hc, hfull, -⟩
    · simp [hk] at hf
    · simp [hk] at hf
    · obtain ⟨hk, hargs⟩ := reads_assign_iff.mp hr
      exact ⟨⟨d, src, name, v, hk, hargs, hv, hp, hc⟩, hfull, rfl⟩
  | condition hr ho ht =>
    rcases test_eq_error ht with hk | hk | ⟨_, rfl⟩
    · simp [hk] at hf
    · simp [hk] at hf
    · cases hf
  | _ => cases hf

/-- If all cells are in use, a line that introduces a variable fails and changes nothing. -/
theorem process_of_introduces (h : s.Introduces line)
    (hfull : s.storage.pool.used = s.storage.pool.size) :
    Assembler.process line s = .error (.ofFault (.poolExhausted s.storage.pool.size)) s := by
  obtain ⟨d, src, name, v, hk, hargs, hv, hp, hc⟩ := h
  have hreads := reads_assign_iff.mpr ⟨hk, hargs⟩
  obtain ⟨st, hparse, hst⟩ := parse_of_reads hreads (by simp [Clause.Named])
  have hclaim : s.storage.claim d = .error (.poolExhausted s.storage.pool.size) := by
    rw [Storage.claim, hp, ok_bind]
    simp only [Storage.place, hc, CellPool.allocate_eq_error_iff.mpr ⟨hfull, rfl⟩]
    rfl
  have ha : (Simple.assign d src).assemble s = .error (.poolExhausted s.storage.pool.size) := by
    rw [Simple.assemble, hv, ok_bind, hclaim]
    rfl
  rw [Assembler.process, Step.bind_apply, Step.ofFault_apply, hparse,
    ofStatement?_eq_simple_iff.mp hst]
  simp only [exec_simple, ha]

/-! ## All states of a session -/

/-- **Variables never share or change cells.** In every state that a session comes to: the cells in
use are the first ones, as many as there are variables, and different variables have different
cells; a variable keeps its cell from then on; a line gives a cell to at most one variable, the next
cell; and a line runs out of cells exactly if it introduces a variable while all cells are in use,
and then it changes nothing. -/
theorem cells_of_reaches {text source : String} {options : Options} {s₀ s : Session}
    (h₀ : Session.create text options source = .ok s₀) (h : Session.Reaches s₀ past s) :
    Allocated options.memorySize s.assembler.storage ∧
      (∀ new s', Session.Reaches s new s' → ∀ scope name cell,
        s.assembler.storage.scopes.cellIn? scope name = some cell →
          s'.assembler.storage.scopes.cellIn? scope name = some cell) ∧
      (∀ line e,
        (Assembler.process line s.assembler = .ok () e ∨
          ∃ failure, Assembler.process line s.assembler = .error failure e) →
        e.storage.scopes.bindings = s.assembler.storage.scopes.bindings ∨
          ∃ name, s.assembler.storage.scopes.cell? name = none ∧
            e.storage.scopes.bindings = s.assembler.storage.scopes.bindings ++
              [⟨s.assembler.storage.scopes.current, name,
                s.assembler.storage.scopes.bindings.length⟩]) ∧
      ∀ line,
        ((∃ f e, Assembler.process line s.assembler = .error (.ofFault f) e ∧
            f.kind = .outOfMemory) ↔
          s.assembler.Introduces line ∧
            s.assembler.storage.scopes.bindings.length = options.memorySize) ∧
        ∀ f e, Assembler.process line s.assembler = .error (.ofFault f) e →
          f.kind = .outOfMemory → e = s.assembler := by
  have hs := h.sound h₀
  have hext := Session.Reaches.start.extends h₀ h
  obtain ⟨hm, hs₀⟩ := create_eq_ok_iff.mp h₀
  have hsize : (s.assembler.storage.pool.size : Int) = options.memorySize := by
    rw [hext.size, hs₀]
    exact Int.toNat_of_nonneg (Int.le_of_lt hm)
  have hused := hs.coherent.used_eq
  refine ⟨?_, ?_, ?_, fun line => ⟨⟨?_, ?_⟩, ?_⟩⟩
  · rw [← hsize]
    refine hs.coherent.allocated fun b hb => (hext.housed b hb).resolve_left ?_
    rw [hs₀]
    exact List.not_mem_nil
  · intro new s' h' scope name cell hcell
    have hs' := (h.trans h').sound h₀
    have hmem := (cellIn?_eq_some_iff hs.coherent.keys_nodup).mp hcell
    have hmem' := (h.extends h₀ h').bindings.subset hmem
    exact (cellIn?_eq_some_iff hs'.coherent.keys_nodup).mpr hmem'
  · intro line e hp
    cases hs.next hp with
    | same _ hb => exact .inl hb
    | bound name pool hc _ _ he =>
      refine .inr ⟨name, hc, ?_⟩
      rw [he, ← hused]
      rfl
  · rintro ⟨f, e, hp, hf⟩
    obtain ⟨hintro, hfull, -⟩ := (hs.refused hp).introduces hf
    exact ⟨hintro, by rw [← hused, hfull, hsize]⟩
  · rintro ⟨hintro, hfull⟩
    have hall : s.assembler.storage.pool.used = s.assembler.storage.pool.size := by omega
    exact ⟨_, _, process_of_introduces hintro hall, rfl⟩
  · intro f e hp hf
    exact ((hs.refused hp).introduces hf).2.2

/-- A session with two cells, which are taken by variables of the same name in two scopes. -/
def exhausted : Session where
  text := "VAR $x 1\nDEF f\nVAR $x 2\nSET $y $x"
  options := { memorySize := 2 }
  source := "main"
  assembler := .ofSize 2

theorem cells_of_exhausted :
    Session.create exhausted.text { memorySize := 2 } "main" = .ok exhausted ∧
      Session.Reaches exhausted exhausted.outcomes exhausted.tried ∧
      exhausted.tried.assembler.storage.scopes.bindings =
        [⟨"global", "x", 0⟩, ⟨"definition.f", "x", 1⟩] ∧
      Allocated 2 exhausted.tried.assembler.storage ∧
      ∃ f, Assembler.process ⟨1, "var", ["$z", "*7"]⟩ exhausted.tried.assembler =
          .error (.ofFault f) exhausted.tried.assembler ∧
        f.kind = .outOfMemory := by
  have h₀ : Session.create exhausted.text { memorySize := 2 } "main" = .ok exhausted :=
    create_eq_ok_iff.mpr ⟨by decide, rfl⟩
  have h : Session.Reaches exhausted exhausted.outcomes exhausted.tried := .tried .start
  have hbindings : exhausted.tried.assembler.storage.scopes.bindings =
      [⟨"global", "x", 0⟩, ⟨"definition.f", "x", 1⟩] := by
    decide +kernel
  obtain ⟨hallocated, -, -, hfull⟩ := cells_of_reaches h₀ h
  have hintro : exhausted.tried.assembler.Introduces ⟨1, "var", ["$z", "*7"]⟩ :=
    ⟨"$z", "*7", "z", .cell 7, .inr (by decide +kernel), rfl, by decide +kernel, by decide +kernel,
      by decide +kernel⟩
  obtain ⟨f, e, hp, hf⟩ := (hfull _).1.mpr ⟨hintro, by rw [hbindings]; rfl⟩
  refine ⟨h₀, h, hbindings, hallocated, f, ?_, hf⟩
  rw [hp, (hfull _).2 f e hp hf]

end TapeMachine

import TapeMachine.Proofs.Roles

/-!
# Calls and returns pair up

Every run of an assembled program, however long and whatever the chip computes on the way, is
watched from outside: a `Watch` keeps the calls that have not returned, by the marks of the
instructions that were carried out, and knows nothing of the machine's own return addresses.

`Controlled` is what the machine keeps to. It is at an instruction or at the end; the instruction
belongs to the definition that was called last and has not returned, or to none if there is no such
call; and a return goes right behind that call, at the depth before it.

The machine's side is tied to the watch by `Stacked`: below the current depth the return addresses
are those of the open calls, one for each depth. `Watch.Matches.step` is the invariant of one step,
with what it has to say inside a call or a return, and `Watch.Matches.run` that of a run.
-/

namespace TapeMachine

/-! ## Watching a run -/

/-- A call that has not returned: what it calls, the address right behind it, and the depth before
its first instruction. -/
structure Frame where
  name : String
  back : Int
  depth : Int
deriving DecidableEq, Repr

/-- What is kept of a run: the calls that have not returned, innermost first, and the address behind
the call that was begun last and the depth before it. -/
structure Watch where
  frames : List Frame := []
  back : Int := 0
  depth : Int := 0
deriving DecidableEq, Repr

namespace Watch

/-- The definition that was called last and has not returned. -/
def owner (w : Watch) : Option String := w.frames.head?.map (·.name)

/-- What is kept when an instruction with the given role is carried out. A call has four
instructions of four words; it is open from its jump on, until the last instruction of a return. -/
def after (w : Watch) (m : Cpu) : Role → Watch
  | .callSelect => { w with back := m.pc + 4 * 4, depth := m.depth }
  | .callJump name => { w with frames := ⟨name, w.back, w.depth⟩ :: w.frames }
  | .leaveReturn => { w with frames := w.frames.tail }
  | .plain | .callDeepen | .callNote | .leaveRise | .leaveSelect => w

/-- What is kept when the machine makes a step. -/
def observe (F : Forest) (w : Watch) (m : Cpu) : Watch :=
  match fetch (F.marks none) m.pc with
  | some mark => w.after m mark.role
  | none => w

end Watch

/-- A watched run. Each step has a chip of its own, so that no two steps need to compute alike. -/
def watchedRun (F : Forest) (program : List Words) : List Chip → Watch → Cpu → Option (Watch × Cpu)
  | [], w, m => some (w, m)
  | chip :: chips, w, m =>
    (chip.step program m).bind (watchedRun F program chips (w.observe F m))

/-- **Control is where it should be.** -/
structure Controlled (F : Forest) (program : List Words) (w : Watch) (m : Cpu) : Prop where
  /-- The machine is at an instruction or at the end. -/
  position : ∃ i ≤ program.length, m.pc = addressOf i
  /-- It stops only at the end. -/
  progress : m.pc ≠ addressOf program.length → ∀ chip : Chip, ∃ m', chip.step program m = some m'
  /-- The instruction belongs to what was called last, or to no definition if no call is open. -/
  owner : ∀ mark, fetch (F.marks none) m.pc = some mark → w.owner = mark.owner
  /-- A return goes right behind the innermost open call, at the depth before it. -/
  returns : ∀ mark, fetch (F.marks none) m.pc = some mark → mark.role = .leaveReturn →
    ∀ (chip : Chip) m', chip.step program m = some m' →
      ∃ frame rest, w.frames = frame :: rest ∧ m'.pc = frame.back ∧ m'.depth = frame.depth
  /-- At the end all calls have returned. -/
  ends : m.pc = addressOf program.length → w.frames = []

/-! ## The return addresses of the open calls -/

variable {chip : Chip} {program : List Words} {m m' : Cpu} {w w' : Watch} {F : Forest}

/-- The return addresses below a depth are those of the open calls, and lead to places of the
callers. -/
def Stacked (F : Forest) (returns : Int → Int) : List Frame → Int → Prop
  | [], _ => True
  | frame :: rest, depth =>
    depth = frame.depth + 1 ∧ returns frame.depth = frame.back ∧
      (∃ j : Nat, frame.back = addressOf j ∧ F.Entry (rest.head?.map (·.name)) j) ∧
      Stacked F returns rest frame.depth

/-- What is noted at a depth or above it does not matter below. -/
theorem Stacked.update {returns : Int → Int} {frames : List Frame} {depth d : Int}
    (h : Stacked F returns frames depth) (hd : depth ≤ d) (v : Int) :
    Stacked F (Function.update returns d v) frames depth := by
  induction frames generalizing depth with
  | nil => trivial
  | cons frame rest ih =>
    obtain ⟨hdepth, hback, hentry, hrest⟩ := h
    refine ⟨hdepth, ?_, hentry, ih hrest (by omega)⟩
    rw [Function.update_of_ne (by omega), hback]

namespace Watch

/-- What the machine holds before an instruction of the given role at position `i`. Inside a call
and inside a return the depth is ahead of the open calls. -/
def Agrees (F : Forest) (w : Watch) (m : Cpu) (i : Nat) : Role → Prop
  | .plain | .callSelect | .leaveRise => Stacked F m.returns w.frames m.depth
  | .callDeepen =>
    w.back = addressOf (i + 3 : Nat) ∧ m.jumpBackAddress = w.depth ∧ m.depth = w.depth ∧
      Stacked F m.returns w.frames w.depth
  | .callNote =>
    w.back = addressOf (i + 2 : Nat) ∧ m.jumpBackAddress = w.depth ∧ m.depth = w.depth + 1 ∧
      Stacked F m.returns w.frames w.depth
  | .callJump _ =>
    w.back = addressOf (i + 1 : Nat) ∧ m.returns w.depth = w.back ∧ m.depth = w.depth + 1 ∧
      Stacked F m.returns w.frames w.depth
  | .leaveSelect => Stacked F m.returns w.frames (m.depth + 1)
  | .leaveReturn => m.jumpBackAddress = m.depth ∧ Stacked F m.returns w.frames (m.depth + 1)

/-- The machine is at the end with no call open, or at an instruction of what was called last, with
the return addresses of the open calls. -/
def Matches (F : Forest) (w : Watch) (m : Cpu) : Prop :=
  ∃ i : Nat, m.pc = addressOf i ∧
    ((i = F.size ∧ w.frames = []) ∨
      ∃ role, (F.marks none)[i]? = some ⟨w.owner, role⟩ ∧ w.Agrees F m i role)

theorem Matches.of_entry {j : Nat} (hpc : m.pc = addressOf j) (hj : F.Entry w.owner j)
    (hst : Stacked F m.returns w.frames m.depth) : w.Matches F m := by
  refine ⟨j, hpc, ?_⟩
  rcases hj with ⟨hj, hnone⟩ | ⟨role, hrole, hstarts⟩
  · refine .inl ⟨hj, ?_⟩
    rwa [owner, Option.map_eq_none_iff, List.head?_eq_none_iff] at hnone
  · refine .inr ⟨role, hrole, ?_⟩
    cases role with
    | plain => exact hst
    | callSelect => exact hst
    | leaveRise => exact hst
    | _ => cases hstarts

theorem observe_eq {i : Nat} {mark : Mark} (hpc : m.pc = addressOf i)
    (hi : (F.marks none)[i]? = some mark) : w.observe F m = w.after m mark.role := by
  rw [observe, hpc, fetch_addressOf, hi]

/-- **A return finds the innermost call**, its return address and its depth. -/
theorem Agrees.return {i : Nat} (h : w.Agrees F m i .leaveReturn) (hne : w.owner ≠ none) :
    ∃ frame rest, w.frames = frame :: rest ∧ m.returns m.jumpBackAddress = frame.back ∧
      m.depth = frame.depth ∧
      (∃ j : Nat, frame.back = addressOf j ∧ F.Entry (rest.head?.map (·.name)) j) ∧
      Stacked F m.returns rest m.depth := by
  obtain ⟨haddress, hst⟩ := h
  cases hframes : w.frames with
  | nil => simp [owner, hframes] at hne
  | cons frame rest =>
    rw [hframes] at hst
    obtain ⟨hdepth, hreturn, hentry, hrest⟩ := hst
    have hsame : m.depth = frame.depth := by omega
    rw [haddress, hsame]
    exact ⟨frame, rest, rfl, hreturn, rfl, hentry, hrest⟩

/-- **One step.** -/
theorem Matches.step (hl : Loaded F program) (h : w.Matches F m)
    (hs : chip.step program m = some m') : (w.observe F m).Matches F m' := by
  obtain ⟨i, hpc, ⟨rfl, -⟩ | ⟨role, hi, hagrees⟩⟩ := h
  · rw [← hl.length] at hpc
    rw [step_eq_none_of_end hpc] at hs
    cases hs
  · rw [observe_eq hpc hi]
    cases hl.moves hi hpc hs with
    | plain hpc' hj hdepth hreturns =>
      refine .of_entry hpc' hj ?_
      rw [hdepth, hreturns]
      exact hagrees
    | callSelect hnext hm =>
      subst hm
      refine ⟨i + 1, rfl, .inr ⟨.callDeepen, hnext, ?_, rfl, rfl, hagrees⟩⟩
      simp only [after, hpc, addressOf, width]
      omega
    | callDeepen hnext hm =>
      subst hm
      obtain ⟨hback, haddress, hdepth, hst⟩ := hagrees
      refine ⟨i + 1, rfl, .inr ⟨.callNote, hnext, hback, haddress, ?_, hst⟩⟩
      simp only [after, hdepth]
    | callNote hnext hm =>
      subst hm
      obtain ⟨hback, haddress, hdepth, hst⟩ := hagrees
      refine ⟨i + 1, rfl, .inr ⟨_, hnext, hback, ?_, hdepth, ?_⟩⟩
      · simp only [after, haddress, Function.update_self, hback]
      · rw [haddress]
        exact hst.update (Int.le_refl _) _
    | callJump hj hcaller hm =>
      subst hm
      obtain ⟨hback, hreturn, hdepth, hst⟩ := hagrees
      exact .of_entry rfl hj ⟨hdepth, hreturn, ⟨i + 1, hback, hcaller⟩, hst⟩
    | leaveRise hnext hm =>
      subst hm
      refine ⟨i + 1, rfl, .inr ⟨.leaveSelect, hnext, ?_⟩⟩
      have hdepth : m.depth - 1 + 1 = m.depth := by omega
      simp only [Agrees, after, hdepth]
      exact hagrees
    | leaveSelect hnext hm =>
      subst hm
      exact ⟨i + 1, rfl, .inr ⟨.leaveReturn, hnext, rfl, hagrees⟩⟩
    | leaveReturn hne hm =>
      subst hm
      obtain ⟨frame, rest, hframes, hreturn, -, ⟨j, hback, hj⟩, hrest⟩ := hagrees.return hne
      have hw : w.after m .leaveReturn = { w with frames := rest } := by rw [after, hframes]; rfl
      rw [hw]
      exact .of_entry (hreturn.trans hback) hj hrest

/-- **A whole run**, by induction on the steps. -/
theorem Matches.run (hl : Loaded F program) {chips : List Chip} (h : w.Matches F m)
    (hr : watchedRun F program chips w m = some (w', m')) : w'.Matches F m' := by
  induction chips generalizing w m with
  | nil =>
    cases hr
    exact h
  | cons chip chips ih =>
    obtain ⟨m₁, hs, hr⟩ := Option.bind_eq_some_iff.mp hr
    exact ih (h.step hl hs) hr

/-- What the invariant says of control. -/
theorem Matches.controlled (hl : Loaded F program) (h : w.Matches F m) :
    Controlled F program w m := by
  obtain ⟨i, hpc, hat⟩ := h
  have hlength : (F.marks none).length = program.length := by rw [length_marks, hl.length]
  have hle : i ≤ program.length := by
    rcases hat with ⟨rfl, -⟩ | ⟨role, hi, -⟩
    · exact Nat.le_of_eq hl.length.symm
    · rw [← hlength]
      exact Nat.le_of_lt (List.getElem?_eq_some_iff.mp hi).1
  have hmark : ∀ mark, fetch (F.marks none) m.pc = some mark →
      (F.marks none)[i]? = some mark ∧ w.owner = mark.owner ∧ w.Agrees F m i mark.role := by
    intro mark hfetch
    rw [hpc, fetch_addressOf] at hfetch
    rcases hat with ⟨rfl, -⟩ | ⟨role, hi, hagrees⟩
    · rw [List.getElem?_eq_none (Nat.le_of_eq (length_marks F none))] at hfetch
      cases hfetch
    · obtain rfl : ⟨w.owner, role⟩ = mark := Option.some.inj (hi.symm.trans hfetch)
      exact ⟨hi, rfl, hagrees⟩
  refine ⟨⟨i, hle, hpc⟩, fun hne chip => ?_, fun mark hfetch => (hmark mark hfetch).2.1, ?_,
    fun hend => ?_⟩
  · have hlt : i < program.length := by
      refine Nat.lt_of_le_of_ne hle fun he => hne ?_
      rw [hpc, he]
    refine ⟨chip.exec program[i] m, ?_⟩
    rw [Circuit.step, hpc, fetch_addressOf, List.getElem?_eq_getElem hlt]
    rfl
  · rintro ⟨owner, role⟩ hfetch rfl chip m' hs
    obtain ⟨hi, rfl, hagrees⟩ := hmark _ hfetch
    cases hl.moves hi hpc hs with
    | leaveReturn hne hm =>
      obtain ⟨frame, rest, hframes, hreturn, hdepth, -⟩ := hagrees.return hne
      rw [hm]
      exact ⟨frame, rest, hframes, hreturn, hdepth⟩
  · have hi : i = program.length := by
      have haddress : addressOf (i : Int) = addressOf program.length := hpc.symm.trans hend
      simp only [addressOf, width] at haddress
      omega
    rcases hat with ⟨-, hnil⟩ | ⟨role, hi', -⟩
    · exact hnil
    · have hlt := (List.getElem?_eq_some_iff.mp hi').1
      omega

/-- Before the first step no call is open, whatever the return addresses are. -/
theorem Matches.start (hl : Loaded F program) (hpc : m.pc = 0) : ({} : Watch).Matches F m :=
  .of_entry (j := 0) hpc hl.laid.entry trivial

end Watch

/-- **Control stays where it should be.** Let a fresh session assemble a text, and let the machine
start at the first instruction with any contents. However many steps it makes, and whatever the
chip computes at each of them, it is at an instruction or at the end; what it carries out belongs to
the definition that was called last and has not returned, which its name tells, or to none if there
is no such call; and a return goes right behind that call, at the depth before it. -/
theorem controlled_of_assembles {text source : String} {options : Options} {done : Session}
    (h : Assembles text options source done) :
    ∃ F program, Says text F.clauses ∧
      ((F.bodies 0).map (·.name)).Nodup ∧ done.Finished program ∧
      (F.marks none).length = program.length ∧
      ∀ (chips : List Chip) (start m : Cpu) (w : Watch), start.pc = 0 →
        watchedRun F program chips {} start = some (w, m) → Controlled F program w m := by
  obtain ⟨F, program, hsaid, -, hnames, hwords, hl⟩ := loaded_of_assembles h
  refine ⟨F, program, hsaid, hnames, hwords, by rw [length_marks, hl.length], ?_⟩
  intro chips start m w hpc hrun
  exact ((Watch.Matches.start hl hpc).run hl hrun).controlled hl

/-- After 35 steps the definition that counts has called itself twice, and none of the three calls
has returned. -/
theorem controlled_of_countingText :
    ∃ done, Assembles countingText {} "main" done ∧
      ∃ w m, watchedRun countingForest countingProgram (List.replicate 35 .integers) {}
          ⟨0, fun _ => 7, fun _ => 0, 3, 1, 4, 1, 5, 9⟩ = some (w, m) ∧
        w.frames.map (·.name) = ["f", "f", "f"] ∧
        Controlled countingForest countingProgram w m := by
  have hex : ∃ done, Assembles countingText {} "main" done :=
    exists_assembles_iff.mpr ⟨by decide, by decide +kernel⟩
  obtain ⟨done, h⟩ := hex
  obtain ⟨F, program, hsaid, -, hwords, -, hcontrol⟩ := controlled_of_assembles h
  obtain rfl := Forest.clauses_injective (hsaid.unique says_countingForest)
  obtain rfl := eq_countingProgram h hwords
  let start : Cpu := ⟨0, fun _ => 7, fun _ => 0, 3, 1, 4, 1, 5, 9⟩
  have hrun : ((watchedRun countingForest countingProgram (List.replicate 35 .integers) {}
      start).map fun x => x.1.frames.map (·.name)) = some ["f", "f", "f"] := by
    decide +kernel
  obtain ⟨⟨w, m⟩, hwm, hframes⟩ := Option.map_eq_some_iff.mp hrun
  exact ⟨done, h, w, m, hwm, hframes, hcontrol _ start m w rfl hwm⟩

end TapeMachine

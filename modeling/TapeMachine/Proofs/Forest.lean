import TapeMachine.Proofs.Clause

/-!
# Programs as forests

A program whose blocks are closed in the right order is a forest: simple statements and blocks, one
after the other, with a forest inside every block. `Forest.clauses` writes a forest out line by
line, and no two forests are written alike (`Forest.clauses_injective`).

`balanced` is the same notion as a check from left to right with a stack of open blocks.
`balanced_iff`: it accepts exactly the lines of the forests in which no block lies inside a block
of its own kind, at any depth (`Forest.Nests`).
-/

namespace TapeMachine

/-- A sequence of simple statements and blocks. -/
inductive Forest where
  | done
  | simple (s : Simple) (rest : Forest)
  | block (o : Opening) (body rest : Forest)
deriving DecidableEq, Repr

namespace Forest

/-- The lines of a forest, from the first to the last. -/
def clauses : Forest → List Clause
  | done => []
  | simple s rest => .simple s :: rest.clauses
  | block o body rest =>
    .opening o :: (body.clauses ++ .closing o.construct :: rest.clauses)

/-- No block lies inside a block of its own kind, nor inside one of the `outer` blocks if it is of
the same kind. -/
def Nests (outer : List Construct) : Forest → Prop
  | done => True
  | simple _ rest => rest.Nests outer
  | block o body rest =>
    o.construct ∉ outer ∧ body.Nests (o.construct :: outer) ∧ rest.Nests outer

end Forest

/-- Whether the lines close the open blocks, innermost first, and open no block of a kind that is
open already. -/
def balanced : List Construct → List Clause → Bool
  | stack, [] => stack.isEmpty
  | stack, .simple _ :: cs => balanced stack cs
  | stack, .opening o :: cs =>
    decide (o.construct ∉ stack) && balanced (o.construct :: stack) cs
  | [], .closing _ :: _ => false
  | top :: stack, .closing c :: cs => decide (top = c) && balanced stack cs

/-! ## The check accepts the lines of forests -/

/-- A forest leaves the stack as it was. -/
theorem balanced_clauses_append {F : Forest} {stack : List Construct} (h : F.Nests stack)
    (cs : List Clause) : balanced stack (F.clauses ++ cs) = balanced stack cs := by
  induction F generalizing stack cs with
  | done => rfl
  | simple s rest ih => exact ih h cs
  | block o body rest ihb ihr =>
    obtain ⟨ho, hb, hr⟩ := h
    simp only [Forest.clauses, List.cons_append, List.append_assoc, balanced]
    rw [ihb hb, balanced, ihr hr]
    simp [ho]

/-- Where the outermost forest ends: at the end of the lines, or at the line that closes the
innermost open block. -/
def Leaves (stack : List Construct) (rest : List Clause) : Prop :=
  (stack = [] ∧ rest = []) ∨
    ∃ c outer cs, stack = c :: outer ∧ rest = .closing c :: cs ∧ balanced outer cs = true

/-- What the check accepts starts with a forest. The induction is on the number of lines: a block
is followed by lines that are not a tail of the lines inside it. -/
theorem exists_forest_of_balanced (n : Nat) {stack : List Construct} {cs : List Clause}
    (hn : cs.length ≤ n) (h : balanced stack cs = true) :
    ∃ F rest, cs = Forest.clauses F ++ rest ∧ F.Nests stack ∧ Leaves stack rest := by
  induction n generalizing stack cs with
  | zero =>
    obtain rfl := List.length_eq_zero_iff.mp (Nat.le_zero.mp hn)
    refine ⟨.done, [], rfl, trivial, .inl ⟨?_, rfl⟩⟩
    simpa [balanced] using h
  | succ n ih =>
    match stack, cs with
    | stack, [] => exact ⟨.done, [], rfl, trivial, .inl ⟨by simpa [balanced] using h, rfl⟩⟩
    | stack, .simple s :: cs =>
      obtain ⟨F, rest, rfl, hF, hrest⟩ := ih (by simpa using hn) (by simpa [balanced] using h)
      exact ⟨.simple s F, rest, rfl, hF, hrest⟩
    | [], .closing c :: cs => simp [balanced] at h
    | top :: outer, .closing c :: cs =>
      simp only [balanced, Bool.and_eq_true, decide_eq_true_eq] at h
      obtain ⟨rfl, h⟩ := h
      exact ⟨.done, _, rfl, trivial, .inr ⟨top, outer, cs, rfl, rfl, h⟩⟩
    | stack, .opening o :: cs =>
      simp only [balanced, Bool.and_eq_true, decide_eq_true_eq] at h
      obtain ⟨ho, h⟩ := h
      obtain ⟨body, rest, rfl, hb, hrest⟩ := ih (by simpa using hn) h
      rcases hrest with ⟨hnil, -⟩ | ⟨c, outer, cs, hstack, rfl, hcs⟩
      · cases hnil
      · cases hstack
        obtain ⟨F, rest, rfl, hF, hrest⟩ := ih (by simp at hn ⊢; omega) hcs
        exact ⟨.block o body F, rest, by simp [Forest.clauses], ⟨ho, hb, hF⟩, hrest⟩

/-- **The check with a stack accepts exactly the lines of well-nested forests.** -/
theorem balanced_iff {cs : List Clause} :
    balanced [] cs = true ↔ ∃ F : Forest, F.clauses = cs ∧ F.Nests [] := by
  constructor
  · intro h
    obtain ⟨F, rest, rfl, hF, ⟨-, rfl⟩ | ⟨_, _, _, hnil, -⟩⟩ :=
      exists_forest_of_balanced cs.length (Nat.le_refl _) h
    · exact ⟨F, by simp, hF⟩
    · cases hnil
  · rintro ⟨F, rfl, hF⟩
    have h := balanced_clauses_append hF []
    rw [List.append_nil] at h
    rw [h]
    rfl

/-! ## A forest is determined by its lines -/

/-- Lines that do not go on with a forest: none, or a line that closes a block. -/
def Ends : List Clause → Prop
  | [] | .closing _ :: _ => True
  | _ => False

namespace Forest

/-- Two forests that are written alike, up to where they end, are equal. -/
theorem clauses_append_inj {F G : Forest} {rest rest' : List Clause} (hr : Ends rest)
    (hr' : Ends rest') (h : F.clauses ++ rest = G.clauses ++ rest') : F = G ∧ rest = rest' := by
  induction F generalizing G rest rest' with
  | done =>
    cases G with
    | done => exact ⟨rfl, h⟩
    | simple s G => simp only [clauses, List.nil_append] at h; simp [h, Ends] at hr
    | block o B G => simp only [clauses, List.nil_append] at h; simp [h, Ends] at hr
  | simple s F ih =>
    cases G with
    | done => simp only [clauses, List.nil_append] at h; simp [← h, Ends] at hr'
    | simple t G =>
      simp only [clauses, List.cons_append, List.cons.injEq, Clause.simple.injEq] at h
      obtain ⟨rfl, rfl⟩ := ih hr hr' h.2
      exact ⟨by rw [h.1], rfl⟩
    | block o B G => simp [clauses] at h
  | block o B F ihb ih =>
    cases G with
    | done => simp only [clauses, List.nil_append] at h; simp [← h, Ends] at hr'
    | simple t G => simp [clauses] at h
    | block p C G =>
      simp only [clauses, List.cons_append, List.append_assoc, List.cons.injEq,
        Clause.opening.injEq] at h
      obtain ⟨rfl, h⟩ := h
      obtain ⟨rfl, htail⟩ := ihb (by trivial) (by trivial) h
      obtain ⟨rfl, rfl⟩ := ih hr hr' (List.cons.inj htail).2
      exact ⟨rfl, rfl⟩

/-- **No two forests have the same lines.** -/
theorem clauses_injective : Function.Injective clauses := by
  intro F G h
  exact (@clauses_append_inj F G [] [] trivial trivial (by rw [h])).1

end Forest

end TapeMachine

import TapeMachine.Text.Blank

/-!
# Lines

A text is divided into lines at every line-break character; a carriage return followed by a line
feed is one break, and a break at the end of the text starts no further line. `unifyBreaks` is the
reading of a file in which each of the three common line ends becomes a line feed.
-/

namespace TapeMachine.Text

/-- The ranges of code points that end a line. -/
def breakRanges : List (Nat × Nat) :=
  [(0x0A, 0x0D), (0x1C, 0x1E), (0x85, 0x85), (0x2028, 0x2029)]

/-- Whether a character ends a line. -/
def isBreak (c : Char) : Bool := inRanges breakRanges c.toNat

/-- The lines of a text, without their breaks. -/
def lines : List Char → List (List Char)
  | [] => []
  | '\r' :: '\n' :: cs => [] :: lines cs
  | c :: cs => if isBreak c then [] :: lines cs else consHead c (lines cs)

/-- Every carriage return, with the line feed after it if there is one, becomes a line feed. -/
def unifyBreaks : List Char → List Char
  | [] => []
  | '\r' :: '\n' :: cs => '\n' :: unifyBreaks cs
  | c :: cs => (if c = '\r' then '\n' else c) :: unifyBreaks cs

/-- Whatever ends a line also separates words. -/
theorem isBlank_of_isBreak {c : Char} (h : isBreak c = true) : isBlank c = true := by
  simp [isBreak, isBlank, inRanges, breakRanges, blankRanges] at h ⊢
  omega

/-- A character that does not start a break of two characters. -/
theorem lines_cons {c : Char} {cs : List Char} (h : c = '\r' → cs.head? ≠ some '\n') :
    lines (c :: cs) = if isBreak c then [] :: lines cs else consHead c (lines cs) := by
  refine lines.eq_3 c cs fun ds hc hcs => ?_
  rw [hcs] at h
  exact h hc rfl

theorem lines_eq_nil_iff {cs : List Char} : lines cs = [] ↔ cs = [] := by
  constructor
  · intro h
    unfold lines at h
    split at h
    · rfl
    · cases h
    · split at h
      · cases h
      · unfold consHead at h
        split at h <;> cases h
  · rintro rfl
    rfl

theorem lines_cons_of_not_isBreak {c : Char} (h : isBreak c = false) (cs : List Char) :
    lines (c :: cs) = consHead c (lines cs) := by
  have hr : c ≠ '\r' := by
    rintro rfl
    exact absurd h (by decide)
  rw [lines_cons fun heq => absurd heq hr, if_neg (by simp [h])]

/-- A line, up to the line feed that ends it. -/
theorem lines_append {l cs : List Char} (h : ∀ c ∈ l, isBreak c = false) :
    lines (l ++ '\n' :: cs) = l :: lines cs := by
  induction l with
  | nil =>
    have hr : '\n' ≠ '\r' := by decide
    rw [List.nil_append, lines_cons fun heq => absurd heq hr]
    rfl
  | cons c l ih =>
    rw [List.cons_append, lines_cons_of_not_isBreak (h c List.mem_cons_self),
      ih fun x hx => h x (List.mem_cons_of_mem c hx)]
    rfl

/-- The last line, with no break behind it. -/
theorem lines_eq_singleton {l : List Char} (hne : l ≠ []) (h : ∀ c ∈ l, isBreak c = false) :
    lines l = [l] := by
  induction l with
  | nil => exact absurd rfl hne
  | cons c l ih =>
    rw [lines_cons_of_not_isBreak (h c List.mem_cons_self)]
    by_cases hl : l = []
    · subst hl
      rfl
    · rw [ih hl fun x hx => h x (List.mem_cons_of_mem c hx)]
      rfl

end TapeMachine.Text

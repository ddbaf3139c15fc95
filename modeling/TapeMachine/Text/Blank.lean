/-!
# Blanks and words

Statements are divided into words at blank characters. `isBlank` is the class of characters that
count as blank, `trim` takes blanks off both ends of a text, and `words` lists the maximal runs of
characters that are not blank.
-/

namespace TapeMachine.Text

/-- The ranges of code points that are blank: controls that space, and every Unicode space and
separator. Zero-width marks are not blank. -/
def blankRanges : List (Nat × Nat) :=
  [(0x09, 0x0D), (0x1C, 0x20), (0x85, 0x85), (0xA0, 0xA0), (0x1680, 0x1680), (0x2000, 0x200A),
   (0x2028, 0x2029), (0x202F, 0x202F), (0x205F, 0x205F), (0x3000, 0x3000)]

/-- Whether the code point lies in one of the ranges. -/
def inRanges (ranges : List (Nat × Nat)) (code : Nat) : Bool :=
  ranges.any fun r => decide (r.1 ≤ code) && decide (code ≤ r.2)

/-- Whether a character separates words. -/
def isBlank (c : Char) : Bool := inRanges blankRanges c.toNat

/-- Adds a character to the first of a list of pieces, or makes it a piece of its own. -/
def consHead (c : Char) : List (List Char) → List (List Char)
  | [] => [[c]]
  | w :: ws => (c :: w) :: ws

/-- Whether a word that stands before `cs` ends there. -/
def endsWord : List Char → Bool
  | [] => true
  | c :: _ => isBlank c

/-- The maximal runs of characters that are not blank, in order. -/
def words : List Char → List (List Char)
  | [] => []
  | c :: cs =>
    if isBlank c then words cs
    else if endsWord cs then [c] :: words cs
    else consHead c (words cs)

/-- The text without the characters of a class at its end. -/
def trimEnd (p : Char → Bool) : List Char → List Char
  | [] => []
  | c :: cs =>
    match trimEnd p cs with
    | [] => if p c then [] else [c]
    | d :: ds => c :: d :: ds

/-- The text without the characters of a class at either end. -/
def trimBy (p : Char → Bool) (cs : List Char) : List Char := trimEnd p (cs.dropWhile p)

/-- The text without blanks at either end. -/
def trim (cs : List Char) : List Char := trimBy isBlank cs

theorem mem_of_mem_consHead {c d : Char} {w : List Char} {ws : List (List Char)}
    (hw : w ∈ consHead c ws) (hd : d ∈ w) : d = c ∨ ∃ v ∈ ws, d ∈ v := by
  cases ws with
  | nil =>
    simp only [consHead, List.mem_singleton] at hw
    exact .inl (by simpa [hw] using hd)
  | cons v vs =>
    simp only [consHead, List.mem_cons] at hw
    rcases hw with rfl | hw
    · rcases List.mem_cons.mp hd with rfl | hd
      · exact .inl rfl
      · exact .inr ⟨v, by simp, hd⟩
    · exact .inr ⟨w, by simp [hw], hd⟩

theorem consHead_append {c : Char} {ws vs : List (List Char)} (h : ws ≠ []) :
    consHead c (ws ++ vs) = consHead c ws ++ vs := by
  cases ws with
  | nil => exact absurd rfl h
  | cons w ws => rfl

/-- The characters of a word are those of the text that are not blank. -/
theorem mem_of_mem_words {cs w : List Char} {c : Char} (hw : w ∈ words cs) (hc : c ∈ w) :
    c ∈ cs ∧ isBlank c = false := by
  induction cs generalizing w with
  | nil => simp [words] at hw
  | cons d ds ih =>
    have hrest : ∀ v ∈ words ds, c ∈ v → c ∈ d :: ds ∧ isBlank c = false :=
      fun v hv hcv => (ih hv hcv).imp_left (List.mem_cons_of_mem d)
    rw [words] at hw
    by_cases hd : isBlank d = true
    · rw [if_pos hd] at hw
      exact hrest w hw hc
    · rw [if_neg hd] at hw
      by_cases he : endsWord ds = true
      · rw [if_pos he, List.mem_cons] at hw
        rcases hw with rfl | hw
        · rw [List.mem_singleton.mp hc]
          exact ⟨List.mem_cons_self, by simpa using hd⟩
        · exact hrest w hw hc
      · rw [if_neg he] at hw
        rcases mem_of_mem_consHead hw hc with rfl | ⟨v, hv, hcv⟩
        · exact ⟨List.mem_cons_self, by simpa using hd⟩
        · exact hrest v hv hcv

theorem ne_nil_of_mem_words {cs w : List Char} (hw : w ∈ words cs) : w ≠ [] := by
  induction cs generalizing w with
  | nil => simp [words] at hw
  | cons d ds ih =>
    rw [words] at hw
    by_cases hd : isBlank d = true
    · rw [if_pos hd] at hw
      exact ih hw
    · rw [if_neg hd] at hw
      by_cases he : endsWord ds = true
      · rw [if_pos he, List.mem_cons] at hw
        rcases hw with rfl | hw
        · exact List.cons_ne_nil d []
        · exact ih hw
      · rw [if_neg he] at hw
        cases hws : words ds with
        | nil =>
          rw [hws, consHead, List.mem_singleton] at hw
          rw [hw]
          exact List.cons_ne_nil d []
        | cons v vs =>
          rw [hws, consHead, List.mem_cons] at hw
          rcases hw with rfl | hw
          · exact List.cons_ne_nil d v
          · exact ih (hws ▸ List.mem_cons_of_mem v hw)

/-- A word, up to where it ends. -/
theorem words_append {w cs : List Char} (hw : w ≠ []) (hb : ∀ c ∈ w, isBlank c = false)
    (he : endsWord cs = true) : words (w ++ cs) = w :: words cs := by
  induction w with
  | nil => exact absurd rfl hw
  | cons c w ih =>
    have hc : ¬ isBlank c = true := by simp [hb c List.mem_cons_self]
    rw [List.cons_append, words, if_neg hc]
    cases w with
    | nil => rw [List.nil_append, if_pos he]
    | cons d w =>
      have hd : ¬ endsWord (d :: w ++ cs) = true := by simp [endsWord, hb d (by simp)]
      rw [if_neg hd, ih (by simp) fun x hx => hb x (List.mem_cons_of_mem c hx)]
      rfl

theorem words_of_blank {cs : List Char} (h : ∀ c ∈ cs, isBlank c = true) : words cs = [] := by
  induction cs with
  | nil => rfl
  | cons c cs ih =>
    rw [words, if_pos (h c List.mem_cons_self)]
    exact ih fun x hx => h x (List.mem_cons_of_mem c hx)

theorem trimEnd_of_forall {p : Char → Bool} {cs : List Char} (h : ∀ c ∈ cs, p c = false) :
    trimEnd p cs = cs := by
  induction cs with
  | nil => rfl
  | cons c cs ih =>
    rw [trimEnd, ih fun d hd => h d (List.mem_cons_of_mem c hd)]
    cases cs with
    | nil => simp [h c List.mem_cons_self]
    | cons d ds => rfl

theorem trimBy_of_forall {p : Char → Bool} {cs : List Char} (h : ∀ c ∈ cs, p c = false) :
    trimBy p cs = cs := by
  have hdrop : cs.dropWhile p = cs := by
    cases cs with
    | nil => rfl
    | cons c cs => rw [List.dropWhile_cons_of_neg (by simp [h c List.mem_cons_self])]
  rw [trimBy, hdrop, trimEnd_of_forall h]

theorem trim_of_forall {cs : List Char} (h : ∀ c ∈ cs, isBlank c = false) :
    trim cs = cs := trimBy_of_forall h

theorem trimEnd_eq_nil {p : Char → Bool} {cs : List Char} (h : ∀ c ∈ cs, p c = true) :
    trimEnd p cs = [] := by
  induction cs with
  | nil => rfl
  | cons c cs ih =>
    rw [trimEnd, ih fun d hd => h d (List.mem_cons_of_mem c hd)]
    exact if_pos (h c List.mem_cons_self)

theorem trimEnd_append {p : Char → Bool} {cs ds : List Char} (hds : ∀ d ∈ ds, p d = true)
    (hcs : ∀ c, cs.getLast? = some c → p c = false) : trimEnd p (cs ++ ds) = cs := by
  induction cs with
  | nil => exact trimEnd_eq_nil hds
  | cons c cs ih =>
    cases cs with
    | nil =>
      rw [List.cons_append, List.nil_append, trimEnd, trimEnd_eq_nil hds]
      exact if_neg (by simp [hcs c rfl])
    | cons d cs =>
      have hrest := ih fun x hx => hcs x (by rw [List.getLast?_cons_cons, hx])
      rw [List.cons_append, trimEnd, hrest]

/-- A text with blanks around it, if it neither starts nor ends with one itself. -/
theorem trim_append {left cs right : List Char} {c : Char} (hleft : ∀ d ∈ left, isBlank d = true)
    (hright : ∀ d ∈ right, isBlank d = true) (hc : isBlank c = false)
    (hlast : ∀ d, (c :: cs).getLast? = some d → isBlank d = false) :
    trim (left ++ c :: cs ++ right) = c :: cs := by
  have hdrop : (left ++ c :: cs ++ right).dropWhile isBlank = c :: cs ++ right := by
    rw [List.append_assoc, List.dropWhile_append_of_pos hleft, List.cons_append,
      List.dropWhile_cons_of_neg (by simp [hc])]
  rw [trim, trimBy, hdrop, trimEnd_append hright hlast]

theorem trimEnd_sublist (p : Char → Bool) (cs : List Char) : (trimEnd p cs).Sublist cs := by
  induction cs with
  | nil => exact .refl _
  | cons c cs ih =>
    rw [trimEnd]
    cases hcs : trimEnd p cs with
    | nil =>
      dsimp only
      split
      · exact List.nil_sublist _
      · exact (List.nil_sublist cs).cons_cons c
    | cons d ds =>
      rw [hcs] at ih
      exact ih.cons_cons c

theorem mem_of_mem_trim {cs : List Char} {c : Char} (h : c ∈ trim cs) : c ∈ cs :=
  (List.dropWhile_sublist _).subset ((trimEnd_sublist _ _).subset h)

end TapeMachine.Text

import Mathlib.Data.List.Forall2
import Mathlib.Data.List.Infix
import TapeMachine.Statement

/-!
# How a text is divided into words

What a text says, before any of its words has a meaning: its lines, the comments on them, the words
of a line, the keywords among them, and the names. Each is a relation that speaks of characters and
their code points alone.

* `Text.lines_eq_iff`, `Text.words_eq_iff`: lines and words are those of the relations.
* `Source.holds_iff`: so are the statements of a text, with the numbers of their lines.
* `Keyword.ofWord?_eq_some_iff`: a word is a keyword if it spells it, in capitals or not.
* `isIdentifier_iff`: names.
-/

namespace TapeMachine

namespace Text

/-! ## Lines -/

/-- The character ends a line: line feed, vertical tab, form feed, carriage return, the separators
of files, groups and records, next line, and the separators of lines and of paragraphs. -/
def Breaks (c : Char) : Prop :=
  c.toNat ∈ [0x0A, 0x0B, 0x0C, 0x0D, 0x1C, 0x1D, 0x1E, 0x85, 0x2028, 0x2029]

theorem isBreak_iff {c : Char} : isBreak c = true ↔ Breaks c := by
  simp [isBreak, inRanges, breakRanges, Breaks]
  omega

theorem isBreak_eq_false_iff {c : Char} : isBreak c = false ↔ ¬ Breaks c := by
  rw [← isBreak_iff, Bool.not_eq_true]

/-- The text has these lines. Each line but the last ends with a break; a carriage return and a line
feed behind it are one break. -/
inductive Lines : List Char → List (List Char) → Prop
  | none : Lines [] []
  | last {line : List Char} (hne : line ≠ []) (hline : ∀ c ∈ line, ¬ Breaks c) : Lines line [line]
  | line {line rest : List Char} {c : Char} {lines : List (List Char)}
      (hline : ∀ c ∈ line, ¬ Breaks c) (hc : Breaks c)
      (hpair : c = '\r' → rest.head? ≠ some '\n') (h : Lines rest lines) :
      Lines (line ++ c :: rest) (line :: lines)
  | pair {line rest : List Char} {lines : List (List Char)} (hline : ∀ c ∈ line, ¬ Breaks c)
      (h : Lines rest lines) : Lines (line ++ '\r' :: '\n' :: rest) (line :: lines)

/-- The lines of a text that starts with a line whose break is already found. -/
theorem lines_append_of_lines_eq {line cs : List Char} {lines : List (List Char)}
    (hline : ∀ c ∈ line, ¬ Breaks c) (h : Text.lines cs = [] :: lines) :
    Text.lines (line ++ cs) = line :: lines := by
  induction line with
  | nil => exact h
  | cons c line ih =>
    have hc : isBreak c = false := isBreak_eq_false_iff.mpr (hline c List.mem_cons_self)
    rw [List.cons_append, lines_cons_of_not_isBreak hc,
      ih fun d hd => hline d (List.mem_cons_of_mem c hd)]
    rfl

theorem Lines.lines_eq {cs : List Char} {ls : List (List Char)} (h : Lines cs ls) :
    Text.lines cs = ls := by
  induction h with
  | none => rfl
  | last hne hline =>
    exact lines_eq_singleton hne fun c hc => isBreak_eq_false_iff.mpr (hline c hc)
  | line hline hc hpair _ ih =>
    refine lines_append_of_lines_eq hline ?_
    rw [lines_cons hpair, if_pos (isBreak_iff.mpr hc), ih]
  | pair hline _ ih =>
    refine lines_append_of_lines_eq hline ?_
    rw [Text.lines, ih]

/-- A character that ends no line belongs to the first line. -/
theorem Lines.consHead {c : Char} {cs : List Char} {ls : List (List Char)} (h : Lines cs ls)
    (hc : ¬ Breaks c) : Lines (c :: cs) (consHead c ls) := by
  have hmore : ∀ {line : List Char}, (∀ d ∈ line, ¬ Breaks d) → ∀ d ∈ c :: line, ¬ Breaks d :=
    fun hline => List.forall_mem_cons.mpr ⟨hc, hline⟩
  cases h with
  | none => exact .last (List.cons_ne_nil c []) (hmore (by simp))
  | last hne hline => exact .last (List.cons_ne_nil c cs) (hmore hline)
  | line hline hbreak hpair h => exact .line (hmore hline) hbreak hpair h
  | pair hline h => exact .pair (hmore hline) h

theorem lines_lines (cs : List Char) : Lines cs (Text.lines cs) := by
  induction cs using Text.lines.induct with
  | case1 => exact .none
  | case2 cs ih => exact @Lines.pair [] cs _ (by simp) ih
  | case3 c cs hpair hbreak ih =>
    rw [Text.lines.eq_3 c cs hpair, if_pos hbreak]
    refine @Lines.line [] cs c _ (by simp) (isBreak_iff.mp hbreak) (fun hc hhead => ?_) ih
    obtain ⟨rest, rfl⟩ := List.head?_eq_some_iff.mp hhead
    exact hpair rest hc rfl
  | case4 c cs hpair hbreak ih =>
    rw [Text.lines.eq_3 c cs hpair, if_neg hbreak]
    exact ih.consHead fun hc => hbreak (isBreak_iff.mpr hc)

/-- **The lines of a text.** -/
theorem lines_eq_iff {cs : List Char} {ls : List (List Char)} : Text.lines cs = ls ↔ Lines cs ls :=
  ⟨fun h => h ▸ lines_lines cs, Lines.lines_eq⟩

/-! ## Words -/

/-- The character separates words: the controls that space, the separators of files, groups, records
and units, and every space and separator of the standard. -/
def Blank (c : Char) : Prop :=
  c.toNat ∈ [0x09, 0x0A, 0x0B, 0x0C, 0x0D, 0x1C, 0x1D, 0x1E, 0x1F, 0x20, 0x85, 0xA0, 0x1680, 0x2000,
    0x2001, 0x2002, 0x2003, 0x2004, 0x2005, 0x2006, 0x2007, 0x2008, 0x2009, 0x200A, 0x2028, 0x2029,
    0x202F, 0x205F, 0x3000]

theorem isBlank_iff {c : Char} : isBlank c = true ↔ Blank c := by
  simp [isBlank, inRanges, blankRanges, Blank]
  omega

theorem isBlank_eq_false_iff {c : Char} : isBlank c = false ↔ ¬ Blank c := by
  rw [← isBlank_iff, Bool.not_eq_true]

/-- The characters are these words, with blanks before, between and behind them. -/
inductive Spaced : List Char → List (List Char) → Prop
  | none : Spaced [] []
  | blank {c : Char} {cs : List Char} {words : List (List Char)} (hc : Blank c)
      (h : Spaced cs words) : Spaced (c :: cs) words
  | word {word cs : List Char} {words : List (List Char)} (hne : word ≠ [])
      (hword : ∀ c ∈ word, ¬ Blank c) (hend : ∀ c, cs.head? = some c → Blank c)
      (h : Spaced cs words) : Spaced (word ++ cs) (word :: words)

theorem endsWord_iff {cs : List Char} :
    endsWord cs = true ↔ ∀ c, cs.head? = some c → Blank c := by
  cases cs with
  | nil => simp [endsWord]
  | cons c cs => simp [endsWord, isBlank_iff]

theorem Spaced.words_eq {cs : List Char} {ws : List (List Char)} (h : Spaced cs ws) :
    Text.words cs = ws := by
  induction h with
  | none => rfl
  | blank hc _ ih => rw [Text.words, if_pos (isBlank_iff.mpr hc), ih]
  | word hne hword hend _ ih =>
    rw [words_append hne (fun c hc => isBlank_eq_false_iff.mpr (hword c hc))
      (endsWord_iff.mpr hend), ih]

theorem spaced_words (cs : List Char) : Spaced cs (Text.words cs) := by
  induction cs with
  | nil => exact .none
  | cons c cs ih =>
    rw [Text.words]
    by_cases hc : isBlank c = true
    · rw [if_pos hc]
      exact .blank (isBlank_iff.mp hc) ih
    · have hsingle : ∀ d ∈ [c], ¬ Blank d := by simpa [← isBlank_iff] using hc
      rw [if_neg hc]
      by_cases hend : endsWord cs = true
      · rw [if_pos hend]
        exact .word (List.cons_ne_nil c []) hsingle (endsWord_iff.mp hend) ih
      · -- the word that starts here goes on, so the rest starts with the other part of it
        rw [if_neg hend]
        generalize Text.words cs = words at ih ⊢
        cases ih with
        | none => exact absurd rfl hend
        | blank hd h => exact absurd (isBlank_iff.mpr hd) hend
        | @word word _ _ hne hword hrest h =>
          have hmore : ∀ d ∈ c :: word, ¬ Blank d :=
            List.forall_mem_cons.mpr ⟨hsingle c List.mem_cons_self, hword⟩
          exact .word (List.cons_ne_nil c _) hmore hrest h

/-- **The words of a line.** -/
theorem words_eq_iff {cs : List Char} {ws : List (List Char)} : Text.words cs = ws ↔ Spaced cs ws :=
  ⟨fun h => h ▸ spaced_words cs, Spaced.words_eq⟩

/-- Words have no blanks in them. -/
theorem Spaced.not_blank {cs : List Char} {ws : List (List Char)} (h : Spaced cs ws) :
    ∀ word ∈ ws, ∀ c ∈ word, ¬ Blank c := by
  induction h with
  | none => simp
  | blank _ _ ih => exact ih
  | word _ hword _ _ ih => exact List.forall_mem_cons.mpr ⟨hword, ih⟩

end Text

/-! ## Statements of a text -/

namespace Source

/-- The line has these words in front of its comment, which starts at the first `#`. -/
def Worded (line : List Char) (words : List (List Char)) : Prop :=
  ∃ code, '#' ∉ code ∧ (line = code ∨ ∃ comment, line = code ++ '#' :: comment) ∧
    Text.Spaced code words

/-- The lines hold these statements; the first line has the given number. A line without words holds
none. -/
inductive Numbered : Nat → List (List Char) → List SourceLine → Prop
  | nil {number : Nat} : Numbered number [] []
  | skip {number : Nat} {line : List Char} {lines : List (List Char)} {statements : List SourceLine}
      (hline : Worded line []) (h : Numbered (number + 1) lines statements) :
      Numbered number (line :: lines) statements
  | statement {number : Nat} {line word : List Char} {words lines : List (List Char)}
      {statements : List SourceLine} (hline : Worded line (word :: words))
      (h : Numbered (number + 1) lines statements) :
      Numbered number (line :: lines)
        (⟨number, String.ofList word, words.map String.ofList⟩ :: statements)

/-- The text holds these statements, each with the number of its line, counted from one. -/
def Holds (text : String) (statements : List SourceLine) : Prop :=
  ∃ lines, Text.Lines text.toList lines ∧ Numbered 1 lines statements

/-- Where the comment of a line starts. -/
theorem uncommented_code (line : List Char) :
    '#' ∉ code line ∧ (line = code line ∨ ∃ comment, line = code line ++ '#' :: comment) := by
  induction line with
  | nil => exact ⟨List.not_mem_nil, .inl rfl⟩
  | cons c line ih =>
    by_cases hc : c = '#'
    · subst hc
      exact ⟨List.not_mem_nil, .inr ⟨line, rfl⟩⟩
    · have hcode : code (c :: line) = c :: code line :=
        List.takeWhile_cons_of_pos (by simpa using hc)
      rw [hcode]
      refine ⟨by simpa [eq_comm, hc] using ih.1, ih.2.imp (congrArg (c :: ·)) ?_⟩
      rintro ⟨comment, hline⟩
      exact ⟨comment, congrArg (c :: ·) hline⟩

theorem worded_iff {line : List Char} {words : List (List Char)} :
    Worded line words ↔ Text.words (code line) = words := by
  rw [Text.words_eq_iff]
  constructor
  · rintro ⟨cs, hcs, hline, hwords⟩
    have hall : ∀ c ∈ cs, decide (c ≠ '#') = true := by
      intro c hc
      exact decide_eq_true fun heq => hcs (heq ▸ hc)
    have hcode : code line = cs := by
      rcases hline with rfl | ⟨comment, rfl⟩
      · rw [code, ← List.append_nil line, List.takeWhile_append_of_pos hall, List.takeWhile_nil]
      · rw [code, List.takeWhile_append_of_pos hall, List.takeWhile_cons_of_neg (by simp),
          List.append_nil]
    rwa [hcode]
  · intro h
    obtain ⟨hcode, hline⟩ := uncommented_code line
    exact ⟨code line, hcode, hline, h⟩

theorem numbered_iff {number : Nat} {lines : List (List Char)} {statements : List SourceLine} :
    Numbered number lines statements ↔ statementsFrom number lines = statements := by
  constructor
  · intro h
    induction h with
    | nil => rfl
    | skip hline _ ih => simp [statementsFrom, statement?, worded_iff.mp hline, ih]
    | statement hline _ ih => simp [statementsFrom, statement?, worded_iff.mp hline, ih]
  · rintro rfl
    induction lines generalizing number with
    | nil => exact .nil
    | cons line lines ih =>
      cases hwords : Text.words (code line) with
      | nil =>
        simp only [statementsFrom, statement?, hwords, List.map_nil]
        exact .skip (worded_iff.mpr hwords) ih
      | cons word words =>
        simp only [statementsFrom, statement?, hwords, List.map_cons]
        exact .statement (worded_iff.mpr hwords) ih

/-- **The statements of a text.** -/
theorem holds_iff {text : String} {statements : List SourceLine} :
    Holds text statements ↔ Source.statements text = statements := by
  constructor
  · rintro ⟨lines, hlines, hnumbered⟩
    rw [Source.statements, Text.lines_eq_iff.mpr hlines]
    exact numbered_iff.mp hnumbered
  · exact fun h => ⟨_, Text.lines_lines _, numbered_iff.mpr h⟩

theorem Numbered.not_blank {number : Nat} {lines : List (List Char)}
    {statements : List SourceLine} (h : Numbered number lines statements) :
    ∀ line ∈ statements, ∀ word ∈ line.args, ∀ c ∈ word.toList, ¬ Text.Blank c := by
  induction h with
  | nil => simp
  | skip _ _ ih => exact ih
  | statement hline _ ih =>
    obtain ⟨code, -, -, hspaced⟩ := hline
    refine List.forall_mem_cons.mpr ⟨fun word hword => ?_, ih⟩
    obtain ⟨cs, hcs, rfl⟩ := List.mem_map.mp hword
    rw [String.toList_ofList]
    exact hspaced.not_blank cs (List.mem_cons_of_mem _ hcs)

/-- The words of a statement have no blanks in them. -/
theorem Holds.not_blank {text : String} {statements : List SourceLine}
    (h : Holds text statements) :
    ∀ line ∈ statements, ∀ word ∈ line.args, ∀ c ∈ word.toList, ¬ Text.Blank c := by
  obtain ⟨lines, -, hnumbered⟩ := h
  exact hnumbered.not_blank

end Source

/-! ## Capital letters -/

namespace Text

/-- One of the letters from A to Z. -/
def IsCapital (c : Char) : Prop := 65 ≤ c.toNat ∧ c.toNat ≤ 90

instance (c : Char) : Decidable (IsCapital c) := inferInstanceAs (Decidable (_ ∧ _))

/-- The character is a form of the capital letter: the letter itself or the small letter, and also
the long s for an S, the dotless i for an I. -/
def IsForm (capital c : Char) : Prop :=
  c = capital ∨ c.toNat = capital.toNat + 32 ∨ capital = 'S' ∧ c = 'ſ' ∨ capital = 'I' ∧ c = 'ı'

instance (capital c : Char) : Decidable (IsForm capital c) :=
  inferInstanceAs (Decidable (_ ∨ _ ∨ _ ∨ _))

/-- The rows of capitals with which the upper case of a single letter may start. -/
def ligatures : List (List Char) := [['S', 'S'], ['F', 'F'], ['F', 'I'], ['F', 'L'], ['S', 'T']]

theorem toUpper_eq_iff {a c : Char} (ha : IsCapital a) (hc : c.toNat < 0x80) :
    c.toUpper = a ↔ c = a ∨ c.toNat = a.toNat + 32 := by
  have htable : ∀ m < 26, ∀ n < 0x80,
      (Char.ofNat n).toUpper = Char.ofNat (65 + m) ↔ n = 65 + m ∨ n = 65 + m + 32 := by
    decide +kernel
  obtain ⟨m, hm⟩ := Nat.exists_eq_add_of_le ha.1
  have h := htable m (by have := ha.2; omega) c.toNat hc
  rw [← hm, Char.ofNat_toNat, Char.ofNat_toNat] at h
  rw [h, Char.toNat_inj]

theorem toNat_ofNat_of_ne_zero {n : Nat} (h : (Char.ofNat n).toNat ≠ 0) :
    (Char.ofNat n).toNat = n := by
  by_cases hn : n.isValidChar
  · rw [Char.ofNat, dif_pos hn]
    rfl
  · rw [Char.ofNat, dif_neg hn] at h
    exact absurd rfl h

/-- A letter whose upper case consists of capitals only is a form of one of them, or its upper case
starts with one of the rows. -/
theorem upperChar_of_isCapital {c : Char} (h : ∀ d ∈ upperChar c, IsCapital d) :
    (∃ a, upperChar c = [a] ∧ IsForm a c) ∨ ∃ l ∈ ligatures, l <+: upperChar c := by
  unfold upperChar at h ⊢
  by_cases hc : c.toNat < 0x80
  · rw [if_pos hc] at h ⊢
    have hcapital := h _ List.mem_cons_self
    exact .inl ⟨_, rfl, ((toUpper_eq_iff hcapital hc).mp rfl).imp_right .inl⟩
  · rw [if_neg hc] at h ⊢
    cases hlookup : expansions.lookup c.toNat with
    | some codes =>
      have htable : ∀ p ∈ expansions, (∀ n ∈ p.2, IsCapital (Char.ofNat n)) →
          ∃ l ∈ ligatures, l <+: p.2.map Char.ofNat := by
        decide +kernel
      obtain ⟨before, behind, hsplit, -⟩ := List.lookup_eq_some_iff.mp hlookup
      have hmem : (c.toNat, codes) ∈ expansions := by simp [hsplit]
      simp only [hlookup, List.forall_mem_map] at h
      exact .inr (htable _ hmem h)
    | none =>
      simp only [hlookup] at h ⊢
      cases hfind : caseRuns.find? (·.contains c.toNat) with
      | none =>
        simp only [hfind, List.forall_mem_singleton] at h
        exact absurd h.2 (by omega)
      | some r =>
        -- only two of the runs reach down to the letters from A to Z
        have htable : ∀ r ∈ caseRuns, 90 < (r.first : Int) + r.shift ∨
            r.first = 0x131 ∧ r.last = 0x131 ∧ r.shift = -232 ∨
            r.first = 0x17F ∧ r.last = 0x17F ∧ r.shift = -300 := by
          decide +kernel
        have hrange := List.find?_some hfind
        simp only [CaseRun.contains, Bool.and_eq_true, decide_eq_true_eq] at hrange
        simp only [hfind, List.forall_mem_singleton] at h ⊢
        have hcode := toNat_ofNat_of_ne_zero (Nat.ne_of_gt (Nat.lt_of_lt_of_le (by decide) h.1))
        unfold IsCapital at h
        rw [hcode] at h
        rcases htable r (List.mem_of_find?_eq_some hfind) with hr | ⟨hr, hr', hs⟩ | ⟨hr, hr', hs⟩
        · omega
        · have hletter : c = 'ı' := Char.toNat_inj.mp (show c.toNat = 0x131 by omega)
          subst hletter
          exact .inl ⟨'I', by rw [hs]; decide, by decide⟩
        · have hletter : c = 'ſ' := Char.toNat_inj.mp (show c.toNat = 0x17F by omega)
          subst hletter
          exact .inl ⟨'S', by rw [hs]; decide, by decide⟩

theorem upperChar_of_isForm {a c : Char} (ha : IsCapital a) (h : IsForm a c) :
    upperChar c = [a] := by
  have hlow : c = a ∨ c.toNat = a.toNat + 32 → upperChar c = [a] := by
    intro hform
    have hc : c.toNat < 0x80 := by
      have := ha.2
      rcases hform with rfl | hform <;> omega
    rw [upperChar, if_pos hc, (toUpper_eq_iff ha hc).mpr hform]
  rcases h with h | h | ⟨rfl, rfl⟩ | ⟨rfl, rfl⟩
  · exact hlow (.inl h)
  · exact hlow (.inr h)
  · decide +kernel
  · decide +kernel

/-- **Which texts have the given capitals for their upper case.** -/
theorem upper_eq_iff {cs w : List Char} (hcs : ∀ c ∈ cs, IsCapital c)
    (hrows : ∀ l ∈ ligatures, ¬ l <:+: cs) : upper w = cs ↔ List.Forall₂ IsForm cs w := by
  constructor
  · intro h
    induction w generalizing cs with
    | nil =>
      subst h
      exact .nil
    | cons c w ih =>
      have happend : upperChar c ++ upper w = cs := h
      have hcapital : ∀ d ∈ upperChar c, IsCapital d :=
        fun d hd => hcs d (happend ▸ List.mem_append_left _ hd)
      rcases upperChar_of_isCapital hcapital with ⟨a, ha, hform⟩ | ⟨l, hl, hprefix⟩
      · rw [ha] at happend
        subst happend
        exact .cons hform (ih (fun d hd => hcs d (List.mem_cons_of_mem a hd))
          (fun l hl hinside => hrows l hl (hinside.trans (List.suffix_cons a _).isInfix)) rfl)
      · exact absurd (happend ▸ hprefix.isInfix.trans (List.prefix_append _ _).isInfix)
          (hrows l hl)
  · intro h
    induction h with
    | nil => rfl
    | @cons a c cs w hform _ ih =>
      have hrest := ih (fun d hd => hcs d (List.mem_cons_of_mem a hd))
        fun l hl hinside => hrows l hl (hinside.trans (List.suffix_cons a cs).isInfix)
      calc upper (c :: w) = upperChar c ++ upper w := rfl
        _ = a :: cs := by rw [upperChar_of_isForm (hcs a List.mem_cons_self) hform, hrest]; rfl

end Text

/-! ## Keywords and names -/

namespace Keyword

/-- How a keyword is written in capitals. -/
def capitals : Keyword → String
  | set => "SET"
  | var => "VAR"
  | arithmetic .add => "ADD"
  | arithmetic .sub => "SUB"
  | arithmetic .and => "AND"
  | arithmetic .or => "OR"
  | arithmetic .xor => "XOR"
  | comparison .eq => "EQ"
  | comparison .neq => "NEQ"
  | comparison .sm => "SM"
  | comparison .smeq => "SMEQ"
  | comparison .gr => "GR"
  | comparison .greq => "GREQ"
  | constant .always => "AW"
  | constant .never => "NV"
  | define => "DEF"
  | endDefine => "ENDDEF"
  | call => "CALL"
  | branch .conditional => "IF"
  | endBranch .conditional => "ENDIF"
  | branch .loop => "WHILE"
  | endBranch .loop => "ENDWHILE"

/-- The word is the keyword, each letter of it a capital or not. -/
def Spelled (k : Keyword) (word : String) : Prop :=
  List.Forall₂ Text.IsForm k.capitals.toList word.toList

instance (k : Keyword) (word : String) : Decidable (k.Spelled word) :=
  inferInstanceAs (Decidable (List.Forall₂ _ _ _))

theorem mem_all (k : Keyword) : k ∈ all := by
  cases k with
  | arithmetic op => cases op <;> simp [all]
  | comparison c => cases c <;> simp [all]
  | constant c => cases c <;> simp [all]
  | branch kind => cases kind <;> simp [all]
  | endBranch kind => cases kind <;> simp [all]
  | _ => simp [all]

/-- No two keywords are written alike. -/
theorem find?_capitals (k : Keyword) :
    k.spelling = k.capitals ∧
      all.find? (fun k' => k'.spelling.toList = k.capitals.toList) = some k := by
  have htable : ∀ k ∈ all, k.spelling = k.capitals ∧
      all.find? (fun k' => k'.spelling.toList = k.capitals.toList) = some k := by
    decide +kernel
  exact htable k (mem_all k)

/-- Keywords are made of capital letters that belong together in no other letter. -/
theorem isCapital_of_mem_capitals (k : Keyword) :
    (∀ c ∈ k.capitals.toList, Text.IsCapital c) ∧
      ∀ l ∈ Text.ligatures, ¬ l <:+: k.capitals.toList := by
  have htable : ∀ k ∈ all, k.capitals.toList.all (fun c => decide (Text.IsCapital c)) = true ∧
      Text.ligatures.all (fun l => !decide (l <:+: k.capitals.toList)) = true := by
    decide +kernel
  simpa using htable k (mem_all k)

/-- **A word is the keyword that it spells.** -/
theorem ofWord?_eq_some_iff {word : String} {k : Keyword} :
    ofWord? word = some k ↔ k.Spelled word := by
  obtain ⟨hcapital, hrows⟩ := isCapital_of_mem_capitals k
  rw [Spelled, ← Text.upper_eq_iff hcapital hrows]
  constructor
  · intro h
    have hspelling := List.find?_some h
    rw [decide_eq_true_eq] at hspelling
    rw [← hspelling, (find?_capitals k).1]
  · intro h
    rw [ofWord?, h]
    exact (find?_capitals k).2

end Keyword

/-- The text is a letter or an underscore, and then letters, digits and underscores. -/
inductive IsName : List Char → Prop
  | intro {c : Char} {cs : List Char}
      (hc : ('A' ≤ c ∧ c ≤ 'Z') ∨ ('a' ≤ c ∧ c ≤ 'z') ∨ c = '_')
      (hcs : ∀ d ∈ cs,
        ('A' ≤ d ∧ d ≤ 'Z') ∨ ('a' ≤ d ∧ d ≤ 'z') ∨ ('0' ≤ d ∧ d ≤ '9') ∨ d = '_') :
      IsName (c :: cs)

theorem isIdentifier_iff {name : List Char} : isIdentifier name = true ↔ IsName name := by
  have hstart : ∀ c, isIdentStart c = true ↔
      ('A' ≤ c ∧ c ≤ 'Z') ∨ ('a' ≤ c ∧ c ≤ 'z') ∨ c = '_' := by
    intro c
    delta isIdentStart Char.isAlpha Char.isUpper Char.isLower
    simp only [Bool.or_eq_true, Bool.and_eq_true, decide_eq_true_eq, or_assoc, Char.le_def]
  have hrest : ∀ c, isIdentRest c = true ↔
      ('A' ≤ c ∧ c ≤ 'Z') ∨ ('a' ≤ c ∧ c ≤ 'z') ∨ ('0' ≤ c ∧ c ≤ '9') ∨ c = '_' := by
    intro c
    delta isIdentRest Char.isAlphanum Char.isAlpha Char.isUpper Char.isLower Char.isDigit
    simp only [Bool.or_eq_true, Bool.and_eq_true, decide_eq_true_eq, or_assoc, Char.le_def]
  constructor
  · intro h
    cases name with
    | nil => cases h
    | cons c cs =>
      simp only [isIdentifier, Bool.and_eq_true, List.all_eq_true, hstart, hrest] at h
      exact .intro h.1 h.2
  · rintro ⟨hc, hcs⟩
    simp only [isIdentifier, Bool.and_eq_true, List.all_eq_true, hstart, hrest]
    exact ⟨hc, hcs⟩

end TapeMachine

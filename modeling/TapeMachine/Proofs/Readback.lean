import TapeMachine.Proofs.Processor
import TapeMachine.Proofs.Extension

/-!
# Reading a listing back

A line of a listing is four numbers, and perhaps a comment behind a mark. Whoever knows that
comments start with `#` gets the numbers back, and from the first of them the opcode.

* `ofLine?_line`: the words of a line are those that it was written from.
* `lines_joinLines`: a listing that is written as one text falls into its lines again.
* `legible_gen`: whatever is generated can be read back. A comment quotes words of the program,
  which have no line break in them.
* `readback_of_assembles`: the listing of a text gives its instructions back, but for the comments.
-/

namespace TapeMachine

/-! ## Numbers -/

theorem toString_string (text : String) : toString text = text := rfl

/-- The number that digits stand for. -/
def natural? (ds : List Char) : Option Nat :=
  if ds ≠ [] ∧ ds.all Char.isDigit then some (Nat.ofDigitChars 10 ds 0) else none

/-- The number that a decimal numeral stands for. -/
def integer? : List Char → Option Int
  | '-' :: ds => (natural? ds).map fun n => -(n : Int)
  | ds => (natural? ds).map fun n => (n : Int)

theorem natural?_toDigits (n : Nat) : natural? (Nat.toDigits 10 n) = some n := by
  have hdigits : (Nat.toDigits 10 n).all Char.isDigit = true := by
    rw [List.all_eq_true]
    exact fun c hc => Nat.isDigit_of_mem_toDigits (by decide) (by decide) hc
  rw [natural?, if_pos ⟨Nat.toDigits_ne_nil, hdigits⟩, Nat.ofDigitChars_ten_toDigits]

theorem toList_repr_ofNat (n : Nat) : (Int.ofNat n).repr.toList = Nat.toDigits 10 n := by
  simp [Int.repr]

theorem toList_repr_negSucc (n : Nat) :
    (Int.negSucc n).repr.toList = '-' :: Nat.toDigits 10 (n + 1) := by
  simp [Int.repr]

/-- **A numeral gives its number back.** -/
theorem integer?_repr (n : Int) : integer? n.repr.toList = some n := by
  cases n with
  | ofNat n =>
    have hsign : ∀ ds, Nat.toDigits 10 n ≠ '-' :: ds := by
      intro ds h
      have hdigit : '-'.isDigit = true :=
        Nat.isDigit_of_mem_toDigits (b := 10) (n := n) (by decide) (by decide) (by simp [h])
      exact absurd hdigit (by decide)
    rw [toList_repr_ofNat, integer?, natural?_toDigits]
    · rfl
    · exact fun ds h => hsign ds h
  | negSucc n =>
    rw [toList_repr_negSucc, integer?, natural?_toDigits]
    rfl

theorem repr_ne_nil (n : Int) : n.repr.toList ≠ [] := by
  cases n with
  | ofNat n =>
    rw [toList_repr_ofNat]
    exact Nat.toDigits_ne_nil
  | negSucc n =>
    rw [toList_repr_negSucc]
    exact List.cons_ne_nil _ _

theorem mem_repr {n : Int} {c : Char} (h : c ∈ n.repr.toList) :
    c = '-' ∨ c.isDigit = true := by
  have hdigit : ∀ m, c ∈ Nat.toDigits 10 m → c.isDigit = true :=
    fun m hc => Nat.isDigit_of_mem_toDigits (by decide) (by decide) hc
  cases n with
  | ofNat n =>
    rw [toList_repr_ofNat] at h
    exact .inr (hdigit n h)
  | negSucc n =>
    rw [toList_repr_negSucc, List.mem_cons] at h
    exact h.imp_right (hdigit (n + 1))

theorem isBlank_of_isDigit {c : Char} (h : c.isDigit = true) : Text.isBlank c = false := by
  obtain ⟨hlo, hhi⟩ : 48 ≤ c.toNat ∧ c.toNat ≤ 57 := by
    simpa [Char.isDigit, UInt32.le_iff_toNat_le] using h
  simp [Text.isBlank, Text.inRanges, Text.blankRanges]
  omega

/-- A numeral is part of one word, and nothing in it starts a comment. -/
theorem plain_of_mem_repr {n : Int} {c : Char} (h : c ∈ n.repr.toList) :
    Text.isBlank c = false ∧ c ≠ '#' := by
  rcases mem_repr h with rfl | hd
  · decide
  · refine ⟨isBlank_of_isDigit hd, ?_⟩
    rintro rfl
    exact absurd hd (by decide)

/-! ## Lines -/

/-- The words on a line: what stands before `#`, divided at blanks, has to be four numbers. -/
def Words.ofLine? (line : String) : Option Words :=
  match (Text.words (Source.code line.toList)).mapM integer? with
  | some [opcode, a, b, destination] => some ⟨opcode, a, b, destination⟩
  | _ => none

/-- The text stays on one line. -/
def Unbroken (text : String) : Prop := ∀ c ∈ text.toList, Text.isBreak c = false

instance (text : String) : Decidable (Unbroken text) :=
  List.decidableBAll (fun c => Text.isBreak c = false) text.toList

@[simp] theorem unbroken_append {text rest : String} :
    Unbroken (text ++ rest) ↔ Unbroken text ∧ Unbroken rest := by
  simp [Unbroken, or_imp, forall_and]

theorem unbroken_of_not_blank {text : String} (h : ∀ c ∈ text.toList, Text.isBlank c = false) :
    Unbroken text := by
  intro c hc
  by_contra hbreak
  have hblank := Text.isBlank_of_isBreak (by simpa using hbreak)
  rw [h c hc] at hblank
  cases hblank

@[simp] theorem unbroken_repr (n : Int) : Unbroken n.repr :=
  unbroken_of_not_blank fun _ hc => (plain_of_mem_repr hc).1

/-- The words of a line can be told from its comment: there is none, or what stands before it is
`#`, with anything behind it but a line break, and blanks before it. -/
def Style.Readable (style : Style) : Prop :=
  style.comments = true →
    (style.mark.toList.dropWhile Text.isBlank).head? = some '#' ∧ Unbroken style.mark

instance (style : Style) : Decidable style.Readable :=
  inferInstanceAs (Decidable (_ → _))

theorem code_append {cs ds : List Char} (h : ∀ c ∈ cs, c ≠ '#') :
    Source.code (cs ++ ds) = cs ++ Source.code ds := by
  unfold Source.code
  exact List.takeWhile_append_of_pos (by simpa using h)

/-- Of a comment there is nothing left but blanks. -/
theorem code_mark {mark : List Char} (h : (mark.dropWhile Text.isBlank).head? = some '#')
    (rest : List Char) : ∀ c ∈ Source.code (mark ++ rest), Text.isBlank c = true := by
  have hblank : ∀ c ∈ mark.takeWhile Text.isBlank, Text.isBlank c = true :=
    List.all_eq_true.mp List.all_takeWhile
  have hplain : ∀ c ∈ mark.takeWhile Text.isBlank, c ≠ '#' := by
    rintro c hc rfl
    exact absurd (hblank _ hc) (by decide)
  obtain ⟨behind, hbehind⟩ : ∃ behind, mark.dropWhile Text.isBlank = '#' :: behind :=
    List.head?_eq_some_iff.mp h
  have hcode : Source.code (mark ++ rest) = mark.takeWhile Text.isBlank := by
    conv_lhs => rw [← List.takeWhile_append_dropWhile (p := Text.isBlank) (l := mark)]
    rw [hbehind, List.append_assoc, code_append hplain]
    simp [Source.code]
  rw [hcode]
  exact hblank

/-- What stands before the comment of a line: the words, and perhaps blanks. -/
theorem code_line {style : Style} (h : style.Readable) (w : Words) (index : Int)
    (comment : String) :
    ∃ blanks, (∀ c ∈ blanks, Text.isBlank c = true) ∧
      Source.code (w.line style index comment).toList =
        w.opcode.repr.toList ++ ' ' :: (w.a.repr.toList ++ ' ' ::
          (w.b.repr.toList ++ ' ' :: (w.destination.repr.toList ++ blanks))) := by
  have hnumber : ∀ (n : Int) (cs : List Char),
      Source.code (n.repr.toList ++ cs) = n.repr.toList ++ Source.code cs :=
    fun n cs => code_append fun c hc => (plain_of_mem_repr hc).2
  have hspace : ∀ cs : List Char, Source.code (' ' :: cs) = ' ' :: Source.code cs := by
    intro cs
    simp [Source.code]
  refine ⟨Source.code (if style.comments then
      style.mark.toList ++ ((if style.numbered then addressList index else "") ++ comment).toList
    else []), ?_, ?_⟩
  · by_cases hc : style.comments = true
    · rw [if_pos hc]
      exact code_mark (h hc).1 _
    · rw [if_neg hc]
      exact fun c hmem => absurd hmem List.not_mem_nil
  · have hline : (w.line style index comment).toList =
        w.opcode.repr.toList ++ ' ' :: (w.a.repr.toList ++ ' ' ::
          (w.b.repr.toList ++ ' ' :: (w.destination.repr.toList ++
            if style.comments then
              style.mark.toList ++
                ((if style.numbered then addressList index else "") ++ comment).toList
            else []))) := by
      unfold Words.line
      by_cases hc : style.comments = true <;> simp [hc, toString_string]
    rw [hline]
    simp only [hnumber, hspace]

/-- **The words of a line are those that it was written from.** -/
theorem ofLine?_line {style : Style} (h : style.Readable) (w : Words) (index : Int)
    (comment : String) : Words.ofLine? (w.line style index comment) = some w := by
  obtain ⟨blanks, hblanks, hcode⟩ := code_line h w index comment
  have hword : ∀ (n : Int) (cs : List Char), Text.endsWord cs = true →
      Text.words (n.repr.toList ++ cs) = n.repr.toList :: Text.words cs :=
    fun n cs he => Text.words_append (repr_ne_nil n)
      (fun c hc => (plain_of_mem_repr hc).1) he
  have hspace : ∀ cs : List Char, Text.words (' ' :: cs) = Text.words cs := fun cs => rfl
  have hend : Text.endsWord blanks = true := by
    cases blanks with
    | nil => rfl
    | cons c cs => exact hblanks c List.mem_cons_self
  have hwords : Text.words (Source.code (w.line style index comment).toList) =
      [w.opcode, w.a, w.b, w.destination].map fun n => n.repr.toList := by
    rw [hcode, hword _ _ rfl, hspace, hword _ _ rfl, hspace, hword _ _ rfl, hspace,
      hword _ _ hend, Text.words_of_blank hblanks]
    rfl
  rw [Words.ofLine?, hwords]
  simp [integer?_repr]

theorem line_ne_empty (w : Words) (style : Style) (index : Int) (comment : String) :
    (w.line style index comment).toList ≠ [] := by
  have hopcode : w.opcode.repr ≠ "" := by simpa using repr_ne_nil w.opcode
  simp [Words.line, hopcode]

theorem unbroken_line {style : Style} (h : style.Readable) (w : Words) (index : Int)
    {comment : String} (hc : Unbroken comment) : Unbroken (w.line style index comment) := by
  have haddresses : Unbroken (addressList index) := by
    simp +decide [addressList, toString_string]
  unfold Words.line
  by_cases hcomments : style.comments = true
  · by_cases hnumbered : style.numbered = true
    · simp +decide [hcomments, hnumbered, toString_string, haddresses, hc, (h hcomments).2]
    · simp +decide [hcomments, hnumbered, toString_string, hc, (h hcomments).2]
  · simp +decide [hcomments, toString_string]

theorem toList_joinLines_cons (l m : String) (ls : List String) :
    (joinLines (l :: m :: ls)).toList = l.toList ++ '\n' :: (joinLines (m :: ls)).toList := by
  simp [joinLines]

/-- **Lines that are written as one text are its lines.** -/
theorem lines_joinLines {ls : List String} (h : ∀ l ∈ ls, l.toList ≠ [] ∧ Unbroken l) :
    Text.lines (joinLines ls).toList = ls.map String.toList := by
  induction ls with
  | nil => rfl
  | cons l ls ih =>
    obtain ⟨hne, hl⟩ := h l List.mem_cons_self
    cases ls with
    | nil =>
      rw [joinLines, String.intercalate_singleton, Text.lines_eq_singleton hne hl]
      rfl
    | cons m ls =>
      rw [toList_joinLines_cons, Text.lines_append hl,
        ih fun x hx => h x (List.mem_cons_of_mem l hx)]
      rfl

/-! ## What is generated can be read back -/

section Legible

/-- The words of a condition that are no keywords. -/
def Condition.tokens : Condition → List String
  | .compare _ left right => [left, right]
  | .constant _ => []

/-- The words of a line that are no keywords. -/
def Clause.tokens : Clause → List String
  | .simple (.assign destination source) => [destination, source]
  | .simple (.combine _ left right destination) => [left, right, destination]
  | .simple (.compare _ left right destination) => [left, right, destination]
  | .simple (.constant _ destination) => [destination]
  | .simple (.call name) => [name]
  | .opening (.define name) => [name]
  | .opening (.branch _ condition) => condition.tokens
  | .closing _ => []

theorem Reads.tokens_subset {word : String} {words : List String} {c : Clause}
    (h : Reads word words c) : c.tokens ⊆ words := by
  cases h with
  | branch _ hc => cases hc <;> simp [Clause.tokens, Condition.tokens]
  | _ => simp [Clause.tokens]

/-- A word has a character, and none that is blank or starts a comment. -/
def Plain (word : String) : Prop :=
  word.toList ≠ [] ∧ ∀ c ∈ word.toList, Text.isBlank c = false ∧ c ≠ '#'

theorem plain_of_statement? {n : Nat} {l : List Char} {line : SourceLine} {word : String}
    (h : Source.statement? n l = some line) (hw : word ∈ line.head :: line.args) : Plain word := by
  have hmem : word ∈ (Text.words (Source.code l)).map String.ofList := by
    unfold Source.statement? at h
    split at h
    · cases h
    · rename_i head args hmap
      cases h
      rwa [hmap]
  obtain ⟨w, hword, rfl⟩ := List.mem_map.mp hmem
  rw [Plain, String.toList_ofList]
  refine ⟨Text.ne_nil_of_mem_words hword, fun c hc => ?_⟩
  obtain ⟨hcode, hblank⟩ := Text.mem_of_mem_words hword hc
  have hplain := List.all_eq_true.mp List.all_takeWhile c hcode
  exact ⟨hblank, by simpa using hplain⟩

/-- The words of a statement stay on one line. -/
theorem unbroken_of_mem_args {text : String} {line : SourceLine} {word : String}
    (hline : line ∈ Source.statements text) (hword : word ∈ line.args) : Unbroken word := by
  obtain ⟨before, behind, hsplit⟩ := List.append_of_mem hline
  obtain ⟨k, l, -, hstatement, -⟩ := statementsFrom_eq_append_cons hsplit
  have hplain := plain_of_statement? hstatement (List.mem_cons_of_mem _ hword)
  exact unbroken_of_not_blank fun c hc => (hplain.2 c hc).1

variable {L : Type}

/-- The comment stays on its line, and the opcode can be read off its number. -/
structure Instruction.Legible (i : Instruction L) : Prop where
  comment : Unbroken i.comment
  opcode : Opcode.decode i.opcode.encode = i.opcode

/-- All instructions can be read back. -/
def Legible (code : List (Instruction L)) : Prop := ∀ i ∈ code, i.Legible

@[simp] theorem legible_nil : Legible ([] : List (Instruction L)) := by
  simp [Legible]

@[simp] theorem legible_cons {i : Instruction L} {code : List (Instruction L)} :
    Legible (i :: code) ↔ i.Legible ∧ Legible code := by
  simp [Legible]

@[simp] theorem legible_append {code code' : List (Instruction L)} :
    Legible (code ++ code') ↔ Legible code ∧ Legible code' := by
  simp [Legible, or_imp, forall_and]

theorem legible_alu {comment : String} (h : Unbroken comment) (op : AluOp)
    (immediate0 immediate1 : Bool) (a b destination : Slot L) :
    (⟨.alu op immediate0 immediate1, a, b, destination, comment⟩ : Instruction L).Legible where
  comment := h
  opcode := Opcode.decode_encode_alu op immediate0 immediate1

theorem legible_selectCell {role : String} (h : Unbroken role) (address : Int) :
    (Code.selectCell address role : Instruction L).Legible :=
  legible_alu (by simp +decide [toString_string, h]) _ _ _ _ _ _

theorem legible_jump {comment : String} (h : Unbroken comment) (target : Slot L) :
    (Code.jump target comment).Legible :=
  legible_alu h _ _ _ _ _ _

theorem legible_stageFirst {role : String} (h : Unbroken role) (address : Int) :
    Legible (Code.stageFirst address role : List (Instruction L)) := by
  refine legible_cons.mpr ⟨legible_selectCell h address, legible_cons.mpr ⟨?_, legible_nil⟩⟩
  exact legible_alu (by simp +decide [toString_string, h]) _ _ _ _ _ _

theorem legible_stageSecond {role : String} (h : Unbroken role) (address : Int) :
    Legible (Code.stageSecond address role : List (Instruction L)) := by
  refine legible_cons.mpr ⟨legible_selectCell h address, legible_cons.mpr ⟨?_, legible_nil⟩⟩
  exact legible_alu (by simp +decide [toString_string, h]) _ _ _ _ _ _

theorem legible_staging (left right : Value) :
    Legible (Code.staging left right : List (Instruction L)) := by
  have hfirst : Unbroken "first" := by decide
  have hsecond : Unbroken "second" := by decide
  cases left <;> cases right <;>
    simp [Code.staging, legible_stageFirst, legible_stageSecond, hfirst, hsecond]

theorem legible_assign {comment : String} (h : Unbroken comment) (cell : Int) (value : Value) :
    Legible (Code.assign cell value comment : List (Instruction L)) := by
  have hrole : Unbroken "destination" := by decide
  refine legible_cons.mpr ⟨legible_selectCell hrole cell, legible_cons.mpr ⟨?_, legible_nil⟩⟩
  exact legible_alu h _ _ _ _ _ _

/-- The opcodes that are combined with operands: what they are is known before their flags. -/
inductive Opcode.Combines : Opcode → Prop
  | alu (op : AluOp) : Combines (.alu op)
  | condition (p : Predicate) (jump : Bool) : Combines (.condition p jump)

theorem legible_combineInto {opcode : Opcode} (ho : opcode.Combines) {comment : String}
    (h : Unbroken comment) (left right : Value) (destination : Slot L) :
    (Code.combineInto opcode left right destination comment).Legible where
  comment := h
  opcode := by
    cases ho with
    | alu op => exact Opcode.decode_encode_alu op _ _
    | condition p jump => exact Opcode.decode_encode_condition p jump _ _

theorem legible_store {opcode : Opcode} (ho : opcode.Combines) {comment : String}
    (h : Unbroken comment) (left right : Value) (cell : Int) :
    Legible (Code.store opcode left right cell comment : List (Instruction L)) := by
  have hrole : Unbroken "result" := by decide
  rw [Code.store, legible_append, legible_cons, legible_cons]
  exact ⟨legible_staging left right, legible_selectCell hrole cell,
    legible_combineInto ho h left right _, legible_nil⟩

theorem legible_branch {comment : String} (h : Unbroken comment) (p : Predicate)
    (left right : Value) (target : Slot L) :
    Legible (Code.branch p left right target comment) := by
  rw [Code.branch, legible_append, legible_cons]
  exact ⟨legible_staging left right, legible_combineInto (.condition p true) h left right target,
    legible_nil⟩

theorem legible_selectReturn : (Code.selectReturn : Instruction L).Legible :=
  legible_alu (by decide) _ _ _ _ _ _

theorem legible_call {name : String} (h : Unbroken name) (index : Nat) (start : Int) :
    Legible (Code.call index start name : List (Instruction L)) := by
  have hcomment : Unbroken s!"Jump to the start of {name}" := by
    simp +decide [toString_string, h]
  simp only [Code.call, legible_cons, legible_nil, and_true]
  exact ⟨legible_selectReturn, legible_alu (by decide) _ _ _ _ _ _,
    legible_alu (by decide) _ _ _ _ _ _, legible_jump hcomment _⟩

theorem legible_epilogue : Legible (Code.epilogue : List (Instruction L)) := by
  simp only [Code.epilogue, legible_cons, legible_nil, and_true]
  exact ⟨legible_alu (by decide) _ _ _ _ _ _, legible_selectReturn,
    legible_alu (by decide) _ _ _ _ _ _⟩

variable (lay : Layout) (scope : Option String)

theorem legible_simple_code {s : Simple} (h : ∀ t ∈ (Clause.simple s).tokens, Unbroken t)
    (index : Nat) : Legible (s.code lay scope index : List (Instruction L)) := by
  rw [Simple.code_eq_template]
  cases s with
  | assign d src =>
    obtain ⟨hd, hs⟩ : Unbroken d ∧ Unbroken src := by simpa [Clause.tokens] using h
    exact legible_assign (by simp +decide [toString_string, hd, hs]) _ _
  | combine op l r d =>
    obtain ⟨hl, hr, hd⟩ : Unbroken l ∧ Unbroken r ∧ Unbroken d := by
      simpa [Clause.tokens] using h
    have hsymbol : Unbroken op.symbol := by cases op <;> decide
    exact legible_store (.alu op.op) (by simp +decide [toString_string, hl, hr, hd, hsymbol]) _ _ _
  | compare c l r d =>
    obtain ⟨hl, hr, hd⟩ : Unbroken l ∧ Unbroken r ∧ Unbroken d := by
      simpa [Clause.tokens] using h
    have hsymbol : Unbroken c.symbol := by cases c <;> decide
    exact legible_store (.condition c.predicate false)
      (by simp +decide [toString_string, hl, hr, hd, hsymbol]) _ _ _
  | constant c d =>
    have hd : Unbroken d := by simpa [Clause.tokens] using h
    have hword : Unbroken c.word := by cases c <;> decide
    exact legible_store (.condition c.predicate false)
      (by simp +decide [toString_string, hd, hword]) _ _ _
  | call name => exact legible_call (by simpa [Clause.tokens] using h) _ _

theorem legible_opening_code {o : Opening} (h : ∀ t ∈ (Clause.opening o).tokens, Unbroken t)
    (base body : Nat) : Legible (o.code lay scope base body : List (Instruction L)) := by
  rw [Opening.code_eq_template]
  cases o with
  | define name =>
    have hname : Unbroken name := by simpa [Clause.tokens] using h
    exact legible_cons.mpr ⟨legible_jump (by simp +decide [toString_string, hname]) _, legible_nil⟩
  | branch kind c =>
    have hopener : Unbroken kind.form.opener := by cases kind <;> decide
    rw [Opening.template, legible_append, legible_cons]
    refine ⟨?_, legible_jump (by simp +decide [toString_string, hopener]) _, legible_nil⟩
    cases c with
    | compare c l r =>
      obtain ⟨hl, hr⟩ : Unbroken l ∧ Unbroken r := by
        simpa [Clause.tokens, Condition.tokens] using h
      have hsymbol : Unbroken c.symbol := by cases c <;> decide
      exact legible_branch (by simp +decide [toString_string, hl, hr, hsymbol, hopener]) _ _ _ _
    | constant c =>
      have hword : Unbroken c.word := by cases c <;> decide
      exact legible_branch (by simp +decide [toString_string, hword, hopener]) _ _ _ _

theorem legible_tailCode (c : Construct) (base : Nat) :
    Legible (c.tailCode base : List (Instruction L)) := by
  rw [Construct.tailCode_eq_template]
  match c with
  | .definition => exact legible_epilogue
  | .branch .conditional => exact legible_nil
  | .branch .loop => exact legible_cons.mpr ⟨legible_jump (by decide) _, legible_nil⟩

/-- **Whatever is generated can be read back.** -/
theorem legible_gen {F : Forest} (h : ∀ c ∈ F.clauses, ∀ t ∈ c.tokens, Unbroken t) (base : Nat) :
    Legible (F.gen lay scope base : List (Instruction L)) := by
  induction F generalizing scope base with
  | done => exact legible_nil
  | simple s rest ih =>
    rw [Forest.gen, legible_append]
    exact ⟨legible_simple_code lay scope (h _ List.mem_cons_self) base,
      ih scope (fun c hc => h c (List.mem_cons_of_mem _ hc)) _⟩
  | block o body rest ihb ihr =>
    simp only [Forest.gen, legible_append, List.append_assoc]
    simp only [Forest.clauses, List.mem_cons, List.mem_append] at h
    exact ⟨legible_opening_code lay scope (h _ (.inl rfl)) base _,
      ihb _ (fun c hc => h c (.inr (.inl hc))) _, legible_tailCode _ base,
      ihr _ (fun c hc => h c (.inr (.inr (.inr hc)))) _⟩

end Legible

/-! ## Listings -/

/-- What is left of an instruction without its comment: the opcode and the words. -/
def Instruction.core {L : Type} (i : Instruction L) : Opcode × Option Words := (i.opcode, i.words?)

section Listing

variable {L : Type} {style : Style} {index : Int} {code : List (Instruction L)} {ls : List String}

theorem Lists.map_ofLine? (h : Lists style index code ls) (hs : style.Readable) :
    ls.map Words.ofLine? = code.map Instruction.words? := by
  induction h with
  | nil => rfl
  | cons hw _ ih => rw [List.map_cons, List.map_cons, ofLine?_line hs, hw, ih]

theorem Lists.unbroken (h : Lists style index code ls) (hs : style.Readable)
    (hcode : Legible code) : ∀ l ∈ ls, l.toList ≠ [] ∧ Unbroken l := by
  induction h with
  | nil => simp
  | @cons index i w code ls hw _ ih =>
    obtain ⟨hi, hcode⟩ := legible_cons.mp hcode
    intro l hl
    rcases List.mem_cons.mp hl with rfl | hl
    · exact ⟨line_ne_empty w style index i.comment, unbroken_line hs w index hi.comment⟩
    · exact ih hcode l hl

/-- The first word of an instruction gives its opcode back. -/
theorem Instruction.Legible.decode {i : Instruction L} (h : i.Legible) {w : Words}
    (hw : i.words? = some w) : Opcode.decode w.opcode = i.opcode := by
  have hopcode : w.opcode = i.opcode.encode := by
    simp only [Instruction.words?, Option.bind_eq_bind, Option.bind_eq_some_iff] at hw
    obtain ⟨a, -, b, -, d, -, hw⟩ := hw
    cases hw
    rfl
  rw [hopcode, h.opcode]

/-- Instructions with the same words are the same but for their comments. -/
theorem core_eq_of_words?_eq {code' : List (Instruction L)} (h : Legible code)
    (h' : Legible code') (hr : Resolved code)
    (heq : code.map Instruction.words? = code'.map Instruction.words?) :
    code.map Instruction.core = code'.map Instruction.core := by
  induction code generalizing code' with
  | nil =>
    cases code' with
    | nil => rfl
    | cons i' code' => cases heq
  | cons i code ih =>
    cases code' with
    | nil => cases heq
    | cons i' code' =>
      rw [List.map_cons, List.map_cons, List.cons.injEq] at heq
      obtain ⟨hi, hcode⟩ := legible_cons.mp h
      obtain ⟨hi', hcode'⟩ := legible_cons.mp h'
      obtain ⟨hri, hrcode⟩ := resolved_cons.mp hr
      obtain ⟨w, hw⟩ := words?_of_isResolved hri
      have hw' : i'.words? = some w := by rw [← heq.1, hw]
      have hopcode : i.opcode = i'.opcode := by rw [← hi.decode hw, hi'.decode hw']
      rw [List.map_cons, List.map_cons, ih hcode hcode' hrcode heq.2]
      simp only [Instruction.core, hopcode, heq.1]

end Listing

section Text

variable {text source : String} {options : Options} {done : Session}

theorem lists_of_assembles (h : Assembles text options source done) :
    ∃ ls, (compile text options source).1 = .ok ls ∧
      Lists options.toStyle 0 done.instructions ls := by
  obtain ⟨s, ls, hcreate, hcompile⟩ := h
  obtain ⟨hm, rfl⟩ := create_eq_ok_iff.mp hcreate
  obtain ⟨e, -, -, hinstructions, hlists⟩ := run_of_session hcompile
  rw [hinstructions]
  refine ⟨ls, ?_, hlists⟩
  simp only [compile, hcreate, hcompile]

theorem legible_of_assembles (h : Assembles text options source done) :
    Legible done.instructions ∧ Resolved done.instructions := by
  obtain ⟨F, hsaid, -, -, hcode⟩ := forest_of_assembles h
  rw [hcode]
  refine ⟨legible_gen F.layout none (fun c hc t ht => ?_) 0, resolved_gen F.layout none F 0⟩
  obtain ⟨line, hline, hread⟩ := (says_iff.mp hsaid).exists_line hc
  exact unbroken_of_mem_args hline (hread.tokens_subset ht)

end Text

/-- Comments with more of what is looked for: `#` once more, and a number. -/
def markedOptions : Options := { mark := "\t# # 1 ", numbered := true }

end TapeMachine

import TapeMachine.Operand
import TapeMachine.Proofs.Literals

/-!
# How operands are spelled

An operand is a number, an address behind a star or an at sign, or a name behind a dollar sign.
`Operand.Spelled` says so of the characters alone, with the bounds of 32 bits.

* `Operand.parse_eq_ok_iff`: an operand without blanks is read as what it spells.
* `Operand.denote`: a reading that trusts the operand. It only looks at the first character, and
  adds up digits; `Operand.denote_of_parse` says that this is enough for what is read at all.
-/

namespace TapeMachine

/-! ## What a row of digits is worth -/

namespace Numeral

/-- The value of a digit: a letter up to F, or a decimal digit of any script, which is as far behind
the last zero as its value says. -/
def figure (c : Char) : Nat :=
  if 0x61 ≤ c.toNat ∧ c.toNat ≤ 0x66 then c.toNat - 0x61 + 10
  else if 0x41 ≤ c.toNat ∧ c.toNat ≤ 0x46 then c.toNat - 0x41 + 10
  else c.toNat - (Text.zeros.takeWhile (· ≤ c.toNat)).getLastD 0

/-- The number that a row of digits stands for; underscores do not count. -/
def tally (base : Nat) (cs : List Char) : Nat :=
  cs.foldl (fun n c => if c = '_' then n else n * base + figure c) 0

/-- The base that a letter announces; any other character announces none, and the base is ten. -/
def announced (c : Char) : Nat :=
  if c = 'x' ∨ c = 'X' then 16
  else if c = 'o' ∨ c = 'O' then 8
  else if c = 'b' ∨ c = 'B' then 2
  else 10

/-- The number that a numeral without a sign stands for. -/
def amount : List Char → Nat
  | z :: c :: cs => if announced c = 10 then tally 10 (z :: c :: cs) else tally (announced c) cs
  | cs => tally 10 cs

/-- The number that a numeral stands for. -/
def worth : List Char → Int
  | '-' :: cs => -(amount cs : Int)
  | '+' :: cs => amount cs
  | cs => amount cs

theorem Figure.figure_eq {c : Char} {d : Nat} (h : Figure c d) : figure c = d := by
  cases h with
  | decimal h =>
    have htable : ∀ z ∈ Text.zeros, ∀ d < 10,
        ¬ (0x61 ≤ z + d ∧ z + d ≤ 0x66) ∧ ¬ (0x41 ≤ z + d ∧ z + d ≤ 0x46) ∧
          (Text.zeros.takeWhile (· ≤ z + d)).getLastD 0 = z := by
      decide +kernel
    obtain ⟨hd, z, hz, hc⟩ := h
    obtain ⟨hlower, hupper, hzero⟩ := htable z hz d hd
    rw [figure, hc, if_neg hlower, if_neg hupper, hzero, Nat.add_sub_cancel_left]
  | lower hd h => rw [figure, if_pos (by omega)]; omega
  | upper hd h => rw [figure, if_neg (by omega), if_pos (by omega)]; omega

/-- A digit is none of the other characters of a numeral. -/
theorem Figure.ne {c x : Char} {d : Nat} (h : Figure c d) {base : Nat} (hd : d < base)
    (hx : digitIn? base (Numeral.plain x) = none) : c ≠ x := by
  rintro rfl
  rw [h.digitIn?_base hd] at hx
  cases hx

theorem Digits.tally_eq {base : Nat} {cs : List Char} {ds : List Nat} (h : Digits base cs ds) :
    tally base cs = Nat.ofDigits base ds.reverse := by
  have hgap : ∀ {c : Char} {d : Nat}, Figure c d → c ≠ '_' :=
    fun h => h.ne h.plain.1 (by decide)
  have hfold : ∀ n, cs.foldl (fun n c => if c = '_' then n else n * base + figure c) n =
      ds.foldl (fun n d => n * base + d) n := by
    induction h with
    | last h hd => simp [hgap h, h.figure_eq]
    | next h hd _ ih => simp [hgap h, h.figure_eq, ih]
    | gap h hd _ ih => simp [hgap h, h.figure_eq, ih]
  rw [← value_eq_ofDigits]
  exact hfold 0

/-- A row of decimal digits is taken for one. -/
theorem Digits.amount_eq {cs : List Char} {ds : List Nat} (h : Digits 10 cs ds) :
    amount cs = Nat.ofDigits 10 ds.reverse := by
  have hdigit : ∀ {c : Char} {d : Nat}, Figure c d → d < 10 → announced c = 10 := by
    intro c d h hd
    have hletter : ∀ x, digitIn? 10 (Numeral.plain x) = none → c ≠ x := fun x hx => h.ne hd hx
    have hx := hletter 'x' (by decide)
    have hX := hletter 'X' (by decide)
    have ho := hletter 'o' (by decide)
    have hO := hletter 'O' (by decide)
    have hb := hletter 'b' (by decide)
    have hB := hletter 'B' (by decide)
    simp [announced, hx, hX, ho, hO, hb, hB]
  have hsecond : ∀ z c rest, cs = z :: c :: rest → announced c = 10 := by
    rintro z c rest rfl
    cases h with
    | next h hd hrest =>
      cases hrest with
      | last h' hd' => exact hdigit h' hd'
      | next h' hd' _ => exact hdigit h' hd'
      | gap h' hd' _ => exact hdigit h' hd'
    | gap h hd _ => decide
  rw [← h.tally_eq]
  unfold amount
  split
  · rw [if_pos (hsecond _ _ _ rfl)]
  · rfl

theorem Counts.amount_eq {cs : List Char} {n : Nat} (h : Counts cs n) : amount cs = n := by
  have hbases : ∀ p ∈ baseLetters, announced p.1 = p.2 ∧ p.2 ≠ 10 := by decide
  cases h with
  | zeros h hzero _ => rw [h.amount_eq, ofDigits_of_zeros hzero]
  | spelled h =>
    cases h with
    | decimal h _ => exact h.amount_eq
    | based hz hc h =>
      obtain ⟨hbase, hten⟩ := hbases _ hc
      rw [amount, hbase, if_neg hten, h.tally_eq]
    | gapped hz hc h =>
      obtain ⟨hbase, hten⟩ := hbases _ hc
      rw [amount, hbase, if_neg hten, ← h.tally_eq]
      rfl

theorem Means.worth_eq {cs : List Char} {v : Int} (h : Means cs v) : worth cs = v := by
  cases h with
  | bare h =>
    obtain ⟨c, d, cs, rfl, hfigure⟩ := h.exists_cons
    rw [worth, h.amount_eq]
    · exact fun rest hcs => hfigure.ne hfigure.plain.1 (by decide) (List.cons.inj hcs).1
    · exact fun rest hcs => hfigure.ne hfigure.plain.1 (by decide) (List.cons.inj hcs).1
  | plus h => rw [worth, h.amount_eq]
  | minus h => rw [worth, h.amount_eq]

end Numeral

/-! ## Operands -/

/-- The characters of a name are not blank. -/
theorem IsName.not_blank {name : List Char} (h : IsName name) :
    ∀ c ∈ name, Text.isBlank c = false := by
  have hrange : ∀ c : Char, (0x30 ≤ c.toNat ∧ c.toNat ≤ 0x7A) → Text.isBlank c = false := by
    intro c hc
    simp [Text.isBlank, Text.inRanges, Text.blankRanges]
    omega
  have hbetween : ∀ {a b c : Char}, a ≤ c ∧ c ≤ b → a.toNat ≤ c.toNat ∧ c.toNat ≤ b.toNat :=
    fun h => ⟨UInt32.le_iff_toNat_le.mp h.1, UInt32.le_iff_toNat_le.mp h.2⟩
  have hcodes : 'A'.toNat = 0x41 ∧ 'Z'.toNat = 0x5A ∧ 'a'.toNat = 0x61 ∧ 'z'.toNat = 0x7A ∧
      '0'.toNat = 0x30 ∧ '9'.toNat = 0x39 := by decide
  obtain ⟨hc, hcs⟩ := h
  refine List.forall_mem_cons.mpr ⟨?_, fun d hd => ?_⟩
  · rcases hc with hc | hc | rfl
    · exact hrange _ (by have := hbetween hc; omega)
    · exact hrange _ (by have := hbetween hc; omega)
    · decide
  · rcases hcs d hd with hd | hd | hd | rfl
    · exact hrange _ (by have := hbetween hd; omega)
    · exact hrange _ (by have := hbetween hd; omega)
    · exact hrange _ (by have := hbetween hd; omega)
    · decide

namespace Operand

/-- The text is the operand: a number of 32 bits with a sign, an address of 32 bits without one, or
the name of a variable. -/
inductive Spelled : List Char → Operand → Prop
  | immediate {cs : List Char} {v : Int} (h : Numeral.Means cs v)
      (hv : -2 ^ 31 ≤ v ∧ v ≤ 2 ^ 31 - 1) : Spelled cs (.immediate v)
  | direct {c : Char} {cs : List Char} {v : Int} (hc : c = '*' ∨ c = '@') (h : Numeral.Means cs v)
      (hv : 0 ≤ v ∧ v ≤ 2 ^ 32 - 1) : Spelled (c :: cs) (.direct v)
  | var {name : List Char} (h : IsName name) : Spelled ('$' :: name) (.var (String.ofList name))

/-- The characters of an operand that are not blank. -/
def solid (token : String) : List Char := token.toList.filter fun c => !Text.isBlank c

/-- What an operand denotes, if it denotes anything: the first character says what kind of operand
it is. -/
def denote (token : String) : Operand :=
  match solid token with
  | '$' :: name => .var (String.ofList name)
  | '*' :: digits => .direct (Numeral.worth digits)
  | '@' :: digits => .direct (Numeral.worth digits)
  | digits => .immediate (Numeral.worth digits)

theorem Spelled.not_blank {cs : List Char} {operand : Operand} (h : Spelled cs operand) :
    ∀ c ∈ cs, Text.isBlank c = false := by
  cases h with
  | immediate h _ => exact fun c hc => (h.solid c hc).1
  | direct hc h _ =>
    refine List.forall_mem_cons.mpr ⟨?_, fun c hc => (h.solid c hc).1⟩
    rcases hc with rfl | rfl <;> decide
  | var h => exact List.forall_mem_cons.mpr ⟨by decide, h.not_blank⟩

theorem number_eq_ok_iff {token : String} {digits : List Char} {v : Int} :
    number token digits = .ok v ↔ Numeral.read? digits = some v := by
  unfold number
  cases Numeral.read? digits <;> simp

theorem parseTrimmed_of_spelled {cs : List Char} {operand : Operand} (h : Spelled cs operand) :
    parseTrimmed cs = .ok operand := by
  cases h with
  | immediate h hv =>
    obtain ⟨c, cs, rfl, hc⟩ := h.exists_cons
    simp only [List.mem_cons, List.not_mem_nil, or_false, not_or] at hc
    have hread := Numeral.read?_of_lt h (by omega)
    rw [parseTrimmed.eq_3 c cs hc.1, if_neg (by simp [hc]), number_eq_ok_iff.mpr hread]
    exact if_pos hv
  | @direct c cs v hc h hv =>
    have hne : c ≠ '$' := by rcases hc with rfl | rfl <;> decide
    have hread := Numeral.read?_of_lt h (by omega)
    rw [parseTrimmed.eq_3 c cs hne, if_pos hc, number_eq_ok_iff.mpr hread]
    exact if_pos hv
  | var h =>
    rw [parseTrimmed, if_pos (isIdentifier_iff.mpr h)]

theorem spelled_of_parseTrimmed {cs : List Char} {operand : Operand}
    (h : parseTrimmed cs = .ok operand) :
    Spelled (cs.filter fun c => !Text.isBlank c) operand := by
  unfold parseTrimmed at h
  split at h
  · cases h
  · rename_i name
    split at h
    · rename_i hname
      cases h
      have hspelled := Spelled.var (isIdentifier_iff.mp hname)
      rwa [List.filter_eq_self.mpr fun c hc => by simp [hspelled.not_blank c hc]]
    · cases h
  · rename_i c cs _
    by_cases hc : c = '*' ∨ c = '@'
    · have hsolid : Text.isBlank c = false := by rcases hc with rfl | rfl <;> decide
      rw [if_pos hc] at h
      cases hn : number (String.ofList (c :: cs)) cs with
      | error f => simp only [hn, bind, Except.bind, reduceCtorEq] at h
      | ok v =>
        simp only [hn, bind, Except.bind] at h
        split at h
        · rename_i hv
          cases h
          rw [List.filter_cons_of_pos (by simp [hsolid])]
          exact .direct hc (Numeral.means_of_read? (number_eq_ok_iff.mp hn)) hv
        · cases h
    · rw [if_neg hc] at h
      cases hn : number (String.ofList (c :: cs)) (c :: cs) with
      | error f => simp only [hn, bind, Except.bind, reduceCtorEq] at h
      | ok v =>
        simp only [hn, bind, Except.bind] at h
        split at h
        · rename_i hv
          cases h
          exact .immediate (Numeral.means_of_read? (number_eq_ok_iff.mp hn)) hv
        · cases h

/-- **What is read as an operand spells it**, blanks apart. -/
theorem spelled_of_parse {token : String} {operand : Operand} (h : parse token = .ok operand) :
    Spelled (solid token) operand := by
  obtain ⟨left, right, hsplit, hleft, hright⟩ := Numeral.exists_trimBy Text.isBlank token.toList
  have hblank : ∀ side : List Char, (∀ c ∈ side, Text.isBlank c = true) →
      side.filter (fun c => !Text.isBlank c) = [] := by
    intro side hside
    exact List.filter_eq_nil_iff.mpr fun c hc => by simp [hside c hc]
  rw [solid, hsplit, List.filter_append, List.filter_append, hblank left hleft,
    hblank right hright, List.nil_append, List.append_nil]
  exact spelled_of_parseTrimmed h

/-- **An operand without blanks is read as what it spells.** -/
theorem parse_eq_ok_iff {token : String} {operand : Operand}
    (hsolid : ∀ c ∈ token.toList, ¬ Text.Blank c) :
    parse token = .ok operand ↔ Spelled token.toList operand := by
  have hfalse : ∀ c ∈ token.toList, Text.isBlank c = false :=
    fun c hc => Text.isBlank_eq_false_iff.mpr (hsolid c hc)
  constructor
  · intro h
    have hspelled := spelled_of_parse h
    rwa [solid, List.filter_eq_self.mpr fun c hc => by simp [hfalse c hc]] at hspelled
  · intro h
    rw [parse, Text.trim_of_forall hfalse]
    exact parseTrimmed_of_spelled h

theorem denote_of_spelled {token : String} {operand : Operand}
    (h : Spelled (solid token) operand) : denote token = operand := by
  unfold denote
  generalize solid token = cs at h
  cases h with
  | immediate h hv =>
    obtain ⟨c, cs, rfl, hc⟩ := h.exists_cons
    simp only [List.mem_cons, List.not_mem_nil, or_false, not_or] at hc
    split
    · rename_i heq
      exact absurd (List.cons.inj heq).1 hc.1
    · rename_i heq
      exact absurd (List.cons.inj heq).1 hc.2.1
    · rename_i heq
      exact absurd (List.cons.inj heq).1 hc.2.2
    · rw [h.worth_eq]
  | direct hc h hv => rcases hc with rfl | rfl <;> simp [h.worth_eq]
  | var h => rfl

theorem denote_of_parse {token : String} {operand : Operand} (h : parse token = .ok operand) :
    denote token = operand := denote_of_spelled (spelled_of_parse h)

end Operand

end TapeMachine

import Mathlib.Data.Nat.Digits.Lemmas
import TapeMachine.Numeral
import TapeMachine.Proofs.Lexis

/-!
# How numbers are spelled

A number has many spellings: with a sign or without, in four bases, with underscores between digits,
with leading zeros behind the letter of a base, with digits of any script. `Spells` is the relation
of a text to the number that it spells. Zero alone may also be written as a row of zeros (`Means`).

* `read?_of_means`: such a text is read as its number, unless it has too many decimal digits.
* `means_of_read?`: no other text is read, but for blanks around it.
-/

namespace TapeMachine

namespace Numeral

/-! ## Spellings of numbers -/

/-- The character is the decimal digit of the given value in some script: it comes as far behind the
zero of that script. -/
def Decimal (c : Char) (d : Nat) : Prop := d < 10 ∧ ∃ z ∈ Text.zeros, c.toNat = z + d

/-- The character is a digit of the given value: a decimal digit of any script or, from ten on, a
letter of either case. -/
inductive Figure : Char → Nat → Prop
  | decimal {c : Char} {d : Nat} (h : Decimal c d) : Figure c d
  | lower {c : Char} {d : Nat} (hd : d < 6) (h : c.toNat = 0x61 + d) : Figure c (10 + d)
  | upper {c : Char} {d : Nat} (hd : d < 6) (h : c.toNat = 0x41 + d) : Figure c (10 + d)

/-- The text is a row of digits in the base, with these values. One underscore may stand between two
digits. -/
inductive Digits (base : Nat) : List Char → List Nat → Prop
  | last {c : Char} {d : Nat} (h : Figure c d) (hd : d < base) : Digits base [c] [d]
  | next {c : Char} {d : Nat} {cs : List Char} {ds : List Nat} (h : Figure c d) (hd : d < base)
      (hrest : Digits base cs ds) : Digits base (c :: cs) (d :: ds)
  | gap {c : Char} {d : Nat} {cs : List Char} {ds : List Nat} (h : Figure c d) (hd : d < base)
      (hrest : Digits base cs ds) : Digits base (c :: '_' :: cs) (d :: ds)

/-- The letters behind a zero that announce a base. -/
def baseLetters : List (Char × Nat) :=
  [('x', 16), ('X', 16), ('o', 8), ('O', 8), ('b', 2), ('B', 2)]

/-- The text spells the number without a sign. In base ten a leading zero stands alone; behind the
letter of a base there can be any number of zeros, and an underscore before the first digit. -/
inductive Unsigned : List Char → Nat → Prop
  | decimal {cs : List Char} {ds : List Nat} (h : Digits 10 cs ds)
      (hzero : ds = [0] ∨ ds.head? ≠ some 0) : Unsigned cs (Nat.ofDigits 10 ds.reverse)
  | based {z c : Char} {base : Nat} {cs : List Char} {ds : List Nat} (hz : Figure z 0)
      (hc : (c, base) ∈ baseLetters) (h : Digits base cs ds) :
      Unsigned (z :: c :: cs) (Nat.ofDigits base ds.reverse)
  | gapped {z c : Char} {base : Nat} {cs : List Char} {ds : List Nat} (hz : Figure z 0)
      (hc : (c, base) ∈ baseLetters) (h : Digits base cs ds) :
      Unsigned (z :: c :: '_' :: cs) (Nat.ofDigits base ds.reverse)

/-- The text spells the number. -/
inductive Spells : List Char → Int → Prop
  | bare {cs : List Char} {n : Nat} (h : Unsigned cs n) : Spells cs n
  | plus {cs : List Char} {n : Nat} (h : Unsigned cs n) : Spells ('+' :: cs) n
  | minus {cs : List Char} {n : Nat} (h : Unsigned cs n) : Spells ('-' :: cs) (-n)

/-- The text is read as the number, without a sign: it spells the number, or it is a row of zeros
that is not too long. -/
inductive Counts : List Char → Nat → Prop
  | spelled {cs : List Char} {n : Nat} (h : Unsigned cs n) : Counts cs n
  | zeros {cs : List Char} {ds : List Nat} (h : Digits 10 cs ds) (hzero : ∀ d ∈ ds, d = 0)
      (hlong : ds.length ≤ 4300) : Counts cs 0

/-- The text is read as the number. -/
inductive Means : List Char → Int → Prop
  | bare {cs : List Char} {n : Nat} (h : Counts cs n) : Means cs n
  | plus {cs : List Char} {n : Nat} (h : Counts cs n) : Means ('+' :: cs) n
  | minus {cs : List Char} {n : Nat} (h : Counts cs n) : Means ('-' :: cs) (-n)

theorem Spells.means {cs : List Char} {v : Int} (h : Spells cs v) : Means cs v := by
  cases h with
  | bare h => exact .bare (.spelled h)
  | plus h => exact .plus (.spelled h)
  | minus h => exact .minus (.spelled h)

/-! ## Characters of a spelling -/

/-- The digits of two scripts do not overlap, so the table gives every digit its value. -/
theorem digit?_eq_some_iff {c : Char} {d : Nat} : Text.digit? c = some d ↔ Decimal c d := by
  rw [Text.digit?, Option.map_eq_some_iff]
  constructor
  · rintro ⟨z, hz, rfl⟩
    have hrange := List.find?_some hz
    simp only [Bool.and_eq_true, decide_eq_true_eq] at hrange
    exact ⟨by omega, z, List.mem_of_find?_eq_some hz, by omega⟩
  · rintro ⟨hd, z, hz, hc⟩
    have htable : ∀ z ∈ Text.zeros, ∀ z' ∈ Text.zeros, z' < z + 10 → z < z' + 10 → z' = z := by
      decide +kernel
    cases hfind : Text.zeros.find? fun z => decide (z ≤ c.toNat) && decide (c.toNat < z + 10) with
    | none =>
      have hout := List.find?_eq_none.mp hfind z hz
      simp only [Bool.and_eq_true, decide_eq_true_eq] at hout
      omega
    | some z' =>
      have hrange := List.find?_some hfind
      simp only [Bool.and_eq_true, decide_eq_true_eq] at hrange
      have hsame := htable z hz z' (List.mem_of_find?_eq_some hfind) (by omega) (by omega)
      exact ⟨z', rfl, by omega⟩

/-- No script's digits are blank. -/
theorem Decimal.isBlank {c : Char} {d : Nat} (h : Decimal c d) : Text.isBlank c = false := by
  have htable : ∀ z ∈ Text.zeros, ∀ d < 10, Text.inRanges Text.blankRanges (z + d) = false := by
    decide +kernel
  obtain ⟨hd, z, hz, hc⟩ := h
  rw [Text.isBlank, hc]
  exact htable z hz d hd

theorem plain_of_lt {c : Char} (h : c.toNat < 0x80) : plain c = c := if_pos h

theorem eq_ofNat_of_toNat {c : Char} {n : Nat} (h : c.toNat = n) : c = Char.ofNat n := by
  rw [← h, Char.ofNat_toNat]

/-- In plain characters a digit is written in one of two ways. -/
theorem Figure.plain {c : Char} {d : Nat} (h : Figure c d) :
    d < 16 ∧ Numeral.plain c ∈ [Nat.digitChar d, (Nat.digitChar d).toUpper] := by
  cases h with
  | decimal h =>
    have hblank := h.isBlank
    have hdigit := digit?_eq_some_iff.mpr h
    obtain ⟨hd, z, hz, hc⟩ := h
    refine ⟨by omega, ?_⟩
    by_cases hlt : c.toNat < 0x80
    · have hzeros : ∀ z ∈ Text.zeros, z < 0x80 → z = 0x30 := by decide
      have hchars : ∀ d < 10, Char.ofNat (0x30 + d) = Nat.digitChar d := by decide
      rw [hzeros z hz (by omega)] at hc
      rw [plain_of_lt hlt, eq_ofNat_of_toNat hc, hchars d hd]
      exact List.mem_cons_self
    · have hplain : Numeral.plain c = Nat.digitChar d := by
        simp [Numeral.plain, hlt, hblank, hdigit]
      rw [hplain]
      exact List.mem_cons_self
  | @lower d hd h =>
    have hchars : ∀ d < 6, Char.ofNat (0x61 + d) = Nat.digitChar (10 + d) := by decide
    refine ⟨by omega, ?_⟩
    rw [plain_of_lt (by omega), eq_ofNat_of_toNat h, hchars d hd]
    exact List.mem_cons_self
  | @upper d hd h =>
    have hchars : ∀ d < 6, Char.ofNat (0x41 + d) = (Nat.digitChar (10 + d)).toUpper := by decide
    refine ⟨by omega, ?_⟩
    rw [plain_of_lt (by omega), eq_ofNat_of_toNat h, hchars d hd]
    exact List.mem_cons_of_mem _ List.mem_cons_self

/-- The character is read as a digit of the value, and is none of the other characters of a
numeral. -/
structure ReadsAs (c : Char) (d : Nat) : Prop where
  value : digitIn? 16 c = some d
  not_padding : isPadding c = false
  ne_gap : c ≠ '_'
  ne_plus : c ≠ '+'
  ne_minus : c ≠ '-'
  eq_zero_iff : c = '0' ↔ d = 0

theorem Figure.readsAs {c : Char} {d : Nat} (h : Figure c d) : ReadsAs (Numeral.plain c) d := by
  have htable : ∀ d < 16, ∀ c ∈ [Nat.digitChar d, (Nat.digitChar d).toUpper],
      digitIn? 16 c = some d ∧ isPadding c = false ∧ c ≠ '_' ∧ c ≠ '+' ∧ c ≠ '-' ∧
        (c = '0' ↔ d = 0) := by
    simp only [List.forall_mem_cons, List.not_mem_nil, false_implies, implies_true, and_true]
    decide
  obtain ⟨hd, hc⟩ := h.plain
  obtain ⟨hvalue, hpadding, hgap, hplus, hminus, hzero⟩ := htable d hd _ hc
  exact ⟨hvalue, hpadding, hgap, hplus, hminus, hzero⟩

theorem Figure.digitIn?_base {c : Char} {d base : Nat} (h : Figure c d) (hd : d < base) :
    Numeral.digitIn? base (Numeral.plain c) = some d := by
  have h16 := h.readsAs.value
  unfold Numeral.digitIn? at h16 ⊢
  rw [Option.filter_eq_some_iff] at h16 ⊢
  exact ⟨h16.1, by simpa using hd⟩

theorem Figure.isBlank {c : Char} {d : Nat} (h : Figure c d) : Text.isBlank c = false := by
  cases h with
  | decimal h => exact h.isBlank
  | lower hd h => simp [Text.isBlank, Text.inRanges, Text.blankRanges]; omega
  | upper hd h => simp [Text.isBlank, Text.inRanges, Text.blankRanges]; omega

/-- The characters of a spelling: none is blank, none is padding once it is plain. -/
def Solid (c : Char) : Prop := Text.isBlank c = false ∧ isPadding (plain c) = false

instance (c : Char) : Decidable (Solid c) := inferInstanceAs (Decidable (_ ∧ _))

theorem Figure.solid {c : Char} {d : Nat} (h : Figure c d) : Solid c :=
  ⟨h.isBlank, h.readsAs.not_padding⟩

theorem Digits.exists_cons {base : Nat} {cs : List Char} {ds : List Nat} (h : Digits base cs ds) :
    ∃ c d cs' ds', cs = c :: cs' ∧ ds = d :: ds' ∧ Figure c d := by
  cases h with
  | last h hd => exact ⟨_, _, _, _, rfl, rfl, h⟩
  | next h hd _ => exact ⟨_, _, _, _, rfl, rfl, h⟩
  | gap h hd _ => exact ⟨_, _, _, _, rfl, rfl, h⟩

theorem Digits.solid {base : Nat} {cs : List Char} {ds : List Nat} (h : Digits base cs ds) :
    ∀ c ∈ cs, Solid c := by
  have hgap : Solid '_' := by decide
  induction h with
  | last h hd => simpa using h.solid
  | next h hd _ ih => exact List.forall_mem_cons.mpr ⟨h.solid, ih⟩
  | gap h hd _ ih =>
    exact List.forall_mem_cons.mpr ⟨h.solid, List.forall_mem_cons.mpr ⟨hgap, ih⟩⟩

/-! ## Reading a spelling -/

theorem value_eq_ofDigits (base : Nat) (ds : List Nat) :
    value base ds = Nat.ofDigits base ds.reverse := by
  rw [value, Nat.ofDigits_eq_foldr, List.foldr_reverse]
  refine congrArg (fun f => ds.foldl f 0) (funext fun n => funext fun d => ?_)
  rw [Nat.cast_id, Nat.mul_comm, Nat.add_comm]

/-- A row of digits is read as its values. -/
theorem Digits.digits? {base : Nat} {cs : List Char} {ds : List Nat} (h : Digits base cs ds) :
    Numeral.digits? base (cs.map plain) = some ds := by
  induction h with
  | last h hd => simp [Numeral.digits?, h.digitIn?_base hd]
  | @next c d cs ds h hd hrest ih =>
    obtain ⟨c', d', cs', ds', rfl, rfl, h'⟩ := hrest.exists_cons
    rw [List.map_cons, List.map_cons, Numeral.digits?.eq_4 _ _ _ _ h'.readsAs.ne_gap,
      ← List.map_cons, ih, h.digitIn?_base hd]
    rfl
  | @gap c d cs ds h hd hrest ih =>
    have hgap : plain '_' = '_' := by decide
    rw [List.map_cons, List.map_cons, hgap, Numeral.digits?, ih, h.digitIn?_base hd]
    rfl

/-- Digits without a leading zero make a number of at least that many places. -/
theorem pow_le_ofDigits {ds : List Nat} (hne : ds ≠ []) (hzero : ds.head? ≠ some 0) {m : Nat}
    (hlong : m < ds.length) : 10 ^ m ≤ Nat.ofDigits 10 ds.reverse := by
  have hlast : ds.reverse.getLast (by simpa using hne) ≠ 0 := by
    rw [List.getLast_reverse]
    intro h
    exact hzero (by rw [List.head?_eq_some_head hne, h])
  have hle : 10 ^ ds.reverse.length ≤ 10 * Nat.ofDigits 10 ds.reverse :=
    Nat.pow_length_le_mul_ofDigits (b := 8) _ hlast
  have hpow : 10 ^ (m + 1) ≤ 10 ^ ds.length := Nat.pow_le_pow_right (by decide) hlong
  rw [List.length_reverse] at hle
  rw [Nat.pow_succ] at hpow
  omega

/-- A decimal numeral is read, unless it has too many digits. -/
theorem decimalNoZero?_of_digits {cs : List Char} {ds : List Nat} (h : Digits 10 cs ds)
    (hzero : ds = [0] ∨ ds.head? ≠ some 0) :
    decimalNoZero? (cs.map plain) =
      if ds.length ≤ maxDigits then some (Nat.ofDigits 10 ds.reverse) else none := by
  have hdigits := h.digits?
  obtain ⟨c, d, cs', ds', rfl, rfl, hfigure⟩ := h.exists_cons
  have hhead : ¬ ((c :: cs').map plain |>.head?) = some '0' ∨ value 10 (d :: ds') = 0 := by
    rcases hzero with hzero | hzero
    · exact .inr (by rw [hzero]; rfl)
    · refine .inl fun h0 => hzero ?_
      have hc : plain c = '0' := by simpa using h0
      rw [List.head?_cons, hfigure.readsAs.eq_zero_iff.mp hc]
  by_cases hlong : (d :: ds').length ≤ maxDigits
  · have hdecimal : decimal? ((c :: cs').map plain) = some (d :: ds') := by
      rw [decimal?, hdigits, Option.filter_some, if_pos (by simpa using hlong)]
    simp only [decimalNoZero?, hdecimal, if_pos hlong, ← value_eq_ofDigits]
    exact if_neg fun hboth => hhead.elim (· hboth.1) hboth.2
  · have hdecimal : decimal? ((c :: cs').map plain) = none := by
      rw [decimal?, hdigits, Option.filter_some, if_neg (by simpa using hlong)]
    simp only [decimalNoZero?, hdecimal, if_neg hlong]
    rfl

theorem magnitude?_of_decimal {cs : List Char} {ds : List Nat} (h : Digits 10 cs ds)
    (hzero : ds = [0] ∨ ds.head? ≠ some 0) :
    magnitude? (cs.map plain) = decimalNoZero? (cs.map plain) := by
  refine magnitude?.eq_2 _ fun c rest hcs => ?_
  obtain ⟨z, d, cs', ds', rfl, rfl, hfigure⟩ := h.exists_cons
  rw [List.map_cons, List.cons.injEq] at hcs
  have hd : d = 0 := hfigure.readsAs.eq_zero_iff.mp hcs.1
  subst hd
  -- a zero with more behind it is no decimal numeral
  rcases hzero with hzero | hzero
  · cases h with
    | last h hd => cases hcs.2
    | next h hd hrest =>
      obtain ⟨_, _, _, _, -, hds, -⟩ := hrest.exists_cons
      rw [hds] at hzero
      cases hzero
    | gap h hd hrest =>
      obtain ⟨_, _, _, _, -, hds, -⟩ := hrest.exists_cons
      rw [hds] at hzero
      cases hzero
  · exact hzero rfl

theorem prefixed?_of_digits {base : Nat} {cs : List Char} {ds : List Nat} (h : Digits base cs ds) :
    prefixed? base (cs.map plain) = some (Nat.ofDigits base ds.reverse) ∧
      prefixed? base (('_' :: cs).map plain) = some (Nat.ofDigits base ds.reverse) := by
  have hdigits := h.digits?
  constructor
  · rw [prefixed?.eq_2, hdigits, ← value_eq_ofDigits]
    · rfl
    · intro rest hcs
      obtain ⟨c, d, cs', ds', rfl, rfl, hfigure⟩ := h.exists_cons
      rw [List.map_cons, List.cons.injEq] at hcs
      exact hfigure.readsAs.ne_gap hcs.1
  · have hgap : plain '_' = '_' := by decide
    rw [List.map_cons, hgap, prefixed?, hdigits, ← value_eq_ofDigits]
    rfl

theorem magnitude?_of_base {z c : Char} {base : Nat} (hz : Figure z 0)
    (hc : (c, base) ∈ baseLetters) (cs : List Char) :
    magnitude? ((z :: c :: cs).map plain) = prefixed? base (cs.map plain) := by
  have htable : ∀ p ∈ baseLetters, plain p.1 = p.1 ∧ baseOf? p.1 = some p.2 := by decide
  obtain ⟨hplain, hbase⟩ := htable _ hc
  have hzero : plain z = '0' := hz.readsAs.eq_zero_iff.mpr rfl
  rw [List.map_cons, List.map_cons, hzero, hplain, magnitude?, hbase]

/-- A numeral without a sign is read, unless it has too many decimal digits. -/
theorem Unsigned.magnitude? {cs : List Char} {n : Nat} (h : Unsigned cs n) :
    Numeral.magnitude? (cs.map plain) = some n ∨
      Numeral.magnitude? (cs.map plain) = none ∧ 10 ^ maxDigits ≤ n := by
  cases h with
  | @decimal cs ds h hzero =>
    rw [magnitude?_of_decimal h hzero, decimalNoZero?_of_digits h hzero]
    by_cases hlong : ds.length ≤ maxDigits
    · exact .inl (if_pos hlong)
    · refine .inr ⟨if_neg hlong, ?_⟩
      obtain ⟨_, d, _, ds', -, rfl, -⟩ := h.exists_cons
      refine pow_le_ofDigits (List.cons_ne_nil d ds') ?_ (by omega)
      rcases hzero with hzero | hzero
      · rw [hzero] at hlong
        exact absurd (by decide) hlong
      · exact hzero
  | based hz hc h => exact .inl ((magnitude?_of_base hz hc _).trans (prefixed?_of_digits h).1)
  | gapped hz hc h => exact .inl ((magnitude?_of_base hz hc _).trans (prefixed?_of_digits h).2)

theorem Unsigned.exists_cons {cs : List Char} {n : Nat} (h : Unsigned cs n) :
    ∃ c d cs', cs = c :: cs' ∧ Figure c d := by
  cases h with
  | decimal h _ =>
    obtain ⟨c, d, cs', _, rfl, -, hfigure⟩ := h.exists_cons
    exact ⟨c, d, cs', rfl, hfigure⟩
  | based hz _ _ => exact ⟨_, _, _, rfl, hz⟩
  | gapped hz _ _ => exact ⟨_, _, _, rfl, hz⟩

theorem Unsigned.solid {cs : List Char} {n : Nat} (h : Unsigned cs n) : ∀ c ∈ cs, Solid c := by
  have hgap : Solid '_' := by decide
  have htable : ∀ p ∈ baseLetters, Solid p.1 := by decide
  cases h with
  | decimal h _ => exact h.solid
  | based hz hc h =>
    exact List.forall_mem_cons.mpr ⟨hz.solid, List.forall_mem_cons.mpr ⟨htable _ hc, h.solid⟩⟩
  | gapped hz hc h =>
    exact List.forall_mem_cons.mpr ⟨hz.solid, List.forall_mem_cons.mpr ⟨htable _ hc,
      List.forall_mem_cons.mpr ⟨hgap, h.solid⟩⟩⟩

theorem ofDigits_of_zeros {ds : List Nat} (hzero : ∀ d ∈ ds, d = 0) :
    Nat.ofDigits 10 ds.reverse = 0 := by
  rw [List.eq_replicate_of_mem hzero, List.reverse_replicate]
  induction ds.length with
  | zero => rfl
  | succ n ih => simp [List.replicate_succ, Nat.ofDigits_cons, ih]

/-- A row of zeros is read as zero. -/
theorem magnitude?_of_zeros {cs : List Char} {ds : List Nat} (h : Digits 10 cs ds)
    (hzero : ∀ d ∈ ds, d = 0) (hlong : ds.length ≤ 4300) : magnitude? (cs.map plain) = some 0 := by
  have hvalue : value 10 ds = 0 := (value_eq_ofDigits 10 ds).trans (ofDigits_of_zeros hzero)
  have hbase : ∀ c rest, cs.map plain = '0' :: c :: rest → baseOf? c = none := by
    intro c rest hcs
    cases h with
    | last h hd => simp at hcs
    | next h hd hrest =>
      obtain ⟨x, e, _, _, rfl, rfl, hfigure⟩ := hrest.exists_cons
      simp only [List.map_cons, List.cons.injEq] at hcs
      have he : e = 0 := hzero e (by simp)
      rw [← hcs.2.1, hfigure.readsAs.eq_zero_iff.mpr he]
      decide
    | gap h hd hrest =>
      simp only [List.map_cons, List.cons.injEq] at hcs
      rw [← hcs.2.1]
      decide
  have hdecimal : decimalNoZero? (cs.map plain) = some 0 := by
    have hds : decimal? (cs.map plain) = some ds := by
      have hmax : maxDigits = 4300 := rfl
      rw [decimal?, h.digits?, Option.filter_some, hmax, if_pos (decide_eq_true hlong)]
    rw [decimalNoZero?, hds]
    exact (if_neg fun hboth => hboth.2 hvalue).trans (congrArg some hvalue)
  unfold magnitude?
  split
  · rename_i c rest hcs
    rw [hbase c rest hcs, ← hcs]
    exact hdecimal
  · exact hdecimal

theorem Counts.exists_cons {cs : List Char} {n : Nat} (h : Counts cs n) :
    ∃ c d cs', cs = c :: cs' ∧ Figure c d := by
  cases h with
  | spelled h => exact h.exists_cons
  | zeros h _ _ =>
    obtain ⟨c, d, cs', _, rfl, -, hfigure⟩ := h.exists_cons
    exact ⟨c, d, cs', rfl, hfigure⟩

theorem Counts.solid {cs : List Char} {n : Nat} (h : Counts cs n) : ∀ c ∈ cs, Solid c := by
  cases h with
  | spelled h => exact h.solid
  | zeros h _ _ => exact h.solid

theorem Means.solid {cs : List Char} {v : Int} (h : Means cs v) : ∀ c ∈ cs, Solid c := by
  have hsigns : Solid '+' ∧ Solid '-' := by decide
  cases h with
  | bare h => exact h.solid
  | plus h => exact List.forall_mem_cons.mpr ⟨hsigns.1, h.solid⟩
  | minus h => exact List.forall_mem_cons.mpr ⟨hsigns.2, h.solid⟩

theorem Counts.magnitude? {cs : List Char} {n : Nat} (h : Counts cs n) :
    Numeral.magnitude? (cs.map plain) = some n ∨
      Numeral.magnitude? (cs.map plain) = none ∧ 10 ^ maxDigits ≤ n := by
  cases h with
  | spelled h => exact h.magnitude?
  | zeros h hzero hlong => exact .inl (magnitude?_of_zeros h hzero hlong)

theorem Means.signed? {cs : List Char} {v : Int} (h : Means cs v) :
    Numeral.signed? Numeral.magnitude? (cs.map plain) = some v ∨
      Numeral.signed? Numeral.magnitude? (cs.map plain) = none ∧ 10 ^ maxDigits ≤ v.natAbs := by
  have hsigns : plain '+' = '+' ∧ plain '-' = '-' := by decide
  cases h with
  | bare h =>
    obtain ⟨c, d, cs', rfl, hfigure⟩ := h.exists_cons
    have hsigned : Numeral.signed? Numeral.magnitude? ((c :: cs').map plain) =
        (Numeral.magnitude? ((c :: cs').map plain)).map fun n => (n : Int) := by
      refine (Numeral.signed?.eq_3 _ _ ?_ ?_).trans ?_
      · intro rest hcs
        rw [List.map_cons, List.cons.injEq] at hcs
        exact hfigure.readsAs.ne_minus hcs.1
      · intro rest hcs
        rw [List.map_cons, List.cons.injEq] at hcs
        exact hfigure.readsAs.ne_plus hcs.1
      · cases Numeral.magnitude? ((c :: cs').map plain) <;> rfl
    rw [hsigned]
    rcases h.magnitude? with hm | ⟨hm, hn⟩
    · exact .inl (by rw [hm]; rfl)
    · exact .inr ⟨by rw [hm]; rfl, hn⟩
  | plus h =>
    rw [List.map_cons, hsigns.1, Numeral.signed?]
    rcases h.magnitude? with hm | ⟨hm, hn⟩
    · exact .inl (by rw [hm]; rfl)
    · exact .inr ⟨by rw [hm]; rfl, hn⟩
  | minus h =>
    rw [List.map_cons, hsigns.2, Numeral.signed?]
    rcases h.magnitude? with hm | ⟨hm, hn⟩
    · exact .inl (by rw [hm]; rfl)
    · exact .inr ⟨by rw [hm]; rfl, by rwa [Int.natAbs_neg]⟩

/-- **What means a number is read as it**, unless it has too many decimal digits. -/
theorem read?_of_means {cs : List Char} {v : Int} (h : Means cs v) :
    read? cs = some v ∨ read? cs = none ∧ 10 ^ maxDigits ≤ v.natAbs := by
  have hcore : core cs = cs.map plain := by
    refine Text.trimBy_of_forall fun c hc => ?_
    obtain ⟨c, hmem, rfl⟩ := List.mem_map.mp hc
    exact (h.solid c hmem).2
  rw [read?, hcore]
  exact h.signed?

/-- Numbers of 32 bits never have too many digits. -/
theorem read?_of_lt {cs : List Char} {v : Int} (h : Means cs v) (hv : v.natAbs < 2 ^ 32) :
    read? cs = some v := by
  have hlimit : 10 ^ 10 ≤ 10 ^ maxDigits := Nat.pow_le_pow_right (by decide) (by decide)
  rcases read?_of_means h with hread | ⟨-, hlong⟩
  · exact hread
  · exact absurd (hlimit.trans hlong) (by omega)

/-- A number starts with none of the marks that set other operands apart. -/
theorem Means.exists_cons {cs : List Char} {v : Int} (h : Means cs v) :
    ∃ c cs', cs = c :: cs' ∧ c ∉ ['$', '*', '@'] := by
  cases h with
  | plus h => exact ⟨_, _, rfl, by decide⟩
  | minus h => exact ⟨_, _, rfl, by decide⟩
  | bare h =>
    obtain ⟨c, d, cs', rfl, hfigure⟩ := h.exists_cons
    refine ⟨c, cs', rfl, fun hc => ?_⟩
    have hmarks : ∀ x ∈ ['$', '*', '@'], Numeral.digitIn? 16 (plain x) = none := by
      simp only [List.forall_mem_cons, List.not_mem_nil, false_implies, implies_true, and_true]
      decide
    have hd := hfigure.readsAs.value
    rw [hmarks c hc] at hd
    cases hd

/-! ## What is read is a spelling -/

/-- What becomes of a character beyond the seven-bit ones. -/
theorem plain_of_ge {c : Char} (h : ¬ c.toNat < 0x80) :
    Text.isBlank c = true ∧ plain c = ' ' ∨
      (∃ d, Decimal c d ∧ plain c = Nat.digitChar d) ∨ plain c = c := by
  unfold plain
  rw [if_neg h]
  by_cases hb : Text.isBlank c = true
  · exact .inl ⟨hb, if_pos hb⟩
  · rw [if_neg hb]
    cases hd : Text.digit? c with
    | some d => exact .inr (.inl ⟨d, digit?_eq_some_iff.mp hd, rfl⟩)
    | none => exact .inr (.inr rfl)

/-- Only digits and blanks are other characters once they are plain. -/
theorem eq_of_plain_eq {c x : Char} (hblank : x ≠ ' ')
    (hdigit : x.isDigit = false) (h : plain c = x) : c = x := by
  by_cases hc : c.toNat < 0x80
  · rwa [plain_of_lt hc] at h
  · rcases plain_of_ge hc with ⟨-, hplain⟩ | ⟨d, hd, hplain⟩ | hplain
    · exact absurd (h.symm.trans hplain) hblank
    · have htable : ∀ d < 10, (Nat.digitChar d).isDigit = true := by decide
      rw [← h, hplain, htable d hd.1] at hdigit
      cases hdigit
    · exact hplain.symm.trans h

theorem digitIn?_of_base {c : Char} {d base : Nat} (h : digitIn? base c = some d)
    (hbase : base ≤ 16) : d < base ∧ digitIn? 16 c = some d := by
  unfold digitIn? at h ⊢
  rw [Option.filter_eq_some_iff, decide_eq_true_eq] at h
  exact ⟨h.2, Option.filter_eq_some_iff.mpr ⟨h.1, decide_eq_true (by omega)⟩⟩

/-- What is read as a digit is one. -/
theorem figure_of_digitIn? {c : Char} {d base : Nat} (h : digitIn? base (plain c) = some d)
    (hbase : base ≤ 16) : Figure c d ∧ d < base := by
  obtain ⟨hd, h⟩ := digitIn?_of_base h hbase
  refine ⟨?_, hd⟩
  by_cases hc : c.toNat < 0x80
  · have htable : ∀ n < 0x80, ∀ d < 16, digitIn? 16 (Char.ofNat n) = some d →
        Text.digit? (Char.ofNat n) = some d ∨
          10 ≤ d ∧ (n = 0x61 + (d - 10) ∨ n = 0x41 + (d - 10)) := by
      decide +kernel
    rw [plain_of_lt hc] at h
    rcases htable c.toNat hc d (by omega) (by rwa [Char.ofNat_toNat]) with hdigit | ⟨hten, hletter⟩
    · rw [Char.ofNat_toNat] at hdigit
      exact .decimal (digit?_eq_some_iff.mp hdigit)
    · obtain ⟨e, rfl⟩ := Nat.exists_eq_add_of_le hten
      rw [Nat.add_sub_cancel_left] at hletter
      rcases hletter with hc' | hc'
      · exact .lower (by omega) hc'
      · exact .upper (by omega) hc'
  · rcases plain_of_ge hc with ⟨-, hplain⟩ | ⟨e, he, hplain⟩ | hplain
    · have hblank : digitIn? 16 ' ' = none := by decide
      rw [hplain, hblank] at h
      cases h
    · have htable : ∀ e < 10, digitIn? 16 (Nat.digitChar e) = some e := by decide
      rw [hplain, htable e he.1, Option.some.injEq] at h
      exact .decimal (h ▸ he)
    · -- a character beyond the seven-bit ones that stays as it is stands for no digit
      have hclass : c.isDigit = false ∧ c.isLower = false ∧ c.isUpper = false := by
        have hval : ¬ c.val.toNat < 0x80 := hc
        delta Char.isDigit Char.isLower Char.isUpper
        simp only [ge_iff_le, Bool.and_eq_false_iff, decide_eq_false_iff_not, not_and,
          UInt32.le_iff_toNat_le]
        have hcodes : '9'.val.toNat = 57 ∧ 'z'.val.toNat = 122 ∧ 'Z'.val.toNat = 90 :=
          ⟨rfl, rfl, rfl⟩
        omega
      simp [hplain, digitIn?, hclass] at h

theorem digits_of_digits? {base : Nat} (hbase : base ≤ 16) {cs : List Char} {ds : List Nat}
    (h : digits? base (cs.map plain) = some ds) : Digits base cs ds := by
  generalize hxs : cs.map plain = xs at h
  induction xs using digits?.induct generalizing cs ds with
  | case1 => cases h
  | case2 x =>
    obtain ⟨c, rfl, rfl⟩ := List.map_eq_singleton_iff.mp hxs
    obtain ⟨d, hd, rfl⟩ := Option.map_eq_some_iff.mp h
    obtain ⟨hfigure, hlt⟩ := figure_of_digitIn? hd hbase
    exact .last hfigure hlt
  | case3 x xs ih =>
    obtain ⟨c, rest, rfl, rfl, hrest⟩ := List.map_eq_cons_iff.mp hxs
    obtain ⟨g, rest, rfl, hg, rfl⟩ := List.map_eq_cons_iff.mp hrest
    obtain rfl := eq_of_plain_eq (by decide) (by decide) hg
    simp only [digits?, Option.bind_eq_bind, Option.bind_eq_some_iff, Option.pure_def,
      Option.some.injEq] at h
    obtain ⟨d, hd, ds, hds, rfl⟩ := h
    obtain ⟨hfigure, hlt⟩ := figure_of_digitIn? hd hbase
    exact .gap hfigure hlt (ih rfl hds)
  | case4 x y xs hgap ih =>
    obtain ⟨c, rest, rfl, rfl, hrest⟩ := List.map_eq_cons_iff.mp hxs
    rw [digits?.eq_4 _ _ _ _ hgap] at h
    simp only [Option.bind_eq_bind, Option.bind_eq_some_iff, Option.pure_def,
      Option.some.injEq] at h
    obtain ⟨d, hd, ds, hds, rfl⟩ := h
    obtain ⟨hfigure, hlt⟩ := figure_of_digitIn? hd hbase
    exact .next hfigure hlt (ih hrest hds)

theorem figure_of_plain_eq_zero {c : Char} (h : plain c = '0') : Figure c 0 := by
  have hread : digitIn? 16 (plain c) = some 0 := by
    rw [h]
    decide
  exact (figure_of_digitIn? hread (by decide)).1

/-- What is read in base ten. -/
theorem counts_of_decimalNoZero? {cs : List Char} {n : Nat}
    (h : decimalNoZero? (cs.map plain) = some n) : Counts cs n := by
  simp only [decimalNoZero?, decimal?, Option.bind_eq_bind, Option.bind_eq_some_iff,
    Option.map_eq_map, Option.map_eq_some_iff, Option.filter_eq_some_iff, decide_eq_true_eq] at h
  obtain ⟨_, ⟨ds, ⟨hds, hlong⟩, rfl⟩, h⟩ := h
  have hdigits := digits_of_digits? (by decide) hds
  rw [value_eq_ofDigits] at h
  split at h
  · cases h
  · rename_i hzero
    rw [Option.some.injEq] at h
    subst h
    obtain ⟨c, d, cs', ds', rfl, rfl, hfigure⟩ := hdigits.exists_cons
    by_cases hd : d = 0
    · -- a leading zero: the number is zero, and so is every digit
      have hhead : ((c :: cs').map plain).head? = some '0' := by
        simp [hfigure.readsAs.eq_zero_iff.mpr hd]
      have hsum : Nat.ofDigits 10 (d :: ds').reverse = 0 := by
        by_contra hne
        exact hzero ⟨hhead, hne⟩
      have hall := Nat.digits_zero_of_eq_zero (by decide) hsum
      rw [hsum]
      exact .zeros hdigits (fun x hx => hall x (List.mem_reverse.mpr hx)) hlong
    · exact .spelled (.decimal hdigits (.inr (by simpa using hd)))

theorem counts_of_prefixed? {z c : Char} {base : Nat} {cs : List Char} {n : Nat}
    (hz : Figure z 0) (hc : (c, base) ∈ baseLetters)
    (h : prefixed? base (cs.map plain) = some n) : Counts (z :: c :: cs) n := by
  have hbases : ∀ p ∈ baseLetters, p.2 ≤ 16 := by decide
  have hbase : base ≤ 16 := hbases _ hc
  unfold prefixed? at h
  split at h
  · rename_i rest hcs
    obtain ⟨g, rest, rfl, hg, rfl⟩ := List.map_eq_cons_iff.mp hcs
    obtain rfl := eq_of_plain_eq (by decide) (by decide) hg
    obtain ⟨ds, hds, rfl⟩ := Option.map_eq_some_iff.mp h
    rw [value_eq_ofDigits]
    exact .spelled (.gapped hz hc (digits_of_digits? hbase hds))
  · obtain ⟨ds, hds, rfl⟩ := Option.map_eq_some_iff.mp h
    rw [value_eq_ofDigits]
    exact .spelled (.based hz hc (digits_of_digits? hbase hds))

/-- The letter of a base is not changed when it becomes plain. -/
theorem mem_baseLetters {c : Char} {base : Nat} (h : baseOf? (plain c) = some base) :
    (c, base) ∈ baseLetters := by
  by_cases hc : c.toNat < 0x80
  · have htable : ∀ n < 0x80, (baseOf? (Char.ofNat n)).toList.all
        (fun b => decide ((Char.ofNat n, b) ∈ baseLetters)) = true := by
      decide +kernel
    have hentry := htable c.toNat hc
    rw [Char.ofNat_toNat, ← plain_of_lt hc, h, plain_of_lt hc] at hentry
    simpa using hentry
  · rcases plain_of_ge hc with ⟨-, hplain⟩ | ⟨d, hd, hplain⟩ | hplain
    · have hblank : baseOf? ' ' = none := by decide
      rw [hplain, hblank] at h
      cases h
    · have htable : ∀ d < 10, baseOf? (Nat.digitChar d) = none := by decide
      rw [hplain, htable d hd.1] at h
      cases h
    · -- such a character has no lower case here
      have hlower : c.toLower = c := by
        delta Char.toLower
        refine dif_neg fun hrange => hc ?_
        have hle : c.val.toNat ≤ 'Z'.val.toNat := UInt32.le_iff_toNat_le.mp hrange.2
        exact Nat.lt_of_le_of_lt hle (by decide)
      rw [hplain, baseOf?, hlower] at h
      split at h
      · exact absurd (by decide) hc
      · exact absurd (by decide) hc
      · exact absurd (by decide) hc
      · cases h

theorem counts_of_magnitude? {cs : List Char} {n : Nat}
    (h : magnitude? (cs.map plain) = some n) : Counts cs n := by
  unfold magnitude? at h
  split at h
  · rename_i c rest hcs
    obtain ⟨z, more, rfl, hz, hmore⟩ := List.map_eq_cons_iff.mp hcs
    obtain ⟨c, more, rfl, rfl, rfl⟩ := List.map_eq_cons_iff.mp hmore
    split at h
    · rename_i base hbase
      exact counts_of_prefixed? (figure_of_plain_eq_zero hz) (mem_baseLetters hbase) h
    · refine counts_of_decimalNoZero? ?_
      rw [List.map_cons, List.map_cons, hz]
      exact h
  · exact counts_of_decimalNoZero? h

theorem means_of_signed? {cs : List Char} {v : Int}
    (h : signed? magnitude? (cs.map plain) = some v) : Means cs v := by
  unfold signed? at h
  split at h
  · rename_i rest hcs
    obtain ⟨g, rest, rfl, hg, rfl⟩ := List.map_eq_cons_iff.mp hcs
    obtain rfl := eq_of_plain_eq (by decide) (by decide) hg
    cases hn : magnitude? (rest.map plain) with
    | none => simp [hn] at h
    | some n =>
      rw [hn] at h
      cases h
      exact .minus (counts_of_magnitude? hn)
  · rename_i rest hcs
    obtain ⟨g, rest, rfl, hg, rfl⟩ := List.map_eq_cons_iff.mp hcs
    obtain rfl := eq_of_plain_eq (by decide) (by decide) hg
    cases hn : magnitude? (rest.map plain) with
    | none => simp [hn] at h
    | some n =>
      rw [hn] at h
      cases h
      exact .plus (counts_of_magnitude? hn)
  · cases hn : magnitude? (cs.map plain) with
    | none => simp [hn] at h
    | some n =>
      rw [hn] at h
      cases h
      exact .bare (counts_of_magnitude? hn)

/-! ## Blanks around a numeral -/

/-- What is taken off the ends of a text. -/
theorem exists_trimBy (p : Char → Bool) (cs : List Char) :
    ∃ left right, cs = left ++ Text.trimBy p cs ++ right ∧ (∀ c ∈ left, p c = true) ∧
      ∀ c ∈ right, p c = true := by
  have hend : ∀ ds : List Char, ∃ right, ds = Text.trimEnd p ds ++ right ∧
      ∀ c ∈ right, p c = true := by
    intro ds
    induction ds with
    | nil => exact ⟨[], rfl, by simp⟩
    | cons d ds ih =>
      obtain ⟨right, hright, hall⟩ := ih
      rw [Text.trimEnd]
      cases htrim : Text.trimEnd p ds with
      | nil =>
        rw [htrim, List.nil_append] at hright
        subst hright
        by_cases hd : p d = true
        · exact ⟨d :: ds, by simp [hd], List.forall_mem_cons.mpr ⟨hd, hall⟩⟩
        · exact ⟨ds, by simp [hd], hall⟩
      | cons e es =>
        rw [htrim] at hright
        exact ⟨right, congrArg (d :: ·) hright, hall⟩
  obtain ⟨right, hright, hall⟩ := hend (cs.dropWhile p)
  refine ⟨cs.takeWhile p, right, ?_, List.all_eq_true.mp List.all_takeWhile, hall⟩
  rw [List.append_assoc, Text.trimBy, ← hright, List.takeWhile_append_dropWhile]

theorem trimBy_map (p : Char → Bool) (f : Char → Char) (cs : List Char) :
    Text.trimBy p (cs.map f) = (Text.trimBy (fun c => p (f c)) cs).map f := by
  have hend : ∀ ds : List Char,
      Text.trimEnd p (ds.map f) = (Text.trimEnd (fun c => p (f c)) ds).map f := by
    intro ds
    induction ds with
    | nil => rfl
    | cons d ds ih =>
      rw [List.map_cons, Text.trimEnd, Text.trimEnd, ih]
      cases Text.trimEnd (fun c => p (f c)) ds with
      | nil =>
        simp only [List.map_nil]
        split <;> rfl
      | cons e es => rfl
  rw [Text.trimBy, List.dropWhile_map, hend]
  rfl

theorem isBlank_of_isPadding_plain {c : Char} (h : isPadding (plain c) = true) :
    Text.isBlank c = true := by
  have hpadding : ∀ x : Char, isPadding x = true →
      x.toNat = 0x20 ∨ 0x09 ≤ x.toNat ∧ x.toNat ≤ 0x0D := by
    intro x hx
    simp only [isPadding, Bool.or_eq_true, Bool.and_eq_true, decide_eq_true_eq] at hx
    exact hx.imp_left (congrArg Char.toNat)
  by_cases hc : c.toNat < 0x80
  · rw [plain_of_lt hc] at h
    have hcode := hpadding c h
    simp [Text.isBlank, Text.inRanges, Text.blankRanges]
    omega
  · rcases plain_of_ge hc with ⟨hblank, -⟩ | ⟨d, hd, hplain⟩ | hplain
    · exact hblank
    · have htable : ∀ d < 10, isPadding (Nat.digitChar d) = false := by decide
      rw [hplain, htable d hd.1] at h
      cases h
    · rw [hplain] at h
      have hcode := hpadding c h
      omega

/-- **What is read as a number means it**, blanks apart. -/
theorem means_of_read? {cs : List Char} {v : Int} (h : read? cs = some v) :
    Means (cs.filter fun c => !Text.isBlank c) v := by
  obtain ⟨left, right, hsplit, hleft, hright⟩ := exists_trimBy (fun c => isPadding (plain c)) cs
  rw [read?, core, trimBy_map] at h
  generalize Text.trimBy (fun c => isPadding (plain c)) cs = ds at h hsplit
  have hmeans := means_of_signed? h
  have hblank : ∀ side : List Char, (∀ c ∈ side, isPadding (plain c) = true) →
      side.filter (fun c => !Text.isBlank c) = [] := by
    intro side hside
    refine List.filter_eq_nil_iff.mpr fun c hc => ?_
    simp [isBlank_of_isPadding_plain (hside c hc)]
  have hsolid : ds.filter (fun c => !Text.isBlank c) = ds :=
    List.filter_eq_self.mpr fun c hc => by simp [(hmeans.solid c hc).1]
  rw [hsplit, List.filter_append, List.filter_append, hblank left hleft, hblank right hright,
    hsolid, List.nil_append, List.append_nil]
  exact hmeans

end Numeral

end TapeMachine

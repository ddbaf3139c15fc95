import TapeMachine.Proofs.Operands
import TapeMachine.Proofs.Refusal

/-!
# What every operand is

Each spelling of a number gives the same operand, whatever the blanks around it, and so does each
name. `parse_of_spelling` also says when an operand is at fault: numbers that do not fit in 32 bits,
and names that are none.
-/

namespace TapeMachine

namespace Operand

/-- The text is read as the operand if the condition holds, and is at fault otherwise. -/
def ReadIf (p : Prop) (text : List Char) (operand : Operand) : Prop :=
  (p → parse (String.ofList text) = .ok operand) ∧
    (¬ p → ∃ f, parse (String.ofList text) = .error f ∧ f.kind = .address)

variable {left right cs : List Char} {c : Char}

/-- Blanks around an operand do not matter. -/
theorem parse_padded (hleft : ∀ d ∈ left, Text.isBlank d = true)
    (hright : ∀ d ∈ right, Text.isBlank d = true) (hc : Text.isBlank c = false)
    (hlast : ∀ d, (c :: cs).getLast? = some d → Text.isBlank d = false) :
    parse (String.ofList (left ++ c :: cs ++ right)) = parseTrimmed (c :: cs) := by
  rw [parse, String.toList_ofList, Text.trim_append hleft hright hc hlast]

/-- A numeral that is out of range is at fault, also if it has too many digits to be read. -/
theorem exists_fault_of_means {v : Int} (h : Numeral.Means cs v) (token : String)
    {check : Int → Except Fault Operand} (hcheck : ∃ f, check v = .error f ∧ f.kind = .address) :
    ∃ f, number token cs >>= check = .error f ∧ f.kind = .address := by
  rcases Numeral.read?_of_means h with hread | ⟨hread, -⟩
  · simpa only [number, hread, ok_bind] using hcheck
  · simp only [number, hread]
    exact ⟨_, rfl, rfl⟩

/-- A numeral is an immediate if it fits in 32 bits with a sign. -/
theorem parseTrimmed_of_means {v : Int} (h : Numeral.Means cs v) :
    (-2 ^ 31 ≤ v ∧ v ≤ 2 ^ 31 - 1 → parseTrimmed cs = .ok (.immediate v)) ∧
      (¬ (-2 ^ 31 ≤ v ∧ v ≤ 2 ^ 31 - 1) → ∃ f, parseTrimmed cs = .error f ∧ f.kind = .address) := by
  refine ⟨fun hv => parseTrimmed_of_spelled (.immediate h hv), fun hv => ?_⟩
  obtain ⟨c, cs, rfl, hc⟩ := h.exists_cons
  simp only [List.mem_cons, List.not_mem_nil, or_false, not_or] at hc
  rw [parseTrimmed.eq_3 c cs hc.1, if_neg (by simp [hc])]
  exact exists_fault_of_means h _ ⟨_, if_neg hv, rfl⟩

/-- A numeral behind a star or an at sign is an address if it fits in 32 bits without a sign. -/
theorem parseTrimmed_of_sigil (hc : c = '*' ∨ c = '@') {v : Int} (h : Numeral.Means cs v) :
    (0 ≤ v ∧ v ≤ 2 ^ 32 - 1 → parseTrimmed (c :: cs) = .ok (.direct v)) ∧
      (¬ (0 ≤ v ∧ v ≤ 2 ^ 32 - 1) →
        ∃ f, parseTrimmed (c :: cs) = .error f ∧ f.kind = .address) := by
  refine ⟨fun hv => parseTrimmed_of_spelled (.direct hc h hv), fun hv => ?_⟩
  have hne : c ≠ '$' := by rcases hc with rfl | rfl <;> decide
  rw [parseTrimmed.eq_3 c cs hne, if_pos hc]
  exact exists_fault_of_means h _ ⟨_, if_neg hv, rfl⟩

theorem parseTrimmed_of_dollar (name : List Char) :
    (IsName name → parseTrimmed ('$' :: name) = .ok (.var (String.ofList name))) ∧
      (¬ IsName name → ∃ f, parseTrimmed ('$' :: name) = .error f ∧ f.kind = .address) := by
  refine ⟨fun h => parseTrimmed_of_spelled (.var h), fun h => ?_⟩
  rw [parseTrimmed]
  exact ⟨_, if_neg (mt isIdentifier_iff.mp h), rfl⟩

end Operand

/-- **Every operand is read as it is spelled.** With any blanks around it:

* a spelling of a number is that immediate if the number fits in 32 bits with a sign;
* behind a star or an at sign it is that address if the number fits in 32 bits without a sign;
* a dollar sign and a text that does not end in a blank are the variable of that name if the text is
  a name.

In all other cases the operand is at fault. -/
theorem parse_of_spelling {left right : List Char} (hleft : ∀ c ∈ left, Text.isBlank c = true)
    (hright : ∀ c ∈ right, Text.isBlank c = true) :
    (∀ s v, Numeral.Spells s v →
        Operand.ReadIf (-2 ^ 31 ≤ v ∧ v ≤ 2 ^ 31 - 1) (left ++ s ++ right) (.immediate v)) ∧
      (∀ s v sigil, Numeral.Spells s v → sigil = '*' ∨ sigil = '@' →
        Operand.ReadIf (0 ≤ v ∧ v ≤ 2 ^ 32 - 1) (left ++ sigil :: s ++ right) (.direct v)) ∧
      ∀ name : List Char, (∀ c, name.getLast? = some c → Text.isBlank c = false) →
        Operand.ReadIf (IsName name) (left ++ '$' :: name ++ right)
          (.var (String.ofList name)) := by
  refine ⟨fun s v hspells => ?_, fun s v sigil hspells hsigil => ?_, fun name hname => ?_⟩
  · have h := hspells.means
    obtain ⟨c, cs, rfl, -⟩ := h.exists_cons
    have hsolid := fun d hd => (h.solid d hd).1
    rw [Operand.ReadIf, Operand.parse_padded hleft hright (hsolid c List.mem_cons_self)
      fun d hd => hsolid d (List.mem_of_getLast? hd)]
    exact Operand.parseTrimmed_of_means h
  · have h := hspells.means
    have hblank : Text.isBlank sigil = false := by rcases hsigil with rfl | rfl <;> decide
    rw [Operand.ReadIf, Operand.parse_padded hleft hright hblank fun d hd => ?_]
    · exact Operand.parseTrimmed_of_sigil hsigil h
    · rcases List.mem_cons.mp (List.mem_of_getLast? hd) with rfl | hd
      · exact hblank
      · exact (h.solid d hd).1
  · have hdollar : Text.isBlank '$' = false := by decide
    rw [Operand.ReadIf, Operand.parse_padded hleft hright hdollar fun d hd => ?_]
    · exact Operand.parseTrimmed_of_dollar name
    · cases name with
      | nil =>
        cases hd
        exact hdollar
      | cons c cs => exact hname d (by rwa [List.getLast?_cons_cons] at hd)

/-- The least immediate, with a sign, a base and an underscore. -/
def leastText : List Char := ['-', '0', 'X', '8', '0', '0', '0', '_', '0', '0', '0', '0']

theorem spells_leastText : Numeral.Spells leastText (-2 ^ 31) := by
  have hzero : Numeral.Figure '0' 0 := .decimal ⟨by decide, 0x30, by decide⟩
  have height : Numeral.Figure '8' 8 := .decimal ⟨by decide, 0x30, by decide⟩
  have hlow : Numeral.Digits 16 ['0', '0', '0', '0'] [0, 0, 0, 0] :=
    .next hzero (by decide) (.next hzero (by decide) (.next hzero (by decide)
      (.last hzero (by decide))))
  have hdigits : Numeral.Digits 16 ['8', '0', '0', '0', '_', '0', '0', '0', '0']
      [8, 0, 0, 0, 0, 0, 0, 0] :=
    .next height (by decide) (.next hzero (by decide) (.next hzero (by decide)
      (.gap hzero (by decide) hlow)))
  exact .minus (@Numeral.Unsigned.based '0' 'X' 16 _ _ hzero (by decide) hdigits)

theorem parse_of_leastText :
    Numeral.Spells leastText (-2 ^ 31) ∧
      Operand.parse (String.ofList ([' '] ++ leastText ++ ['\t'])) = .ok (.immediate (-2 ^ 31)) ∧
      (∃ f, Operand.parse (String.ofList ([' '] ++ '@' :: leastText ++ ['\t'])) = .error f ∧
        f.kind = .address) ∧
      Operand.parse (String.ofList ([' '] ++ '$' :: ['_', '7'] ++ ['\t'])) = .ok (.var "_7") := by
  have hname : IsName ['_', '7'] := .intro (by decide) (List.forall_mem_singleton.mpr (by decide))
  have h := @parse_of_spelling [' '] ['\t'] (List.forall_mem_singleton.mpr (by decide))
    (List.forall_mem_singleton.mpr (by decide))
  refine ⟨spells_leastText, (h.1 _ _ spells_leastText).1 (by decide),
    (h.2.1 _ _ '@' spells_leastText (.inr rfl)).2 (by decide), ?_⟩
  exact (h.2.2 ['_', '7'] (by simp; decide)).1 hname

end TapeMachine

import Mathlib.Data.List.Basic
import TapeMachine.Text.Utf8

/-!
# Reading back UTF-8

`Text.Utf8.decode_toUTF8`: the bytes of a text are read as that text. A character takes one to four
bytes; `decodeFrom_char` is the step over one character, and for each of the four lengths it comes
down to arithmetic with the parts of a code point.
-/

namespace TapeMachine.Text.Utf8

/-! ## The bytes of a text -/

theorem toList_loop (bytes : ByteArray) (i : Nat) (acc : List UInt8) :
    ByteArray.toList.loop bytes i acc = acc.reverse ++ bytes.data.toList.drop i := by
  fun_induction ByteArray.toList.loop bytes i acc with
  | case1 i acc h ih =>
    have hi : i < bytes.data.toList.length := by simpa using h
    have hget : bytes.get! i = bytes.data.toList[i] := by
      rw [Array.getElem_toList]
      exact getElem!_pos bytes.data i (by simpa using h)
    rw [ih, List.drop_eq_getElem_cons hi, hget, List.reverse_cons, List.append_assoc]
    rfl
  | case2 i acc h =>
    have hi : bytes.data.toList.length ≤ i := by simpa using h
    rw [List.drop_eq_nil_of_le hi, List.append_nil]

theorem toList_toUTF8 (s : String) : s.toUTF8.toList = s.toList.flatMap String.utf8EncodeChar := by
  conv_lhs => rw [← String.ofList_toList (s := s)]
  rw [String.toUTF8_eq_toByteArray, String.toByteArray_ofList, List.utf8Encode, ByteArray.toList,
    toList_loop]
  simp

/-! ## One character -/

theorem decodeFrom_skip (position : Nat) (bs rest : List UInt8) :
    decodeFrom position bs.length (bs ++ rest) = decodeFrom (position + bs.length) 0 rest := by
  induction bs generalizing position with
  | nil => rfl
  | cons b bs ih =>
    rw [List.cons_append, List.length_cons, decodeFrom, ih]
    exact congrArg (decodeFrom · 0 rest) (by omega)

/-- A leading byte and the bytes that belong to it make one character. -/
theorem decodeFrom_lead {b : UInt8} {bs : List UInt8} (value : Nat) {rest : List UInt8}
    (hn : trailing? b = some bs.length)
    (hvalue : continueWith (secondRange b).1 (secondRange b).2 (leadBits b bs.length) 1 bs.length
      (bs ++ rest) = .ok value) (position : Nat) :
    decodeFrom position 0 (b :: bs ++ rest) =
      (decodeFrom (position + (b :: bs).length) 0 rest).map (Char.ofNat value :: ·) := by
  have hposition : position + 1 + bs.length = position + (b :: bs).length := by
    rw [List.length_cons]
    omega
  rw [List.cons_append, decodeFrom, hn]
  simp only [hvalue]
  rw [decodeFrom_skip, hposition]
  rfl

/-- A byte in the given range continues a character. -/
theorem continueWith_cons {low high : UInt8} {x : Nat} (hx : x < 256) (hlow : low.toNat ≤ x)
    (hhigh : x ≤ high.toNat) (value taken n : Nat) (bs : List UInt8) :
    continueWith low high value taken (n + 1) (UInt8.ofNat x :: bs) =
      continueWith 0x80 0xBF (value * 0x40 + x % 0x40) (taken + 1) n bs := by
  have htoNat : (UInt8.ofNat x).toNat = x := UInt8.toNat_ofNat_of_lt' hx
  have hrange : (decide (low ≤ UInt8.ofNat x) && decide (UInt8.ofNat x ≤ high)) = true := by
    simp [UInt8.le_iff_toNat_le, htoNat, hlow, hhigh]
  rw [continueWith, if_pos hrange, htoNat]

/-- A byte that is not the second continues a character if it is a continuation at all. -/
theorem continueWith_tail (x value taken n : Nat) (bs : List UInt8) :
    continueWith 0x80 0xBF value taken (n + 1) (UInt8.ofNat (x % 64 + 128) :: bs) =
      continueWith 0x80 0xBF (value * 0x40 + x % 64) (taken + 1) n bs := by
  have hhigh : x % 64 + 128 ≤ 0xBF := by omega
  have hbits : (x % 64 + 128) % 0x40 = x % 64 := by omega
  rw [continueWith_cons (by omega) (Nat.le_add_left 128 _) hhigh, hbits]

theorem trailing?_eq (b : UInt8) :
    trailing? b =
      if b.toNat < 0x80 then some 0
      else if b.toNat < 0xC2 then none
      else if b.toNat < 0xE0 then some 1
      else if b.toNat < 0xF0 then some 2
      else if b.toNat < 0xF5 then some 3
      else none := by
  simp only [trailing?, UInt8.lt_iff_toNat_lt]
  rfl

theorem toNat_secondRange (b : UInt8) :
    (secondRange b).1.toNat =
        (if b.toNat = 0xE0 then 0xA0 else if b.toNat = 0xF0 then 0x90 else 0x80) ∧
      (secondRange b).2.toNat =
        if b.toNat = 0xED then 0x9F else if b.toNat = 0xF4 then 0x8F else 0xBF := by
  have heq : ∀ x : UInt8, b = x ↔ b.toNat = x.toNat := fun x => UInt8.toNat_inj.symm
  simp only [secondRange, heq]
  by_cases h₁ : b.toNat = 0xE0
  · simp [h₁]
  by_cases h₂ : b.toNat = 0xED
  · simp [h₂]
  by_cases h₃ : b.toNat = 0xF0
  · simp [h₃]
  by_cases h₄ : b.toNat = 0xF4
  · simp [h₄]
  simp [h₁, h₂, h₃, h₄]

/-! ### The four lengths -/

section Lengths

variable {v : Nat} (position : Nat) (rest : List UInt8)

theorem decodeFrom_one (h : v ≤ 0x7F) :
    decodeFrom position 0 ([UInt8.ofNat v] ++ rest) =
      (decodeFrom (position + 1) 0 rest).map (Char.ofNat v :: ·) := by
  have hb := UInt8.toNat_ofNat_of_lt' (show v < 256 by omega)
  refine decodeFrom_lead v ?_ ?_ position
  · rw [trailing?_eq, hb, if_pos (by omega)]
    rfl
  · rw [List.length_nil, continueWith, leadBits, hb]

theorem decodeFrom_two (h : 0x7F < v) (h' : v ≤ 0x7FF) :
    decodeFrom position 0
        ([UInt8.ofNat (v / 64 % 32 + 192), UInt8.ofNat (v % 64 + 128)] ++ rest) =
      (decodeFrom (position + 2) 0 rest).map (Char.ofNat v :: ·) := by
  have hb := UInt8.toNat_ofNat_of_lt' (show v / 64 % 32 + 192 < 256 by omega)
  obtain ⟨hlow, hhigh⟩ := toNat_secondRange (UInt8.ofNat (v / 64 % 32 + 192))
  rw [hb] at hlow hhigh
  refine decodeFrom_lead v ?_ ?_ position
  · rw [trailing?_eq, hb, if_neg (by omega), if_neg (by omega), if_pos (by omega)]
    rfl
  · simp only [List.length_singleton, List.singleton_append, leadBits, hb]
    rw [continueWith_cons (by omega) (by rw [hlow]; split_ifs <;> omega)
      (by rw [hhigh]; split_ifs <;> omega), continueWith]
    exact congrArg Except.ok (by omega)

theorem decodeFrom_three (h : 0x7FF < v) (h' : v ≤ 0xFFFF) (hvalid : v < 0xD800 ∨ 0xDFFF < v) :
    decodeFrom position 0
        ([UInt8.ofNat (v / 4096 % 16 + 224), UInt8.ofNat (v / 64 % 64 + 128),
          UInt8.ofNat (v % 64 + 128)] ++ rest) =
      (decodeFrom (position + 3) 0 rest).map (Char.ofNat v :: ·) := by
  have hb := UInt8.toNat_ofNat_of_lt' (show v / 4096 % 16 + 224 < 256 by omega)
  obtain ⟨hlow, hhigh⟩ := toNat_secondRange (UInt8.ofNat (v / 4096 % 16 + 224))
  rw [hb] at hlow hhigh
  refine decodeFrom_lead v ?_ ?_ position
  · rw [trailing?_eq, hb, if_neg (by omega), if_neg (by omega), if_neg (by omega),
      if_pos (by omega)]
    rfl
  · simp only [List.length_cons, List.length_nil, List.cons_append, List.nil_append, leadBits, hb]
    rw [continueWith_cons (by omega) (by rw [hlow]; split_ifs <;> omega)
      (by rw [hhigh]; split_ifs <;> omega),
      continueWith_tail, continueWith]
    exact congrArg Except.ok (by omega)

theorem decodeFrom_four (h : 0xFFFF < v) (h' : v < 0x110000) :
    decodeFrom position 0
        ([UInt8.ofNat (v / 262144 % 8 + 240), UInt8.ofNat (v / 4096 % 64 + 128),
          UInt8.ofNat (v / 64 % 64 + 128), UInt8.ofNat (v % 64 + 128)] ++ rest) =
      (decodeFrom (position + 4) 0 rest).map (Char.ofNat v :: ·) := by
  have hb := UInt8.toNat_ofNat_of_lt' (show v / 262144 % 8 + 240 < 256 by omega)
  obtain ⟨hlow, hhigh⟩ := toNat_secondRange (UInt8.ofNat (v / 262144 % 8 + 240))
  rw [hb] at hlow hhigh
  refine decodeFrom_lead v ?_ ?_ position
  · rw [trailing?_eq, hb, if_neg (by omega), if_neg (by omega), if_neg (by omega),
      if_neg (by omega), if_pos (by omega)]
    rfl
  · simp only [List.length_cons, List.length_nil, List.cons_append, List.nil_append, leadBits, hb]
    rw [continueWith_cons (by omega) (by rw [hlow]; split_ifs <;> omega)
      (by rw [hhigh]; split_ifs <;> omega),
      continueWith_tail, continueWith_tail, continueWith]
    exact congrArg Except.ok (by omega)

end Lengths

/-- The step over one character. -/
theorem decodeFrom_char (c : Char) (position : Nat) (rest : List UInt8) :
    decodeFrom position 0 (String.utf8EncodeChar c ++ rest) =
      (decodeFrom (position + (String.utf8EncodeChar c).length) 0 rest).map (c :: ·) := by
  have hvalid : c.val.toNat < 0xD800 ∨ 0xDFFF < c.val.toNat ∧ c.val.toNat < 0x110000 := c.valid
  have hchar : Char.ofNat c.val.toNat = c := Char.ofNat_toNat c
  rw [String.utf8EncodeChar]
  generalize c.val.toNat = v at hvalid hchar
  subst hchar
  split_ifs with h₁ h₂ h₃
  · exact decodeFrom_one position rest h₁
  · exact decodeFrom_two position rest (by omega) h₂
  · exact decodeFrom_three position rest (by omega) h₃ (by omega)
  · exact decodeFrom_four position rest (by omega) (by omega)

/-- **The bytes of a text are read as that text.** -/
theorem decode_toUTF8 (s : String) : decode s.toUTF8.toList = .ok s.toList := by
  have hdecode : ∀ (cs : List Char) (position : Nat),
      decodeFrom position 0 (cs.flatMap String.utf8EncodeChar) = .ok cs := by
    intro cs
    induction cs with
    | nil => exact fun position => rfl
    | cons c cs ih =>
      intro position
      rw [List.flatMap_cons, decodeFrom_char, ih]
      rfl
  rw [toList_toUTF8]
  exact hdecode s.toList 0

end TapeMachine.Text.Utf8

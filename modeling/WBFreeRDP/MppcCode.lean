/-
# The codes of MPPC

Literals, copy offsets and lengths of match are prefix codes.  The sender builds a field from a tag
and the low bits of the value; the receiver compares the leading bits of the accumulator with one
pattern after the other.
-/
import WBFreeRDP.Mppc
import Mathlib.Data.Nat.Log
import Mathlib.Tactic.IntervalCases

namespace WBFreeRDP.Mppc

open Bits Bulk History Nat

/-! ## Codes are read back -/

/-- The bits of a field. -/
def fieldBits : Option Field → List Bool
  | none => []
  | some (bits, nbits) => natBits nbits bits

/-- The value of a field fits its length, which a write can handle. -/
def Fits (f : Field) : Prop := f.1 < 2 ^ f.2 ∧ f.2 < 32

def sizeOf (compressionLevel : ℕ) : ℕ := if compressionLevel ≠ 0 then 65536 else 8192

variable {level : ℕ}

/-- A field by which a value is coded so that the reader gets it back: the reader looks at the top
bits of the accumulator only. -/
def Codes (field : Option Field) (read : BitVec 32 → Option Field) (x lo hi : ℕ) : Prop :=
  ∃ v n, field = some (v, n) ∧ Fits (v, n) ∧ lo ≤ n ∧ n ≤ hi ∧
    ∀ acc : BitVec 32, acc.toNat / 2 ^ (32 - n) = v → read acc = some (x, n)

/-- **Copy offsets are coded.** -/
theorem codes_offset (hoff : off < sizeOf level) :
    Codes (offsetField level off) (readOffset level) off 10 19 := by
  unfold Codes
  unfold sizeOf at hoff
  simp (disch := decide) only [offsetField, readOffset, or_and_low, and_mask_eq_iff,
    shift_and_toNat, BitVec.reduceNeg, BitVec.reduceToNat]
  split_ifs at hoff ⊢
  all_goals try omega
  all_goals
    refine ⟨_, _, rfl, ⟨by simp only; omega, by simp⟩, by simp, by simp, fun acc hacc => ?_⟩
    repeat rw [if_neg (by omega)]
    rw [if_pos (by omega)]
    simp only [Option.some.injEq, Prod.mk.injEq, and_true]
    omega

/-- The code of a length from `2 ^ (k + 1)` to `2 ^ (k + 2) - 1`: `k` ones, a zero and the low
`k + 1` bits. -/
theorem lengthField_eq (hk : 1 ≤ k) (hk' : k ≤ 14) (hlevel : k ≤ 11 ∨ level ≠ 0)
    (hlo : 2 ^ (k + 1) ≤ L) (hhi : L < 2 ^ (k + 2)) :
    lengthField level L = some ((2 ^ k - 1) * 2 ^ (k + 2) + (L - 2 ^ (k + 1)), 2 * k + 2) := by
  unfold lengthField
  interval_cases k
  all_goals
    repeat rw [if_neg (by omega)]
    rw [if_pos (by omega), or_and_low _ _ _ (by decide) (by decide)]
    simp only [Option.some.injEq, Prod.mk.injEq, and_true]
    omega

theorem readLength_eq (hk : 1 ≤ k) (hk' : k ≤ 14) (hlevel : k ≤ 11 ∨ level ≠ 0)
    (acc) (hacc : acc.toNat / 2 ^ (31 - k) = 2 ^ (k + 1) - 2) : readLength level acc =
      some (acc.toNat / 2 ^ (30 - 2 * k) % 2 ^ (k + 1) + 2 ^ (k + 1), 2 * k + 2) := by
  unfold readLength
  interval_cases k
  all_goals
    repeat
      rw [if_neg (by
        simp (disch := decide) only [and_mask_eq_iff, BitVec.reduceNeg, BitVec.reduceToNat]
        omega)]
    rw [if_pos (by
      simp (disch := decide) only [and_mask_eq_iff, BitVec.reduceNeg, BitVec.reduceToNat]
      omega), shift_and_toNat _ _ (by decide)]
    rfl

/-- **Lengths are coded.** -/
theorem codes_length (h3 : 3 ≤ L) (hL : L < sizeOf level) :
    Codes (lengthField level L) (readLength level) L 1 30 := by
  by_cases hL3 : L = 3
  · subst hL3
    refine ⟨0, 1, rfl, ⟨by decide, by decide⟩, by omega, by omega, fun acc hacc => ?_⟩
    have htop : acc &&& 0x80000000 = 0 := (and_mask_eq_iff acc (by decide) (by decide)).mpr hacc
    rw [readLength, if_pos htop]
  -- `k` is the number of leading ones
  have hL0 : L ≠ 0 := by omega
  have hlow : 2 ^ Nat.log 2 L ≤ L := pow_log_le_self 2 hL0
  have hupp : L < 2 ^ (Nat.log 2 L + 1) := lt_pow_succ_log_self (by omega) L
  have hlog2 : 2 ≤ Nat.log 2 L := (le_log_iff_pow_le (by omega) hL0).mpr (by omega)
  obtain ⟨k, hk⟩ : ∃ k, Nat.log 2 L = k + 1 := ⟨Nat.log 2 L - 1, by omega⟩
  rw [hk] at hlow hupp hlog2
  have hbound : k ≤ 14 ∧ (k ≤ 11 ∨ level ≠ 0) := by
    unfold sizeOf at hL
    by_cases hl : level ≠ 0
    · rw [if_pos hl] at hL
      have := (Nat.pow_lt_pow_iff_right (a := 2) (by omega)).mp
        (show 2 ^ (k + 1) < 2 ^ 16 by omega)
      omega
    · rw [if_neg hl] at hL
      have := (Nat.pow_lt_pow_iff_right (a := 2) (by omega)).mp
        (show 2 ^ (k + 1) < 2 ^ 13 by omega)
      omega
  have hp1 : 2 ^ (k + 1) = 2 * 2 ^ k := by omega
  have hp2 : (2 ^ k - 1) * 2 ^ (k + 2) = (2 ^ (k + 1) - 2) * 2 ^ (k + 1) := by
    rw [hp1, show 2 * 2 ^ k - 2 = (2 ^ k - 1) * 2 by omega, mul_assoc]
    congr 1
    rw [← hp1, ← pow_succ']
  refine ⟨_, _, lengthField_eq (by omega) hbound.1 hbound.2 hlow hupp, ⟨?_, by omega⟩,
    by omega, by omega, ?_⟩
  · rw [show 2 * k + 2 = (k + 1) + (k + 1) by omega, pow_add 2 (k + 1) (k + 1), hp2, Nat.sub_mul]
    have hsq : 2 * 2 ^ (k + 1) ≤ 2 ^ (k + 1) * 2 ^ (k + 1) := mul_le_mul_right _ (by omega)
    omega
  intro acc hacc
  rw [show 32 - (2 * k + 2) = 30 - 2 * k by omega, hp2] at hacc
  have hrem : L - 2 ^ (k + 1) < 2 ^ (k + 1) := by
    omega
  have htop : acc.toNat / 2 ^ (31 - k) = 2 ^ (k + 1) - 2 := by
    rw [show 31 - k = (30 - 2 * k) + (k + 1) by omega, pow_add, ← Nat.div_div_eq_div_mul, hacc,
      mul_comm, mul_add_div (Nat.two_pow_pos _), div_eq_of_lt hrem, add_zero]
  rw [readLength_eq (by omega) hbound.1 hbound.2 acc htop, hacc, mul_comm,
    mul_add_mod, mod_eq_of_lt hrem, Nat.sub_add_cancel hlow]

theorem literalField_eq (b) :
    literalField b = if b.toNat < 128 then (b.toNat, 8) else (128 + b.toNat, 9) := by
  have hb := b.toNat_lt
  unfold literalField
  rw [or_and_low _ _ _ (by decide) (by decide)]
  split_ifs
  · rfl
  · simp only [Prod.mk.injEq, and_true]
    omega

theorem literalField_fits (b) : Fits (literalField b) ∧ 8 ≤ (literalField b).2 ∧
    (literalField b).2 ≤ 9 := by
  have hb := b.toNat_lt
  rw [literalField_eq]
  by_cases h : b.toNat < 128
  · rw [if_pos h]
    exact ⟨⟨by omega, by simp⟩, by simp, by simp⟩
  · rw [if_neg h]
    exact ⟨⟨by simp only; omega, by simp⟩, by simp, by simp⟩

theorem readOffset_top (h : readOffset level acc = some f) : acc.toNat / 2 ^ 30 = 3 := by
  simp (disch := decide) only [readOffset, and_mask_eq_iff, BitVec.reduceNeg, BitVec.reduceToNat]
    at h
  split_ifs at h <;> omega

variable {bs : BitStream} {x lo hi : ℕ}

theorem Codes.read {read} (hc : Codes field read x lo hi) (h : bs.Reads (fieldBits field ++ rest)) :
    ∃ n, read bs.accumulator = some (x, n) ∧ (bs.shift n).Reads rest := by
  obtain ⟨v, n, rfl, hfits, -, -, hread⟩ := hc
  refine ⟨n, hread _ (h.accumulator.peek_natBits hfits.2.le hfits.1), ?_⟩
  exact h.shift_natBits hfits.2

theorem Codes.length_fieldBits {read} (hc : Codes field read x lo hi) :
    lo ≤ (fieldBits field).length ∧ (fieldBits field).length ≤ hi := by
  obtain ⟨v, n, rfl, -, hlo, hhi, -⟩ := hc
  rw [fieldBits, natBits_length]
  exact ⟨hlo, hhi⟩

theorem writeField_wrote (hf : Fits f)
    (h : bs.Wrote w) (hroom : w.length + f.2 ≤ 8 * bs.buffer.length)
    (hsmall : w.length + f.2 < 2 ^ 32) : (writeField bs (some f)).Wrote (w ++ fieldBits (some f)) ∧
      (writeField bs (some f)).buffer.length = bs.buffer.length :=
  ⟨h.writeBits hf.1 hf.2 hroom hsmall, BitStream.writeBits_length bs f.1 f.2⟩

theorem Codes.write {read} (hc : Codes field read x lo hi) (h : bs.Wrote w)
    (hroom : w.length + hi ≤ 8 * bs.buffer.length) (hsmall : w.length + hi < 2 ^ 32) :
    (writeField bs field).Wrote (w ++ fieldBits field) ∧
      (writeField bs field).buffer.length = bs.buffer.length := by
  obtain ⟨v, n, rfl, hfits, hlo, hhi, -⟩ := hc
  exact writeField_wrote hfits h (by omega) (by omega)

end WBFreeRDP.Mppc

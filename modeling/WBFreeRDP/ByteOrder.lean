/-
# Numbers as bytes

A number is written with a fixed count of bytes, the low one first (`leBytes`) or the high one first
(`beBytes`), and read back from the front of a list (`readLE`, `readBE`).
-/
import Mathlib.Data.BitVec

namespace WBFreeRDP

open List

/-- The low `w` bytes of a number, the lowest first. -/
def leBytes : ℕ → ℕ → List UInt8
  | 0, _ => []
  | w + 1, n => UInt8.ofNat n :: leBytes w (n / 256)

def leNat : List UInt8 → ℕ
  | [] => 0
  | b :: l => b.toNat + 256 * leNat l

/-- The low `w` bytes of a number, the highest first. -/
def beBytes (w n : ℕ) : List UInt8 := (leBytes w n).reverse

def beNat (l : List UInt8) : ℕ := leNat l.reverse

@[simp] theorem leBytes_length (w n) : (leBytes w n).length = w := by
  induction w generalizing n with
  | zero => rfl
  | succ w ih => rw [leBytes, length_cons, ih]

@[simp] theorem beBytes_length (w n) : (beBytes w n).length = w := by
  rw [beBytes, length_reverse, leBytes_length]

theorem leNat_leBytes (h : n < 256 ^ w) : leNat (leBytes w n) = n := by
  induction w generalizing n with
  | zero =>
    exact (Nat.lt_one_iff.mp h).symm
  | succ w ih =>
  rw [leBytes, leNat, ih (Nat.div_lt_of_lt_mul (by rwa [pow_succ'] at h))]
  exact Nat.mod_add_div n 256

/-- A number of `w` bytes at the front of a list, the low byte first, and the rest of the list. -/
def readLE (w : ℕ) (l : List UInt8) : Option (ℕ × List UInt8) :=
  if l.length < w then none else some (leNat (l.take w), l.drop w)

/-- A number of `w` bytes at the front of a list, the high byte first, and the rest of the list. -/
def readBE (w : ℕ) (l : List UInt8) : Option (ℕ × List UInt8) :=
  if l.length < w then none else some (beNat (l.take w), l.drop w)

theorem readLE_leBytes (h : n < 256 ^ w) (rest) :
    readLE w (leBytes w n ++ rest) = some (n, rest) := by
  rw [readLE, if_neg (by rw [length_append, leBytes_length]; omega),
    take_left' (leBytes_length w n), drop_left' (leBytes_length w n), leNat_leBytes h]

theorem readBE_beBytes (h : n < 256 ^ w) (rest) :
    readBE w (beBytes w n ++ rest) = some (n, rest) := by
  rw [readBE, if_neg (by rw [length_append, beBytes_length]; omega),
    take_left' (beBytes_length w n),
    drop_left' (beBytes_length w n), beNat, beBytes, reverse_reverse, leNat_leBytes h]

theorem beNat_concat (l b) : beNat (l ++ [b]) = beNat l * 256 + b.toNat := by
  rw [beNat, reverse_append]
  show b.toNat + 256 * leNat l.reverse = leNat l.reverse * 256 + b.toNat
  omega

theorem and_0x80_ne_zero (b : UInt8) : b &&& 0x80 ≠ 0 ↔ 128 ≤ b.toNat := by
  have h : ∀ n : Fin 256, UInt8.ofNat n &&& 0x80 ≠ 0 ↔ 128 ≤ n.val := by decide +kernel
  simpa using h ⟨b.toNat, b.toNat_lt⟩

theorem and_0x7F_toNat (b : UInt8) (h : 128 ≤ b.toNat) : (b &&& 0x7F).toNat = b.toNat - 128 := by
  have hall : ∀ n : Fin 256, 128 ≤ n.val → (UInt8.ofNat n &&& 0x7F).toNat = n.val - 128 := by
    decide +kernel
  simpa using hall ⟨b.toNat, b.toNat_lt⟩ h

end WBFreeRDP

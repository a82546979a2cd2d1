/-
# Bits from the low end

A stream that is filled and read from its low end is a number: bytes and bit fields are its digits,
the first one lowest.  Writing a field adds it above the bits already there, reading takes a
remainder and a quotient.
-/
import Mathlib.Data.Nat.Digits.Lemmas

namespace LowBits

open List Nat

/-! ## Bytes -/

/-- The number of a list of bytes, the first byte lowest. -/
def bytesNat (l : List UInt8) : ℕ := Nat.ofDigits 256 (l.map UInt8.toNat)

@[simp] theorem bytesNat_nil : bytesNat [] = 0 := rfl

theorem bytesNat_cons (b l) : bytesNat (b :: l) = b.toNat + 256 * bytesNat l := by
  simp [bytesNat, ofDigits_cons]

theorem bytesNat_append (a b) :
    bytesNat (a ++ b) = bytesNat a + 2 ^ (8 * a.length) * bytesNat b := by
  unfold bytesNat
  rw [map_append, ofDigits_append, length_map, pow_mul]
  rfl

/-! ## Fields -/

/-- A bit field: its value and its width. -/
abbrev Field := ℕ × ℕ

/-- The number that fields form, the first one lowest. -/
def fieldsNat : List Field → ℕ
  | [] => 0
  | f :: fs => f.1 + 2 ^ f.2 * fieldsNat fs

def fieldsWidth (fs : List Field) : ℕ := (fs.map Prod.snd).sum

def Fits (f : Field) : Prop := f.1 < 2 ^ f.2

@[simp] theorem fieldsNat_nil : fieldsNat [] = 0 := rfl

@[simp] theorem fieldsWidth_nil : fieldsWidth [] = 0 := rfl

theorem fieldsWidth_cons (f fs) : fieldsWidth (f :: fs) = f.2 + fieldsWidth fs := by
  simp [fieldsWidth]

theorem fieldsWidth_append (fs gs) : fieldsWidth (fs ++ gs) = fieldsWidth fs + fieldsWidth gs := by
  simp [fieldsWidth]

theorem fieldsNat_append (fs gs) :
    fieldsNat (fs ++ gs) = fieldsNat fs + 2 ^ fieldsWidth fs * fieldsNat gs := by
  induction fs with
  | nil => simp
  | cons f fs ih =>
  rw [cons_append, fieldsNat, ih, fieldsNat, fieldsWidth_cons]
  ring

theorem fieldsNat_cons_mod (hf : Fits f) (fs) : fieldsNat (f :: fs) % 2 ^ f.2 = f.1 := by
  rw [fieldsNat, add_mul_mod_self_left, mod_eq_of_lt hf]

theorem fieldsNat_cons_div (hf : Fits f) (fs) : fieldsNat (f :: fs) / 2 ^ f.2 = fieldsNat fs := by
  rw [fieldsNat, add_mul_div_left _ _ (Nat.two_pow_pos f.2), div_eq_of_lt hf, zero_add]

/-! ## Tables -/

/-- The table finds the entry `e` from any `k` bits whose lowest are the code. -/
def Decodes (table : ℕ → ℕ) (k : ℕ) (code : Field) (e : ℕ) : Prop :=
  ∀ x < 2 ^ k, x % 2 ^ code.2 = code.1 → table x = e

theorem decodes_of_forall (hk : code.2 ≤ k)
    (h : ∀ j < 2 ^ (k - code.2), table (code.1 + 2 ^ code.2 * j) = e) : Decodes table k code e := by
  intro x hx hcode
  have hj : x / 2 ^ code.2 < 2 ^ (k - code.2) := by
    rw [Nat.div_lt_iff_lt_mul (Nat.two_pow_pos _), ← pow_add, Nat.sub_add_cancel hk]
    exact hx
  rw [← h _ hj, ← hcode, mod_add_div]

theorem Decodes.lookup (h : Decodes table k code e) (hfits : Fits code) (hk : code.2 ≤ k) (fs) :
    table (fieldsNat (code :: fs) % 2 ^ k) = e := by
  refine h _ (mod_lt _ (Nat.two_pow_pos k)) ?_
  rw [mod_mod_of_dvd _ (pow_dvd_pow 2 hk), fieldsNat_cons_mod hfits]

end LowBits

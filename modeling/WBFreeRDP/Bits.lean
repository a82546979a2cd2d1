/-
# Bits of numbers and of byte strings

A small library of bit lists, most significant bit first, for codecs that write fields of
`n` bits one after the other and read them back from a 32-bit window.
-/
import Mathlib.Data.List.Basic
import Mathlib.Data.Nat.Bitwise
import Mathlib.Tactic.Ring

namespace Bits

open List Nat

/-! ## Fields of `n` bits -/

/-- The low `n` bits of `v`, most significant bit first. -/
def natBits : ℕ → ℕ → List Bool
  | 0, _ => []
  | n + 1, v => v.testBit n :: natBits n v

/-- The number a bit list stands for, most significant bit first. -/
def bitsVal : List Bool → ℕ
  | [] => 0
  | b :: l => b.toNat * 2 ^ l.length + bitsVal l

@[simp] theorem natBits_zero (v) : natBits 0 v = [] := rfl

theorem natBits_succ (n v) : natBits (n + 1) v = v.testBit n :: natBits n v := rfl

@[simp] theorem natBits_length (n v) : (natBits n v).length = n := by
  induction n with
  | zero => rfl
  | succ n ih => rw [natBits_succ, length_cons, ih]

/-- Bit `i` of a field is bit `n - 1 - i` of the value. -/
theorem natBits_getElem? (n v i) :
    (natBits n v)[i]? = if i < n then some (v.testBit (n - 1 - i)) else none := by
  induction n generalizing i with
  | zero => simp
  | succ n ih =>
  rw [natBits_succ]
  rcases i with _ | i
  · simp
  rw [List.getElem?_cons_succ, ih]
  by_cases h : i < n
  · rw [if_pos h, if_pos (by omega), show n + 1 - 1 - (i + 1) = n - 1 - i by omega]
  · rw [if_neg h, if_neg (by omega)]

theorem natBits_getD (n v i) :
    (natBits n v).getD i false = (decide (i < n) && v.testBit (n - 1 - i)) := by
  rw [getD_eq_getElem?_getD, natBits_getElem?]
  by_cases h : i < n <;> simp [h]

/-- A field is made of the low `n` bits. -/
theorem natBits_mod (n v) : natBits n (v % 2 ^ n) = natBits n v := by
  apply ext_getElem?
  intro i
  rw [natBits_getElem?, natBits_getElem?]
  by_cases h : i < n
  · simp [show n - 1 - i < n by omega]
  · rw [if_neg h, if_neg h]

/-- A field of `m + n` bits is a field of `m` bits followed by one of `n` bits. -/
theorem natBits_add (m n v) : natBits (m + n) v = natBits m (v / 2 ^ n) ++ natBits n v := by
  induction m with
  | zero => simp
  | succ m ih =>
  rw [show m + 1 + n = (m + n) + 1 by omega, natBits_succ, natBits_succ, ih,
    testBit_div_two_pow]
  rfl

theorem natBits_zero_right (n) : natBits n 0 = replicate n false := by
  induction n with
  | zero => rfl
  | succ n ih => rw [natBits_succ, ih, zero_testBit, replicate_succ]

theorem natBits_ones (n) : natBits n (2 ^ n - 1) = replicate n true := by
  apply ext_getElem?
  intro i
  rw [natBits_getElem?, List.getElem?_replicate]
  by_cases h : i < n
  · simp [show n - 1 - i < n by omega]
  · rw [if_neg h, if_neg h]

@[simp] theorem bitsVal_nil : bitsVal [] = 0 := rfl

theorem bitsVal_cons (b l) : bitsVal (b :: l) = b.toNat * 2 ^ l.length + bitsVal l := rfl

/-- The front of a list is the high part of the value. -/
theorem bitsVal_append (a b) : bitsVal (a ++ b) = bitsVal a * 2 ^ b.length + bitsVal b := by
  induction a with
  | nil => simp
  | cons x a ih =>
  rw [cons_append, bitsVal_cons, bitsVal_cons, ih, length_append]
  ring

/-- A field has the value that was written, modulo `2 ^ n`. -/
theorem bitsVal_natBits (n v) : bitsVal (natBits n v) = v % 2 ^ n := by
  induction n with
  | zero => simp [mod_one]
  | succ n ih =>
  rw [natBits_succ, bitsVal_cons, ih, testBit_eq_decide_div_mod_eq, mod_pow_succ]
  rcases mod_two_eq_zero_or_one (v / 2 ^ n) with h | h <;> simp [h]
  ring

theorem bitsVal_natBits_of_lt (h : v < 2 ^ n) : bitsVal (natBits n v) = v := by
  rw [bitsVal_natBits, mod_eq_of_lt h]

theorem bitsVal_replicate_false (n) : bitsVal (replicate n false) = 0 := by
  rw [← natBits_zero_right, bitsVal_natBits, zero_mod]

/-! ## Byte strings -/

/-- The bits of bytes, from the high bit of the first on. -/
def byteBits (l : List UInt8) : List Bool := l.flatMap fun b => natBits 8 b.toNat

@[simp] theorem byteBits_nil : byteBits [] = [] := rfl

@[simp] theorem byteBits_cons (b l) : byteBits (b :: l) = natBits 8 b.toNat ++ byteBits l := rfl

@[simp] theorem byteBits_append (a b) : byteBits (a ++ b) = byteBits a ++ byteBits b :=
  flatMap_append

variable (l : List UInt8)

@[simp] theorem byteBits_length : (byteBits l).length = 8 * l.length := by
  induction l with
  | nil => rfl
  | cons b l ih =>
  rw [byteBits_cons, length_append, natBits_length, length_cons]
  omega

theorem byteBits_drop (n) : (byteBits l).drop (8 * n) = byteBits (l.drop n) := by
  induction n generalizing l with
  | zero => rfl
  | succ n ih =>
  rcases l with _ | ⟨b, l⟩
  · simp
  rw [byteBits_cons, drop_succ_cons, ← ih l,
    show 8 * (n + 1) = (natBits 8 b.toNat).length + 8 * n by rw [natBits_length]; omega,
    ← drop_drop, drop_left]

theorem byteBits_take (n) : (byteBits l).take (8 * n) = byteBits (l.take n) := by
  by_cases h : n ≤ l.length
  · conv_lhs => rw [← take_append_drop n l, byteBits_append]
    rw [take_left' (by rw [byteBits_length, length_take, min_eq_left h])]
  · rw [take_of_length_le (show l.length ≤ n by omega),
      take_of_length_le (by rw [byteBits_length]; omega)]

/-- Bit `j` of byte `q`. -/
theorem byteBits_getD (hj : j < 8) :
    (byteBits l).getD (8 * q + j) false = (l.getD q 0).toNat.testBit (7 - j) := by
  have hdrop : (byteBits l).getD (8 * q + j) false = (byteBits (l.drop q)).getD j false := by
    rw [← byteBits_drop, getD_eq_getElem?_getD, getD_eq_getElem?_getD, List.getElem?_drop]
  have hhead : l.getD q 0 = (l.drop q).getD 0 0 := by
    rw [getD_eq_getElem?_getD, getD_eq_getElem?_getD, List.getElem?_drop, add_zero]
  rw [hdrop, hhead]
  cases l.drop q with
  | nil => simp
  | cons b t =>
  rw [byteBits_cons, getD_append _ _ _ _ (by exact hj), natBits_getD]
  simp [hj]

/-- Storing a byte changes its own bits only. -/
theorem byteBits_set_getD (hp : p < l.length) (b) (i) : (byteBits (l.set p b)).getD i false =
      if i / 8 = p then b.toNat.testBit (7 - i % 8) else (byteBits l).getD i false := by
  have hsplit : i = 8 * (i / 8) + i % 8 := by omega
  have hlt : i % 8 < 8 := mod_lt _ (by omega)
  conv_lhs => rw [hsplit, byteBits_getD _ hlt]
  conv_rhs => rw [hsplit, byteBits_getD _ hlt, ← hsplit]
  rw [getD_eq_getElem?_getD, List.getElem?_set]
  by_cases h : i / 8 = p
  · rw [if_pos h.symm, if_pos h, if_pos hp, Option.getD_some]
  · rw [if_neg (fun hh => h hh.symm), if_neg h, getD_eq_getElem?_getD]

/-- A list that agrees with a shorter one has zeros behind it. -/
theorem eq_append_replicate_false (hlen : b.length ≤ a.length)
    (h : ∀ i, a.getD i false = b.getD i false) :
    a = b ++ replicate (a.length - b.length) false := by
  apply ext_getElem?
  intro i
  have hi := h i
  rw [getD_eq_getElem?_getD, getD_eq_getElem?_getD] at hi
  by_cases h1 : i < b.length
  · rw [List.getElem?_append_left h1]
    rw [List.getElem?_eq_getElem (by omega), List.getElem?_eq_getElem h1] at hi ⊢
    simpa using hi
  rw [List.getElem?_append_right (by omega), List.getElem?_replicate]
  by_cases h2 : i < a.length
  · rw [if_pos (by omega)]
    rw [List.getElem?_eq_none (by omega : b.length ≤ i), List.getElem?_eq_getElem h2] at hi
    rw [List.getElem?_eq_getElem h2]
    simpa using hi
  · rw [if_neg (by omega), List.getElem?_eq_none (by omega)]

/-! ## Words that show the front of a bit list -/

/-- The word `x` shows the first bits of `l`, most significant bit first and padded with
zeros. -/
def Window {w : ℕ} (x : BitVec w) (l : List Bool) : Prop := ∀ i < w, x.getMsbD i = l.getD i false

section Window

variable {w : ℕ} {x : BitVec w} {l : List Bool}

/-- The top `n` bits of a word, as a number, are the first `n` bits of the list. -/
theorem Window.natBits_div (h : Window x l) (hn : n ≤ w) (hl : n ≤ l.length) :
    natBits n (x.toNat / 2 ^ (w - n)) = l.take n := by
  apply ext_getElem?
  intro i
  rw [natBits_getElem?, List.getElem?_take]
  by_cases hi : i < n
  · have hbit := h i (by omega)
    rw [BitVec.getMsbD, show decide (i < w) = true from decide_eq_true (by omega), Bool.true_and,
      BitVec.getLsbD, getD_eq_getElem?_getD, List.getElem?_eq_getElem (by omega),
      Option.getD_some] at hbit
    rw [if_pos hi, if_pos hi, testBit_div_two_pow, List.getElem?_eq_getElem (by omega), ← hbit,
      show n - 1 - i + (w - n) = w - 1 - i by omega]
  · rw [if_neg hi, if_neg hi]

/-- **Peeking** at the top `n` bits of a word. -/
theorem Window.peek (h : Window x l) (hn : n ≤ w) (hl : n ≤ l.length) :
    x.toNat / 2 ^ (w - n) = bitsVal (l.take n) := by
  rw [← h.natBits_div hn hl, bitsVal_natBits_of_lt]
  rw [div_lt_iff_lt_mul (Nat.two_pow_pos _), ← pow_add, Nat.add_sub_cancel' hn]
  exact x.isLt

/-- The field at the front of a window is read by a shift. -/
theorem Window.peek_natBits (h : Window x (natBits n v ++ rest))
    (hn : n ≤ w) (hv : v < 2 ^ n) : x.toNat / 2 ^ (w - n) = v := by
  rw [h.peek hn (by simp), take_left' (natBits_length n v), bitsVal_natBits_of_lt hv]

/-- A window on zeros is zero. -/
theorem Window.toNat_eq_zero (h : Window x l) (hz : ∀ i < w, l.getD i false = false) :
    x.toNat = 0 := by
  apply eq_of_testBit_eq
  intro i
  rw [zero_testBit]
  by_cases hi : i < w
  · have hbit := h (w - 1 - i) (by omega)
    rw [hz _ (by omega), BitVec.getMsbD,
      show decide (w - 1 - i < w) = true from decide_eq_true (by omega),
      show w - 1 - (w - 1 - i) = i by omega] at hbit
    exact hbit
  · exact testBit_lt_two_pow (lt_of_lt_of_le x.isLt (Nat.pow_le_pow_right (by omega) (by omega)))

/-- The complement of a word shows the complement of the bits and of the padding. -/
theorem Window.not (h : Window x l) : Window (~~~x) ((l ++ replicate w false).map (!·)) := by
  intro i hi
  rw [BitVec.getMsbD_not, h i hi, getD_eq_getElem?_getD, getD_eq_getElem?_getD, List.getElem?_map]
  by_cases hl : i < l.length
  · rw [List.getElem?_append_left hl, List.getElem?_eq_getElem hl]
    simp [hi]
  rw [List.getElem?_append_right (by omega), List.getElem?_replicate, if_pos (by omega),
    List.getElem?_eq_none (by omega)]
  simp [hi]

/-- A comparison under a mask of high bits compares quotients. -/
theorem and_mask_eq_iff (x)
    (hm : ∃ k < w, m = BitVec.allOnes w <<< k ∧ (-m).toNat = 2 ^ k)
    (hc : c.toNat % (-m).toNat = 0) :
    x &&& m = c ↔ x.toNat / (-m).toNat = c.toNat / (-m).toNat := by
  obtain ⟨k, -, hm, hneg⟩ := hm
  have hdiv : x.toNat / 2 ^ k * 2 ^ k ≤ x.toNat := div_mul_le_self _ _
  rw [hneg] at hc ⊢
  rw [hm, ← BitVec.shiftLeft_ushiftRight, ← BitVec.toNat_inj, BitVec.toNat_shiftLeft,
    BitVec.toNat_ushiftRight, shiftLeft_eq, shiftRight_eq_div_pow,
    mod_eq_of_lt (lt_of_le_of_lt hdiv x.isLt)]
  constructor
  · rintro h
    rw [← h, Nat.mul_div_cancel _ (Nat.two_pow_pos k)]
  · rintro h
    rw [h, Nat.div_mul_cancel (dvd_of_mod_eq_zero hc)]

/-- A shift and a mask of low bits cut out a field. -/
theorem shift_and_toNat (x : BitVec w) (s) (hm : ∃ k < w, m.toNat = 2 ^ k - 1) :
    ((x >>> s) &&& m).toNat = x.toNat / 2 ^ s % (m.toNat + 1) := by
  obtain ⟨k, -, hm⟩ := hm
  rw [BitVec.toNat_and, hm, BitVec.toNat_ushiftRight, and_two_pow_sub_one_eq_mod,
    shiftRight_eq_div_pow, Nat.sub_add_cancel (Nat.two_pow_pos k)]

/-- A tag above the mask is added. -/
theorem or_and_low (tag mask v) (hmask : ∃ k < 32, mask = 2 ^ k - 1)
    (htag : tag % (mask + 1) = 0) : tag ||| (v &&& mask) = tag + v % (mask + 1) := by
  obtain ⟨k, -, rfl⟩ := hmask
  rw [Nat.sub_add_cancel (Nat.two_pow_pos k)] at htag ⊢
  have hdiv : 2 ^ k * (tag / 2 ^ k) = tag := Nat.mul_div_cancel' (dvd_of_mod_eq_zero htag)
  rw [and_two_pow_sub_one_eq_mod]
  conv_lhs => rw [← hdiv]
  rw [← two_pow_add_eq_or_of_lt (mod_lt v (Nat.two_pow_pos k)), hdiv]

end Window

end Bits

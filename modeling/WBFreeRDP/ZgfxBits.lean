/-
# The bit reader of the RDP8 compressor

The reader takes bits off a window of 32 bits, which it fills byte by byte, with zeros behind the
input. What it reads is described by the bits of the segment: `field p pos n` is the number in the
`n` bits from bit `pos` on.
-/
import Mathlib.Tactic.Ring
import WBFreeRDP.Zgfx

namespace WBFreeRDP.Zgfx

open List Nat Option

/-! ## Fields -/

/-- A bit of a segment, the high bits of a byte first. -/
def bit (p : List UInt8) (i : ℕ) : ℕ := (p.getD (i / 8) 0).toNat / 2 ^ (7 - i % 8) % 2

/-- The number in the `n` bits from bit `pos` on. -/
def field (p : List UInt8) (pos : ℕ) : ℕ → ℕ
  | 0 => 0
  | n + 1 => 2 * field p pos n + bit p (pos + n)

variable {p : List UInt8}

theorem bit_of_le (h : 8 * p.length ≤ i) : bit p i = 0 := by
  have hnone : p.getD (i / 8) 0 = 0 := by
    rw [getD_eq_getElem?_getD, List.getElem?_eq_none (by omega), getD_none]
  rw [bit, hnone]
  simp

@[simp] theorem field_zero (p pos) : field p pos 0 = 0 := rfl

theorem field_succ (p pos n) : field p pos (n + 1) = 2 * field p pos n + bit p (pos + n) := rfl

theorem field_one (p pos) : field p pos 1 = bit p pos := by
  rw [field_succ, field_zero, Nat.mul_zero, zero_add, add_zero]

theorem field_lt (p pos n) : field p pos n < 2 ^ n := by
  induction n with
  | zero => exact one_pos
  | succ n ih =>
  have hbit : bit p (pos + n) < 2 := mod_lt _ (by decide)
  rw [field_succ]
  omega

theorem field_add (p pos m n) :
    field p pos (m + n) = field p pos m * 2 ^ n + field p (pos + m) n := by
  induction n with
  | zero => rw [add_zero, pow_zero, mul_one, field_zero, add_zero]
  | succ n ih =>
  rw [← add_assoc, field_succ, ih, field_succ, add_assoc pos m n]
  ring

variable {pos : ℕ}

theorem field_of_le (h : 8 * p.length ≤ pos) (n) : field p pos n = 0 := by
  induction n with
  | zero => rfl
  | succ n ih => rw [field_succ, ih, bit_of_le (by omega)]

theorem field_byte (p q) : field p (8 * q) 8 = (p.getD q 0).toNat := by
  have hlt := (p.getD q 0).toNat_lt
  have hbit (k : ℕ) (hk : k < 8) : bit p (8 * q + k) = (p.getD q 0).toNat / 2 ^ (7 - k) % 2 := by
    rw [bit, show (8 * q + k) / 8 = q by omega, show (8 * q + k) % 8 = k by omega]
  simp only [field_succ, hbit 0 (by decide), hbit 1 (by decide), hbit 2 (by decide),
    hbit 3 (by decide), hbit 4 (by decide), hbit 5 (by decide), hbit 6 (by decide),
    hbit 7 (by decide)]
  generalize (p.getD q 0).toNat = b at hlt
  norm_num
  omega

/-! ## The window -/

/-- The context has consumed bits of the segment `p`: the window holds the bits up to the next byte,
and the counter of what is left of `budget` bits may have wrapped. -/
structure Reads (p : List UInt8) (budget : ℕ) (zgfx : Context) : Prop where
  pending : zgfx.cBitsCurrent < 8
  loaded : ∃ q, zgfx.consumed + zgfx.cBitsCurrent = 8 * q ∧ zgfx.input = p.drop q
  current : zgfx.bitsCurrent = field p zgfx.consumed zgfx.cBitsCurrent
  remaining : zgfx.cBitsRemaining < 2 ^ 32
  budget_eq : (zgfx.cBitsRemaining + zgfx.consumed) % 2 ^ 32 = budget % 2 ^ 32

/-- Two contexts with the same output and history. -/
structure SameData (a b : Context) : Prop where
  output : b.output = a.output
  history : b.history = a.history

theorem SameData.refl (a) : SameData a a := ⟨rfl, rfl⟩

theorem SameData.trans (h : SameData a b) (h' : SameData b c) : SameData a c :=
  ⟨h'.output.trans h.output, h'.history.trans h.history⟩

variable {zgfx : Context} {budget : ℕ}

theorem budget_take (h : (zgfx.cBitsRemaining + zgfx.consumed) % 2 ^ 32 = budget % 2 ^ 32) (n) :
    (zgfx.take n).cBitsRemaining < 2 ^ 32 ∧
      ((zgfx.take n).cBitsRemaining + (zgfx.take n).consumed) % 2 ^ 32 = budget % 2 ^ 32 := by
  constructor
  · change sub32 zgfx.cBitsRemaining n < 2 ^ 32
    unfold sub32
    omega
  · change (sub32 zgfx.cBitsRemaining n + (zgfx.consumed + n)) % 2 ^ 32 = _
    unfold sub32
    omega

variable {p : List UInt8}

/-- What the loop of `zgfx_GetBits` does: the window grows by whole bytes until it has the bits. -/
theorem fetch_spec {pos n} (hn : n < 2 ^ 32 - 8) (fuel) : ∀ {zgfx},
    (zgfx.cBitsCurrent < 8 ∨ zgfx.cBitsCurrent < n + 8) →
    n ≤ zgfx.cBitsCurrent + 8 * (fuel - 1) → 0 < fuel →
      (∃ q, pos + zgfx.cBitsCurrent = 8 * q ∧ zgfx.input = p.drop q) →
      zgfx.bitsCurrent = field p pos zgfx.cBitsCurrent % 2 ^ 32 →
      ∃ input bitsCurrent cBitsCurrent, fetch n fuel zgfx = some { zgfx with
          input := input, bitsCurrent := bitsCurrent, cBitsCurrent := cBitsCurrent } ∧
        n ≤ cBitsCurrent ∧ (cBitsCurrent < 8 ∨ cBitsCurrent < n + 8) ∧
        (∃ q, pos + cBitsCurrent = 8 * q ∧ input = p.drop q) ∧
        bitsCurrent = field p pos cBitsCurrent % 2 ^ 32 := by
  induction fuel with
  | zero => omega
  | succ fuel ih =>
  intro zgfx hlt hfuel _ hloaded hcurrent
  rw [fetch]
  split
  swap
  · rename_i henough
    exact ⟨zgfx.input, zgfx.bitsCurrent, zgfx.cBitsCurrent, rfl, by omega, hlt, hloaded, hcurrent⟩
  rename_i hmore
  have hwrap : (zgfx.cBitsCurrent + 8) % 2 ^ 32 = zgfx.cBitsCurrent + 8 := by omega
  obtain ⟨q, hq, hinput⟩ := hloaded
  have hbyte : (zgfx.input.headD 0).toNat = field p (pos + zgfx.cBitsCurrent) 8 := by
    rw [hq, field_byte, hinput, List.headD_eq_head?_getD, List.head?_drop, getD_eq_getElem?_getD]
  have hnext : zgfx.bitsCurrent <<< 8 % 2 ^ 32 + (zgfx.input.headD 0).toNat =
      field p pos (zgfx.cBitsCurrent + 8) % 2 ^ 32 := by
    have hlt8 := field_lt p (pos + zgfx.cBitsCurrent) 8
    rw [hbyte, hcurrent, field_add]
    generalize field p pos zgfx.cBitsCurrent = a
    generalize field p (pos + zgfx.cBitsCurrent) 8 = b at hlt8
    omega
  obtain ⟨input, bitsCurrent, cBitsCurrent, hfetch, hspec⟩ := @ih { zgfx with
      bitsCurrent := zgfx.bitsCurrent <<< 8 % 2 ^ 32 + (zgfx.input.headD 0).toNat
      input := zgfx.input.tail
      cBitsCurrent := (zgfx.cBitsCurrent + 8) % 2 ^ 32 }
    (by simp only [hwrap]; omega) (by simp only [hwrap]; omega) (by omega)
    ⟨q + 1, by simp only [hwrap]; omega, by simp only [hinput, tail_drop]⟩
    (by simp only [hwrap]; exact hnext)
  exact ⟨input, bitsCurrent, cBitsCurrent, hfetch, hspec⟩

/-- The window is cut after `n` bits, inside of its 32 bits. -/
theorem window_shiftRight (p pos n) (hr : r < 8) :
    (field p pos (n + r) % 2 ^ 32) >>> r = field p pos n % 2 ^ (32 - r) := by
  have hpow : (2 : ℕ) ^ 32 = 2 ^ (32 - r) * 2 ^ r := by
    rw [← pow_add, Nat.sub_add_cancel (by omega)]
  rw [shiftRight_eq_div_pow, hpow, mod_mul_left_div_self, field_add, mul_comm _ (2 ^ r),
    mul_add_div (Nat.two_pow_pos r), div_eq_of_lt (field_lt p (pos + n) r), add_zero]

theorem window_and (p pos n) (hr : r < 8) :
    (field p pos (n + r) % 2 ^ 32) &&& (1 <<< r - 1) = field p (pos + n) r := by
  have hpow : (2 : ℕ) ^ 32 = 2 ^ (32 - r) * 2 ^ r := by
    rw [← pow_add, Nat.sub_add_cancel (by omega)]
  rw [one_shiftLeft, and_two_pow_sub_one_eq_mod, hpow, mod_mul_left_mod, field_add,
    mul_comm _ (2 ^ r), mul_add_mod, mod_eq_of_lt (field_lt p (pos + n) r)]

/-- **What `zgfx_GetBits` reads**: the field, of which the window cuts off the high bits. -/
theorem getBits_spec (h : Reads p budget zgfx) (hn : n < 2 ^ 32 - 8) :
    ∃ zgfx', getBits zgfx n = some zgfx' ∧ Reads p budget zgfx' ∧
    zgfx'.consumed = zgfx.consumed + n ∧
        zgfx'.bits = field p zgfx.consumed n % 2 ^ (32 - zgfx'.cBitsCurrent) ∧
        SameData zgfx zgfx' := by
  have hpending := h.pending
  have hsmall : field p zgfx.consumed zgfx.cBitsCurrent < 2 ^ 32 :=
    lt_trans (field_lt _ _ _) (Nat.pow_lt_pow_right (by decide) (by omega))
  obtain ⟨input, bitsCurrent, cBitsCurrent, hfetch, hle, hlt, ⟨q, hq, hinput⟩, hcurrent⟩ :=
    @fetch_spec _ zgfx.consumed _ hn (n + 1) _ (.inl hpending) (by omega) (succ_pos n) h.loaded
      (by rw [mod_eq_of_lt hsmall, h.current])
  obtain ⟨r, rfl⟩ := Nat.exists_eq_add_of_le hle
  have hr : r < 8 := by
    rcases hlt with hlt | hlt
    · omega
    · omega
  obtain ⟨hremaining, hbudget⟩ := budget_take h.budget_eq n
  have hget : getBits zgfx n = some { zgfx.take n with
      input := input, bits := bitsCurrent >>> (n + r - n), cBitsCurrent := n + r - n
      bitsCurrent := bitsCurrent &&& (1 <<< (n + r - n) - 1) } := by
    rw [getBits, hfetch]
    rfl
  refine ⟨_, hget, ?_, rfl, ?_, ⟨rfl, rfl⟩⟩
  swap
  · rw [Nat.add_sub_cancel_left, hcurrent, window_shiftRight p _ n hr]
  constructor
  · change n + r - n < 8
    omega
  · refine ⟨q, ?_, hinput⟩
    change zgfx.consumed + n + (n + r - n) = 8 * q
    omega
  · change bitsCurrent &&& (1 <<< (n + r - n) - 1) = field p (zgfx.consumed + n) (n + r - n)
    rw [Nat.add_sub_cancel_left, hcurrent, window_and p _ n hr]
  · exact hremaining
  · exact hbudget

theorem getBits_field (h : Reads p budget zgfx) (hn : n ≤ 25) :
    ∃ zgfx', getBits zgfx n = some zgfx' ∧ Reads p budget zgfx' ∧
      zgfx'.consumed = zgfx.consumed + n ∧ zgfx'.bits = field p zgfx.consumed n ∧
        SameData zgfx zgfx' := by
  obtain ⟨zgfx', hget, hreads, hconsumed, hbits, hsame⟩ := getBits_spec h (n := n) (by omega)
  have hpending := hreads.pending
  have hsmall : field p zgfx.consumed n < 2 ^ (32 - zgfx'.cBitsCurrent) :=
    lt_of_lt_of_le (field_lt _ _ _) (Nat.pow_le_pow_right (by decide) (by omega))
  exact ⟨zgfx', hget, hreads, hconsumed, hbits.trans (mod_eq_of_lt hsmall), hsame⟩

theorem Reads.cBitsCurrent_eq (h : Reads p budget zgfx) :
    zgfx.cBitsCurrent = (8 - zgfx.consumed % 8) % 8 := by
  obtain ⟨q, hq, -⟩ := h.loaded
  have := h.pending
  omega

/-! ## Prefixes -/

theorem readPrefix_spec (n) : ∀ {zgfx} inPrefix, Reads p budget zgfx →
      ∃ zgfx', readPrefix n inPrefix zgfx =
        some (inPrefix * 2 ^ n + field p zgfx.consumed n, zgfx') ∧
        Reads p budget zgfx' ∧ zgfx'.consumed = zgfx.consumed + n ∧ SameData zgfx zgfx' := by
  induction n with
  | zero =>
    intro zgfx inPrefix h
    refine ⟨zgfx, ?_, h, rfl, .refl zgfx⟩
    rw [pow_zero, mul_one]
    rfl
  | succ n ih =>
  intro zgfx inPrefix h
  obtain ⟨zgfx1, hget, hreads, hconsumed, hbits, hsame⟩ := getBits_field h (n := 1) (by decide)
  obtain ⟨zgfx2, hrest, hreads2, hconsumed2, hsame2⟩ := ih (inPrefix <<< 1 + zgfx1.bits) hreads
  refine ⟨zgfx2, ?_, hreads2, by omega, hsame.trans hsame2⟩
  rw [readPrefix, hget, bind_some, hrest, hbits, hconsumed, shiftLeft_eq, add_comm n 1,
    field_add p _ 1 n]
  congr 2
  ring

/-- The row of the table for the bits from `pos` on. -/
def findRow (p : List UInt8) (pos : ℕ) (table : List Token) : Option Token :=
  table.find? fun token => field p pos token.prefixLength = token.prefixCode

/-- How many bits of prefix are read: those of the row, or else the longest ones of the table. -/
def prefixWidth (haveBits : ℕ) (table : List Token) : Option Token → ℕ
  | some token => token.prefixLength
  | none => (table.map Token.prefixLength).foldl max haveBits

/-- **The loop over the table finds the row of the prefix**, when the prefixes get longer along
it. -/
theorem findToken_spec {budget pos : ℕ} (table : List Token) :
    ∀ {haveBits} {zgfx}, Reads p budget zgfx → zgfx.consumed = pos + haveBits →
      (∀ token ∈ table, haveBits ≤ token.prefixLength) →
      (table.Pairwise fun a b => a.prefixLength ≤ b.prefixLength) →
      ∃ zgfx', findToken table haveBits (field p pos haveBits) zgfx =
          some (findRow p pos table, zgfx') ∧ Reads p budget zgfx' ∧
        zgfx'.consumed = pos + prefixWidth haveBits table (findRow p pos table) ∧
        SameData zgfx zgfx' := by
  induction table with
  | nil =>
    intro haveBits zgfx h hconsumed _ _
    exact ⟨zgfx, rfl, h, hconsumed, .refl zgfx⟩
  | cons token table ih =>
  intro haveBits zgfx h hconsumed hlonger hsorted
  have hle : haveBits ≤ token.prefixLength := hlonger token mem_cons_self
  obtain ⟨hfirst, hsorted⟩ := pairwise_cons.mp hsorted
  obtain ⟨zgfx1, hbegin, hreads1, hconsumed1, hsame1⟩ :=
    readPrefix_spec (token.prefixLength - haveBits) (field p pos haveBits) h
  have hfield : field p pos haveBits * 2 ^ (token.prefixLength - haveBits) +
      field p zgfx.consumed (token.prefixLength - haveBits) = field p pos token.prefixLength := by
    rw [hconsumed, ← field_add, Nat.add_sub_cancel' hle]
  rw [hfield] at hbegin
  have hconsumed1 : zgfx1.consumed = pos + token.prefixLength := by omega
  rw [findToken, hbegin, bind_some]
  by_cases hcode : field p pos token.prefixLength = token.prefixCode
  · have hrow : findRow p pos (token :: table) = some token :=
      List.find?_cons_of_pos (decide_eq_true hcode)
    refine ⟨zgfx1, ?_, hreads1, ?_, hsame1⟩
    · rw [hrow]
      exact if_pos hcode
    · rw [hrow]
      exact hconsumed1
  have hrow : findRow p pos (token :: table) = findRow p pos table :=
    List.find?_cons_of_neg (by simpa using hcode)
  have hmax : max haveBits token.prefixLength = token.prefixLength := max_eq_right hle
  obtain ⟨zgfx2, hfind, hreads2, hconsumed2, hsame2⟩ := ih hreads1 hconsumed1 hfirst hsorted
  refine ⟨zgfx2, ?_, hreads2, ?_, hsame1.trans hsame2⟩
  · rw [hrow]
    simp only
    rw [if_neg hcode, hmax]
    exact hfind
  · rw [hconsumed2, hrow]
    cases findRow p pos table with
    | some row => rfl
    | none => rw [prefixWidth, prefixWidth, map_cons, foldl_cons, hmax]

/-! ## Lengths -/

/-- The number of ones among the `n` bits from bit `pos` on, up to the first zero. -/
def onesWithin (p : List UInt8) : ℕ → ℕ → ℕ
  | 0, _ => 0
  | n + 1, pos => if bit p pos = 1 then onesWithin p n (pos + 1) + 1 else 0

/-- The number of ones from bit `pos` on. -/
def ones (p : List UInt8) (pos : ℕ) : ℕ := onesWithin p (8 * p.length - pos) pos

theorem onesWithin_le (p n) : ∀ pos, onesWithin p n pos ≤ n := by
  induction n with
  | zero => intro pos; exact le_refl 0
  | succ n ih =>
  intro pos
  have := ih (pos + 1)
  rw [onesWithin]
  split <;> omega

theorem ones_le (p pos) : ones p pos ≤ 8 * p.length - pos := onesWithin_le p _ pos

theorem ones_of_bit (h : bit p pos = 1) : ones p pos = ones p (pos + 1) + 1 := by
  have hlt : pos < 8 * p.length := by
    by_contra hle
    rw [bit_of_le (by omega)] at h
    cases h
  rw [ones, show 8 * p.length - pos = 8 * p.length - (pos + 1) + 1 by omega,
    onesWithin, if_pos h, ones]

theorem ones_of_ne (h : bit p pos ≠ 1) : ones p pos = 0 := by
  rw [ones]
  cases 8 * p.length - pos with
  | zero => rfl
  | succ n => rw [onesWithin, if_neg h]

/-- **The ones in front of a length**: they double the length and add an extra bit, with 32 bits
both. -/
theorem countOnes_spec {budget : ℕ} (fuel : ℕ) : ∀ {zgfx} {pos j},
    Reads p budget zgfx → zgfx.consumed = pos + 1 → zgfx.bits = bit p pos → ones p pos < fuel →
      ∃ zgfx', countOnes fuel (2 ^ (j + 2) % 2 ^ 32) ((j + 2) % 2 ^ 32) zgfx =
          some (2 ^ (j + ones p pos + 2) % 2 ^ 32, (j + ones p pos + 2) % 2 ^ 32, zgfx') ∧
        Reads p budget zgfx' ∧ zgfx'.consumed = pos + ones p pos + 1 ∧ SameData zgfx zgfx' := by
  induction fuel with
  | zero => intro zgfx pos j _ _ _ hfuel; exact absurd hfuel (not_lt_zero _)
  | succ fuel ih =>
  intro zgfx pos j h hconsumed hbits hfuel
  rw [countOnes, hbits]
  by_cases hone : bit p pos = 1
  swap
  · rw [if_neg hone]
    have hones := ones_of_ne hone
    refine ⟨zgfx, ?_, h, by omega, .refl zgfx⟩
    rw [hones]
  rw [if_pos hone]
  obtain ⟨zgfx1, hget, hreads1, hconsumed1, hbits1, hsame1⟩ := getBits_field h (n := 1) (by decide)
  rw [field_one, hconsumed] at hbits1
  have hones := ones_of_bit hone
  obtain ⟨zgfx2, hrest, hreads2, hconsumed2, hsame2⟩ :=
    @ih _ (pos + 1) (j + 1) hreads1 (by omega) hbits1 (by omega)
  refine ⟨zgfx2, ?_, hreads2, by omega, hsame1.trans hsame2⟩
  have hcount : 2 ^ (j + 2) % 2 ^ 32 * 2 % 2 ^ 32 = 2 ^ (j + 1 + 2) % 2 ^ 32 := by
    rw [mod_mul_mod, ← pow_succ]
  have hextra : ((j + 2) % 2 ^ 32 + 1) % 2 ^ 32 = (j + 1 + 2) % 2 ^ 32 := by
    rw [mod_add_mod]
  rw [hget, bind_some, hcount, hextra, hrest, hones,
    show j + 1 + ones p (pos + 1) + 2 = j + (ones p (pos + 1) + 1) + 2 by omega]

end WBFreeRDP.Zgfx

/-
# Decoding the coefficients of a RemoteFX tile

`rfx_decode_component` behind the entropy decoder: the differential sums of LL3, the shifts of the
ten bands (`rfx_quantization.c`) and three levels of the inverse wavelet transform (`rfx_dwt.c`).
Values are stored through a cast to `INT16` that asserts; `none` stands for a failed one.
-/
import Mathlib.Tactic.Positivity

namespace WBFreeRDP.Rfx

open Finset Nat Option

/-! ## The code -/

/-- The coefficients of a tile, or of its end. -/
abbrev Buffer := ℕ → ℤ

/-- The assertion of the casts to `INT16`. -/
def Fits (x : ℤ) : Prop := -32768 ≤ x ∧ x ≤ 32767

instance (x : ℤ) : Decidable (Fits x) := inferInstanceAs (Decidable (_ ∧ _))

/-- A function on the end of a buffer, from an offset on. -/
def onEnd (offset : ℕ) (f : Buffer → Option Buffer) (buffer : Buffer) : Option Buffer :=
  (f fun i => buffer (offset + i)).map fun out i => if i < offset then buffer i
  else out (i - offset)

def differentialDecode (size : ℕ) (buffer : Buffer) : Option Buffer :=
  let sum i := ∑ j ∈ range (i + 1), buffer j
  if ∀ i < size, 0 < i → Fits (sum i) then some fun i => if i < size then sum i
    else buffer i else none

/-- `lShiftC_16s_inplace` on one value: too large a shift is refused, and the result wraps
around. -/
def lShiftC (val : ℕ) (x : ℤ) : ℤ := if val ≥ 16 then x else (x * 2 ^ val).bmod (2 ^ 16)

/-- The quantization value of a coefficient, in the order HL1, LH1, HH1, HL2, LH2, HH2, HL3, LH3,
HH3, LL3. -/
def band (i : ℕ) : Fin 10 :=
  if i < 1024 then 8 else if i < 2048 then 7 else if i < 3072 then 9
  else if i < 3328 then 5 else if i < 3584 then 4 else if i < 3840 then 6
  else if i < 3904 then 2 else if i < 3968 then 1 else if i < 4032 then 3 else 0

def quantizationDecode (quants : Fin 10 → ℕ) (buffer : Buffer) : Option Buffer :=
  if ∃ i, quants i < 1 then none
  else some fun i => lShiftC (quants (band i) - 1) (buffer i)

/-- An even coefficient from the low and the high part of a line. -/
def even (l h : Buffer) (n : ℕ) : ℤ := l n - (h (n - 1) + h n + 1) / 2

/-- An odd coefficient, between two even ones or behind the last one. -/
def odd (width : ℕ) (l h : Buffer) (n : ℕ) : ℤ :=
  h n * 2 + (even l h n + even l h (min (n + 1) (width - 1))) / 2

def line (width : ℕ) (l h : Buffer) (x : ℕ) : ℤ :=
  if x % 2 = 0 then even l h (x / 2) else odd width l h (x / 2)

/-- `rfx_dwt_2d_decode_block` on HL, LH, HH and LL: the rows of the two parts `idwt`, then the
columns. -/
def dwt2dDecodeBlock (width : ℕ) (buffer : Buffer) : Option Buffer :=
  let row i y n := buffer (i * (width * width) + (y * width + n))
  let low y := line width (row 3 y) (row 0 y)
  let high y := line width (row 1 y) (row 2 y)
  let dst y x := line width (fun n => low n x) (fun n => high n x) y
  if (∀ y < width, ∀ x < 2 * width, Fits (low y x) ∧ Fits (high y x)) ∧
      ∀ y < 2 * width, ∀ x < 2 * width, Fits (dst y x) then
    some fun i => dst (i / (2 * width)) (i % (2 * width))
  else none

/-- `rfx_dwt_2d_decode`. -/
def dwt2dDecode (buffer : Buffer) : Option Buffer := do
  let buffer ← onEnd 3840 (dwt2dDecodeBlock 8) buffer
  let buffer ← onEnd 3072 (dwt2dDecodeBlock 16) buffer
  onEnd 0 (dwt2dDecodeBlock 32) buffer

/-- `rfx_decode_component` behind the entropy decoder; the inner `none` is its `FALSE`. -/
def decodeComponent (quants : Fin 10 → ℕ) (buffer : Buffer) : Option (Option Buffer) := do
  let buffer ← onEnd 4032 (differentialDecode 64) buffer
  match quantizationDecode quants buffer with
  | none => return none
  | some buffer => return some (← dwt2dDecode buffer)

/-! ## Bounds -/

variable {a b : ℤ} {width : ℕ} {l h buffer : Buffer}

theorem fits_of_abs (h : |x| ≤ b) (hb : b ≤ 32767) : Fits x := by
  have := abs_le.mp h
  exact ⟨by omega, by omega⟩

theorem even_bounded (hl : ∀ n < width, |l n| ≤ a) (hh : ∀ n < width, |h n| ≤ b) (hn : n < width) :
    |even l h n| ≤ a + b := by
  have hlow := abs_le.mp (hl n hn)
  have hprev := abs_le.mp (hh (n - 1) (by omega))
  have hhigh := abs_le.mp (hh n hn)
  rw [even, abs_le]
  omega

theorem line_bounded (hl : ∀ n < width, |l n| ≤ a) (hh : ∀ n < width, |h n| ≤ b)
    (hx : x < 2 * width) : |line width l h x| ≤ a + 3 * b := by
  have heven := abs_le.mp (even_bounded hl hh (show x / 2 < width by omega))
  have hnext := abs_le.mp (even_bounded hl hh (show min (x / 2 + 1) (width - 1) < width by omega))
  have hhigh := abs_le.mp (hh (x / 2) (by omega))
  rw [line, odd, abs_le]
  split_ifs <;> omega

theorem index_lt (hy : y < width) (hn : n < width) : y * width + n < width * width := by
  have := mul_le_mul_right width hy
  rw [succ_mul] at this
  omega

/-- In front of `n` a buffer is bounded by `b`, from there on by `a`. -/
def Level (n : ℕ) (a b : ℤ) (buffer : Buffer) : Prop :=
  ∀ i < 4096, |buffer i| ≤ if i < n then b else a

/-- **One level** adds at most fifteen detail coefficients to one of LL. -/
theorem Level.decode {offset n : ℕ} (h : Level n a b buffer)
    (hsum : a + 15 * b ≤ 32767) (ha : 0 ≤ a)
    (hb : 0 ≤ b) (hn : n = offset + 3 * (width * width)) (hsize : 4096 = n + width * width) :
    ∃ out, onEnd offset (dwt2dDecodeBlock width) buffer = some out ∧
    Level offset (a + 15 * b) b out := by
  have hrow : ∀ i < 3, ∀ y < width, ∀ m < width,
      |buffer (offset + (i * (width * width) + (y * width + m)))| ≤ b := by
    intro i hi y hy m hm
    have hlt := index_lt hy hm
    have hle := mul_le_mul_right (width * width) (show i + 1 ≤ 3 from hi)
    rw [succ_mul] at hle
    exact (h _ (by omega)).trans_eq (if_pos (by omega))
  have hll : ∀ y < width, ∀ m < width, |buffer (offset + (3 * (width * width) + (y * width + m)))| ≤
      a := by
    intro y hy m hm
    have hlt := index_lt hy hm
    exact (h _ (by omega)).trans_eq (if_neg (by omega))
  have hlow : ∀ y < width, ∀ x < 2 * width, |line width _ _ x| ≤ a + 3 * b :=
    fun y hy _ => line_bounded (hll y hy) (hrow 0 (by decide) y hy)
  have hhigh : ∀ y < width, ∀ x < 2 * width, |line width _ _ x| ≤ b + 3 * b :=
    fun y hy _ => line_bounded (hrow 1 (by decide) y hy) (hrow 2 (by decide) y hy)
  have hdst : ∀ y < 2 * width, ∀ x < 2 * width, |line width _ _ y| ≤ a + 3 * b + 3 * (b + 3 * b) :=
    fun y hy x hx => line_bounded (fun n hn => hlow n hn x hx) (fun n hn => hhigh n hn x hx) hy
  have hrows := fun y hy x hx =>
    And.intro (fits_of_abs (hlow y hy x hx) (by omega)) (fits_of_abs (hhigh y hy x hx) (by omega))
  have hout : dwt2dDecodeBlock width (fun i => buffer (offset + i)) = some _ :=
    if_pos ⟨hrows, fun y hy x hx => fits_of_abs (hdst y hy x hx) (by omega)⟩
  refine ⟨_, by rw [onEnd, hout, map_some], fun i hi => ?_⟩
  split_ifs with hlt
  · exact (h i hi).trans_eq (if_pos (by omega))
  have hpos : 0 < width := pos_of_ne_zero fun h0 => by simp [h0] at hn hsize; omega
  have hy : (i - offset) / (2 * width) < 2 * width :=
    Nat.div_lt_of_lt_mul (by rw [mul_mul_mul_comm]; omega)
  exact (hdst _ hy _ (mod_lt _ (by omega))).trans (by omega)

/-- **Three levels** add at most 45. -/
theorem dwt2dDecode_bounded (hsum : a + 45 * b ≤ 32767) (ha : 0 ≤ a) (hb : 0 ≤ b)
    (h : Level 4032 a b buffer) : ∃ out, dwt2dDecode buffer = some out := by
  obtain ⟨out1, hout1, h1⟩ := @Level.decode a b 8 buffer 3840 4032 h (by omega) ha hb rfl rfl
  obtain ⟨out2, hout2, h2⟩ :=
    @Level.decode _ b 16 out1 3072 3840 h1 (by omega) (by omega) hb rfl rfl
  obtain ⟨out3, hout3, -⟩ := @Level.decode _ b 32 out2 0 3072 h2 (by omega) (by omega) hb rfl rfl
  refine ⟨out3, ?_⟩
  rw [dwt2dDecode, hout1, bind_eq_bind, bind_some, hout2, bind_some, hout3]

/-! ## The component -/

/-- A coefficient that stays small behind its shift does not wrap around. -/
theorem lShiftC_bounded {val} {x} {h : |x| * 2 ^ val ≤ b} (hb : b ≤ 32767) :
    |lShiftC val x| ≤ b := by
  have habs : |x * 2 ^ val| = |x| * 2 ^ val := by rw [abs_mul, abs_pow, abs_two]
  unfold lShiftC
  split_ifs
  · exact le_trans (le_mul_of_one_le_right (abs_nonneg x) (one_le_pow₀ (by decide))) h
  have hrange := abs_le.mp (habs.le.trans h)
  rw [Int.bmod_eq_of_le (by omega) (by omega), habs]
  exact h

/-- A running sum of LL3. -/
def sumLL3 (buffer : Buffer) (i : ℕ) : ℤ := ∑ j ∈ range (i + 1), buffer (4032 + j)

/-- The shifted sums of LL3 are at most `a` and the other shifted coefficients at most `b`, with
room for one of the former and 45 of the latter. -/
structure Small (quants : Fin 10 → ℕ) (a b : ℤ) (buffer : Buffer) : Prop where
  detail : ∀ i < 4032, |buffer i| * 2 ^ (quants (band i) - 1) ≤ b
  ll3 : ∀ i < 64, |sumLL3 buffer i| * 2 ^ (quants 0 - 1) ≤ a
  room : a + 45 * b ≤ 32767

/-- The sums of LL3 are made if they fit, and keep what is in front of them. -/
theorem differential_sums (hfits : ∀ i < 64, Fits (sumLL3 buffer i)) :
    ∃ out, onEnd 4032 (differentialDecode 64) buffer = some out ∧ (∀ i < 4032, out i = buffer i) ∧
      ∀ i < 64, out (4032 + i) = sumLL3 buffer i := by
  have hsums : ∀ i < 64, 0 < i → Fits (∑ j ∈ range (i + 1), buffer (4032 + j)) :=
    fun i hi _ => hfits i hi
  refine ⟨_, by rw [onEnd, differentialDecode, if_pos hsums, map_some], fun i hi => if_pos hi, ?_⟩
  intro i hi
  simp only [if_neg (show ¬4032 + i < 4032 by omega), Nat.add_sub_cancel_left, if_pos hi]
  rfl

/-- **No assertion fails** on a component whose coefficients are small. -/
theorem decodeComponent_small {quants : Fin 10 → ℕ} (hvalues : ∀ i, 1 ≤ quants i ∧ quants i ≤ 15)
    (hsmall : Small quants a b buffer) :
    ∃ out, decodeComponent quants buffer = some (some out) := by
  have hroom := hsmall.room
  have ha : 0 ≤ a := le_trans (by positivity) (hsmall.ll3 0 (by decide))
  have hb : 0 ≤ b := le_trans (by positivity) (hsmall.detail 0 (by decide))
  have hfits : ∀ i < 64, Fits (sumLL3 buffer i) := fun i hi => fits_of_abs
    ((le_mul_of_one_le_right (abs_nonneg _) (one_le_pow₀ (by decide))).trans (hsmall.ll3 i hi))
      (by omega)
  obtain ⟨sums, hsums, hkeep, hll3⟩ := differential_sums hfits
  have hquantized : quantizationDecode quants sums =
      some fun i => lShiftC (quants (band i) - 1) (sums i) := by
    apply if_neg
    rintro ⟨i, hi⟩
    have := (hvalues i).1
    omega
  have hbounded : Level 4032 a b fun i => lShiftC (quants (band i) - 1) (sums i) := by
    intro i hi
    split_ifs with hlt
    · refine lShiftC_bounded (h := ?_) (by omega)
      rw [hkeep i hlt]
      exact hsmall.detail i hlt
    obtain ⟨k, rfl⟩ := Nat.exists_eq_add_of_le (not_lt.mp hlt)
    have hband : band (4032 + k) = 0 := by
      unfold band
      split_ifs <;> omega
    refine lShiftC_bounded (h := ?_) (by omega)
    rw [hband, hll3 k (by omega)]
    exact hsmall.ll3 k (by omega)
  obtain ⟨out, hout⟩ := dwt2dDecode_bounded hroom ha hb hbounded
  refine ⟨out, ?_⟩
  rw [decodeComponent, hsums, bind_eq_bind, bind_some, hquantized]
  simp [hout]

/-- A tile with a large mean: 500 for the first coefficient of LL3 and 10 in the other bands,
shifted by five bits. -/
theorem decodeComponent_small_mean : ∃ out, decodeComponent (fun _ => 6)
    (fun i => if i < 4032 then 10 else if i = 4032 then 500 else 0) = some (some out) := by
  refine @decodeComponent_small 16000 320 _ _ (by decide)
    ⟨fun i hi => ?_, by decide +kernel, by decide⟩
  rw [if_pos hi]
  decide

/-- **Two coefficients of LL3 abort the decoder**: their sum is 32768. -/
theorem decodeComponent_aborts :
    decodeComponent (fun _ => 1) (fun i => if i = 4032 then 32767 else if i = 4033 then 1 else 0) =
      none := by
  rfl

end WBFreeRDP.Rfx

/-
# RLGR coding round-trips

The decoder reads the code of `RlgrCode` back round by round, with the same parameters as the
encoder, and stores the coefficients.  Only a zero at the very end of the data, which the encoder
has to code as if it were nonzero, may come back as something else.
-/
import WBFreeRDP.RlgrCode
import Mathlib.Data.List.Chain

namespace WBFreeRDP.Rlgr

open Bits List Nat Option

/-! ## Counting leading bits -/

/-- What `lzcnt_s` keeps: `n` leading zeros are counted so far, and the highest bit of what is left
is bit `m`. -/
def LzInv (v m : ℕ) (p : ℕ × ℕ) : Prop := p.1 = v + m + 1 ∧ 2 ^ m ≤ p.2 ∧ p.2 < 2 ^ (m + 1)

variable {v : ℕ}

theorem lzStep_inv (h : LzInv v m p) (hm : m < 2 * s) : ∃ m', m' < s ∧ LzInv v m' (lzStep s p) := by
  obtain ⟨hn, hlo, hhi⟩ := h
  unfold lzStep
  rw [shiftRight_eq_div_pow]
  by_cases hs : s ≤ m
  swap
  · have hz : p.2 / 2 ^ s = 0 :=
      div_eq_of_lt (lt_of_lt_of_le hhi (Nat.pow_le_pow_right (by omega) (by omega)))
    rw [if_neg (by omega)]
    exact ⟨m, by omega, hn, hlo, hhi⟩
  have hpow : 2 ^ m = 2 ^ (m - s) * 2 ^ s := by rw [← pow_add, Nat.sub_add_cancel hs]
  have hpow' : 2 ^ (m + 1) = 2 ^ (m - s + 1) * 2 ^ s := by
    rw [← pow_add, show m - s + 1 + s = m + 1 by omega]
  have h1 : 2 ^ (m - s) ≤ p.2 / 2 ^ s := by
    rw [le_div_iff_mul_le (Nat.two_pow_pos s), ← hpow]
    exact hlo
  have h2 : p.2 / 2 ^ s < 2 ^ (m - s + 1) := by
    rw [div_lt_iff_lt_mul (Nat.two_pow_pos s), ← hpow']
    exact hhi
  rw [if_pos (by omega)]
  refine ⟨m - s, by omega, ?_, h1, h2⟩
  omega

/-- **`lzcnt_s`** finds the highest bit. -/
theorem lzcntS_eq (hv : v ≤ 31) (hlo : 2 ^ (31 - v) ≤ x) (hhi : x < 2 ^ (32 - v)) :
    lzcntS x = v := by
  have hx : x ≠ 0 := by
    have := Nat.two_pow_pos (31 - v)
    omega
  have h0 : LzInv v (31 - v) (32, x) := by
    refine ⟨?_, hlo, ?_⟩
    · omega
    · rwa [show 31 - v + 1 = 32 - v by omega]
  obtain ⟨m1, hm1, h1⟩ := lzStep_inv h0 (show 31 - v < 2 * 16 by omega)
  obtain ⟨m2, hm2, h2⟩ := lzStep_inv h1 (show m1 < 2 * 8 by omega)
  obtain ⟨m3, hm3, h3⟩ := lzStep_inv h2 (show m2 < 2 * 4 by omega)
  obtain ⟨m4, hm4, hn, hl, hh⟩ := lzStep_inv h3 (show m3 < 2 * 2 by omega)
  rw [lzcntS, if_neg hx]
  generalize lzStep 2 (lzStep 4 (lzStep 8 (lzStep 16 (32, x)))) = p at hn hl hh
  simp only [shiftRight_eq_div_pow] at hn hl hh ⊢
  have hcase : m4 = 0 ∨ m4 = 1 := by omega
  rcases hcase with rfl | rfl
  · rw [if_neg (by omega)]
    omega
  · rw [if_pos (by omega)]
    omega

/-- The number of leading zeros of a word that shows `v` zeros and a one. -/
theorem lzcntS_window {x : BitVec 32}
    (h : Window x (replicate v false ++ true :: l)) : lzcntS x.toNat = min v 32 := by
  by_cases hv : v < 32
  · have hpeek := h.peek (show v + 1 ≤ 32 by omega) (by simp)
    have htake : (replicate v false ++ true :: l).take (v + 1) = replicate v false ++ [true] := by
      rw [take_append]
      simp
    rw [htake, bitsVal_append, bitsVal_replicate_false] at hpeek
    simp only [bitsVal_cons, Bool.toNat_true, length_nil, bitsVal_nil] at hpeek
    rw [show 32 - (v + 1) = 31 - v by omega] at hpeek
    have hpos := Nat.two_pow_pos (31 - v)
    rw [min_eq_left hv.le]
    refine lzcntS_eq (by omega) ?_ ?_
    · exact (Nat.div_pos_iff.mp (by omega)).2
    · have hlt := (div_lt_iff_lt_mul hpos).mp (show x.toNat / 2 ^ (31 - v) < 2 by omega)
      rwa [mul_comm, ← pow_succ, show 31 - v + 1 = 32 - v by omega] at hlt
  · rw [h.toNat_eq_zero, Nat.min_eq_right (by omega)]
    · rfl
    intro i hi
    rw [getD_append _ _ _ _ (by rw [length_replicate]; omega)]
    simp [show i < v by omega]

variable {bit : Bool} {bs : BitStream}

/-- The number of leading bits `bit` in front of the reader. -/
theorem leading_reads
    (h : bs.Reads (replicate v bit ++ (!bit) :: l)) : leading bit bs = min v 32 := by
  have hcnt : lzcntS (if bit then ~~~bs.accumulator else bs.accumulator).toNat = min v 32 := by
    rcases bit with _ | _
    · exact lzcntS_window h.accumulator
    have hnot := h.accumulator.not
    rw [map_append, map_append, map_replicate, append_assoc] at hnot
    exact lzcntS_window hnot
  have hrem := h.remainingLength_eq
  rw [length_append, length_replicate] at hrem
  unfold leading
  simp only [hcnt]
  rw [if_neg (by omega)]

/-- The counting loop goes on as long as all 32 bits of the accumulator were counted. -/
theorem unaryLoop_reads (fuel) : ∀ v base bs, bs.Reads (replicate v bit ++ (!bit) :: l) →
      base + v < 2 ^ 32 → v < fuel →
      ∃ bs', unaryLoop bit fuel (min v 32) (base + min v 32) bs = some (base + v, bs') ∧
        bs'.Reads (replicate (v % 32) bit ++ (!bit) :: l) := by
  induction fuel with
  | zero => omega
  | succ fuel ih =>
  intro v base bs h hmax hfuel
  rw [unaryLoop]
  by_cases hv : v < 32
  · rw [if_neg (by omega), min_eq_left hv.le]
    refine ⟨bs, rfl, ?_⟩
    rwa [mod_eq_of_lt hv]
  have hrem := h.remainingLength_eq
  rw [length_append, length_replicate] at hrem
  have hshift := h.shift32 (by
    rw [length_append, length_replicate]
    omega)
  have hdrop : (replicate v bit ++ (!bit) :: l).drop 32 =
      replicate (v - 32) bit ++ (!bit) :: l := by
    rw [drop_append_of_le_length (by rw [length_replicate]; omega), drop_replicate]
  rw [hdrop] at hshift
  obtain ⟨bs', hloop, hreads⟩ := ih (v - 32) (base + 32) bs.shift32 hshift (by omega)
    (by omega)
  rw [if_pos (by omega)]
  simp only [leading_reads hshift]
  rw [if_neg (by omega), min_eq_right (show 32 ≤ v by omega), hloop]
  refine ⟨bs', by rw [show base + 32 + (v - 32) = base + v by omega], ?_⟩
  rwa [show v % 32 = (v - 32) % 32 by omega]

/-- **Counting leading bits** and shifting past them. -/
theorem readUnary_reads (h : bs.Reads (replicate v bit ++ (!bit) :: l)) :
    ∃ bs', readUnary bit bs = some (v, bs') ∧ bs'.Reads ((!bit) :: l) := by
  have hrem := h.remainingLength_eq
  have hmax := h.length_lt
  have hle : (replicate v bit ++ (!bit) :: l).length ≤ bs.length := by
    conv_lhs => rw [h.bits]
    rw [length_drop, byteBits_length, h.length_eq]
    omega
  rw [length_append, length_replicate] at hrem hle
  obtain ⟨bs1, hloop, hreads⟩ := unaryLoop_reads (bs.remainingLength + 1) v 0 bs h (by omega)
    (by omega)
  have hshift := hreads.shift (mod_lt v (by omega)) (by simp)
  rw [drop_left' (by rw [length_replicate])] at hshift
  refine ⟨bs1.shift (v % 32), ?_, hshift⟩
  rw [zero_add, zero_add] at hloop
  simp only [readUnary, leading_reads h, hloop]
  rfl

theorem peekBits_reads
    (h : bs.Reads (natBits n v ++ l)) (hn : n ≤ 31) : peekBits bs n = v % 2 ^ n := by
  unfold peekBits
  by_cases h0 : n > 0
  · have hw := h.accumulator
    rw [← natBits_mod] at hw
    have hpeek := hw.peek_natBits (by omega) (mod_lt v (Nat.two_pow_pos n))
    rw [if_pos h0, BitVec.toNat_ushiftRight, shiftRight_eq_div_pow, hpeek, one_shiftLeft,
      and_two_pow_sub_one_eq_mod, mod_mod]
  · rw [if_neg h0, show n = 0 by omega, pow_zero, mod_one]

theorem shift_one (h : bs.Reads (b :: l)) : (bs.shift 1).Reads l := by
  have hs := h.shift (show 1 < 32 by omega) (by simp)
  rwa [drop_one] at hs

theorem not_remainingLength_lt_one (h : bs.Reads (b :: l)) : ¬ bs.remainingLength < 1 := by
  rw [h.remainingLength_eq, length_cons]
  omega

theorem not_remainingLength_lt (h : bs.Reads (natBits n v ++ l)) : ¬ bs.remainingLength < n := by
  rw [h.remainingLength_eq, length_append, natBits_length]
  omega

theorem signBit_reads (h : bs.Reads (b :: l)) : signBit bs = b := by
  have hbit : bs.accumulator.getLsbD 31 = b := by
    have h0 := h.accumulator 0 (by omega)
    rwa [BitVec.getMsbD_eq_getLsbD] at h0
  have hand := BitVec.and_twoPow bs.accumulator 31
  rw [hbit] at hand
  rw [signBit, show (0x80000000 : BitVec 32) = BitVec.twoPow 32 31 by decide, hand]
  cases b <;> decide

/-! ## The Golomb-Rice code -/

theorem updateParam_raise (param delta : ℕ) :
    updateParam param (delta : ℤ) = if param + delta > kpMax then kpMax else param + delta := by
  have hneg : ¬ (delta : ℤ) < 0 := by omega
  simp only [updateParam, if_neg hneg, Int.toNat_natCast]

theorem updateParam_lower {param delta : ℕ} (h : param ≤ kpMax) (hd : 0 < delta) :
    updateParam param (-(delta : ℤ)) = if param > delta then param - delta else 0 := by
  simp only [updateParam]
  split_ifs <;> omega

theorem raiseKp_eq : raiseKp delta st = { st with
      k := updateParam st.kp delta >>> lsgr, kp := updateParam st.kp delta } := by
  rfl

theorem lowerKp_eq (h : st.kp ≤ kpMax) (hd : 0 < delta) : lowerKp delta st = { st with
      k := updateParam st.kp (-(delta : ℤ)) >>> lsgr, kp := updateParam st.kp (-(delta : ℤ)) } := by
  rw [updateParam_lower h hd]
  rfl

/-- The state of the decoder in front of a round, with the parameters of the encoder. -/
def decAt (bs : BitStream) (kp krp : ℕ) (out : List ℤ) : DecState :=
  ⟨bs, kp >>> lsgr, kp, krp >>> lsgr, krp, out⟩

variable {krp : ℕ}

/-- The decoder's parameters after a code are the encoder's. -/
theorem updateKr_decAt (h : krp ≤ kpMax) (val) (bs) (kp) (out) :
    updateKr (val >>> (krp >>> lsgr)) (decAt bs kp krp out) = decAt bs kp (grNext krp val) out := by
  simp only [updateKr, grNext, decAt]
  have hlower := updateParam_lower h (show 0 < 2 by omega)
  have hraise := updateParam_raise krp (val >>> (krp >>> lsgr))
  generalize val >>> (krp >>> lsgr) = vk at hraise ⊢
  by_cases h0 : vk = 0
  · rw [if_pos h0, if_pos h0, show (-2 : ℤ) = -((2 : ℕ) : ℤ) by rfl, hlower]
    rfl
  by_cases h1 : vk = 1
  · rw [if_neg h0, if_neg h0, if_neg (by omega), if_neg (by omega)]
  · rw [if_neg h0, if_neg h0, if_pos h1, if_pos (by omega)]
    rfl

/-- The quotient and the remainder of a value make up the value. -/
theorem code_eq (hval : val < 2 ^ 16) (hkr : kr ≤ 10) :
    (val % 2 ^ kr % 2 ^ 16 ||| (val >>> kr) <<< kr % 2 ^ 32) % 2 ^ 16 = val := by
  have hlow : val % 2 ^ kr < 2 ^ kr := mod_lt _ (Nat.two_pow_pos kr)
  have hle : 2 ^ kr ≤ 2 ^ 10 := Nat.pow_le_pow_right (by omega) hkr
  have hhigh : val >>> kr * 2 ^ kr ≤ val := by
    rw [shiftRight_eq_div_pow]
    exact div_mul_le_self _ _
  rw [mod_eq_of_lt (show val % 2 ^ kr < 2 ^ 16 by omega), shiftLeft_eq,
    mod_eq_of_lt (show val >>> kr * 2 ^ kr < 2 ^ 32 by omega), lor_comm, mul_comm,
    ← two_pow_add_eq_or_of_lt hlow, shiftRight_eq_div_pow, div_add_mod, mod_eq_of_lt hval]

theorem readCode_eq (h : readUnary true st.bs = some (vk, bs)) (h1 : ¬ bs.remainingLength < 1)
    (h2 : ¬ (bs.shift 1).remainingLength < st.kr) :
    readCode st = some (some
      ((peekBits (bs.shift 1) st.kr % 2 ^ 16 ||| (vk <<< st.kr) % 2 ^ 32) % 2 ^ 16,
        updateKr vk { st with bs := (bs.shift 1).shift st.kr })) := by
  unfold readCode
  rw [h, bind_eq_bind, bind_some]
  simp only [if_neg h1, if_neg h2, Option.pure_def]

variable {rest : List Bool}

/-- **A Golomb-Rice code is read back**, and `krp` moves as in the encoder. -/
theorem readCode_reads (hkrp : krp ≤ kpMax)
    (hval : val < 2 ^ 16) (h : bs.Reads (grCode krp val ++ rest)) (kp : ℕ) (out : List ℤ) :
    ∃ bs', readCode (decAt bs kp krp out) =
        some (some (val, decAt bs' kp (grNext krp val) out)) ∧ bs'.Reads rest := by
  have hkr := shift_lsgr_le hkrp
  rw [grCode, append_assoc] at h
  obtain ⟨b1, h1, hr1⟩ := readUnary_reads h
  have hr2 := shift_one hr1
  refine ⟨(b1.shift 1).shift (krp >>> lsgr), ?_, hr2.shift_natBits (by omega)⟩
  have hread : readUnary true (decAt bs kp krp out).bs = some (val >>> (krp >>> lsgr), b1) := h1
  have hlen : ¬ (b1.shift 1).remainingLength < (decAt bs kp krp out).kr :=
    not_remainingLength_lt hr2
  have hkr' : (decAt bs kp krp out).kr = krp >>> lsgr := rfl
  rw [readCode_eq hread (not_remainingLength_lt_one hr1) hlen, hkr', peekBits_reads hr2 (by omega),
    code_eq hval hkr, ← updateKr_decAt hkrp]
  rfl

/-! ## The decoder's side of a round -/

/-- The runs the decoder adds up are those the encoder has taken off. -/
theorem addRuns_splitRun (bs krp out fuel) : ∀ numZeros kp run,
      ∃ run', addRuns (splitRun fuel numZeros kp).1 run (decAt bs kp krp out) =
          (run', decAt bs (splitRun fuel numZeros kp).2.2 krp out) ∧
        run' + (splitRun fuel numZeros kp).2.1 = run + numZeros := by
  induction fuel with
  | zero => intro numZeros kp run; exact ⟨run, rfl, rfl⟩
  | succ fuel ih =>
  intro numZeros kp run
  rw [splitRun]
  by_cases hge : numZeros ≥ 1 <<< (kp >>> lsgr)
  · obtain ⟨run', hadd, hsum⟩ := ih (numZeros - 1 <<< (kp >>> lsgr)) (updateParam kp upGr)
      (run + 1 <<< (kp >>> lsgr))
    rw [if_pos hge]
    generalize splitRun fuel (numZeros - 1 <<< (kp >>> lsgr)) (updateParam kp upGr) = r at *
    obtain ⟨v, rem, kp'⟩ := r
    refine ⟨run', ?_, by simp only at hsum ⊢; omega⟩
    exact hadd
  · rw [if_neg hge]
    exact ⟨run, rfl, rfl⟩

/-- What the decoder stores for the coefficient that ends a run. -/
def runEnd (input : ℤ) : ℤ := if input = 0 then 1 else input

/-- The magnitude and the sign of the coefficient that ends a run. -/
theorem castInt16_runVal (h : input.natAbs ≤ 32767) :
    castInt16 ((runVal input : ℤ) + 1) = some ((runVal input : ℤ) + 1) ∧
      (if decide (input < 0) = true then ((runVal input : ℤ) + 1) * -1
        else (runVal input : ℤ) + 1) = runEnd input := by
  unfold castInt16 runVal runEnd
  by_cases h0 : input = 0
  · subst h0
    decide
  rw [if_pos (show input.natAbs ≠ 0 by omega)]
  refine ⟨if_pos (by omega), ?_⟩
  by_cases hneg : input < 0
  · rw [if_pos (decide_eq_true hneg)]
    omega
  · rw [if_neg (by simpa using hneg)]
    omega

variable {data : List ℤ} {kp : ℕ}

variable (dstSize : ℕ)

/-- The decoder's side of a round in run-length mode, up to the conversion of the magnitude. -/
theorem decodeRun_cast (hkp : kp ≤ kpMax) (hkrp : krp ≤ kpMax)
    (hval : runVal (collectZeros data).2.1 < 2 ^ 16)
    (h : bs.Reads ((runRound data kp krp).bits ++ rest)) (out) :
    ∃ bs', decodeRun dstSize (decAt bs kp krp out) =
        (castInt16 (runVal (collectZeros data).2.1 + 1)).bind (fun mag =>
          some (some (store dstSize (replicate (collectZeros data).1 0 ++
            [if decide ((collectZeros data).2.1 < 0) = true then mag * -1 else mag])
            (decAt bs' (runRound data kp krp).kp (runRound data kp krp).krp out)))) ∧
      bs'.Reads rest := by
  simp only [runRound] at h ⊢
  generalize collectZeros data = c at *
  obtain ⟨numZeros, input, tail⟩ := c
  have hrem := splitRun_rem_lt (numZeros + 1) numZeros kp (by omega)
  have hkp' := splitRun_le (numZeros + 1) numZeros kp hkp
  have hruns := fun b => addRuns_splitRun b krp out (numZeros + 1) numZeros kp 0
  generalize splitRun (numZeros + 1) numZeros kp = r at *
  obtain ⟨v, rem, kp'⟩ := r
  simp only [append_assoc, cons_append] at *
  have hk := shift_lsgr_le hkp'
  -- the zeros, the bit that ends them, the remainder of the run, the sign and the value
  obtain ⟨b1, h1, hr1⟩ := readUnary_reads h
  have hr2 := shift_one hr1
  obtain ⟨run, hadd, hsum⟩ := hruns (b1.shift 1)
  have hr3 := hr2.shift_natBits (by omega)
  have hpeek := peekBits_reads hr2 (by omega)
  rw [mod_eq_of_lt hrem] at hpeek
  have hr4 := shift_one hr3
  obtain ⟨b5, h5, hr5⟩ := readCode_reads hkrp hval hr4 kp' out
  refine ⟨b5, ?_, hr5⟩
  have hlower : lowerKp dnGr (decAt b5 kp' (grNext krp (runVal input)) out) =
      decAt b5 (updateParam kp' (-dnGr)) (grNext krp (runVal input)) out :=
    lowerKp_eq hkp' (by decide)
  simp only [decAt] at hadd h5 hlower ⊢
  unfold decodeRun
  rw [h1, bind_eq_bind, bind_some]
  simp only [if_neg (not_remainingLength_lt_one hr1), hadd,
    if_neg (not_remainingLength_lt hr2), if_neg (not_remainingLength_lt_one hr3), hpeek,
    signBit_reads hr3]
  rw [h5, bind_eq_bind, bind_some]
  simp only [hlower]
  rw [show run + rem = numZeros by omega]
  rfl

/-- **The decoder's side of a round in run-length mode.** -/
theorem decodeRun_reads (hkp : kp ≤ kpMax) (hkrp : krp ≤ kpMax)
    (hinput : (collectZeros data).2.1.natAbs ≤ 32767)
    (h : bs.Reads ((runRound data kp krp).bits ++ rest)) (out : List ℤ) :
    ∃ bs', decodeRun dstSize (decAt bs kp krp out) = some (some (store dstSize
          (replicate (collectZeros data).1 0 ++ [runEnd (collectZeros data).2.1])
          (decAt bs' (runRound data kp krp).kp (runRound data kp krp).krp out))) ∧
      bs'.Reads rest := by
  obtain ⟨hcast, hmag⟩ := castInt16_runVal hinput
  have hval : runVal (collectZeros data).2.1 < 2 ^ 16 := by
    unfold runVal
    split_ifs <;> omega
  obtain ⟨bs', hdec, hreads⟩ := decodeRun_cast dstSize hkp hkrp hval h out
  refine ⟨bs', ?_, hreads⟩
  rw [hdec, hcast, bind_some, hmag]

theorem get2MagSign_eq_zero : get2MagSign x = 0 ↔ x = 0 := by
  unfold get2MagSign
  split_ifs <;> omega

/-- **Unfolding** gives the coefficient back. -/
theorem unfoldMag_get2MagSign (h : x.natAbs ≤ 32767) : unfoldMag (get2MagSign x) = some x := by
  unfold unfoldMag get2MagSign castInt16
  rw [and_one_is_mod]
  by_cases hx : x ≥ 0
  · rw [if_pos hx, if_neg (by omega), if_pos (by omega)]
    congr 1
    omega
  · rw [if_neg hx, if_pos (by omega), if_pos (by omega), map_some]
    congr 1
    omega

/-- **The decoder's side of a round in Golomb-Rice mode, RLGR1.** -/
theorem decodeGr1_reads {tail : List ℤ}
    (hkp : kp ≤ kpMax) (hkrp : krp ≤ kpMax) (hx : x.natAbs ≤ 32767)
    (h : bs.Reads ((gr1Round (x :: tail) kp krp).bits ++ rest)) (out : List ℤ) :
    ∃ bs', decodeGr1 dstSize (decAt bs kp krp out) =
        some (some (store dstSize [x] (decAt bs' (gr1Round (x :: tail) kp krp).kp
          (gr1Round (x :: tail) kp krp).krp out))) ∧ bs'.Reads rest := by
  have hval : get2MagSign x < 2 ^ 16 := by
    unfold get2MagSign
    split_ifs <;> omega
  obtain ⟨b1, h1, hr1⟩ := readCode_reads hkrp hval h kp out
  refine ⟨b1, ?_, hr1⟩
  unfold decodeGr1
  rw [h1, bind_eq_bind, bind_some]
  by_cases h0 : get2MagSign x = 0
  · rw [get2MagSign_eq_zero.mp h0]
    rfl
  have hnext : (gr1Round (x :: tail) kp krp).kp = updateParam kp (-dqGr) := by
    simp [gr1Round, h0]
  have hlower : lowerKp dqGr (decAt b1 kp (grNext krp (get2MagSign x)) out) =
      decAt b1 (updateParam kp (-dqGr)) (grNext krp (get2MagSign x)) out :=
    lowerKp_eq hkp (by decide)
  simp only [if_neg h0, hlower]
  rw [hnext, unfoldMag_get2MagSign hx]
  rfl

theorem getMinBits_spec (fuel) : ∀ v, v ≠ 0 → v < 2 ^ fuel →
    ∃ g, getMinBits fuel v = g + 1 ∧ g < fuel ∧ 2 ^ g ≤ v ∧ v < 2 ^ (g + 1) := by
  induction fuel with
  | zero => omega
  | succ fuel ih =>
  intro v h0 hv
  have hshift : v >>> 1 = v / 2 := shiftRight_eq_div_pow v 1
  rw [getMinBits, if_neg h0, hshift]
  by_cases h1 : v = 1
  · refine ⟨0, ?_, by omega, by omega, by omega⟩
    rw [h1]
    cases fuel <;> rfl
  obtain ⟨g, hg, hlt, hlo, hhi⟩ := ih (v / 2) (by omega) (by omega)
  refine ⟨g + 1, by rw [hg], by omega, ?_, ?_⟩
  · omega
  · omega

/-- `GetMinBits` of the encoder agrees with `lzcnt_s` of the decoder. -/
theorem lzcntS_getMinBits (h0 : v ≠ 0) (hv : v < 2 ^ 31) :
    32 - lzcntS v = getMinBits 32 v ∧ getMinBits 32 v ≤ 31 ∧ v < 2 ^ getMinBits 32 v := by
  obtain ⟨g, hg, hlt, hlo, hhi⟩ := getMinBits_spec 32 v h0 (by omega)
  have hlz : lzcntS v = 31 - g := by
    refine lzcntS_eq (by omega) ?_ ?_
    · rwa [show 31 - (31 - g) = g by omega]
    · rwa [show 32 - (31 - g) = g + 1 by omega]
  have hg31 : g < 31 := (Nat.pow_lt_pow_iff_right (by omega)).mp (lt_of_le_of_lt hlo hv)
  rw [hg]
  exact ⟨by omega, by omega, hhi⟩

theorem pairBits_eq (h : code ≤ 32767) :
    pairBits code = some (getMinBits 32 code) ∧ getMinBits 32 code ≤ 31 ∧
      code < 2 ^ getMinBits 32 code := by
  unfold pairBits
  by_cases h0 : code = 0
  · subst h0
    decide
  obtain ⟨hlz, hle, hlt⟩ := lzcntS_getMinBits h0 (by omega)
  refine ⟨?_, hle, hlt⟩
  rw [if_pos h0, castInt16, if_pos (by omega), map_some, Int.toNat_natCast, hlz]

/-- The decoder moves `kp` after a pair as the encoder does. -/
theorem pairKp_decAt (hkp : kp ≤ kpMax) (m1 m2) (bs) (krp) (out) :
    (if m1 ≠ 0 ∧ m2 ≠ 0 then lowerKp (2 * dqGr) (decAt bs kp krp out)
      else if m1 = 0 ∧ m2 = 0 then raiseKp (2 * uqGr) (decAt bs kp krp out)
      else decAt bs kp krp out) = decAt bs (if m1 ≠ 0 ∧ m2 ≠ 0 then updateParam kp (-2 * dqGr)
      else if m1 = 0 ∧ m2 = 0 then updateParam kp (2 * uqGr) else kp) krp out := by
  by_cases h1 : m1 ≠ 0 ∧ m2 ≠ 0
  · rw [if_pos h1, if_pos h1]
    exact lowerKp_eq hkp (by decide)
  rw [if_neg h1, if_neg h1]
  by_cases h2 : m1 = 0 ∧ m2 = 0
  · rw [if_pos h2, if_pos h2]
    exact raiseKp_eq
  · rw [if_neg h2, if_neg h2]

/-- **The decoder's side of a round in Golomb-Rice mode, RLGR3**: the second coefficient is zero
where the data end. -/
theorem decodeGr3_reads (hkp : kp ≤ kpMax) (hkrp : krp ≤ kpMax)
    (hsum : get2MagSign (data.headD 0) + get2MagSign (data.tail.headD 0) ≤ 32767)
    (h : bs.Reads ((gr3Round data kp krp).bits ++ rest)) (out : List ℤ) :
    ∃ bs', decodeGr3 dstSize (decAt bs kp krp out) =
        some (some (store dstSize [data.headD 0, data.tail.headD 0]
          (decAt bs' (gr3Round data kp krp).kp (gr3Round data kp krp).krp out))) ∧
      bs'.Reads rest := by
  have hmag : ∀ x : ℤ, get2MagSign x ≤ 32767 → unfoldMag (get2MagSign x) = some x := by
    intro x hx
    refine unfoldMag_get2MagSign ?_
    unfold get2MagSign at hx
    split_ifs at hx <;> omega
  have hmag1 := hmag (data.headD 0) (by omega)
  have hmag2 := hmag (data.tail.headD 0) (by omega)
  simp only [gr3Round] at h ⊢
  generalize get2MagSign (data.headD 0) = m1 at *
  generalize get2MagSign (data.tail.headD 0) = m2 at *
  rw [append_assoc] at h
  obtain ⟨b1, h1, hr1⟩ := readCode_reads hkrp (by omega) h kp out
  obtain ⟨hnIdx, hmin, hfit⟩ := pairBits_eq hsum
  have hr2 := hr1.shift_natBits (lt_succ_of_le hmin)
  have hpeek := peekBits_reads hr1 hmin
  rw [mod_eq_of_lt (by omega)] at hpeek
  have hpair := pairKp_decAt hkp m1 m2 (b1.shift (getMinBits 32 (m1 + m2)))
    (grNext krp (m1 + m2)) out
  refine ⟨b1.shift (getMinBits 32 (m1 + m2)), ?_, hr2⟩
  simp only [decAt] at h1 hpair ⊢
  unfold decodeGr3
  rw [h1, bind_eq_bind, bind_some]
  simp only [hnIdx]
  rw [bind_eq_bind, bind_some]
  simp only [if_neg (not_remainingLength_lt hr1), hpeek, hpair,
    show (m1 + m2 + 2 ^ 32 - m1) % 2 ^ 32 = m2 by omega]
  rw [hmag1, hmag2]
  rfl

/-! ## The whole -/

/-- Every coefficient of `out` is that of `data`, except possibly a final one that is zero in
`data`. -/
def EqUpToFinalZero (data out : List ℤ) : Prop :=
  out.length = data.length ∧ ∀ i < data.length,
    out.getD i 0 = data.getD i 0 ∨ (i + 1 = data.length ∧ data.getD i 0 = 0)

theorem EqUpToFinalZero.refl (data) : EqUpToFinalZero data data := ⟨rfl, fun _ _ => Or.inl rfl⟩

theorem eqUpToFinalZero_last (init x) : EqUpToFinalZero (init ++ [0]) (init ++ [x]) := by
  refine ⟨by simp, ?_⟩
  intro i hi
  rw [length_append, length_singleton] at hi
  by_cases h : i < init.length
  · left
    rw [getD_append _ _ _ _ h, getD_append _ _ _ _ h]
  have hi' : i = init.length := by omega
  subst hi'
  simp

/-- The coefficients that come back: a zero at the end of the data that ends a run becomes 1. -/
def comeBack (run : Bool) (data : List ℤ) : List ℤ :=
  if run ∧ data.getLast? = some 0 then data.dropLast ++ [1] else data

@[simp] theorem comeBack_nil (run) : comeBack run [] = [] := if_neg fun h => absurd h.2 (by simp)

theorem eqUpToFinalZero_comeBack (data) : EqUpToFinalZero data (comeBack run data) := by
  unfold comeBack
  by_cases h : run = true ∧ data.getLast? = some 0
  · rw [if_pos h]
    obtain ⟨init, rfl⟩ := List.getLast?_eq_some_iff.mp h.2
    rw [dropLast_concat]
    exact eqUpToFinalZero_last init 1
  · rw [if_neg h]
    exact EqUpToFinalZero.refl data

theorem append_comeBack (coeffs) {rest} (h : rest ≠ []) :
    coeffs ++ comeBack run rest = comeBack run (coeffs ++ rest) := by
  unfold comeBack
  rw [show (coeffs ++ rest).getLast? = rest.getLast? by
    rw [List.getLast?_append, List.getLast?_eq_some_getLast h, some_or]]
  by_cases hrun : run = true ∧ rest.getLast? = some 0
  · rw [if_pos hrun, if_pos hrun, dropLast_append_of_ne_nil h, append_assoc]
  · rw [if_neg hrun, if_neg hrun]

/-- Whether the coder is in run-length mode in the round that takes the last coefficient. -/
def endsInRun (mode : RlgrMode) : ℕ → List ℤ → ℕ → ℕ → Bool
  | 0, _, _, _ => false
  | fuel + 1, data, kp, krp =>
    let r := round mode data kp krp
    if r.data = [] then kp >>> lsgr ≠ 0 else endsInRun mode fuel r.data r.kp r.krp

/-- The coefficients both sides can handle: magnitudes up to 32767, and for RLGR3 the sum of two
consecutive folded values is at most 32767. -/
def Codable (mode : RlgrMode) (data : List ℤ) : Prop :=
  (∀ x ∈ data, x.natAbs ≤ 32767) ∧
    (mode = .rlgr3 → data.IsChain fun a b => get2MagSign a + get2MagSign b ≤ 32767)

/-- What holds of the rest of the data in front of a round: in Golomb-Rice mode every coefficient
has had a neighbour. -/
structure Ready (mode : RlgrMode) (data : List ℤ) (kp : ℕ) : Prop where
  codable : Codable mode data
  folded : mode = .rlgr3 → kp >>> lsgr = 0 → ∀ x ∈ data, get2MagSign x ≤ 32767

/-- The tail of a chain consists of coefficients that have a neighbour. -/
theorem folded_of_isChain (h : data.IsChain fun a b => get2MagSign a + get2MagSign b ≤ 32767) :
    ∀ x ∈ data.tail, get2MagSign x ≤ 32767 := by
  induction data with
  | nil => intro x hx; simp at hx
  | cons a rest ih =>
  rcases rest with _ | ⟨b, rest⟩
  · intro x hx; simp at hx
  rw [isChain_cons_cons] at h
  intro x hx
  rw [tail_cons, mem_cons] at hx
  rcases hx with rfl | hx
  · omega
  · exact ih h.2 x hx

variable {mode : RlgrMode}

theorem Ready.round (h : Ready mode data kp) (hne : data ≠ []) (krp) :
    Ready mode (round mode data kp krp).data (round mode data kp krp).kp := by
  obtain ⟨hsuf, hlt⟩ := round_data mode hne kp krp
  obtain ⟨hmag, hchain⟩ := h.codable
  refine ⟨⟨fun x hx => hmag x (hsuf.subset hx), fun hm => (hchain hm).suffix hsuf⟩, ?_⟩
  intro hm _ x hx
  refine folded_of_isChain (hchain hm) x ?_
  obtain ⟨a, rest, rfl⟩ := exists_cons_of_ne_nil hne
  rcases suffix_cons_iff.mp hsuf with heq | hsuf'
  · rw [heq] at hlt
    omega
  · exact hsuf'.subset hx

theorem round_bits_pos (mode data kp krp) : 0 < (round mode data kp krp).bits.length := by
  have hgr : ∀ val, 0 < (grCode krp val).length := by
    simp [grCode]
  unfold Rlgr.round
  split_ifs
  · simp only [runRound, length_append, length_cons]
    omega
  cases mode with
  | rlgr1 => exact hgr _
  | rlgr3 =>
  simp only [gr3Round, length_append]
  exact Nat.add_pos_left (hgr _) _

variable {dstSize : ℕ}

theorem store_decAt (bs kp krp) (h : out.length + coeffs.length ≤ dstSize) :
    store dstSize coeffs (decAt bs kp krp out) = decAt bs kp krp (out ++ coeffs) := by
  have htake : coeffs.take (dstSize - out.length) = coeffs := take_of_length_le (by omega)
  simp only [store, decAt, htake]

/-- **The decoder's side of a round.** -/
theorem decodeRound_reads (hne : data ≠ []) (hkp : kp ≤ kpMax) (hkrp : krp ≤ kpMax)
    (hready : Ready mode data kp) (hlen : out.length + data.length = dstSize)
    (h : bs.Reads ((round mode data kp krp).bits ++ rest)) :
    ∃ bs' coeffs, decodeRound mode dstSize (decAt bs kp krp out) =
        some (some (decAt bs' (round mode data kp krp).kp (round mode data kp krp).krp
          (out ++ coeffs))) ∧ bs'.Reads rest ∧ coeffs ++ (round mode data kp krp).data =
        comeBack (kp >>> lsgr ≠ 0 ∧ (round mode data kp krp).data = []) data := by
  obtain ⟨hmag, hchain⟩ := hready.codable
  have hk : (decAt bs kp krp out).k = kp >>> lsgr := rfl
  unfold Rlgr.round at h ⊢
  unfold decodeRound
  rw [hk]
  by_cases hrun : kp >>> lsgr ≠ 0
  · rw [if_pos hrun] at h ⊢
    rw [if_pos hrun]
    obtain ⟨hdata, hlast⟩ := collectZeros_spec data hne
    have hmem : (collectZeros data).2.1 ∈ replicate (collectZeros data).1 0 ++
        (collectZeros data).2.1 :: (collectZeros data).2.2 := by simp
    rw [← hdata] at hmem
    obtain ⟨bs', hdec, hreads⟩ := decodeRun_reads dstSize hkp hkrp (hmag _ hmem) h out
    have hnext : (runRound data kp krp).data = (collectZeros data).2.2 := rfl
    rw [hnext]
    generalize collectZeros data = c at *
    obtain ⟨numZeros, input, tail⟩ := c
    refine ⟨bs', replicate numZeros 0 ++ [runEnd input], ?_, hreads, ?_⟩
    · rw [hdec, store_decAt]
      rw [hdata] at hlen
      simp only [length_append, length_cons, length_nil] at hlen ⊢
      omega
    unfold runEnd comeBack
    by_cases h0 : input = 0
    · rw [if_pos h0, hdata, hlast h0, h0, if_pos ⟨by simpa using hrun, List.getLast?_concat⟩,
        dropLast_concat, append_nil]
    have hkeep : ¬(decide (kp >>> lsgr ≠ 0 ∧ tail = []) = true ∧ data.getLast? = some 0) := by
      rintro ⟨hend, hzero⟩
      rw [(of_decide_eq_true hend).2] at hdata
      rw [hdata, List.getLast?_concat] at hzero
      exact h0 (some.inj hzero)
    rw [if_neg h0, if_neg hkeep, append_assoc, singleton_append, ← hdata]
  have hkeep (rest : List ℤ) : comeBack (kp >>> lsgr ≠ 0 ∧ rest = []) data = data :=
    if_neg fun hend => hrun (of_decide_eq_true hend.1).1
  rw [if_neg hrun] at h ⊢
  rw [if_neg hrun, hkeep]
  obtain ⟨x, tail, rfl⟩ := exists_cons_of_ne_nil hne
  rcases mode with _ | _
  · obtain ⟨bs', hdec, hreads⟩ := decodeGr1_reads dstSize hkp hkrp (hmag x (by simp)) h out
    refine ⟨bs', [x], ?_, hreads, rfl⟩
    rw [hdec, store_decAt]
    simp only [length_cons, length_nil] at hlen ⊢
    omega
  have hfold := hready.folded rfl (not_not.mp hrun)
  have hsum : get2MagSign ((x :: tail).headD 0) + get2MagSign ((x :: tail).tail.headD 0) ≤
      32767 := by
    cases tail with
    | nil => exact hfold x (by simp)
    | cons y tail => exact (isChain_cons_cons.mp (hchain rfl)).1
  obtain ⟨bs', hdec, hreads⟩ := decodeGr3_reads dstSize hkp hkrp hsum h out
  rw [hdec]
  rcases tail with _ | ⟨y, tail⟩
  · -- the second value of the pair finds no room
    refine ⟨bs', [x], ?_, hreads, rfl⟩
    have hone : dstSize - out.length = 1 := by
      simp only [length_cons, length_nil] at hlen
      omega
    simp only [store, decAt, hone]
    rfl
  refine ⟨bs', [x, y], ?_, hreads, rfl⟩
  rw [store_decAt]
  · rfl
  · simp only [length_cons, length_nil] at hlen ⊢
    omega

/-- **Run lemma.** The decoder reads the code of the data back. -/
theorem decodeLoop_reads (fuel : ℕ) : ∀ data out bs kp krp, kp ≤ kpMax → krp ≤ kpMax →
      Ready mode data kp → out.length + data.length = dstSize → data.length ≤ fuel →
      bs.Reads (codeFrom mode fuel data kp krp ++ pad) →
      ∃ res, decodeLoop mode dstSize fuel (decAt bs kp krp out) = some (out ++ res) ∧
        res = comeBack (endsInRun mode fuel data kp krp) data := by
  induction fuel with
  | zero =>
    intro data out bs kp krp _ _ _ _ hfuel _
    have hnil : data = [] := length_eq_zero_iff.mp (by omega)
    rw [hnil]
    exact ⟨[], by rw [append_nil]; rfl, rfl⟩
  | succ fuel ih =>
  intro data out bs kp krp hkp hkrp hready hlen hfuel h
  have hbs : (decAt bs kp krp out).bs = bs := rfl
  have hout : (decAt bs kp krp out).out = out := rfl
  rw [decodeLoop, hbs, hout]
  by_cases hne : data = []
  · rw [hne, length_nil] at hlen
    rw [if_neg (by omega), hne]
    exact ⟨[], by rw [append_nil], (comeBack_nil _).symm⟩
  rw [codeFrom, if_neg hne] at h
  simp only [append_assoc] at h
  have hpos := round_bits_pos mode data kp krp
  have hrem := h.remainingLength_eq
  rw [length_append] at hrem
  obtain ⟨bs', coeffs, hdec, hreads, heq⟩ := decodeRound_reads hne hkp hkrp hready hlen h
  have hcl := congrArg List.length heq
  rw [(eqUpToFinalZero_comeBack data).1, length_append] at hcl
  have hlt := (round_data mode hne kp krp).2
  obtain ⟨res, hres, hrest⟩ := ih (round mode data kp krp).data (out ++ coeffs) bs'
    (round mode data kp krp).kp (round mode data kp krp).krp
    (round_kp_le mode data hkp) (round_krp_le mode data hkrp) (hready.round hne krp)
    (by rw [length_append]; omega) (by omega) hreads
  have hback : coeffs ++ res = comeBack (endsInRun mode (fuel + 1) data kp krp) data := by
    rw [hrest, endsInRun]
    by_cases hend : (round mode data kp krp).data = []
    · simp only [hend, and_true, comeBack_nil] at heq ⊢
      exact heq
    simp only [hend, and_false] at heq ⊢
    rw [append_comeBack coeffs hend, heq]
    rfl
  refine ⟨coeffs ++ res, ?_, hback⟩
  rw [if_pos (by omega), hdec, bind_eq_bind, bind_some]
  simp only
  rw [hres, append_assoc]

theorem Codable.encOk (h : Codable mode data) : EncOk mode data := by
  intro _ x hx
  have hmag := h.1 x hx
  unfold get2MagSign
  split_ifs <;> omega

theorem decInit_eq (src) :
    decInit src = decAt (BitStream.empty.attach src).fetch (1 <<< lsgr) (1 <<< lsgr) [] := rfl

theorem rlgr_comeBack (mode data n) (hne : data ≠ [])
    (hdata : Codable mode data) (hroom : (rlgrCode mode data).length ≤ 8 * n)
    (hsmall : (rlgrCode mode data).length < 2 ^ 32) :
    ∃ bytes, rfxRlgrEncode mode data (replicate n 0) = some bytes ∧
      (bytes.length < 2 ^ 29 → rfxRlgrDecode mode bytes data.length =
        some ((1 : ℤ), comeBack (endsInRun mode data.length data (1 <<< lsgr) (1 <<< lsgr))
          data)) := by
  obtain ⟨bytes, hbytes, hbits, hlen, -⟩ := rfxRlgrEncode_spec mode data n hdata.encOk hroom hsmall
  refine ⟨bytes, hbytes, ?_⟩
  intro hlt
  have hpos := length_pos_iff.mpr hne
  have hreads := BitStream.reads_attach_fetch BitStream.empty bytes hlt
  rw [hbits] at hreads
  have h8 : 1 <<< lsgr ≤ kpMax := by decide
  have hready : Ready mode data (1 <<< lsgr) := ⟨hdata, fun _ h => absurd h (by decide)⟩
  obtain ⟨res, hres, heq⟩ := decodeLoop_reads data.length data [] _ (1 <<< lsgr) (1 <<< lsgr) h8 h8
    hready (zero_add _) le_rfl hreads
  -- there is a byte, since there is a code
  have hcode : 0 < (rlgrCode mode data).length := by
    obtain ⟨m, hm⟩ := Nat.exists_eq_add_of_lt hpos
    rw [rlgrCode, show data.length = m + 1 by omega, codeFrom, if_neg hne]
    simp only [length_append]
    exact Nat.add_pos_left (round_bits_pos _ _ _ _) _
  have hsrc : ¬ (bytes = [] ∨ data.length = 0) := by
    rintro (h | h)
    · rw [h, length_nil] at hlen
      omega
    · omega
  rw [rfxRlgrDecode, if_neg hsrc, decInit_eq, hres, bind_eq_bind, bind_some, heq,
    nil_append, (eqUpToFinalZero_comeBack data).1, Nat.sub_self, replicate_zero, append_nil]
  rfl

/-- **RLGR coding round-trips.** The encoder writes into a zeroed buffer that is large enough, and
from an encoding shorter than `2 ^ 29` bytes the decoder gets every coefficient back, except
possibly a final zero. -/
theorem rlgr_round_trip (mode : RlgrMode) (data : List ℤ) (n : ℕ) (hne : data ≠ [])
    (hdata : Codable mode data) (hroom : (rlgrCode mode data).length ≤ 8 * n)
    (hsmall : (rlgrCode mode data).length < 2 ^ 32) :
    ∃ bytes, rfxRlgrEncode mode data (List.replicate n 0) = some bytes ∧
      (bytes.length < 2 ^ 29 → ∃ out, rfxRlgrDecode mode bytes data.length = some (1, out) ∧
        EqUpToFinalZero data out) := by
  obtain ⟨bytes, hbytes, hdecode⟩ := rlgr_comeBack mode data n hne hdata hroom hsmall
  exact ⟨bytes, hbytes, fun hlt => ⟨_, hdecode hlt, eqUpToFinalZero_comeBack data⟩⟩

/-- A pair, a run that ends, and a zero at the end. -/
theorem rlgr_round_trip_short : ∃ bytes,
    rfxRlgrEncode .rlgr3 [3, 0, 0, -2, 7, 0] (List.replicate 16 0) = some bytes ∧
      (bytes.length < 2 ^ 29 → ∃ out, rfxRlgrDecode .rlgr3 bytes 6 = some (1, out) ∧
        EqUpToFinalZero [3, 0, 0, -2, 7, 0] out) :=
  rlgr_round_trip .rlgr3 [3, 0, 0, -2, 7, 0] 16 (by decide) (by unfold Codable; decide) (by decide)
    (by decide)

/-- **A zero at the end of the data comes back** exactly when the coder is not in run-length mode in
the round that takes it. -/
theorem trailing_zero_iff (mode : RlgrMode) (init : List ℤ) (n : ℕ)
    (hdata : Codable mode (init ++ [0])) (hroom : (rlgrCode mode (init ++ [0])).length ≤ 8 * n)
    (hsmall : (rlgrCode mode (init ++ [0])).length < 2 ^ 32) :
    ∃ bytes, rfxRlgrEncode mode (init ++ [0]) (List.replicate n 0) = some bytes ∧
      (bytes.length < 2 ^ 29 →
        ∃ out, rfxRlgrDecode mode bytes (init ++ [0]).length = some (1, out) ∧
        (out.getLast? = some 0 ↔
          endsInRun mode (init ++ [0]).length (init ++ [0]) (1 <<< lsgr) (1 <<< lsgr) =
            false)) := by
  obtain ⟨bytes, hbytes, hdecode⟩ := rlgr_comeBack mode (init ++ [0]) n (by simp) hdata hroom hsmall
  refine ⟨bytes, hbytes, fun hlt => ⟨_, hdecode hlt, ?_⟩⟩
  unfold comeBack
  cases endsInRun mode (init ++ [0]).length (init ++ [0]) (1 <<< lsgr) (1 <<< lsgr) with
  | false => simp
  | true => simp

/-- A zero in Golomb-Rice mode. -/
theorem trailing_zero_iff_pair : ∃ bytes,
    rfxRlgrEncode .rlgr1 [5, 5, 0] (List.replicate 16 0) = some bytes ∧
      (bytes.length < 2 ^ 29 → ∃ out, rfxRlgrDecode .rlgr1 bytes 3 = some (1, out) ∧
        (out.getLast? = some 0 ↔ endsInRun .rlgr1 3 [5, 5, 0] (1 <<< lsgr) (1 <<< lsgr) = false)) :=
  trailing_zero_iff .rlgr1 [5, 5] 16 (by unfold Codable; decide) (by decide) (by decide)

/-- **A single zero comes back as 1.** -/
theorem trailing_zero_lost : ∃ bytes, rfxRlgrEncode .rlgr1 [0] (List.replicate 16 0) = some bytes ∧
    rfxRlgrDecode .rlgr1 bytes 1 = some (1, [1]) := by
  refine ⟨[0x80, 0], by decide, by decide⟩

/-! ## Where the round trip ends -/

theorem rlgrCode_singleton (mode x) :
    rlgrCode mode [x] = (runRound [x] (1 <<< lsgr) (1 <<< lsgr)).bits := by
  rw [rlgrCode]
  simp [codeFrom, round]

theorem rlgrCode_singleton_length (mode x) : (rlgrCode mode [x]).length = runVal x >>> 1 + 5 := by
  have hsplit : splitRun (0 + 1) 0 (1 <<< lsgr) = (0, 0, 1 <<< lsgr) := by decide
  rw [rlgrCode_singleton]
  simp only [runRound, collectZeros, hsplit, grCode, length_append, length_cons,
    length_replicate, natBits_length, show (1 <<< lsgr) >>> lsgr = 1 by rfl]
  omega

theorem decode_min_fails (mode) (hlt : bytes.length < 2 ^ 29) (hne : bytes ≠ [])
    (h : byteBits bytes = rlgrCode mode [-32768] ++ pad) : rfxRlgrDecode mode bytes 1 = none := by
  have hreads := BitStream.reads_attach_fetch BitStream.empty bytes hlt
  rw [h, rlgrCode_singleton] at hreads
  have h8 : 1 <<< lsgr ≤ kpMax := by decide
  obtain ⟨bs', hdec, -⟩ := decodeRun_cast 1 h8 h8 (by decide) hreads []
  have hcast : castInt16 (runVal (collectZeros [-32768]).2.1 + 1) = none := by decide
  rw [hcast, bind_none] at hdec
  have hrem : 0 < ((BitStream.empty.attach bytes).fetch).remainingLength := by
    rw [hreads.remainingLength_eq]
    refine Nat.add_pos_left ?_ _
    simp
  have hround : decodeRound mode 1 (decInit bytes) = none := by
    unfold decodeRound
    rw [if_pos (show (decInit bytes).k ≠ 0 from one_ne_zero), decInit_eq, hdec]
  rw [rfxRlgrDecode, if_neg (by simp [hne]), decodeLoop, if_pos ⟨hrem, zero_lt_one⟩, hround]
  rfl

theorem codeFrom_ones_length (fuel) : ∀ m ≤ fuel,
    (codeFrom .rlgr1 fuel (replicate m 1) 0 8).length = 3 * m := by
  induction fuel with
  | zero => intro m hm; rw [show m = 0 by omega]; rfl
  | succ fuel ih =>
  intro m hm
  rcases m with _ | m
  · rfl
  have hbits : (round .rlgr1 (1 :: replicate m 1) 0 8).bits.length = 3 := by
    simp [round, gr1Round, grCode, get2MagSign, lsgr]
  have hdata : (round .rlgr1 (1 :: replicate m 1) 0 8).data = replicate m 1 := rfl
  have hkp : (round .rlgr1 (1 :: replicate m 1) 0 8).kp = 0 := rfl
  have hkrp : (round .rlgr1 (1 :: replicate m 1) 0 8).krp = 8 := by
    simp [round, gr1Round, grNext, get2MagSign, lsgr]
  rw [replicate_succ, codeFrom, if_neg (by simp)]
  simp only [length_append]
  rw [hdata, hkp, hkrp, ih m (by omega)]
  omega

theorem rlgrCode_ones_length (m) : (rlgrCode .rlgr1 (replicate (m + 2) 1)).length = 3 * m + 8 := by
  have hfirst : round .rlgr1 (1 :: 1 :: replicate m 1) 8 8 =
      ⟨[true, false, false, false, false], 2, 6, 1 :: replicate m 1⟩ := rfl
  have hsecond : round .rlgr1 (1 :: replicate m 1) 2 6 =
      ⟨[true, true, false], 0, 8, replicate m 1⟩ := rfl
  rw [rlgrCode, length_replicate, replicate_succ, replicate_succ, codeFrom,
    if_neg (by simp), show 1 <<< lsgr = 8 by rfl, hfirst]
  simp only [length_append]
  rw [codeFrom, if_neg (by simp), hsecond]
  simp only [length_append]
  rw [codeFrom_ones_length m m le_rfl]
  simp only [length_cons, length_nil]
  omega

/-- The bit length of a stream of `2 ^ 29` bytes is zero in `UINT32`: nothing is decoded. -/
theorem decode_wrapped (mode) (h : bytes.length = 2 ^ 29)
    (dstSize) : rfxRlgrDecode mode bytes (dstSize + 1) = some (1, replicate (dstSize + 1) 0) := by
  have hrem : (decInit bytes).bs.remainingLength = 0 := by
    have hlen : (decInit bytes).bs.length = (bytes.length * 8) % 2 ^ 32 := rfl
    have hpos : (decInit bytes).bs.position = 0 := rfl
    rw [BitStream.remainingLength, hlen, hpos, h]
    decide
  have hne : bytes ≠ [] := by
    intro hnil
    rw [hnil, length_nil] at h
    omega
  rw [rfxRlgrDecode, if_neg (by simp [hne]), decodeLoop, hrem]
  simp [decInit]

theorem not_eqUpToFinalZero_ones (m) :
    ¬ EqUpToFinalZero (replicate (m + 1) 1) (replicate (m + 1) 0) := by
  rintro ⟨-, heq⟩
  rcases heq 0 (by rw [length_replicate]; omega) with h | ⟨-, h⟩
  all_goals simp [replicate_succ] at h

/-- **The round trip fails** for the single coefficient -32768 in RLGR3, where an assertion of the
decoder fails, and where the encoding takes `2 ^ 29` bytes. -/
theorem rlgr_round_trip_fails :
    (∃ bytes, rfxRlgrEncode .rlgr3 [-32768] (List.replicate 4096 0) = some bytes ∧
      rfxRlgrDecode .rlgr3 bytes 1 = none) ∧
    (∃ bytes out, rfxRlgrEncode .rlgr1 (List.replicate 1431655764 1)
        (List.replicate (2 ^ 29) 0) = some bytes ∧
      rfxRlgrDecode .rlgr1 bytes 1431655764 = some (1, out) ∧
      ¬ EqUpToFinalZero (List.replicate 1431655764 1) out) := by
  constructor
  · have hlen := rlgrCode_singleton_length .rlgr3 (-32768)
    rw [show runVal (-32768) >>> 1 = 16383 by decide] at hlen
    obtain ⟨bytes, hbytes, hbits, hle, hn⟩ := rfxRlgrEncode_spec .rlgr3 [-32768] 4096
      (fun _ x hx => by rw [mem_singleton.mp hx]; decide) (by omega) (by omega)
    have hne : bytes ≠ [] := by
      rintro rfl
      rw [length_nil] at hle
      omega
    exact ⟨bytes, hbytes, decode_min_fails .rlgr3 (by omega) hne hbits⟩
  · have hlen := rlgrCode_ones_length 1431655762
    obtain ⟨bytes, hbytes, -, hle, hn⟩ := rfxRlgrEncode_spec .rlgr1
      (replicate (1431655762 + 2) 1) (2 ^ 29) (nofun) (by omega) (by omega)
    have hwrap := decode_wrapped .rlgr1 (show bytes.length = 2 ^ 29 by omega) 1431655763
    exact ⟨bytes, _, hbytes, hwrap, not_eqUpToFinalZero_ones 1431655763⟩

end WBFreeRDP.Rlgr

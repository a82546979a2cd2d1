/-
# The code the RLGR encoder writes

The code of a list of coefficients is a list of bits, `rlgrCode`: for every round of the encoder
the bits of its run or of its Golomb-Rice code, with the parameters the next round starts from.
-/
import WBFreeRDP.Rlgr
import Mathlib.Tactic.IntervalCases

namespace WBFreeRDP.Rlgr

open Bits List Nat Option

/-! ## The bit writer -/

/-- The writer has put the bits `w` into its buffer; what is behind them is zero. -/
structure Written (bs : RfxBitstream) (w : List Bool) : Prop where
  bits : ∀ i, (byteBits bs.buffer).getD i false = w.getD i false
  length : w.length + bs.bitsLeft = 8 * bs.bytePos + 8
  bitsLeft_pos : 1 ≤ bs.bitsLeft
  bitsLeft_le : bs.bitsLeft ≤ 8

theorem written_attach (n) : Written (attach (replicate n 0)) [] where
  bits i := by
    have hsplit : i = 8 * (i / 8) + i % 8 := by omega
    rw [hsplit]
    simp only [attach]
    rw [byteBits_getD _ (mod_lt _ (by omega))]
    by_cases h : i / 8 < n <;> simp [h]
  length := by simp [attach]
  bitsLeft_pos := by simp [attach]
  bitsLeft_le := by simp [attach]

variable {bs : RfxBitstream} {w : List Bool}

/-- **One round** of `rfx_bitstream_put_bits`: the next `b` bits go into the current byte. -/
theorem Written.chunk (h : Written bs w)
    (hb : b ≤ bs.bitsLeft) (hx : x < 2 ^ b) (hroom : bs.bytePos < bs.buffer.length) :
    Written
      { buffer := bs.buffer.set bs.bytePos
          (UInt8.ofNat ((bs.buffer.getD bs.bytePos 0).toNat ||| x <<< (bs.bitsLeft - b)))
        bytePos := if bs.bitsLeft - b = 0 then bs.bytePos + 1 else bs.bytePos
        bitsLeft := if bs.bitsLeft - b = 0 then 8 else bs.bitsLeft - b }
      (w ++ natBits b x) := by
  have hlen := h.length
  have hle := h.bitsLeft_le
  have hlt : (bs.buffer.getD bs.bytePos 0).toNat ||| x <<< (bs.bitsLeft - b) < UInt8.size := by
    have hsh : x <<< (bs.bitsLeft - b) < 2 ^ 8 := by
      rw [shiftLeft_eq]
      calc x * 2 ^ (bs.bitsLeft - b) < 2 ^ b * 2 ^ (bs.bitsLeft - b) :=
            mul_lt_mul_of_pos_right hx (Nat.two_pow_pos _)
        _ = 2 ^ bs.bitsLeft := by rw [← pow_add, Nat.add_sub_cancel' hb]
        _ ≤ 2 ^ 8 := Nat.pow_le_pow_right (by omega) hle
    exact or_lt_two_pow (UInt8.toNat_lt _) hsh
  refine ⟨fun i => ?_, ?_, ?_, ?_⟩
  · rw [byteBits_set_getD _ hroom, UInt8.toNat_ofNat_of_lt' hlt, testBit_or, testBit_shiftLeft]
    have hold := h.bits i
    by_cases hi : i / 8 = bs.bytePos
    · rw [if_pos hi]
      have hbyte : (bs.buffer.getD bs.bytePos 0).toNat.testBit (7 - i % 8) = w.getD i false := by
        rw [← byteBits_getD _ (mod_lt _ (by omega)), ← hi,
          show 8 * (i / 8) + i % 8 = i by omega, hold]
      rw [hbyte]
      by_cases hw : i < w.length
      · -- a bit written before: the new ones are further to the right
        have hz : x.testBit (7 - i % 8 - (bs.bitsLeft - b)) = false :=
          testBit_lt_two_pow (lt_of_lt_of_le hx (Nat.pow_le_pow_right (by omega) (by omega)))
        rw [getD_append _ _ _ _ hw, hz, Bool.and_false, Bool.or_false]
      rw [getD_append_right _ _ _ _ (by omega), natBits_getD,
        getD_eq_default _ _ (by omega), Bool.false_or,
        show 7 - i % 8 - (bs.bitsLeft - b) = b - 1 - (i - w.length) by omega]
      congr 1
      simp only [decide_eq_decide]
      omega
    · rw [if_neg hi, hold]
      by_cases hw : i < w.length
      · rw [getD_append _ _ _ _ hw]
      · rw [getD_append_right _ _ _ _ (by omega), getD_eq_default _ _ (by omega)]
        simp [show ¬ i - w.length < b by omega]
  · simp only [length_append, natBits_length]
    split <;> omega
  · simp only
    split <;> omega
  · simp only
    split <;> omega

/-- The writing function `f` appends the bits `c` wherever there is room for them. -/
def Appends (f : RfxBitstream → Option RfxBitstream) (c : List Bool) : Prop :=
  ∀ bs w, Written bs w → w.length + c.length ≤ 8 * bs.buffer.length →
    ∃ bs', f bs = some bs' ∧ Written bs' (w ++ c) ∧ bs'.buffer.length = bs.buffer.length

theorem appends_nil : Appends some [] := by
  intro bs w h _
  exact ⟨bs, rfl, by rwa [append_nil], rfl⟩

theorem Appends.bind
    (hf : Appends f a) (hg : Appends g b) : Appends (fun bs => (f bs).bind g) (a ++ b) := by
  intro bs w h hroom
  rw [length_append] at hroom
  obtain ⟨bs1, h1, hw1, hl1⟩ := hf bs w h (by omega)
  obtain ⟨bs2, h2, hw2, hl2⟩ := hg bs1 (w ++ a) hw1 (by rw [length_append]; omega)
  refine ⟨bs2, ?_, ?_, hl2.trans hl1⟩
  · simp [h1, h2]
  · rwa [← append_assoc]

/-- The loop of `rfx_bitstream_put_bits` appends the low `nbits` bits. -/
theorem putBitsLoop_written (bits fuel) : ∀ nbits bs w, nbits ≤ fuel → Written bs w →
      w.length + nbits ≤ 8 * bs.buffer.length →
      Written (putBitsLoop bits fuel nbits bs) (w ++ natBits nbits bits) ∧
        (putBitsLoop bits fuel nbits bs).buffer.length = bs.buffer.length := by
  induction fuel with
  | zero =>
    intro nbits bs w hfuel h _
    obtain rfl : nbits = 0 := by omega
    simpa [putBitsLoop] using h
  | succ fuel ih =>
  intro nbits bs w hfuel h hroom
  have hlen := h.length
  have hpos := h.bitsLeft_pos
  have hle := h.bitsLeft_le
  rw [putBitsLoop]
  by_cases hn : nbits = 0
  · subst hn
    simpa using h
  rw [if_pos (by omega)]
  generalize hb : (if nbits > bs.bitsLeft then bs.bitsLeft else nbits) = b
  have hb1 : 1 ≤ b := by subst hb; split <;> omega
  have hb2 : b ≤ nbits := by subst hb; split <;> omega
  have hb3 : b ≤ bs.bitsLeft := by subst hb; split <;> omega
  have hx : (bits >>> (nbits - b)) &&& ((1 <<< b) - 1) = bits / 2 ^ (nbits - b) % 2 ^ b := by
    rw [one_shiftLeft, and_two_pow_sub_one_eq_mod, shiftRight_eq_div_pow]
  have hchunk := h.chunk hb3 (mod_lt (bits / 2 ^ (nbits - b)) (Nat.two_pow_pos b))
    (by omega)
  rw [natBits_mod] at hchunk
  simp only [hx]
  have hrec := ih (nbits - b) _ _ (by omega) hchunk (by
    simp only [length_append, natBits_length, length_set]
    omega)
  rw [append_assoc, ← natBits_add, Nat.add_sub_cancel' hb2] at hrec
  refine ⟨hrec.1, ?_⟩
  rw [hrec.2, length_set]

/-- **`rfx_bitstream_put_bits`** appends a field. -/
theorem putBits_appends {bits : ℕ} (hbits : bits ≤ 0xFFFF) (nbits : ℕ) :
    Appends (fun bs => putBits bs bits nbits) (natBits nbits bits) := by
  intro bs w h hroom
  rw [natBits_length] at hroom
  have hloop := putBitsLoop_written bits nbits nbits bs w le_rfl h hroom
  exact ⟨_, if_neg (by omega), hloop.1, hloop.2⟩

theorem natBits_bit {bit : Bool} (hn : n ≤ 16) :
    natBits n (if bit then 0xFFFF else 0) = replicate n bit := by
  cases bit with
  | false => exact natBits_zero_right n
  | true =>
  have hmod : (0xFFFF : ℕ) % 2 ^ n = 2 ^ n - 1 := by interval_cases n <;> rfl
  rw [if_pos rfl, ← natBits_mod, hmod, natBits_ones]

theorem outputBitLoop_appends (bit : Bool) (n) :
    Appends (outputBitLoop (if bit then 0xFFFF else 0) n) (replicate (16 * n) bit) := by
  induction n with
  | zero => exact appends_nil
  | succ n ih =>
  have hput := putBits_appends (show (if bit then 0xFFFF else 0) ≤ 0xFFFF by split <;> omega) 16
  rw [natBits_bit le_rfl] at hput
  have h := hput.bind ih
  rwa [← replicate_add, show 16 + 16 * n = 16 * (n + 1) by omega] at h

/-- **`OutputBit`** appends a bit `count` times. -/
theorem outputBit_appends (count : ℕ) (bit : Bool) :
    Appends (fun bs => outputBit bs count bit) (replicate count bit) := by
  have hloop := outputBitLoop_appends bit ((count - count % 16) / 16)
  have hrem : Appends
      (fun bs => if count % 16 > 0 then putBits bs (if bit then 0xFFFF else 0) (count % 16)
        else some bs) (replicate (count % 16) bit) := by
    by_cases h0 : count % 16 > 0
    · have hput := putBits_appends (show (if bit then 0xFFFF else 0) ≤ 0xFFFF by split <;> omega)
        (count % 16)
      rw [natBits_bit (by omega)] at hput
      simpa only [if_pos h0] using hput
    · rw [show count % 16 = 0 by omega]
      exact appends_nil
  have h := hloop.bind hrem
  rwa [← replicate_add, show 16 * ((count - count % 16) / 16) + count % 16 = count by omega]
    at h

/-! ## The code of one round -/

/-- The Golomb-Rice code of `val`: `val >> kr` ones, a zero, and the low `kr` bits. -/
def grCode (krp val : ℕ) : List Bool :=
  List.replicate (val >>> (krp >>> lsgr)) true ++ false :: natBits (krp >>> lsgr) val

/-- The parameter `krp` after the code of `val`. -/
def grNext (krp val : ℕ) : ℕ :=
  let vk := val >>> (krp >>> lsgr)
  if vk = 0 then updateParam krp (-2) else if vk > 1 then updateParam krp vk else krp

variable {krp : ℕ}

/-- **`rfx_rlgr_code_gr`** appends the code of `val`. -/
theorem codeGR_appends (val : ℕ) (hkrp : krp ≤ kpMax)
    (h : Written bs w) (hroom : w.length + (grCode krp val).length ≤ 8 * bs.buffer.length) :
    ∃ bs', codeGR bs krp val = some (bs', grNext krp val) ∧ Written bs' (w ++ grCode krp val) ∧
      bs'.buffer.length = bs.buffer.length := by
  have hkr : krp >>> lsgr ≤ 10 := by
    rw [lsgr]
    rw [kpMax] at hkrp
    omega
  have hlow : val &&& ((1 <<< (krp >>> lsgr)) - 1) = val % 2 ^ (krp >>> lsgr) := by
    rw [one_shiftLeft, and_two_pow_sub_one_eq_mod]
  have hfit : val % 2 ^ (krp >>> lsgr) ≤ 0xFFFF := by
    have h2 : 2 ^ (krp >>> lsgr) ≤ 2 ^ 10 := Nat.pow_le_pow_right (by omega) hkr
    omega
  have hrem : Appends
      (fun bs => if krp >>> lsgr ≠ 0 then putBits bs (val &&& ((1 <<< (krp >>> lsgr)) - 1))
        (krp >>> lsgr) else some bs) (natBits (krp >>> lsgr) val) := by
    by_cases h0 : krp >>> lsgr = 0
    · rw [h0]
      exact appends_nil
    have hput := putBits_appends hfit (krp >>> lsgr)
    rw [natBits_mod] at hput
    simpa only [ne_eq, h0, not_false_eq_true, if_true, hlow] using hput
  obtain ⟨bs', hbs', hw', hl'⟩ := ((outputBit_appends (val >>> (krp >>> lsgr)) true).bind
    ((outputBit_appends 1 false).bind hrem)) bs w h (by simpa [grCode] using hroom)
  refine ⟨bs', ?_, by simpa [grCode] using hw', hl'⟩
  obtain ⟨b1, h1, hbs'⟩ := bind_eq_some_iff.mp hbs'
  obtain ⟨b2, h2, h3⟩ := bind_eq_some_iff.mp hbs'
  simp only [codeGR, h1, h2, bind_eq_bind, bind_some]
  by_cases h0 : krp >>> lsgr ≠ 0
  · rw [if_pos h0] at h3 ⊢
    rw [h3]
    rfl
  · rw [if_neg h0] at h3 ⊢
    rw [some.inj h3]
    rfl

/-- A run of zeros cut into runs of `1 << k`: how many of them, what remains, and `kp` after
them. -/
def splitRun : ℕ → ℕ → ℕ → ℕ × ℕ × ℕ
  | 0, numZeros, kp => (0, numZeros, kp)
  | fuel + 1, numZeros, kp =>
    if numZeros ≥ 1 <<< (kp >>> lsgr) then
      let (v, rest, kp') := splitRun fuel (numZeros - 1 <<< (kp >>> lsgr)) (updateParam kp upGr)
      (v + 1, rest, kp')
    else (0, numZeros, kp)

def runVal (input : ℤ) : ℕ := if input.natAbs ≠ 0 then input.natAbs - 1 else 0

/-- What a round leaves: its bits, the parameters and the data after it. -/
structure Round where
  bits : List Bool
  kp : ℕ
  krp : ℕ
  data : List ℤ

def runRound (data : List ℤ) (kp krp : ℕ) : Round :=
  let (numZeros, input, rest) := collectZeros data
  let (v, rem, kp') := splitRun (numZeros + 1) numZeros kp
  { bits := List.replicate v false ++
      (true :: (natBits (kp' >>> lsgr) rem ++ (decide (input < 0) :: grCode krp (runVal input))))
    kp := updateParam kp' (-dnGr)
    krp := grNext krp (runVal input)
    data := rest }

def gr1Round (data : List ℤ) (kp krp : ℕ) : Round :=
  let twoMs := get2MagSign (data.headD 0)
  { bits := grCode krp twoMs
    kp := updateParam kp (if twoMs ≠ 0 then -dqGr else uqGr)
    krp := grNext krp twoMs
    data := data.tail }

def gr3Round (data : List ℤ) (kp krp : ℕ) : Round :=
  let twoMs1 := get2MagSign (data.headD 0)
  let twoMs2 := get2MagSign (data.tail.headD 0)
  { bits := grCode krp (twoMs1 + twoMs2) ++ natBits (getMinBits 32 (twoMs1 + twoMs2)) twoMs1
    kp :=
      if twoMs1 ≠ 0 ∧ twoMs2 ≠ 0 then updateParam kp (-2 * dqGr)
      else if twoMs1 = 0 ∧ twoMs2 = 0 then updateParam kp (2 * uqGr)
      else kp
    krp := grNext krp (twoMs1 + twoMs2)
    data := data.tail.tail }

/-- The round the mode and `k` select. -/
def round (mode : RlgrMode) (data : List ℤ) (kp krp : ℕ) : Round :=
  if kp >>> lsgr ≠ 0 then runRound data kp krp
  else
    match mode with
    | .rlgr1 => gr1Round data kp krp
    | .rlgr3 => gr3Round data kp krp

/-- The code of a list of coefficients from the parameters `kp`, `krp` on. -/
def codeFrom (mode : RlgrMode) : ℕ → List ℤ → ℕ → ℕ → List Bool
  | 0, _, _, _ => []
  | fuel + 1, data, kp, krp =>
    if data = [] then []
    else
      let r := round mode data kp krp
      r.bits ++ codeFrom mode fuel r.data r.kp r.krp

def rlgrCode (mode : RlgrMode) (data : List ℤ) : List Bool :=
  codeFrom mode data.length data (1 <<< lsgr) (1 <<< lsgr)

/-! ### Bounds on the parameters -/

theorem updateParam_le : updateParam param deltaP ≤ kpMax := by
  simp only [updateParam]
  split_ifs <;> omega

theorem grNext_le (h : krp ≤ kpMax) : grNext krp val ≤ kpMax := by
  simp only [grNext]
  split_ifs
  iterate 2 exact updateParam_le
  · exact h

theorem shift_lsgr_le (h : kp ≤ kpMax) : kp >>> lsgr ≤ 10 := by
  rw [lsgr]
  rw [kpMax] at h
  omega

theorem splitRun_le (fuel) :
    ∀ numZeros kp, kp ≤ kpMax → (splitRun fuel numZeros kp).2.2 ≤ kpMax := by
  induction fuel with
  | zero => intro numZeros kp h; exact h
  | succ fuel ih =>
  intro numZeros kp h
  rw [splitRun]
  split
  · exact ih _ _ updateParam_le
  · exact h

/-- With as many rounds as zeros, what remains of a run fits into `k` bits. -/
theorem splitRun_rem_lt (fuel) : ∀ numZeros kp, numZeros < fuel →
      (splitRun fuel numZeros kp).2.1 < 2 ^ ((splitRun fuel numZeros kp).2.2 >>> lsgr) := by
  induction fuel with
  | zero => omega
  | succ fuel ih =>
  intro numZeros kp h
  rw [splitRun]
  by_cases hge : numZeros ≥ 1 <<< (kp >>> lsgr)
  · rw [if_pos hge]
    refine ih _ _ ?_
    have hpos : 0 < 1 <<< (kp >>> lsgr) := by
      rw [one_shiftLeft]
      exact Nat.two_pow_pos _
    omega
  · rw [if_neg hge]
    simp only
    omega

variable (mode : RlgrMode)

variable (data : List ℤ)

theorem round_kp_le (h : kp ≤ kpMax) : (round mode data kp krp).kp ≤ kpMax := by
  unfold round
  split_ifs
  · exact updateParam_le
  rcases mode with _ | _
  · exact updateParam_le
  simp only [gr3Round]
  split_ifs
  iterate 2 exact updateParam_le
  · exact h

theorem round_krp_le (h : krp ≤ kpMax) : (round mode data kp krp).krp ≤ kpMax := by
  unfold round
  split_ifs
  · exact grNext_le h
  · cases mode with
    | rlgr1 | rlgr3 => exact grNext_le h

/-! ## The encoder writes the code -/

theorem emitZeros_written (fuel) : ∀ numZeros bs w kp krp, Written bs w →
      w.length + (splitRun fuel numZeros kp).1 ≤ 8 * bs.buffer.length →
      ∃ bs', emitZeros fuel numZeros ⟨bs, kp >>> lsgr, kp, krp⟩ =
          some ((splitRun fuel numZeros kp).2.1, ⟨bs', (splitRun fuel numZeros kp).2.2 >>> lsgr,
            (splitRun fuel numZeros kp).2.2, krp⟩) ∧
        Written bs' (w ++ replicate (splitRun fuel numZeros kp).1 false) ∧
        bs'.buffer.length = bs.buffer.length := by
  induction fuel with
  | zero =>
    intro numZeros bs w kp krp h _
    exact ⟨bs, rfl, by simpa [splitRun] using h, rfl⟩
  | succ fuel ih =>
  intro numZeros bs w kp krp h hroom
  rw [splitRun] at hroom ⊢
  simp only [emitZeros]
  by_cases hge : numZeros ≥ 1 <<< (kp >>> lsgr)
  swap
  · simp only [if_neg hge]
    exact ⟨bs, rfl, by simpa using h, rfl⟩
  simp only [if_pos hge] at hroom ⊢
  obtain ⟨b1, h1, hw1, hl1⟩ := outputBit_appends 1 false bs w h (by
    rw [length_replicate]
    omega)
  obtain ⟨b2, h2, hw2, hl2⟩ := ih (numZeros - 1 <<< (kp >>> lsgr)) b1 _ (updateParam kp upGr)
    krp hw1 (by
      rw [length_append, length_replicate]
      omega)
  refine ⟨b2, ?_, ?_, hl2.trans hl1⟩
  · simp [h1, h2]
  · rwa [append_assoc, ← replicate_add, add_comm] at hw2

/-- The coefficients for which no assertion of the encoder fails. -/
def EncOk (mode : RlgrMode) (data : List ℤ) : Prop :=
  mode = .rlgr3 → ∀ x ∈ data, get2MagSign x ≤ 0xFFFF

theorem encodeRun_written (hkp : kp ≤ kpMax) (hkrp : krp ≤ kpMax) (h : Written bs w)
    (hroom : w.length + (runRound data kp krp).bits.length ≤ 8 * bs.buffer.length) :
    ∃ bs', encodeRun data ⟨bs, kp >>> lsgr, kp, krp⟩ =
        some (⟨bs', (runRound data kp krp).kp >>> lsgr, (runRound data kp krp).kp,
          (runRound data kp krp).krp⟩, (runRound data kp krp).data) ∧
      Written bs' (w ++ (runRound data kp krp).bits) ∧ bs'.buffer.length = bs.buffer.length := by
  simp only [runRound, encodeRun] at hroom ⊢
  generalize collectZeros data = c at hroom ⊢
  obtain ⟨numZeros, input, rest⟩ := c
  have hrem := splitRun_rem_lt (numZeros + 1) numZeros kp (by omega)
  have hkp' := shift_lsgr_le (splitRun_le (numZeros + 1) numZeros kp hkp)
  obtain ⟨b1, h1, hw1, hl1⟩ := emitZeros_written (numZeros + 1) numZeros bs w kp krp h (by
    simp only [length_append, length_replicate] at hroom
    omega)
  generalize splitRun (numZeros + 1) numZeros kp = r at *
  obtain ⟨v, rem, kp'⟩ := r
  simp only at *
  have hfit : rem ≤ 0xFFFF := by
    have : 2 ^ (kp' >>> lsgr) ≤ 2 ^ 10 := Nat.pow_le_pow_right (by omega) hkp'
    omega
  -- the end of the run, what remains of it and the sign
  have hmid := (outputBit_appends 1 true).bind ((putBits_appends hfit (kp' >>> lsgr)).bind
    (outputBit_appends 1 (decide (input < 0))))
  obtain ⟨b2, h2, hw2, hl2⟩ := hmid b1 _ hw1 (by
    simp only [length_append, length_replicate, length_cons]
      at hroom ⊢
    omega)
  obtain ⟨b3, h3, hw3, hl3⟩ := codeGR_appends (runVal input) hkrp hw2 (by
    simp only [length_append, length_replicate, length_cons]
      at hroom ⊢
    omega)
  obtain ⟨c1, hc1, h2⟩ := bind_eq_some_iff.mp h2
  obtain ⟨c2, hc2, hc3⟩ := bind_eq_some_iff.mp h2
  refine ⟨b3, ?_, ?_, by omega⟩
  · simp only [h1, bind_eq_bind, bind_some, hc1, hc2, hc3]
    rw [runVal] at h3
    rw [h3]
    rfl
  · simpa [append_assoc] using hw3

/-- The encoder's side of a round in Golomb-Rice mode, RLGR3. -/
theorem encodeGr3_written (hdata : get2MagSign (data.headD 0) ≤ 0xFFFF)
    (hkrp : krp ≤ kpMax) (h : Written bs w)
    (hroom : w.length + (gr3Round data kp krp).bits.length ≤ 8 * bs.buffer.length) :
    ∃ bs', encodeGr3 data ⟨bs, kp >>> lsgr, kp, krp⟩ =
        some (⟨bs', (gr3Round data kp krp).kp >>> lsgr, (gr3Round data kp krp).kp,
          (gr3Round data kp krp).krp⟩, (gr3Round data kp krp).data) ∧
      Written bs' (w ++ (gr3Round data kp krp).bits) ∧ bs'.buffer.length = bs.buffer.length := by
  simp only [gr3Round, encodeGr3] at hroom ⊢
  generalize get2MagSign (data.headD 0) = m1 at *
  generalize get2MagSign (data.tail.headD 0) = m2 at *
  obtain ⟨b1, h1, hw1, hl1⟩ := codeGR_appends (m1 + m2) hkrp h (by
    rw [length_append] at hroom
    omega)
  obtain ⟨b2, h2, hw2, hl2⟩ := putBits_appends hdata (getMinBits 32 (m1 + m2)) b1 _ hw1 (by
    simp only [length_append] at hroom ⊢
    omega)
  refine ⟨b2, ?_, by rwa [← append_assoc], by omega⟩
  simp only [h1, h2, bind_eq_bind, bind_some]
  split_ifs <;> rfl

/-- **The encoder's side of a round.** -/
theorem encodeRound_written {data : List ℤ} (hne : data ≠ [])
    (hdata : EncOk mode data) (hkp : kp ≤ kpMax) (hkrp : krp ≤ kpMax) (h : Written bs w)
    (hroom : w.length + (round mode data kp krp).bits.length ≤ 8 * bs.buffer.length) :
    ∃ bs', encodeRound mode data ⟨bs, kp >>> lsgr, kp, krp⟩ =
        some (⟨bs', (round mode data kp krp).kp >>> lsgr, (round mode data kp krp).kp,
          (round mode data kp krp).krp⟩, (round mode data kp krp).data) ∧
      Written bs' (w ++ (round mode data kp krp).bits) ∧ bs'.buffer.length = bs.buffer.length := by
  unfold encodeRound
  unfold round at hroom ⊢
  by_cases hk : kp >>> lsgr ≠ 0
  · simp only [if_pos hk] at hroom ⊢
    exact encodeRun_written data hkp hkrp h hroom
  simp only [if_neg hk] at hroom ⊢
  rcases mode with _ | _
  · obtain ⟨b1, h1, hw1, hl1⟩ := codeGR_appends _ hkrp h hroom
    refine ⟨b1, ?_, hw1, hl1⟩
    simp only [encodeGr1, h1]
    rfl
  refine encodeGr3_written data ?_ hkrp h hroom
  obtain ⟨x, rest, rfl⟩ := exists_cons_of_ne_nil hne
  exact hdata rfl x (by simp)

/-- The zeros collected, the coefficient that ends them and the rest are the data; only the end of
the data can be a zero that ends a run. -/
theorem collectZeros_spec (hne : data ≠ []) :
    data = replicate (collectZeros data).1 0 ++ (collectZeros data).2.1 ::
      (collectZeros data).2.2 ∧ ((collectZeros data).2.1 = 0 → (collectZeros data).2.2 = []) := by
  induction data with
  | nil => exact absurd rfl hne
  | cons x rest ih =>
  rcases rest with _ | ⟨y, rest⟩
  · exact ⟨rfl, fun _ => rfl⟩
  rw [collectZeros]
  by_cases hx : x = 0
  · obtain ⟨h1, h2⟩ := ih (by simp)
    rw [if_pos hx]
    refine ⟨?_, h2⟩
    rw [replicate_succ, cons_append, ← h1, hx]
  · rw [if_neg hx]
    exact ⟨rfl, fun h => absurd h hx⟩

/-- Every round takes coefficients from the front of the data, at least one. -/
theorem round_data {data} (hne : data ≠ []) (kp krp) :
    (round mode data kp krp).data <:+ data ∧
    (round mode data kp krp).data.length < data.length := by
  obtain ⟨x, rest, rfl⟩ := exists_cons_of_ne_nil hne
  unfold round
  split_ifs
  · have h := (collectZeros_spec (x :: rest) hne).1
    have hdata : (runRound (x :: rest) kp krp).data = (collectZeros (x :: rest)).2.2 := rfl
    rw [hdata]
    refine ⟨⟨replicate (collectZeros (x :: rest)).1 0 ++ [(collectZeros (x :: rest)).2.1], ?_⟩, ?_⟩
    · conv_rhs => rw [h]
      simp
    conv_rhs => rw [h]
    simp only [length_append, length_cons]
    omega
  · rcases mode with _ | _
    · exact ⟨⟨[x], rfl⟩, by simp [gr1Round]⟩
    refine ⟨(tail_suffix rest).trans ⟨[x], rfl⟩, ?_⟩
    simp only [gr3Round, length_tail, length_cons]
    omega

/-- **The encoder writes the code** of the data. -/
theorem encodeLoop_written (fuel : ℕ) : ∀ data bs w kp krp, EncOk mode data →
      kp ≤ kpMax → krp ≤ kpMax → Written bs w →
      w.length + (codeFrom mode fuel data kp krp).length ≤ 8 * bs.buffer.length →
      ∃ st, encodeLoop mode fuel data ⟨bs, kp >>> lsgr, kp, krp⟩ = some st ∧
        Written st.bs (w ++ codeFrom mode fuel data kp krp) ∧
        st.bs.buffer.length = bs.buffer.length := by
  induction fuel with
  | zero =>
    intro data bs w kp krp _ _ _ h _
    exact ⟨_, rfl, by simpa [codeFrom] using h, rfl⟩
  | succ fuel ih =>
  intro data bs w kp krp hok hkp hkrp h hroom
  rw [codeFrom] at hroom ⊢
  rw [encodeLoop]
  by_cases hnil : data = []
  · simp only [if_pos hnil]
    exact ⟨_, rfl, by simpa using h, rfl⟩
  simp only [if_neg hnil, length_append] at hroom ⊢
  obtain ⟨b1, h1, hw1, hl1⟩ := encodeRound_written mode hnil hok hkp hkrp h (by omega)
  have hsuf := (round_data mode hnil kp krp).1
  obtain ⟨st, h2, hw2, hl2⟩ := ih (round mode data kp krp).data b1 _
    (round mode data kp krp).kp (round mode data kp krp).krp
    (fun hm x hx => hok hm x (hsuf.subset hx)) (round_kp_le mode data hkp)
    (round_krp_le mode data hkrp) hw1 (by
      rw [length_append]
      omega)
  refine ⟨st, ?_, by rwa [← append_assoc], hl2.trans hl1⟩
  rw [h1]
  exact h2

/-- Writing zero bits over zero bits leaves the buffer as it is; the position moves on, up to the
end of the buffer. -/
theorem putBitsLoop_zero (fuel) : ∀ nbits bs, 1 ≤ bs.bitsLeft → bs.bitsLeft ≤ 8 →
      8 * bs.bytePos + 8 ≤ 8 * bs.buffer.length + bs.bitsLeft →
      let bs' := putBitsLoop 0 fuel nbits bs
      bs'.buffer = bs.buffer ∧ 1 ≤ bs'.bitsLeft ∧ bs'.bitsLeft ≤ 8 ∧
        8 * bs'.bytePos + 8 ≤ 8 * bs.buffer.length + bs'.bitsLeft ∧
        8 * bs.bytePos + bs'.bitsLeft ≤ 8 * bs'.bytePos + bs.bitsLeft ∧
        8 * bs'.bytePos + bs.bitsLeft ≤ 8 * bs.bytePos + bs'.bitsLeft + nbits := by
  induction fuel with
  | zero =>
    intro nbits bs h1 h2 h3
    exact ⟨rfl, h1, h2, h3, le_rfl, by simp [putBitsLoop]⟩
  | succ fuel ih =>
  intro nbits bs h1 h2 h3
  rw [putBitsLoop]
  by_cases hc : bs.bytePos < bs.buffer.length ∧ nbits > 0
  swap
  · rw [if_neg hc]
    exact ⟨rfl, h1, h2, h3, le_rfl, by omega⟩
  rw [if_pos hc]
  obtain ⟨hlt, hn⟩ := hc
  generalize hb : (if nbits > bs.bitsLeft then bs.bitsLeft else nbits) = b
  have hb2 : b ≤ nbits := by subst hb; split <;> omega
  have hb3 : b ≤ bs.bitsLeft := by subst hb; split <;> omega
  have hset : bs.buffer.set bs.bytePos (UInt8.ofNat ((bs.buffer.getD bs.bytePos 0).toNat |||
      ((0 >>> (nbits - b)) &&& ((1 <<< b) - 1)) <<< (bs.bitsLeft - b))) = bs.buffer := by
    rw [zero_shiftRight, zero_and, zero_shiftLeft, or_zero,
      UInt8.ofNat_toNat, getD_eq_getElem?_getD, List.getElem?_eq_getElem hlt,
      getD_some, set_getElem_self]
  simp only [hset]
  generalize hp : (if bs.bitsLeft - b = 0 then bs.bytePos + 1 else bs.bytePos) = p
  generalize hq : (if bs.bitsLeft - b = 0 then 8 else bs.bitsLeft - b) = q
  have hpq : 8 * p + bs.bitsLeft = 8 * bs.bytePos + q + b ∧ 1 ≤ q ∧ q ≤ 8 := by
    subst hp hq
    split <;> omega
  obtain ⟨g1, g2, g3, g4, g5, g6⟩ := ih (nbits - b) ⟨bs.buffer, p, q⟩ hpq.2.1 hpq.2.2
    (by simp only; omega)
  simp only at g1 g4 g5 g6
  exact ⟨g1, g2, g3, g4, by omega, by omega⟩

/-- **The encoder.** Into a zeroed buffer that is large enough it writes the code, padded with
zeros to whole bytes. -/
theorem rfxRlgrEncode_spec (n : ℕ) (hok : EncOk mode data)
    (hroom : (rlgrCode mode data).length ≤ 8 * n) (hsmall : (rlgrCode mode data).length < 2 ^ 32) :
    ∃ bytes, rfxRlgrEncode mode data (replicate n 0) = some bytes ∧
      byteBits bytes = rlgrCode mode data ++
        replicate (8 * bytes.length - (rlgrCode mode data).length) false ∧
      (rlgrCode mode data).length ≤ 8 * bytes.length ∧ bytes.length ≤ n := by
  have h8 : 1 <<< lsgr ≤ kpMax := by decide
  have hl : (attach (replicate n 0)).buffer.length = n := by simp [attach]
  obtain ⟨st, hst, hw, hlen⟩ := encodeLoop_written mode data.length data
    (attach (replicate n 0)) [] (1 <<< lsgr) (1 <<< lsgr) hok h8 h8 (written_attach n) (by
      rw [hl]
      simpa [rlgrCode] using hroom)
  rw [hl] at hlen
  change Written st.bs (rlgrCode mode data) at hw
  have hpos := hw.length
  -- the flush only writes zeros
  obtain ⟨bs', hflush, hbuf, h1, h2, h3, h4, h5⟩ : ∃ bs', flush st.bs = some bs' ∧
      bs'.buffer = st.bs.buffer ∧ 1 ≤ bs'.bitsLeft ∧ bs'.bitsLeft ≤ 8 ∧
      8 * bs'.bytePos + 8 ≤ 8 * n + bs'.bitsLeft ∧
      8 * st.bs.bytePos + bs'.bitsLeft ≤ 8 * bs'.bytePos + st.bs.bitsLeft ∧
      8 * bs'.bytePos + st.bs.bitsLeft ≤ 8 * st.bs.bytePos + bs'.bitsLeft + 7 := by
    have hle := hw.bitsLeft_le
    have hge := hw.bitsLeft_pos
    unfold flush
    by_cases h8 : st.bs.bitsLeft ≠ 8
    · rw [if_pos h8]
      have hz := putBitsLoop_zero (8 - st.bs.bitsLeft) (8 - st.bs.bitsLeft) st.bs hge hle
        (by omega)
      simp only [hlen] at hz
      exact ⟨_, rfl, hz.1, hz.2.1, hz.2.2.1, hz.2.2.2.1, hz.2.2.2.2.1, by omega⟩
    · rw [if_neg h8]
      exact ⟨st.bs, rfl, rfl, hge, hle, by omega, le_rfl, by omega⟩
  have hproc : 8 * bs'.bytePos + 8 ≤ 8 * processedBytes bs' + bs'.bitsLeft ∧
      8 * processedBytes bs' ≤ 8 * bs'.bytePos + 8 ∧ processedBytes bs' ≤ n ∧
      8 * processedBytes bs' + bs'.bitsLeft ≤ 8 * bs'.bytePos + 15 := by
    unfold processedBytes
    split <;> omega
  have hint : ¬ processedBytes bs' > intMax := by
    have : intMax = 2 ^ 31 - 1 := rfl
    omega
  have hbytes : (bs'.buffer.take (processedBytes bs')).length = processedBytes bs' := by
    rw [length_take, hbuf]
    omega
  refine ⟨bs'.buffer.take (processedBytes bs'), ?_, ?_, ?_, ?_⟩
  · simp only [rfxRlgrEncode, encInit, bind_eq_bind]
    change encodeLoop mode data.length data ⟨attach (replicate n 0), 1, 1 <<< lsgr, 1 <<< lsgr⟩
      = some st at hst
    rw [hst, bind_some, hflush, bind_some, if_neg hint]
    rfl
  · have hle : (rlgrCode mode data).length ≤
      (byteBits (bs'.buffer.take (processedBytes bs'))).length
        := by
      rw [byteBits_length]
      omega
    conv_rhs => rw [← byteBits_length]
    refine eq_append_replicate_false hle (fun i => ?_)
    rw [← byteBits_take, hbuf, ← hw.bits i, getD_eq_getElem?_getD, getD_eq_getElem?_getD,
      List.getElem?_take]
    by_cases hi : i < 8 * processedBytes bs'
    · rw [if_pos hi]
    rw [if_neg hi]
    have hz := hw.bits i
    rw [getD_eq_getElem?_getD, getD_eq_default _ _ (by omega)] at hz
    rw [hz]
    rfl
  · omega
  · omega

end WBFreeRDP.Rlgr

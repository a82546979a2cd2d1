/-
# What the RLGR decoder does with hostile input

Any bytes may come from the network.  The unary parts and the parameters never fail an assertion,
and every round that goes on stores a coefficient; only the magnitudes may be too large for `INT16`.
-/
import WBFreeRDP.RlgrRoundTrip

namespace WBFreeRDP.Rlgr

open List Nat Option

/-! ## The parts of a round -/

/-- The decoder has its parameters in their range and its position in `UINT32`. -/
structure DecState.Ok (st : DecState) : Prop where
  position_lt : st.bs.position < 2 ^ 32
  kp_le : st.kp ≤ kpMax
  k_eq : st.k = st.kp >>> lsgr
  krp_le : st.krp ≤ kpMax
  kr_eq : st.kr = st.krp >>> lsgr

variable {bs : BitStream} {st : DecState} {bit : Bool}

theorem shift_position (h : bs.position < 2 ^ 32) (hn : n < 32) :
    (bs.shift n).length = bs.length ∧ (bs.shift n).position = (bs.position + n) % 2 ^ 32 := by
  unfold BitStream.shift
  by_cases h0 : n = 0
  · rw [if_pos h0, h0, add_zero, mod_eq_of_lt h]
    exact ⟨rfl, rfl⟩
  rw [if_neg h0, if_pos hn]
  simp only
  split_ifs
  all_goals exact ⟨rfl, rfl⟩

theorem shift_position_lt (h : bs.position < 2 ^ 32) (hn : n < 32) :
    (bs.shift n).position < 2 ^ 32 := by
  rw [(shift_position h hn).2]
  exact mod_lt _ (by decide)

theorem shift32_remainingLength (h : bs.position < 2 ^ 32) (h32 : 32 ≤ bs.remainingLength) :
    bs.shift32.position < 2 ^ 32 ∧ bs.shift32.remainingLength = bs.remainingLength - 32 := by
  have hone := shift_position h (show 16 < 32 by decide)
  have hlt := shift_position_lt h (show 16 < 32 by decide)
  have htwo := shift_position hlt (show 16 < 32 by decide)
  refine ⟨shift_position_lt hlt (by decide), ?_⟩
  unfold BitStream.remainingLength BitStream.shift32 at *
  rw [htwo.1, htwo.2, hone.1, hone.2]
  omega

theorem leading_le (bit bs) : leading bit bs ≤ bs.remainingLength := by
  unfold leading
  simp only
  split_ifs <;> omega

theorem unaryLoop_some (fuel) : ∀ {cnt vk} {bs}, bs.position < 2 ^ 32 →
    cnt ≤ bs.remainingLength → vk + bs.remainingLength < 2 ^ 32 + cnt → bs.remainingLength ≤ fuel →
      ∃ vk' bs', bs'.position < 2 ^ 32 ∧
        ∀ more, unaryLoop bit (fuel + more) cnt vk bs = some (vk', bs') := by
  induction fuel with
  | zero =>
    intro cnt vk bs h _ _ hfuel
    refine ⟨vk, bs, h, fun more => ?_⟩
    cases more with
    | zero => rfl
    | succ more => rw [zero_add, unaryLoop, if_neg (by omega)]
  | succ fuel ih =>
  intro cnt vk bs h hcnt hvk hfuel
  by_cases hmore : cnt = 32 ∧ bs.remainingLength > 0
  · obtain ⟨hlt, hrem⟩ := shift32_remainingLength h (by omega)
    have hle := leading_le bit bs.shift32
    obtain ⟨vk', bs', hlt', hrun⟩ :=
      @ih (leading bit bs.shift32) (vk + leading bit bs.shift32) bs.shift32 hlt
        hle (by omega) (by omega)
    refine ⟨vk', bs', hlt', fun more => ?_⟩
    rw [add_right_comm, unaryLoop, if_pos hmore]
    rw [if_neg (by omega), hrun more]
  · refine ⟨vk, bs, h, fun more => ?_⟩
    rw [add_right_comm, unaryLoop, if_neg hmore]

theorem readUnary_some (bit) (h : bs.position < 2 ^ 32) :
    ∃ vk bs', readUnary bit bs = some (vk, bs') ∧ bs'.position < 2 ^ 32 := by
  have hlt : bs.remainingLength < 2 ^ 32 := mod_lt _ (by decide)
  obtain ⟨vk, bs', hlt', hrun⟩ := @unaryLoop_some bit bs.remainingLength _ (leading bit bs) bs h
    (leading_le bit bs) (by omega) le_rfl
  refine ⟨vk, bs'.shift (vk % 32), ?_, shift_position_lt hlt' (mod_lt _ (by decide))⟩
  simp only [readUnary, hrun 1, bind_eq_bind, bind_some]
  rfl

theorem DecState.Ok.k_le (h : st.Ok) : st.k ≤ 10 := by
  rw [h.k_eq]
  exact shift_lsgr_le h.kp_le

theorem DecState.Ok.kr_le (h : st.Ok) : st.kr ≤ 10 := by
  rw [h.kr_eq]
  exact shift_lsgr_le h.krp_le

theorem DecState.Ok.setBs (h : st.Ok) (hbs : bs.position < 2 ^ 32) :
    ({ st with bs := bs } : DecState).Ok := ⟨hbs, h.kp_le, h.k_eq, h.krp_le, h.kr_eq⟩

theorem DecState.Ok.raiseKp (h : st.Ok) (delta) : (raiseKp delta st).Ok := by
  refine ⟨h.position_lt, ?_, rfl, h.krp_le, h.kr_eq⟩
  unfold Rlgr.raiseKp
  simp only
  split_ifs <;> omega

theorem DecState.Ok.lowerKp (h : st.Ok) (delta) : (lowerKp delta st).Ok := by
  refine ⟨h.position_lt, ?_, rfl, h.krp_le, h.kr_eq⟩
  have hle := h.kp_le
  unfold Rlgr.lowerKp
  simp only
  split_ifs <;> omega

theorem DecState.Ok.updateKr (h : st.Ok) (vk) :
    (updateKr vk st).Ok ∧ (updateKr vk st).out = st.out := by
  have hle := h.krp_le
  unfold Rlgr.updateKr
  by_cases h0 : vk = 0
  · rw [if_pos h0]
    exact ⟨⟨h.position_lt, h.kp_le, h.k_eq, by simp only; split_ifs <;> omega, rfl⟩, rfl⟩
  rw [if_neg h0]
  by_cases h1 : vk ≠ 1
  · rw [if_pos h1]
    exact ⟨⟨h.position_lt, h.kp_le, h.k_eq, by simp only; split_ifs <;> omega, rfl⟩, rfl⟩
  · rw [if_neg h1]
    exact ⟨h, rfl⟩

/-- The runs keep the parameters in range and do not lower `k`. -/
theorem addRuns_ok (n) : ∀ run {st}, st.Ok →
    (addRuns n run st).2.Ok ∧ st.k ≤ (addRuns n run st).2.k ∧
    (addRuns n run st).2.out = st.out := by
  induction n with
  | zero => exact fun _ _ h => ⟨h, le_rfl, rfl⟩
  | succ n ih =>
  intro run st h
  obtain ⟨hok, hle, hout⟩ := ih (run + 1 <<< st.k) (h.raiseKp upGr)
  refine ⟨hok, le_trans ?_ hle, hout⟩
  have hkp := h.kp_le
  rw [h.k_eq, Rlgr.raiseKp, shiftRight_eq_div_pow, shiftRight_eq_div_pow]
  apply Nat.div_le_div_right
  split_ifs <;> omega

theorem readCode_some (h : st.Ok) : readCode st = some none ∨
      ∃ code st', readCode st = some (some (code, st')) ∧ st'.Ok ∧ st'.out = st.out ∧
      code < 2 ^ 16 := by
  obtain ⟨vk, bs', hunary, hlt⟩ := readUnary_some true h.position_lt
  have hkr := h.kr_le
  by_cases hfew : bs'.remainingLength < 1 ∨ (bs'.shift 1).remainingLength < st.kr
  · left
    unfold readCode
    rw [hunary, bind_eq_bind, bind_some]
    by_cases hone : bs'.remainingLength < 1
    · simp only [if_pos hone, Option.pure_def]
    · simp [if_pos (hfew.resolve_left hone)]
  · obtain ⟨hone, hmore⟩ := not_or.mp hfew
    have hlt1 := shift_position_lt (shift_position_lt hlt (show 1 < 32 by decide))
      (show st.kr < 32 by omega)
    obtain ⟨hok, hout⟩ := (h.setBs hlt1).updateKr vk
    exact .inr ⟨_, _, readCode_eq hunary hone hmore, hok, hout, mod_lt _ (Nat.two_pow_pos 16)⟩

/-- The part of a round in run-length mode in front of its code: the run, the sign and the state. -/
def runHead (st : DecState) : Option (Option (ℕ × Bool × DecState)) := do
  let (vk, bs) ← readUnary false st.bs
  if bs.remainingLength < 1 then return none
  let (run, st) := addRuns vk 0 { st with bs := bs.shift 1 }
  if st.bs.remainingLength < st.k then return none
  let bs := st.bs.shift st.k
  if bs.remainingLength < 1 then return none
  return some (run + peekBits st.bs st.k, signBit bs, { st with bs := bs.shift 1 })

/-- What a round in run-length mode does behind its head. -/
def runTail (dstSize run : ℕ) (sign : Bool) : Option (ℕ × DecState) → Option (Option DecState)
  | none => some none
  | some (code, st) => (castInt16 (code + 1)).bind fun mag =>
    some (some (store dstSize (List.replicate run 0 ++ [if sign then mag * -1 else mag])
      (lowerKp dnGr st)))

/-- A round in run-length mode has too few bits for its head, or goes on with its code. -/
theorem decodeRun_cases (dstSize) (h : st.Ok) :
    (runHead st = some none ∧ decodeRun dstSize st = some none) ∨
      ∃ run sign st1, runHead st = some (some (run, sign, st1)) ∧ st1.Ok ∧ st1.out = st.out ∧
        decodeRun dstSize st = (readCode st1).bind (runTail dstSize run sign) := by
  obtain ⟨vk, bs', hunary, hlt⟩ := readUnary_some false h.position_lt
  obtain ⟨run, st1, hadd⟩ : ∃ run st1, addRuns vk 0 { st with bs := bs'.shift 1 } = (run, st1) :=
    ⟨_, _, rfl⟩
  obtain ⟨hok, -, hout⟩ := addRuns_ok vk 0 (h.setBs (shift_position_lt hlt (show 1 < 32 by decide)))
  rw [hadd] at hok hout
  have hk : st1.k ≤ 10 := hok.k_le
  have hlt1 : ((st1.bs.shift st1.k).shift 1).position < 2 ^ 32 :=
    shift_position_lt (shift_position_lt hok.position_lt (by omega)) (by decide)
  unfold runHead decodeRun
  rw [hunary, bind_eq_bind, bind_some, bind_eq_bind, bind_some]
  by_cases hone : bs'.remainingLength < 1
  · simp only [if_pos hone, Option.pure_def, and_self, true_or]
  by_cases hfew : st1.bs.remainingLength < st1.k
  · simp [hadd, if_pos hfew]
  by_cases hsign : (st1.bs.shift st1.k).remainingLength < 1
  · simp only [if_neg hone, hadd, if_neg hfew, if_pos hsign, Option.pure_def, and_self, true_or]
  simp only [if_neg hone, hadd, if_neg hfew, if_neg hsign, Option.pure_def]
  refine .inr ⟨_, _, _, rfl, hok.setBs hlt1, hout, ?_⟩
  rcases readCode _ with _ | _ | ⟨code, st2⟩
  · rfl
  · rfl
  · rfl

theorem store_spec (h : st.Ok) (hroom : st.out.length < dstSize) (hne : coeffs ≠ []) :
    (store dstSize coeffs st).Ok ∧ st.out.length < (store dstSize coeffs st).out.length ∧
      (store dstSize coeffs st).out.length ≤ dstSize := by
  have hpos := length_pos_iff.mpr hne
  refine ⟨⟨h.position_lt, h.kp_le, h.k_eq, h.krp_le, h.kr_eq⟩, ?_⟩
  simp only [store, length_append, length_take]
  omega

/-! ## Magnitudes -/

theorem castInt16_nat (n : ℕ) : castInt16 n = if n ≤ 32767 then some (n : ℤ) else none := by
  unfold castInt16
  by_cases h : n ≤ 32767
  · rw [if_pos h, if_pos (by omega)]
  · rw [if_neg h, if_neg (by omega)]

/-- A folded value gives a magnitude of `INT16`, except for 65535 and the values above it but the
last. -/
theorem unfoldMag_isSome (hv : v < 2 ^ 32) : (unfoldMag v).isSome ↔ v ≤ 65534 ∨ v = 2 ^ 32 - 1 := by
  unfold unfoldMag
  rw [and_one_is_mod, castInt16_nat, castInt16_nat, shiftRight_eq_div_pow, shiftRight_eq_div_pow]
  by_cases hodd : v % 2 = 0
  · rw [if_neg (not_not.mpr hodd)]
    by_cases hle : v / 2 ^ 1 ≤ 32767
    · rw [if_pos hle]
      exact iff_of_true rfl (.inl (by omega))
    · rw [if_neg hle]
      exact iff_of_false Bool.false_ne_true (by omega)
  rw [if_pos hodd]
  by_cases hle : (v + 1) % 2 ^ 32 / 2 ^ 1 ≤ 32767
  · rw [if_pos hle]
    exact iff_of_true rfl (by omega)
  · rw [if_neg hle]
    exact iff_of_false Bool.false_ne_true (by omega)

theorem peekBits_lt (bs n) : peekBits bs n < 2 ^ n := by
  have hpow := Nat.two_pow_pos n
  unfold peekBits
  split_ifs
  · rw [one_shiftLeft]
    exact lt_of_le_of_lt and_le_right (sub_lt hpow one_pos)
  · exact hpow

theorem getMinBits_le (h : code ≤ 32767) : getMinBits 32 code ≤ 15 := by
  by_cases h0 : code = 0
  · rw [h0]
    decide
  obtain ⟨g, hg, -, hlow, -⟩ := getMinBits_spec 32 code h0 (by omega)
  rw [hg]
  by_contra hlt
  have := Nat.pow_le_pow_right (show 0 < 2 by decide) (show 15 ≤ g by omega)
  omega

/-! ## Rounds -/

/-- The code of the next round and the state behind it; the inner `none` for want of bits. -/
def nextCode (st : DecState) : Option (Option (ℕ × DecState)) :=
  if st.k ≠ 0 then (runHead st).bind fun
    | none => some none
    | some (_, _, st) => readCode st
  else readCode st

/-- A code gives magnitudes that fit `INT16`: in run-length mode it is one less than the magnitude,
in Golomb-Rice mode it is a folded value or the sum of two, of which the first one follows the
code. -/
def Fits (mode : RlgrMode) (k code : ℕ) (st : DecState) : Prop :=
  if k ≠ 0 then code ≤ 32766
  else
    match mode with
    | .rlgr1 => code ≤ 65534
    | .rlgr3 => code ≤ 32767 ∧ (getMinBits 32 code ≤ st.bs.remainingLength →
        peekBits st.bs (getMinBits 32 code) ≤ code + 1)

def CodeFits (mode : RlgrMode) (st : DecState) : Prop :=
  ∀ code st', nextCode st = some (some (code, st')) → Fits mode st.k code st'

/-- A round that does not fail ends the loop, or stores coefficients. -/
def Goes (dstSize : ℕ) (st : DecState) (r : Option (Option DecState)) : Prop :=
  r = some none ∨ ∃ st', r = some (some st') ∧ st'.Ok ∧ st.out.length < st'.out.length ∧
    st'.out.length ≤ dstSize

/-- A round fails exactly when its code does not fit. -/
def Decides (mode : RlgrMode) (dstSize : ℕ) (st : DecState) (r : Option (Option DecState)) : Prop :=
  (CodeFits mode st → Goes dstSize st r) ∧ (¬CodeFits mode st → r = none)

variable {mode : RlgrMode} {dstSize : ℕ}

theorem goes_store (h : st1.Ok) (hout : st1.out = st.out) (hroom : st.out.length < dstSize)
    (hne : coeffs ≠ []) : Goes dstSize st (some (some (store dstSize coeffs st1))) := by
  have hstore := store_spec h (hout ▸ hroom) hne
  rw [hout] at hstore
  exact .inr ⟨_, rfl, hstore⟩

theorem round_iff
    (hcode : nextCode st = some (some (code, st')))
    (hfits : Fits mode st.k code st' → Goes dstSize st r)
    (hfails : ¬Fits mode st.k code st' → r = none) : Decides mode dstSize st r := by
  refine ⟨fun h => hfits (h code st' hcode), fun h => hfails fun hfit => h ?_⟩
  intro code1 st1 hcode1
  obtain ⟨rfl, rfl⟩ : code = code1 ∧ st' = st1 := by simpa using hcode.symm.trans hcode1
  exact hfit

theorem round_none (hcode : nextCode st = some none) (hr : r = some none) :
    Decides mode dstSize st r := by
  refine ⟨fun _ => .inl hr, fun h => absurd ?_ h⟩
  intro code st' hcode'
  cases hcode.symm.trans hcode'

theorem decodeRun_decides (h : st.Ok) (hroom : st.out.length < dstSize) (hk : st.k ≠ 0) :
    Decides mode dstSize st (decodeRun dstSize st) := by
  obtain ⟨hhead, hrun⟩ | ⟨run, sign, st1, hhead, hok, hout, hrun⟩ := decodeRun_cases dstSize h
  · exact round_none (by rw [nextCode, if_pos hk, hhead, bind_some]) hrun
  have hnext : nextCode st = readCode st1 := by rw [nextCode, if_pos hk, hhead, bind_some]
  obtain hcode | ⟨code, st2, hcode, hok2, hout2, -⟩ := readCode_some hok
  · exact round_none (hnext.trans hcode) (by rw [hrun, hcode, bind_some, runTail])
  rw [hrun, hcode, bind_some, runTail, ← cast_succ, castInt16_nat]
  refine round_iff (hnext.trans hcode) ?_ ?_
  · intro hfits
    unfold Fits at hfits
    rw [if_pos hk] at hfits
    rw [if_pos (by omega), bind_some]
    exact goes_store (hok2.lowerKp dnGr) (hout2.trans hout) hroom (by simp)
  · intro hfails
    unfold Fits at hfails
    rw [if_pos hk] at hfails
    rw [if_neg (by omega), bind_none]

theorem decodeGr1_decides (h : st.Ok) (hroom : st.out.length < dstSize) (hk : ¬st.k ≠ 0) :
    Decides .rlgr1 dstSize st (decodeGr1 dstSize st) := by
  have hnext : nextCode st = readCode st := by rw [nextCode, if_neg hk]
  unfold decodeGr1
  obtain hcode | ⟨code, st1, hcode, hok, hout, hlt⟩ := readCode_some h
  · exact round_none (hnext.trans hcode) (by rw [hcode]; rfl)
  rw [hcode, bind_eq_bind, bind_some]
  have hfits : Fits .rlgr1 st.k code st1 ↔ code ≤ 65534 := by
    unfold Fits
    rw [if_neg hk]
  by_cases h0 : code = 0
  · simp only [if_pos h0]
    exact round_iff (hnext.trans hcode)
      (fun _ => goes_store (hok.raiseKp uqGr) hout hroom (by simp))
      fun hfails => absurd (hfits.mpr (by omega)) hfails
  simp only [if_neg h0]
  have hmag := unfoldMag_isSome (show code < 2 ^ 32 by omega)
  refine round_iff (hnext.trans hcode) (fun hfit => ?_) (fun hfails => ?_)
  · obtain ⟨mag, hmag'⟩ := isSome_iff_exists.mp (hmag.mpr (.inl (hfits.mp hfit)))
    rw [hmag', bind_eq_bind, bind_some]
    exact goes_store (hok.lowerKp dqGr) hout hroom (by simp)
  · rw [hfits] at hfails
    rw [not_isSome_iff_eq_none.mp (mt hmag.mp (by omega))]
    rfl

theorem decodeGr3_decides (h : st.Ok) (hroom : st.out.length < dstSize) (hk : ¬st.k ≠ 0) :
    Decides .rlgr3 dstSize st (decodeGr3 dstSize st) := by
  have hnext : nextCode st = readCode st := by rw [nextCode, if_neg hk]
  unfold decodeGr3
  obtain hcode | ⟨code, st1, hcode, hok, hout, hlt⟩ := readCode_some h
  · exact round_none (hnext.trans hcode) (by rw [hcode]; rfl)
  rw [hcode, bind_eq_bind, bind_some]
  have hfits : Fits .rlgr3 st.k code st1 ↔ code ≤ 32767 ∧
    (getMinBits 32 code ≤ st1.bs.remainingLength →
      peekBits st1.bs (getMinBits 32 code) ≤ code + 1) := by
    unfold Fits
    rw [if_neg hk]
  by_cases hlarge : code ≤ 32767
  swap
  · have hpair : pairBits code = none := by
      rw [pairBits, if_pos (by omega), castInt16_nat, if_neg hlarge]
      rfl
    refine round_iff (hnext.trans hcode) (fun hfit => absurd (hfits.mp hfit).1 hlarge) fun _ => ?_
    simp only [hpair]
    rfl
  obtain ⟨hpair, -, -⟩ := pairBits_eq hlarge
  have hbits := getMinBits_le hlarge
  simp only [hpair, -Nat.reducePow]
  rw [bind_eq_bind, bind_some]
  by_cases hfew : st1.bs.remainingLength < getMinBits 32 code
  · simp only [if_pos hfew, -Nat.reducePow]
    exact round_iff (hnext.trans hcode) (fun _ => .inl rfl)
      fun hfails => absurd (hfits.mpr ⟨hlarge, fun hle => absurd hle (by omega)⟩) hfails
  simp only [if_neg hfew, -Nat.reducePow]
  have hlt1 : (st1.bs.shift (getMinBits 32 code)).position < 2 ^ 32 :=
    shift_position_lt hok.position_lt (by omega)
  have hval := lt_of_lt_of_le (peekBits_lt st1.bs (getMinBits 32 code))
    (Nat.pow_le_pow_right (show 0 < 2 by decide) hbits)
  generalize peekBits st1.bs (getMinBits 32 code) = val1 at hfits hval ⊢
  obtain ⟨mag1, hmag1⟩ := isSome_iff_exists.mp
    ((unfoldMag_isSome (show val1 < 2 ^ 32 by omega)).mpr (.inl (by omega)))
  have hmag2 : (unfoldMag ((code + 2 ^ 32 - val1) % 2 ^ 32)).isSome ↔ val1 ≤ code + 1 := by
    rw [unfoldMag_isSome (mod_lt _ (Nat.two_pow_pos 32))]
    omega
  generalize (code + 2 ^ 32 - val1) % 2 ^ 32 = val2 at hmag2 ⊢
  rw [hmag1, bind_eq_bind, bind_some]
  refine round_iff (hnext.trans hcode) (fun hfit => ?_) (fun hfails => ?_)
  swap
  · have hgt : ¬val1 ≤ code + 1 := fun hle => hfails (hfits.mpr ⟨hlarge, fun _ => hle⟩)
    rw [not_isSome_iff_eq_none.mp (mt hmag2.mp hgt), bind_none]
  obtain ⟨mag2, hmag2'⟩ := isSome_iff_exists.mp (hmag2.mpr ((hfits.mp hfit).2 (by omega)))
  rw [hmag2', bind_some]
  have hok1 := hok.setBs hlt1
  refine goes_store ?_ ?_ hroom (by simp)
  · split_ifs
    · exact hok1.lowerKp _
    · exact hok1.raiseKp _
    · exact hok1
  · split_ifs <;> exact hout

/-- **One round**: an assertion fails exactly when the code does not fit. -/
theorem decodeRound_decides (h : st.Ok) (hroom : st.out.length < dstSize) :
    Decides mode dstSize st (decodeRound mode dstSize st) := by
  unfold decodeRound
  by_cases hk : st.k ≠ 0
  · rw [if_pos hk]
    exact decodeRun_decides h hroom hk
  rw [if_neg hk]
  cases mode with
  | rlgr1 => exact decodeGr1_decides h hroom hk
  | rlgr3 => exact decodeGr3_decides h hroom hk

/-! ## The whole -/

/-- The states in front of the rounds of the loop of `rfx_rlgr_decode` that starts in a state. -/
inductive Visits (mode : RlgrMode) (dstSize : ℕ) : DecState → DecState → Prop
  | here {st : DecState} (hmore : st.bs.remainingLength > 0 ∧ st.out.length < dstSize) :
      Visits mode dstSize st st
  | next {st st₁ st₂ : DecState} (hmore : st.bs.remainingLength > 0 ∧ st.out.length < dstSize)
      (hround : decodeRound mode dstSize st = some (some st₁)) (h : Visits mode dstSize st₁ st₂) :
      Visits mode dstSize st st₂

/-- The amounts of the shifts of a round are below 32: `k` while the run is read, `kr`, and the bits
of the first value of a pair; where `32 - k` is one, `k` is not zero. -/
structure ShiftsFit (st : DecState) : Prop where
  k : ∀ n run, (addRuns n run st).2.k < 32 ∧ (st.k ≠ 0 → (addRuns n run st).2.k ≠ 0)
  kr : st.kr < 32
  nIdx : ∀ code n, pairBits code = some n → n < 32

theorem DecState.Ok.shiftsFit (h : st.Ok) : ShiftsFit st where
  k n run := by
    obtain ⟨hok, hle, -⟩ := addRuns_ok n run h
    have := hok.k_le
    omega
  kr := by
    have := h.kr_le
    omega
  nIdx code n hpair := by
    by_cases hlarge : code ≤ 32767
    · obtain ⟨heq, hle, -⟩ := pairBits_eq hlarge
      obtain rfl := some.inj (heq.symm.trans hpair)
      omega
    · rw [pairBits, if_pos (by omega), castInt16_nat, if_neg hlarge] at hpair
      cases hpair

theorem Visits.ok (hv : Visits mode dstSize st st') (h : st.Ok) : st'.Ok := by
  induction hv with
  | here _ => exact h
  | @next st st1 _ hmore hround _ ih =>
  obtain ⟨hgoes, hfails⟩ := @decodeRound_decides st mode dstSize h hmore.2
  refine ih ?_
  by_cases hfits : CodeFits mode st
  · obtain hnone | ⟨st', hsome, hok, -⟩ := hgoes hfits
    · cases hround.symm.trans hnone
    · obtain rfl : st1 = st' := by simpa using hround.symm.trans hsome
      exact hok
  · cases hround.symm.trans (hfails hfits)

theorem Visits.more (h : Visits mode dstSize st st') :
    st.bs.remainingLength > 0 ∧ st.out.length < dstSize := by
  cases h with
  | here hmore => exact hmore
  | next hmore => exact hmore

theorem decodeLoop_stop (hstop : ¬(st.bs.remainingLength > 0 ∧ st.out.length < dstSize)) :
    decodeLoop mode dstSize fuel st = some st.out := by
  cases fuel with
  | zero => rfl
  | succ fuel => rw [decodeLoop, if_neg hstop]

/-- **Run lemma.** The loop ends by itself while the codes fit, and fails where one does not. -/
theorem decodeLoop_iff (fuel : ℕ) : ∀ {st}, st.Ok → st.out.length ≤ dstSize →
    dstSize ≤ st.out.length + fuel →
      ((∀ st', Visits mode dstSize st st' → CodeFits mode st') → ∃ out, out.length ≤ dstSize ∧
        ∀ more, decodeLoop mode dstSize (fuel + more) st = some out) ∧
      (∀ st', Visits mode dstSize st st' → ¬CodeFits mode st' →
        decodeLoop mode dstSize fuel st = none) := by
  induction fuel with
  | zero =>
    intro st _ hle hfuel
    have hstop : ¬(st.bs.remainingLength > 0 ∧ st.out.length < dstSize) := by omega
    exact ⟨fun _ => ⟨st.out, hle, fun _ => decodeLoop_stop hstop⟩, fun _ hv => absurd hv.more hstop⟩
  | succ fuel ih =>
  intro st h hle hfuel
  by_cases hmore : st.bs.remainingLength > 0 ∧ st.out.length < dstSize
  swap
  · exact ⟨fun _ => ⟨st.out, hle, fun _ => decodeLoop_stop hmore⟩, fun _ hv => absurd hv.more hmore⟩
  obtain ⟨hgoes, hfails⟩ := @decodeRound_decides st mode dstSize h hmore.2
  refine ⟨fun hall => ?_, fun st' hv hnot => ?_⟩
  · obtain hnone | ⟨st1, hsome, hok, hlt, hle1⟩ := hgoes (hall st (.here hmore))
    · refine ⟨st.out, hle, fun more => ?_⟩
      rw [add_right_comm, decodeLoop, if_pos hmore, hnone]
      rfl
    obtain ⟨out, hout, hrun⟩ := (ih hok hle1 (by omega)).1
      fun st' hv => hall st' (.next hmore hsome hv)
    refine ⟨out, hout, fun more => ?_⟩
    rw [add_right_comm, decodeLoop, if_pos hmore, hsome]
    exact hrun more
  rw [decodeLoop, if_pos hmore]
  by_cases hfits : CodeFits mode st
  swap
  · rw [hfails hfits]
    rfl
  obtain hnone | ⟨st1, hsome, hok, hlt, hle1⟩ := hgoes hfits
  · cases hv with
    | here _ => exact absurd hfits hnot
    | next _ hround => cases hround.symm.trans hnone
  rw [hsome]
  cases hv with
  | here _ => exact absurd hfits hnot
  | next _ hround hv =>
  obtain rfl : _ = st1 := by simpa using hround.symm.trans hsome
  exact (ih hok hle1 (by omega)).2 st' hv hnot

/-- **No assertion of the decoder fails** on its input exactly when every code that it reads fits;
it then ends by itself with all coefficients filled.  No shift is too long in any case. -/
theorem decode_fills_iff (mode : RlgrMode) (src : List UInt8) (dstSize : ℕ) :
    ((∃ rc out, rfxRlgrDecode mode src dstSize = some (rc, out) ∧
        (src ≠ [] → dstSize ≠ 0 → rc = 1 ∧ out.length = dstSize)) ∧
      (∀ more, decodeLoop mode dstSize (dstSize + more) (decInit src) =
        decodeLoop mode dstSize dstSize (decInit src)) ∧
      ∀ st, Visits mode dstSize (decInit src) st → ShiftsFit st) ↔
    ∀ st, Visits mode dstSize (decInit src) st → CodeFits mode st := by
  have hk : 1 = (1 <<< lsgr) >>> lsgr := by decide
  have hkp : 1 <<< lsgr ≤ kpMax := by decide
  have hok : (decInit src).Ok := ⟨Nat.two_pow_pos 32, hkp, hk, hkp, hk⟩
  obtain ⟨hgoes, hfails⟩ := @decodeLoop_iff mode dstSize dstSize (decInit src) hok (zero_le _)
    (le_add_left _ _)
  constructor
  · rintro ⟨⟨rc, out, hrun, -⟩, -, -⟩ st hv
    by_contra hnot
    have hguard : ¬(src = [] ∨ dstSize = 0) := by
      have hmore := hv.more
      rintro (rfl | rfl)
      · exact absurd hmore.1 (by decide)
      · exact absurd hmore.2 (not_lt_zero _)
    rw [rfxRlgrDecode, if_neg hguard, hfails st hv hnot] at hrun
    cases hrun
  intro hall
  obtain ⟨out, hle, hrun⟩ := hgoes hall
  refine ⟨?_, fun more => (hrun more).trans (hrun 0).symm, fun st hv => (hv.ok hok).shiftsFit⟩
  by_cases hguard : src = [] ∨ dstSize = 0
  · rw [rfxRlgrDecode, if_pos hguard]
    exact ⟨-1, [], rfl, fun hsrc hdst => absurd hguard (by simp [hsrc, hdst])⟩
  have hrun₀ : decodeLoop mode dstSize dstSize (decInit src) = some out := hrun 0
  rw [rfxRlgrDecode, if_neg hguard, hrun₀]
  refine ⟨1, _, rfl, fun _ _ => ⟨rfl, ?_⟩⟩
  rw [length_append, length_replicate]
  omega

/-- **Nineteen bytes abort the decoder**: the first code raises `kr` to ten, the second one is
65535. -/
theorem decode_aborts :
    rfxRlgrDecode .rlgr1 [159, 255, 255, 255, 255, 255, 255, 255, 255, 231, 255, 255,
    255, 255, 255, 255, 255, 247, 254] 2 = none := by
  decide +kernel

end WBFreeRDP.Rlgr

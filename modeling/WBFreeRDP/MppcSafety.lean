/-
# The MPPC receiver on arbitrary input

`mppc_decompress` must survive what any peer sends.  Its loop test is the difference of two
`UINT32`: when a token runs over the end of the input the difference wraps, the loop goes on with
the zero bits behind the input, and only the end of the history stops it.
-/
import WBFreeRDP.MppcCode

namespace WBFreeRDP.Mppc

open Bulk History Nat Option

/-! ## Checked accesses -/

/-- `decompressMatch` with every access to the history checked. -/
def decompressMatch? (compressionLevel historyBufferSize : ℕ) (st : Receiving) :
    Option (ℤ × Receiving) :=
  match readOffset compressionLevel st.bs.accumulator with
  | none => some (if compressionLevel ≠ 0 then -1001 else -1002, st)
  | some (copyOffset, nbits) =>
    let bs := st.bs.shift nbits
    match readLength compressionLevel bs.accumulator with
    | none => some (-1003, { st with bs := bs })
    | some (lengthOfMatch, nbits) =>
      let bs := bs.shift nbits
      let srcPtr := (((st.historyPtr : ℤ) - copyOffset) %
        (if compressionLevel ≠ 0 then 0x10000 else 0x2000)).toNat
      if st.historyPtr + lengthOfMatch - 1 > historyBufferSize - 1 then
        some (-1005, { st with bs := bs })
      else if srcPtr + lengthOfMatch > historyBufferSize - 1 then some (-1006, { st with bs := bs })
      else
        (copy? historyBufferSize st.historyBuffer st.historyPtr srcPtr lengthOfMatch).map
          fun history => (1, ⟨history, st.historyPtr + lengthOfMatch, bs⟩)

/-- `decompressStep` with every access to the history checked. -/
def decompressStep? (compressionLevel historyBufferSize : ℕ) (st : Receiving) :
    Option (ℤ × Receiving) :=
  let accumulator := st.bs.accumulator
  if st.historyPtr > historyBufferSize - 1 then some (-1004, st)
  else if accumulator &&& 0x80000000 = 0x00000000 then
    let literal := ((accumulator &&& 0x7F000000) >>> 24).toNat
    (store? historyBufferSize st.historyBuffer st.historyPtr (UInt8.ofNat literal)).map
      fun history => (1, ⟨history, st.historyPtr + 1, st.bs.shift 8⟩)
  else if accumulator &&& 0xC0000000 = 0x80000000 then
    let literal := ((accumulator &&& 0x3F800000) >>> 23).toNat + 0x80
    (store? historyBufferSize st.historyBuffer st.historyPtr (UInt8.ofNat literal)).map
      fun history => (1, ⟨history, st.historyPtr + 1, st.bs.shift 9⟩)
  else decompressMatch? compressionLevel historyBufferSize st

/-- `decompressLoop` with every access to the history checked. -/
def decompressLoop? (compressionLevel historyBufferSize : ℕ) :
    ℕ → Receiving → Option (ℤ × Receiving)
  | 0, st => some (1, st)
  | fuel + 1, st =>
    if st.bs.remainingLength ≥ 8 then
      (decompressStep? compressionLevel historyBufferSize st).bind fun (status, st) =>
        if status < 0 then some (status, st)
        else decompressLoop? compressionLevel historyBufferSize fuel st
    else some (1, st)

/-- `mppc_decompress` with every access to the history checked: `none` as soon as an index is
outside of the history. -/
def decompress? (mppc : Context) (src : List UInt8) (flags : ℕ) : Option (Decompressed Context) :=
  if ¬ hasFlag flags packetCompressed then some ⟨1, src, opened mppc flags⟩
  else
    let mppc := opened mppc flags
    (decompressLoop? mppc.compressionLevel mppc.historyBufferSize (mppc.historyBufferSize + 1)
      ⟨mppc.historyBuffer, mppc.historyPtr, (BitStream.empty.attach src).fetch⟩).map (received mppc)

section Checked

variable {level size : ℕ}

theorem decompressMatch?_eq (hsize : 0 < size) :
    decompressMatch? level size st = some (decompressMatch level size st) := by
  unfold decompressMatch? decompressMatch
  rcases readOffset level st.bs.accumulator with _ | offset
  · rfl
  simp only
  rcases readLength level (st.bs.shift offset.2).accumulator with _ | length
  · rfl
  simp only
  generalize (((st.historyPtr : ℤ) - offset.1) %
    (if level ≠ 0 then 0x10000 else 0x2000)).toNat = srcPtr
  split_ifs
  · rfl
  · rfl
  · have hdst : st.historyPtr + length.1 ≤ size := by omega
    rw [copy?_eq _ _ hdst (by omega), map_some]

theorem decompressStep?_eq (hsize : 0 < size) (st) :
    decompressStep? level size st = some (decompressStep level size st) := by
  unfold decompressStep? decompressStep
  -- the test against the end of the history stands in front of every store
  by_cases hend : st.historyPtr > size - 1
  · simp [if_pos hend]
  have hptr : st.historyPtr < size := by omega
  simp only [store?]
  rw [decompressMatch?_eq hsize]
  split_ifs <;> rfl

theorem decompressLoop?_eq (hsize : 0 < size) (fuel) :
    ∀ st, decompressLoop? level size fuel st = some (decompressLoop level size fuel st) := by
  induction fuel with
  | zero => intro st; rfl
  | succ fuel ih =>
  intro st
  rw [decompressLoop?, decompressLoop, decompressStep?_eq hsize, bind_some]
  by_cases hrem : st.bs.remainingLength ≥ 8
  · simp only [if_pos hrem]
    by_cases hstatus : (decompressStep level size st).1 < 0
    · simp [if_pos hstatus]
    · simp only [if_neg hstatus]
      exact ih _
  · rw [if_neg hrem, if_neg hrem]

end Checked

/-! ## One round -/

theorem shift_position (bs : BitStream) (hpos : 0 < n) (hlt : n < 32) :
    (bs.shift n).position = (bs.position + n) % 2 ^ 32 := by
  unfold BitStream.shift
  rw [if_neg (by omega)]
  simp only
  split_ifs <;> rfl

theorem shift_length (bs : BitStream) (n) : (bs.shift n).length = bs.length := by
  unfold BitStream.shift
  simp only
  split_ifs <;> rfl

/-- A field that was decoded has `least` or more as its value and between `lo` and `hi` bits. -/
def InRange (least lo hi : ℕ) : Option Field → Prop
  | none => True
  | some (value, nbits) => least ≤ value ∧ lo ≤ nbits ∧ nbits ≤ hi

theorem inRange_ite [Decidable c] (ha : InRange least lo hi a) (hb : InRange least lo hi b) :
    InRange least lo hi (if c then a else b) := by
  by_cases hc : c
  · rwa [if_pos hc]
  · rwa [if_neg hc]

theorem readOffset_inRange (level accumulator) :
    InRange 0 10 19 (readOffset level accumulator) := by
  repeat' apply inRange_ite
  all_goals first | trivial | exact ⟨by omega, by omega, by omega⟩

theorem readLength_inRange (level accumulator) : InRange 3 1 30 (readLength level accumulator) := by
  repeat' apply inRange_ite
  all_goals first | trivial | exact ⟨by omega, by omega, by omega⟩

/-- A round that goes on: it took `bits` bits and wrote at least one cell. -/
structure Advanced (size : ℕ) (st st' : Receiving) (bits : ℕ) : Prop where
  eight_le : 8 ≤ bits
  le_max : bits ≤ 49
  position : st'.bs.position = (st.bs.position + bits) % 2 ^ 32
  length : st'.bs.length = st.bs.length
  lt : st.historyPtr < st'.historyPtr
  le_size : st'.historyPtr ≤ size

theorem advanced_literal {size} (hptr : st.historyPtr < size)
    (history) {bits} (hbits : bits = 8 ∨ bits = 9) :
    Advanced size st ⟨history, st.historyPtr + 1, st.bs.shift bits⟩ bits where
  eight_le := by omega
  le_max := by omega
  position := shift_position st.bs (by omega) (by omega)
  length := shift_length st.bs bits
  lt := lt_succ_self _
  le_size := hptr

theorem decompressMatch_cases {level size} (hptr : st.historyPtr < size) :
    (decompressMatch level size st).1 < 0 ∨ (decompressMatch level size st).1 = 1 ∧
      ∃ bits, Advanced size st (decompressMatch level size st).2 bits := by
  unfold decompressMatch
  rcases hoffset : readOffset level st.bs.accumulator with _ | offset
  · left
    simp only
    split_ifs <;> decide
  obtain ⟨copyOffset, n⟩ := offset
  have hn := readOffset_inRange level st.bs.accumulator
  rw [hoffset] at hn
  obtain ⟨-, hn⟩ := hn
  simp only
  rcases hlength : readLength level (st.bs.shift n).accumulator with _ | length
  · left
    show (-1003 : ℤ) < 0
    decide
  obtain ⟨lengthOfMatch, m⟩ := length
  have hm := readLength_inRange level (st.bs.shift n).accumulator
  rw [hlength] at hm
  obtain ⟨hmatch, hm⟩ := hm
  simp only
  generalize (((st.historyPtr : ℤ) - copyOffset) %
    (if level ≠ 0 then 0x10000 else 0x2000)).toNat = srcPtr
  split_ifs
  · left
    show (-1005 : ℤ) < 0
    decide
  · left
    show (-1006 : ℤ) < 0
    decide
  refine Or.inr ⟨rfl, n + m, ?_⟩
  constructor
  · omega
  · omega
  · show ((st.bs.shift n).shift m).position = _
    rw [shift_position _ (by omega) (by omega), shift_position _ (by omega) (by omega)]
    omega
  · show ((st.bs.shift n).shift m).length = _
    rw [shift_length, shift_length]
  · show st.historyPtr < st.historyPtr + lengthOfMatch
    omega
  · show st.historyPtr + lengthOfMatch ≤ size
    omega

/-- **What one round of `mppc_decompress` can do**: fail, or take a token and write its bytes. -/
theorem decompressStep_cases (level : ℕ) {size : ℕ} (hsize : 0 < size) (st : Receiving) :
    (decompressStep level size st).1 < 0 ∨ (decompressStep level size st).1 = 1 ∧
      ∃ bits, Advanced size st (decompressStep level size st).2 bits := by
  unfold decompressStep
  by_cases hend : st.historyPtr > size - 1
  · left
    rw [if_pos hend]
    show (-1004 : ℤ) < 0
    decide
  have hptr : st.historyPtr < size := by omega
  rw [if_neg hend]
  split_ifs
  · exact Or.inr ⟨rfl, 8, advanced_literal hptr _ (Or.inl rfl)⟩
  · exact Or.inr ⟨rfl, 9, advanced_literal hptr _ (Or.inr rfl)⟩
  · exact decompressMatch_cases hptr

/-! ## The loop -/

section Loop

variable (level : ℕ) {size : ℕ}

/-- A round that goes on: the state in front of a token and the state behind it. -/
def TakesToken (size : ℕ) (st st' : Receiving) : Prop :=
  8 ≤ st.bs.remainingLength ∧ decompressStep level size st = (1, st')

variable {level} in
theorem TakesToken.advanced (hsize : 0 < size) (h : TakesToken level size st st') :
    ∃ bits, Advanced size st st' bits := by
  have hcases := decompressStep_cases level hsize st
  rw [h.2] at hcases
  rcases hcases with hneg | ⟨-, hadv⟩
  · exact absurd hneg (show ¬ (1 : ℤ) < 0 by decide)
  · exact hadv

/-- The rounds of the loop: it stops with an error, or at the end of the input, or takes a token. -/
theorem decompressLoop_cases (hsize : 0 < size) (st) :
    (st.bs.remainingLength < 8 ∧ ∀ fuel, decompressLoop level size (fuel + 1) st = (1, st)) ∨
    (∃ result : ℤ × Receiving, result.1 < 0 ∧
      ∀ fuel, decompressLoop level size (fuel + 1) st = result) ∨
    (∃ st', TakesToken level size st st' ∧
      ∀ fuel, decompressLoop level size (fuel + 1) st = decompressLoop level size fuel st') := by
  by_cases hrem : st.bs.remainingLength ≥ 8
  · rcases decompressStep_cases level hsize st with hneg | ⟨hone, -⟩
    · refine Or.inr (Or.inl ⟨decompressStep level size st, hneg, fun fuel => ?_⟩)
      rw [decompressLoop, if_pos hrem]
      simp [if_pos hneg]
    · refine Or.inr (Or.inr ⟨_, ⟨hrem, Prod.ext hone rfl⟩, fun fuel => ?_⟩)
      rw [decompressLoop, if_pos hrem]
      simp only [hone]
      rfl
  · refine Or.inl ⟨by omega, fun fuel => ?_⟩
    rw [decompressLoop, if_neg hrem]

/-- **The loop ends**: rounds for the cells left in the history, and one more, are enough. -/
theorem decompressLoop_more_fuel (hsize : 0 < size) (fuel : ℕ) :
    ∀ st : Receiving, size - st.historyPtr < fuel → ∀ extra,
      decompressLoop level size (fuel + extra) st = decompressLoop level size fuel st := by
  induction fuel with
  | zero => intro st hfuel; exact absurd hfuel (not_lt_zero _)
  | succ fuel ih =>
  intro st hfuel extra
  rw [succ_add]
  rcases decompressLoop_cases level hsize st with
    ⟨-, hdone⟩ | ⟨result, -, hfail⟩ | ⟨st', htoken, hnext⟩
  · rw [hdone, hdone]
  · rw [hfail, hfail]
  obtain ⟨bits, hadv⟩ := htoken.advanced hsize
  have hlt := hadv.lt
  have hle := hadv.le_size
  rw [hnext, hnext]
  apply ih
  omega

theorem decompressLoop_status (hsize : 0 < size) (fuel) : ∀ st : Receiving,
    (decompressLoop level size fuel st).1 = 1 ∨ (decompressLoop level size fuel st).1 < 0 := by
  induction fuel with
  | zero => intro st; exact Or.inl rfl
  | succ fuel ih =>
  intro st
  rcases decompressLoop_cases level hsize st with
    ⟨-, hdone⟩ | ⟨result, hneg, hfail⟩ | ⟨st', -, hnext⟩
  · left
    rw [hdone]
  · right
    rwa [hfail]
  · rw [hnext]
    exact ih st'

/-- **Behind the end of the input** the loop test does not stop the loop any more; the end of the
history does, with an error.  A token takes 49 bits at most, so the position does not come
around. -/
theorem decompressLoop_past_end (hsize : 0 < size) (fuel : ℕ) : ∀ st : Receiving,
    st.bs.length < st.bs.position →
    st.bs.position + 49 * (size - st.historyPtr) ≤ st.bs.length + 2 ^ 30 → st.bs.length ≤ 2 ^ 30 →
    size - st.historyPtr < fuel → (decompressLoop level size fuel st).1 < 0 := by
  induction fuel with
  | zero => intro st _ _ _ hfuel; exact absurd hfuel (not_lt_zero _)
  | succ fuel ih =>
  intro st hpast hbound hlen hfuel
  rcases decompressLoop_cases level hsize st with
    ⟨hrem, -⟩ | ⟨result, hneg, hfail⟩ | ⟨st', htoken, hnext⟩
  · -- the difference has wrapped
    unfold BitStream.remainingLength at hrem
    omega
  · rwa [hfail]
  obtain ⟨bits, hadv⟩ := htoken.advanced hsize
  have hlt := hadv.lt
  have hle := hadv.le_size
  have hmax := hadv.le_max
  have hpos := hadv.position
  rw [hnext]
  apply ih
  · rw [hadv.length]
    omega
  · rw [hadv.length]
    omega
  · rwa [hadv.length]
  · omega

/-- A run whose tokens all lie inside the input, up to its last seven bits. -/
structure Inside (size : ℕ) (st last : Receiving) : Prop where
  token : ∀ st₁ st₂, Relation.ReflTransGen (TakesToken level size) st st₁ →
      TakesToken level size st₁ st₂ →
    st₁.bs.position < st₂.bs.position ∧ st₂.bs.position ≤ st.bs.length
  last_reached : Relation.ReflTransGen (TakesToken level size) st last
  last_le : last.bs.position ≤ st.bs.length
  rest_lt : st.bs.length - last.bs.position < 8

/-- **A run that succeeds stays inside the input.** -/
theorem decompressLoop_inside (hsize : 0 < size) (hmax : size ≤ 65536) (fuel : ℕ) :
    ∀ st : Receiving, st.bs.position ≤ st.bs.length → st.bs.length ≤ 2 ^ 20 →
      size - st.historyPtr < fuel → (decompressLoop level size fuel st).1 = 1 →
      Inside level size st (decompressLoop level size fuel st).2 := by
  induction fuel with
  | zero => intro st _ _ hfuel; exact absurd hfuel (not_lt_zero _)
  | succ fuel ih =>
  intro st hin hlen hfuel hone
  rcases decompressLoop_cases level hsize st with
    ⟨hrem, hdone⟩ | ⟨result, hneg, hfail⟩ | ⟨st', htoken, hnext⟩
  · rw [hdone]
    unfold BitStream.remainingLength at hrem
    refine ⟨fun st1 st2 hreach htoken => ?_, .refl, hin, by simp only; omega⟩
    -- no token starts here, so the run is empty
    rcases Relation.ReflTransGen.cases_head hreach with rfl | ⟨next, hfirst, -⟩
    · have := htoken.1
      unfold BitStream.remainingLength at this
      omega
    · have := hfirst.1
      unfold BitStream.remainingLength at this
      omega
  · rw [hfail] at hone
    omega
  obtain ⟨bits, hadv⟩ := htoken.advanced hsize
  have hlt := hadv.lt
  have hle := hadv.le_size
  have hbits := hadv.le_max
  have height := hadv.eight_le
  have hpos := hadv.position
  rw [hnext] at hone ⊢
  have hfuel' : size - st'.historyPtr < fuel := by omega
  have hin' : st'.bs.position ≤ st'.bs.length := by
    -- otherwise the run would have failed
    by_contra hpast
    have hneg := decompressLoop_past_end level hsize fuel st' (by omega)
      (by omega) (by omega) hfuel'
    omega
  have hrest := ih st' hin' (by rwa [hadv.length]) hfuel' hone
  refine ⟨?_, .head htoken hrest.last_reached, ?_, ?_⟩
  · intro st1 st2 hreach hstep
    rcases Relation.ReflTransGen.cases_head hreach with rfl | ⟨next, hfirst, htail⟩
    · obtain rfl : st2 = st' := congrArg Prod.snd (hstep.2.symm.trans htoken.2)
      rw [hadv.length] at hin'
      exact ⟨by omega, hin'⟩
    · obtain rfl : next = st' := congrArg Prod.snd (hfirst.2.symm.trans htoken.2)
      have := hrest.token st1 st2 htail hstep
      rwa [hadv.length] at this
  · have := hrest.last_le
    rwa [hadv.length] at this
  · have := hrest.rest_lt
    rwa [hadv.length] at this

end Loop

/-! ## Contexts -/

/-- The contexts that the functions of the module build. -/
inductive Reachable : Context → Prop
  | new (compressionLevel : ℕ) : Reachable (contextNew compressionLevel)
  | setCompressionLevel {mppc : Context} (h : Reachable mppc) (compressionLevel : ℕ) :
      Reachable (setCompressionLevel mppc compressionLevel)
  | reset {mppc : Context} (h : Reachable mppc) (flush : Bool) : Reachable (contextReset mppc flush)
  | compress {mppc : Context} (h : Reachable mppc) (src dst : List UInt8) :
      Reachable (compress mppc src dst).context
  | decompress {mppc : Context} (h : Reachable mppc) (src : List UInt8) (flags : ℕ) :
      Reachable (decompress mppc src flags).context

variable (mppc : Context)

theorem opened_historyBufferSize (flags) :
    (opened mppc flags).historyBufferSize = mppc.historyBufferSize := by
  unfold opened
  split_ifs <;> rfl

theorem opened_historyPtr (flags) : (opened mppc flags).historyPtr =
      if hasFlag flags packetAtFront ∨ hasFlag flags packetFlushed then 0 else mppc.historyPtr := by
  unfold opened
  by_cases hfront : hasFlag flags packetAtFront
  all_goals by_cases hflushed : hasFlag flags packetFlushed <;> simp [hfront, hflushed]

theorem received_status (result) :
    (received mppc result).status = if result.1 < 0 then result.1 else 1 := by
  unfold received
  split_ifs <;> rfl

theorem received_historyBufferSize (result) :
    (received mppc result).context.historyBufferSize = mppc.historyBufferSize := by
  unfold received
  split_ifs <;> rfl

theorem received_historyPtr (hneg : result.1 < 0) :
    (received mppc result).context.historyPtr = mppc.historyPtr := by
  rw [received, if_pos hneg]

variable (src : List UInt8) {flags : ℕ}

theorem decompress_raw (hflag : ¬ hasFlag flags packetCompressed) :
    decompress mppc src flags = ⟨1, src, opened mppc flags⟩ := by
  rw [decompress, if_pos hflag]

theorem decompress_compressed (hflag : hasFlag flags packetCompressed) :
    decompress mppc src flags = received (opened mppc flags) (receive (opened mppc flags) src) := by
  rw [decompress, if_neg (not_not.mpr hflag)]

theorem decompress_historyBufferSize (flags) :
    (decompress mppc src flags).context.historyBufferSize = mppc.historyBufferSize := by
  rw [← opened_historyBufferSize mppc flags]
  by_cases hflag : hasFlag flags packetCompressed
  · rw [decompress_compressed mppc src hflag, received_historyBufferSize]
  · rw [decompress_raw mppc src hflag]

theorem compress_historyBufferSize (src dst) :
    (compress mppc src dst).context.historyBufferSize = mppc.historyBufferSize := by
  unfold compress
  simp only
  split <;> rfl

theorem Reachable.historyBufferSize (h : Reachable mppc) :
    mppc.historyBufferSize = 8192 ∨ mppc.historyBufferSize = 65536 := by
  induction h with
  | new compressionLevel | setCompressionLevel _ compressionLevel _ =>
    exact ite_eq_or_eq (compressionLevel < 1) 8192 65536
  | reset _ _ ih => exact ih
  | compress _ src dst ih => rwa [compress_historyBufferSize]
  | decompress _ src flags ih => rwa [decompress_historyBufferSize]

/-- **Every access to the history is inside of it.** -/
theorem decompress?_eq (hsize : 0 < (opened mppc flags).historyBufferSize) :
    decompress? mppc src flags = some (decompress mppc src flags) := by
  unfold decompress?
  by_cases hflag : hasFlag flags packetCompressed
  · rw [if_neg (not_not.mpr hflag), decompress_compressed mppc src hflag]
    simp only
    rw [decompressLoop?_eq hsize, map_some, receive]
  · rw [if_pos hflag, decompress_raw mppc src hflag]

/-- The state in which the loop of `mppc_decompress` starts. -/
def Context.start (mppc : Context) (src : List UInt8) : Receiving :=
  ⟨mppc.historyBuffer, mppc.historyPtr, (BitStream.empty.attach src).fetch⟩

/-- **`mppc_decompress` on arbitrary input.** The loop ends, every access to the history is inside
of it, the status is `1` or negative.  A compressed packet is only accepted when all its tokens lie
in the input, up to the last seven bits.  An error leaves the write index where the flags put it. -/
theorem mppc_decompress_total {mppc : Context} (h : Reachable mppc) (src : List UInt8)
    (hsrc : src.length < 65536) (flags : ℕ) :
    let level := (opened mppc flags).compressionLevel
    let size := (opened mppc flags).historyBufferSize
    let start := (opened mppc flags).start src
    let result := decompress mppc src flags
    (∀ fuel, size < fuel → decompressLoop level size fuel start = receive (opened mppc flags) src) ∧
    decompress? mppc src flags = some result ∧
    (result.status = 1 ∨ result.status < 0) ∧
    (result.status = 1 → hasFlag flags packetCompressed →
      start.bs.position = 0 ∧ start.bs.length = 8 * src.length ∧
      Inside level size start (receive (opened mppc flags) src).2) ∧
    (result.status < 0 → result.context.historyPtr =
      if hasFlag flags packetAtFront ∨ hasFlag flags packetFlushed then 0
        else mppc.historyPtr) := by
  intro level size start result
  have hbounds : 0 < size ∧ size ≤ 65536 := by
    have := h.historyBufferSize
    rw [← opened_historyBufferSize mppc flags] at this
    omega
  have hlength : start.bs.length = 8 * src.length := by
    show src.length * 8 % 2 ^ 32 = 8 * src.length
    omega
  have hstatus : (receive (opened mppc flags) src).1 = 1 ∨
    (receive (opened mppc flags) src).1 < 0 :=
    decompressLoop_status level hbounds.1 (size + 1) start
  refine ⟨?_, ?_, ?_, ?_, ?_⟩
  · intro fuel hfuel
    obtain ⟨extra, rfl⟩ := Nat.exists_eq_add_of_le (succ_le_of_lt hfuel)
    exact decompressLoop_more_fuel level hbounds.1 (size + 1) start (by omega) extra
  · apply decompress?_eq
    exact hbounds.1
  · by_cases hflag : hasFlag flags packetCompressed
    · show (decompress mppc src flags).status = 1 ∨ (decompress mppc src flags).status < 0
      rw [decompress_compressed mppc src hflag, received_status]
      rcases hstatus with hone | hneg
      · left
        rw [hone]
        rfl
      · right
        rwa [if_pos hneg]
    · exact Or.inl (congrArg Decompressed.status (decompress_raw mppc src hflag))
  · intro hone hflag
    refine ⟨rfl, hlength, ?_⟩
    have hloop : (receive (opened mppc flags) src).1 = 1 := by
      rcases hstatus with hloop | hneg
      · exact hloop
      -- a failing loop is a failing call
      have hcall : (decompress mppc src flags).status = 1 := hone
      rw [decompress_compressed mppc src hflag, received_status] at hcall
      omega
    apply decompressLoop_inside level hbounds.1 hbounds.2 (size + 1) start
    · exact zero_le _
    · omega
    · omega
    · exact hloop
  · intro hneg
    rw [← opened_historyPtr]
    have hcall : (decompress mppc src flags).status < 0 := hneg
    show (decompress mppc src flags).context.historyPtr = _
    by_cases hflag : hasFlag flags packetCompressed
    · rw [decompress_compressed mppc src hflag, received_status] at hcall
      rw [decompress_compressed mppc src hflag]
      apply received_historyPtr
      by_contra hok
      omega
    · rw [decompress_raw mppc src hflag]

/-- A context that was switched from 64K to 8K refuses a token that runs over the end of its
byte. -/
theorem mppc_decompress_total_switched :
    decompress? (setCompressionLevel (contextNew 1) 0) [0xF0] packetCompressed =
      some (decompress (setCompressionLevel (contextNew 1) 0) [0xF0] packetCompressed) :=
  (mppc_decompress_total (.setCompressionLevel (.new 1) 0) [0xF0] (by decide) packetCompressed).2.1

end WBFreeRDP.Mppc

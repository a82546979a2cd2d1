/-
# The RLGR entropy coder

`rfx_rlgr.c`: the adaptive run-length / Golomb-Rice coder of the RemoteFX codec, with the bit
writer of `rfx_bitstream.h` on the encoder's side and `wBitStream` on the decoder's.  Both sides
keep the parameters `k`, `kp` (run-length mode) and `kr`, `krp` (Golomb-Rice mode).

A failed assertion of the source (`WINPR_ASSERT`, `WINPR_ASSERTING_INT_CAST`) is `none`.
-/
import WBFreeRDP.BitStream
import WBFreeRDP.Stream

namespace WBFreeRDP.Rlgr

/-- `RLGR_MODE`. -/
inductive RlgrMode where
  | rlgr1
  | rlgr3
  deriving DecidableEq, Repr

/-! ## Parameters -/

/-- Max value for `kp` or `krp`. -/
def kpMax : ℕ := 80
/-- Shift count to convert `kp` to `k`. -/
def lsgr : ℕ := 3
/-- Increase in `kp` after a zero run in RL mode. -/
def upGr : ℕ := 4
/-- Decrease in `kp` after a nonzero symbol in RL mode. -/
def dnGr : ℕ := 6
/-- Increase in `kp` after a zero symbol in GR mode; the source's comment says nonzero. -/
def uqGr : ℕ := 3
/-- Decrease in `kp` after a nonzero symbol in GR mode; the source's comment says zero. -/
def dqGr : ℕ := 3

/-- `UpdateParam`: the new parameter, clamped to the range `[0, KPMAX]`. -/
def updateParam (param : ℕ) (deltaP : ℤ) : ℕ :=
  let param :=
    if deltaP < 0 then
      let udeltaP := (-deltaP).toNat
      if udeltaP > param then 0 else param - udeltaP
    else param + deltaP.toNat
  if param > kpMax then kpMax else param

/-! ## The bit writer -/

/-- An `RFX_BITSTREAM`; `nbytes` is the length of the buffer. -/
structure RfxBitstream where
  buffer : List UInt8
  bytePos : ℕ
  bitsLeft : ℕ

def attach (buffer : List UInt8) : RfxBitstream := ⟨buffer, 0, 8⟩

/-- The loop of `rfx_bitstream_put_bits`: every round fills up a byte or writes the rest. -/
def putBitsLoop (bits : ℕ) : ℕ → ℕ → RfxBitstream → RfxBitstream
  | 0, _, bs => bs
  | fuel + 1, nbits, bs =>
    if bs.bytePos < bs.buffer.length ∧ nbits > 0 then
      let b := if nbits > bs.bitsLeft then bs.bitsLeft else nbits
      let chunk := ((bits >>> (nbits - b)) &&& ((1 <<< b) - 1)) <<< (bs.bitsLeft - b)
      let byte := UInt8.ofNat ((bs.buffer.getD bs.bytePos 0).toNat ||| chunk)
      let bitsLeft := bs.bitsLeft - b
      putBitsLoop bits fuel (nbits - b)
        { buffer := bs.buffer.set bs.bytePos byte
          bytePos := if bitsLeft = 0 then bs.bytePos + 1 else bs.bytePos
          bitsLeft := if bitsLeft = 0 then 8 else bitsLeft }
    else bs

/-- `rfx_bitstream_put_bits`; the bits have to fit `UINT16`. -/
def putBits (bs : RfxBitstream) (bits nbits : ℕ) : Option RfxBitstream :=
  if bits > 0xFFFF then none else some (putBitsLoop bits nbits nbits bs)

/-- The loop of `OutputBit`: `n` times sixteen bits. -/
def outputBitLoop (b : ℕ) : ℕ → RfxBitstream → Option RfxBitstream
  | 0, bs => some bs
  | n + 1, bs => (putBits bs b 16).bind (outputBitLoop b n)

/-- `OutputBit`: emit a bit `count` times. -/
def outputBit (bs : RfxBitstream) (count : ℕ) (bit : Bool) : Option RfxBitstream := do
  let b := if bit then 0xFFFF else 0
  let rem := count % 16
  let bs ← outputBitLoop b ((count - rem) / 16) bs
  if rem > 0 then putBits bs b rem else some bs

def flush (bs : RfxBitstream) : Option RfxBitstream :=
  if bs.bitsLeft ≠ 8 then putBits bs 0 (8 - bs.bitsLeft) else some bs

def processedBytes (bs : RfxBitstream) : ℕ := if bs.bitsLeft < 8 then bs.bytePos + 1 else bs.bytePos

/-! ## The encoder -/

/-- The variables of `rfx_rlgr_encode`. -/
structure EncState where
  bs : RfxBitstream
  k : ℕ
  kp : ℕ
  krp : ℕ

/-- `GetMinBits`: the least number of bits required to represent a value of 32 bits. -/
def getMinBits : ℕ → ℕ → ℕ
  | 0, _ => 0
  | fuel + 1, v => if v = 0 then 0 else getMinBits fuel (v >>> 1) + 1

/-- `Get2MagSign`: `2 * abs(input) - sign(input)`. -/
def get2MagSign (input : ℤ) : ℕ := if input ≥ 0 then (2 * input).toNat else (-2 * input - 1).toNat

/-- `rfx_rlgr_code_gr`: the Golomb/Rice code of `val` and the new `krp`. -/
def codeGR (bs : RfxBitstream) (krp val : ℕ) : Option (RfxBitstream × ℕ) := do
  let kr := krp >>> lsgr
  -- unary part of GR code
  let vk := val >>> kr
  let bs ← outputBit bs vk true
  let bs ← outputBit bs 1 false
  -- remainder part of GR code, if needed
  let bs ← if kr ≠ 0 then putBits bs (val &&& ((1 <<< kr) - 1)) kr else some bs
  -- update krp, only if it is not equal to 1
  let krp := if vk = 0 then updateParam krp (-2) else if vk > 1 then updateParam krp vk else krp
  return (bs, krp)

/-- `GetNextInput` and the collection of zeros after it: their number, the coefficient that ends
the run and the rest of the data.  The last coefficient always ends the run. -/
def collectZeros : List ℤ → ℕ × ℤ × List ℤ
  | [] => (0, 0, [])
  | [x] => (0, x, [])
  | x :: y :: rest =>
    if x = 0 then
      let (numZeros, input, data) := collectZeros (y :: rest)
      (numZeros + 1, input, data)
    else (0, x, y :: rest)

/-- Emit the zeros in runs of `1 << k`; what remains of them, with the new `k` and `kp`. -/
def emitZeros : ℕ → ℕ → EncState → Option (ℕ × EncState)
  | 0, numZeros, st => some (numZeros, st)
  | fuel + 1, numZeros, st =>
    let runmax := 1 <<< st.k
    if numZeros ≥ runmax then do
      let bs ← outputBit st.bs 1 false
      let kp := updateParam st.kp upGr
      emitZeros fuel (numZeros - runmax) { st with bs := bs, kp := kp, k := kp >>> lsgr }
    else some (numZeros, st)

/-- One round of the encoder in run-length mode. -/
def encodeRun (data : List ℤ) (st : EncState) : Option (EncState × List ℤ) := do
  let (numZeros, input, data) := collectZeros data
  let (numZeros, st) ← emitZeros (numZeros + 1) numZeros st
  -- output a 1 to terminate runs
  let bs ← outputBit st.bs 1 true
  -- output the remaining run length using k bits
  let bs ← putBits bs numZeros st.k
  -- encode the nonzero value using GR coding
  let mag := input.natAbs
  let bs ← outputBit bs 1 (decide (input < 0))
  let (bs, krp) ← codeGR bs st.krp (if mag ≠ 0 then mag - 1 else 0)
  let kp := updateParam st.kp (-dnGr)
  return (⟨bs, kp >>> lsgr, kp, krp⟩, data)

/-- One round of the encoder in Golomb-Rice mode, RLGR1 variant. -/
def encodeGr1 (data : List ℤ) (st : EncState) : Option (EncState × List ℤ) := do
  let twoMs := get2MagSign (data.headD 0)
  let (bs, krp) ← codeGR st.bs st.krp twoMs
  let kp := updateParam st.kp (if twoMs ≠ 0 then -dqGr else uqGr)
  return (⟨bs, kp >>> lsgr, kp, krp⟩, data.tail)

/-- One round of the encoder in Golomb-Rice mode, RLGR3 variant: two coefficients, the second
one zero at the end of the data. -/
def encodeGr3 (data : List ℤ) (st : EncState) : Option (EncState × List ℤ) := do
  let twoMs1 := get2MagSign (data.headD 0)
  let twoMs2 := get2MagSign (data.tail.headD 0)
  let sum2Ms := twoMs1 + twoMs2
  let (bs, krp) ← codeGR st.bs st.krp sum2Ms
  -- encode binary representation of the first input (twoMs1)
  let bs ← putBits bs twoMs1 (getMinBits 32 sum2Ms)
  let st := { st with bs := bs, krp := krp }
  if twoMs1 ≠ 0 ∧ twoMs2 ≠ 0 then
    let kp := updateParam st.kp (-2 * dqGr)
    return ({ st with kp := kp, k := kp >>> lsgr }, data.tail.tail)
  else if twoMs1 = 0 ∧ twoMs2 = 0 then
    let kp := updateParam st.kp (2 * uqGr)
    return ({ st with kp := kp, k := kp >>> lsgr }, data.tail.tail)
  else return (st, data.tail.tail)

/-- One round of `rfx_rlgr_encode`. -/
def encodeRound (mode : RlgrMode) (data : List ℤ) (st : EncState) : Option (EncState × List ℤ) :=
  if st.k ≠ 0 then encodeRun data st
  else
    match mode with
    | .rlgr1 => encodeGr1 data st
    | .rlgr3 => encodeGr3 data st

/-- The loop of `rfx_rlgr_encode`: every round takes a coefficient. -/
def encodeLoop (mode : RlgrMode) : ℕ → List ℤ → EncState → Option EncState
  | 0, _, st => some st
  | fuel + 1, data, st =>
    if data = [] then some st
    else (encodeRound mode data st).bind fun (st, data) => encodeLoop mode fuel data st

/-- The state of the encoder before the first round. -/
def encInit (buffer : List UInt8) : EncState := ⟨attach buffer, 1, 1 <<< lsgr, 1 <<< lsgr⟩

/-- `rfx_rlgr_encode` into a buffer: the bytes it has processed. -/
def rfxRlgrEncode (mode : RlgrMode) (data : List ℤ) (buffer : List UInt8) :
    Option (List UInt8) := do
  let st ← encodeLoop mode data.length data (encInit buffer)
  let bs ← flush st.bs
  let processedSize := processedBytes bs
  if processedSize > intMax then none else return bs.buffer.take processedSize

/-! ## The decoder -/

/-- One bisection step of `lzcnt_s` on its variables `n`, `x`. -/
def lzStep (s : ℕ) (p : ℕ × ℕ) : ℕ × ℕ := if p.2 >>> s ≠ 0 then (p.1 - s, p.2 >>> s) else p

/-- `lzcnt_s`: the number of leading zeros of a value of 32 bits, by bisection. -/
def lzcntS (x : ℕ) : ℕ :=
  if x = 0 then 32
  else
    let (n, x) := lzStep 2 (lzStep 4 (lzStep 8 (lzStep 16 (32, x))))
    if x >>> 1 ≠ 0 then n - 2 else n - x

/-- The number of leading bits `bit` in the accumulator, at most the remaining length. -/
def leading (bit : Bool) (bs : BitStream) : ℕ :=
  let cnt := lzcntS (if bit then ~~~bs.accumulator else bs.accumulator).toNat
  if cnt > bs.remainingLength then bs.remainingLength else cnt

/-- The loop that goes on counting as long as all of the accumulator was counted. -/
def unaryLoop (bit : Bool) : ℕ → ℕ → ℕ → BitStream → Option (ℕ × BitStream)
  | 0, _, vk, bs => some (vk, bs)
  | fuel + 1, cnt, vk, bs =>
    if cnt = 32 ∧ bs.remainingLength > 0 then
      let bs := bs.shift32
      let cnt := leading bit bs
      if cnt + vk > 2 ^ 32 - 1 then none else unaryLoop bit fuel cnt (vk + cnt) bs
    else some (vk, bs)

/-- Count the leading bits `bit` of the stream and shift past them. -/
def readUnary (bit : Bool) (bs : BitStream) : Option (ℕ × BitStream) := do
  let cnt := leading bit bs
  let (vk, bs) ← unaryLoop bit (bs.remainingLength + 1) cnt cnt bs
  return (vk, bs.shift (vk % 32))

/-- The next `n` bits of the stream. -/
def peekBits (bs : BitStream) (n : ℕ) : ℕ :=
  if n > 0 then (bs.accumulator >>> (32 - n)).toNat &&& ((1 <<< n) - 1) else 0

/-- The sign bit: the top bit of the accumulator. -/
def signBit (bs : BitStream) : Bool := bs.accumulator &&& 0x80000000 ≠ 0

/-- The variables of `rfx_rlgr_decode`; `out` holds the coefficients written. -/
structure DecState where
  bs : BitStream
  k : ℕ
  kp : ℕ
  kr : ℕ
  krp : ℕ
  out : List ℤ

/-- Conversion to `INT16` with its assertion. -/
def castInt16 (x : ℤ) : Option ℤ := if -32768 ≤ x ∧ x ≤ 32767 then some x else none

/-- The magnitude a folded value of 32 bits stands for: `code = 2 * mag - sign`. -/
def unfoldMag (code : ℕ) : Option ℤ :=
  if code &&& 1 ≠ 0 then (castInt16 (((code + 1) % 2 ^ 32 : ℕ) >>> 1 : ℕ)).map (· * -1)
  else castInt16 ((code >>> 1 : ℕ) : ℤ)

/-- The update of `kr` and `krp` after a code with `vk` leading ones. -/
def updateKr (vk : ℕ) (st : DecState) : DecState :=
  if vk = 0 then
    let krp := if st.krp > 2 then st.krp - 2 else 0
    { st with krp := krp, kr := krp >>> lsgr }
  else if vk ≠ 1 then
    let krp := if st.krp + vk > kpMax then kpMax else st.krp + vk
    { st with krp := krp, kr := krp >>> lsgr }
  else st

/-- Increase `kp`. -/
def raiseKp (delta : ℕ) (st : DecState) : DecState :=
  let kp := if st.kp + delta > kpMax then kpMax else st.kp + delta
  { st with kp := kp, k := kp >>> lsgr }

/-- Decrease `kp`. -/
def lowerKp (delta : ℕ) (st : DecState) : DecState :=
  let kp := if st.kp > delta then st.kp - delta else 0
  { st with kp := kp, k := kp >>> lsgr }

/-- Read a Golomb-Rice code and update `kr`, `krp`.  The inner `none` leaves the loop of the
decoder for want of bits. -/
def readCode (st : DecState) : Option (Option (ℕ × DecState)) := do
  let (vk, bs) ← readUnary true st.bs
  if bs.remainingLength < 1 then return none
  let bs := bs.shift 1
  -- next kr bits contain code remainder
  if bs.remainingLength < st.kr then return none
  let code := peekBits bs st.kr % 2 ^ 16
  let bs := bs.shift st.kr
  -- add (vk << kr) to code
  let code := (code ||| (vk <<< st.kr) % 2 ^ 32) % 2 ^ 16
  return some (code, updateKr vk { st with bs := bs })

/-- Add `1 << k` to the run length for every leading zero. -/
def addRuns : ℕ → ℕ → DecState → ℕ × DecState
  | 0, run, st => (run, st)
  | vk + 1, run, st => addRuns vk (run + 1 <<< st.k) (raiseKp upGr st)

/-- Append coefficients as far as there is room. -/
def store (dstSize : ℕ) (coeffs : List ℤ) (st : DecState) : DecState :=
  { st with out := st.out ++ coeffs.take (dstSize - st.out.length) }

/-- One round of the decoder in run-length mode. -/
def decodeRun (dstSize : ℕ) (st : DecState) : Option (Option DecState) := do
  let (vk, bs) ← readUnary false st.bs
  if bs.remainingLength < 1 then return none
  let bs := bs.shift 1
  let (run, st) := addRuns vk 0 { st with bs := bs }
  -- next k bits contain run length remainder
  if st.bs.remainingLength < st.k then return none
  let run := run + peekBits st.bs st.k
  let bs := st.bs.shift st.k
  -- read sign bit
  if bs.remainingLength < 1 then return none
  let sign := signBit bs
  let st := { st with bs := bs.shift 1 }
  match ← readCode st with
  | none => return none
  | some (code, st) =>
    let st := lowerKp dnGr st
    -- compute magnitude from code
    let mag ← castInt16 (code + 1)
    let mag := if sign then mag * -1 else mag
    return some (store dstSize (List.replicate run 0 ++ [mag]) st)

/-- One round of the decoder in Golomb-Rice mode, RLGR1. -/
def decodeGr1 (dstSize : ℕ) (st : DecState) : Option (Option DecState) := do
  match ← readCode st with
  | none => return none
  | some (code, st) =>
    if code = 0 then return some (store dstSize [0] (raiseKp uqGr st))
    else
      let mag ← unfoldMag code
      return some (store dstSize [mag] (lowerKp dqGr st))

/-- The number of bits the first value of a pair with this sum is written in. -/
def pairBits (code : ℕ) : Option ℕ :=
  if code ≠ 0 then (castInt16 code).map fun mag => 32 - lzcntS mag.toNat else some 0

/-- One round of the decoder in Golomb-Rice mode, RLGR3. -/
def decodeGr3 (dstSize : ℕ) (st : DecState) : Option (Option DecState) := do
  match ← readCode st with
  | none => return none
  | some (code, st) =>
    let nIdx ← pairBits code
    if st.bs.remainingLength < nIdx then return none
    let val1 := peekBits st.bs nIdx
    let st := { st with bs := st.bs.shift nIdx }
    let val2 := (code + 2 ^ 32 - val1) % 2 ^ 32
    let st :=
      if val1 ≠ 0 ∧ val2 ≠ 0 then lowerKp (2 * dqGr) st
      else if val1 = 0 ∧ val2 = 0 then raiseKp (2 * uqGr) st
      else st
    let mag1 ← unfoldMag val1
    let mag2 ← unfoldMag val2
    return some (store dstSize [mag1, mag2] st)

/-- One round of `rfx_rlgr_decode`. -/
def decodeRound (mode : RlgrMode) (dstSize : ℕ) (st : DecState) : Option (Option DecState) :=
  if st.k ≠ 0 then decodeRun dstSize st
  else
    match mode with
    | .rlgr1 => decodeGr1 dstSize st
    | .rlgr3 => decodeGr3 dstSize st

/-- The loop of `rfx_rlgr_decode`: every round that does not leave it writes a coefficient. -/
def decodeLoop (mode : RlgrMode) (dstSize : ℕ) : ℕ → DecState → Option (List ℤ)
  | 0, st => some st.out
  | fuel + 1, st =>
    if st.bs.remainingLength > 0 ∧ st.out.length < dstSize then do
      match ← decodeRound mode dstSize st with
      | none => return st.out
      | some st => decodeLoop mode dstSize fuel st
    else some st.out

/-- The state of the decoder before the first round. -/
def decInit (src : List UInt8) : DecState :=
  ⟨(BitStream.empty.attach src).fetch, 1, 1 <<< lsgr, 1, 1 <<< lsgr, []⟩

/-- `rfx_rlgr_decode`: the return value and the coefficients. -/
def rfxRlgrDecode (mode : RlgrMode) (src : List UInt8) (dstSize : ℕ) : Option (ℤ × List ℤ) :=
  if src = [] ∨ dstSize = 0 then some (-1, [])
  else do
    let out ← decodeLoop mode dstSize dstSize (decInit src)
    return (1, out ++ List.replicate (dstSize - out.length) 0)

end WBFreeRDP.Rlgr

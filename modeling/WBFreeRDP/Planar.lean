/-
# The planar plane codec

One colour plane of the planar codec (`planar.c`): the delta transform between scan lines, the
run-length writer with its escape codes, and the two readers of the run-length format, the one
that only measures a plane and the one that decodes it.

A plane is the list of its `width * height` bytes, a pointer into a buffer the list behind it.
-/
import WBFreeRDP.Stream

namespace WBFreeRDP.Planar

/-- The largest `INT32`. -/
def int32Max : ℕ := 2 ^ 31 - 1

/-- Reduction to `UINT32`. -/
def uint32 (n : ℕ) : ℕ := n % 2 ^ 32

/-- Conversion of a `ptrdiff_t` to `INT32`. -/
def toInt32 (n : ℤ) : ℤ := n.bmod (2 ^ 32)

/-! ## Control bytes -/

def planarControlByte (nRunLength cRawBytes : ℕ) : UInt8 :=
  UInt8.ofNat ((nRunLength &&& 0x0F) ||| (cRawBytes &&& 0x0F) <<< 4)

def planarControlByteRunLength (controlByte : UInt8) : ℕ := controlByte.toNat &&& 0x0F

def planarControlByteRawBytes (controlByte : UInt8) : ℕ := (controlByte.toNat >>> 4) &&& 0x0F

/-- How both readers take a control byte: run length and raw bytes, where the run lengths 1 and 2
are escape codes for a longer run without raw bytes. -/
def readControlByte (controlByte : UInt8) : ℕ × ℕ :=
  let nRunLength := planarControlByteRunLength controlByte
  let cRawBytes := planarControlByteRawBytes controlByte
  if nRunLength = 1 then (cRawBytes + 16, 0)
  else if nRunLength = 2 then (cRawBytes + 32, 0)
  else (nRunLength, cRawBytes)

/-! ## The delta transform -/

/-- The sign-folded difference of two bytes as `freerdp_bitmap_planar_delta_encode_plane` computes
it: reduced to `int8_t`, then `2 d` for `d ≥ 0` and `-2 d - 1` for `d < 0`. -/
def deltaByte (src prev : UInt8) : UInt8 :=
  let delta : ℤ := (src.toNat : ℤ) - prev.toNat
  let s2c1i : ℤ := if delta ≥ 0 then delta else (intMax + delta) + 1
  let s2c1 : ℤ := s2c1i.bmod 256
  let s2c : ℤ := if s2c1 ≥ 0 then 2 * s2c1 else 2 * -s2c1 - 1
  UInt8.ofNat s2c.toNat

/-- The lines of `freerdp_bitmap_planar_delta_encode_plane` after the first. -/
def deltaEncodeLines (width : ℕ) : ℕ → List UInt8 → List UInt8 → List UInt8
  | 0, _, _ => []
  | n + 1, prevLine, src =>
    List.zipWith deltaByte (src.take width) prevLine ++
      deltaEncodeLines width n (src.take width) (src.drop width)

def freerdpBitmapPlanarDeltaEncodePlane (inPlane : List UInt8) (width height : ℕ) : List UInt8 :=
  -- first line is copied as is
  inPlane.take width ++ deltaEncodeLines width (height - 1) (inPlane.take width)
    (inPlane.drop width)

/-! ## The writer -/

/-- The control byte of one round of the raw loop of `freerdp_bitmap_planar_write_rle_bytes`, with
the raw bytes and the run that remain after it. -/
def rawRound (cRawBytes nRunLength : ℕ) : UInt8 × ℕ × ℕ :=
  if cRawBytes < 16 then
    if nRunLength > 15 then
      if nRunLength < 18 then (planarControlByte 13 cRawBytes, 0, nRunLength - 13)
      else (planarControlByte 15 cRawBytes, 0, nRunLength - 15)
    else (planarControlByte nRunLength cRawBytes, 0, 0)
  else (planarControlByte 0 15, cRawBytes - 15, nRunLength)

/-- The raw loop: the remaining run, the remaining room and the output. -/
def writeRawLoop : ℕ → List UInt8 → ℕ → ℕ → ℕ → List UInt8 → Option (ℕ × ℕ × List UInt8)
  | 0, _, _, nRunLength, outBufferSize, out => some (nRunLength, outBufferSize, out)
  | fuel + 1, pInput, cRawBytes, nRunLength, outBufferSize, out =>
    if cRawBytes = 0 then some (nRunLength, outBufferSize, out)
    else
      let (controlByte, cRawBytes, nRunLength) := rawRound cRawBytes nRunLength
      if outBufferSize < 1 then none
      else
        let outBufferSize := outBufferSize - 1
        let nBytesToWrite := controlByte.toNat >>> 4
        if outBufferSize < nBytesToWrite then none
        else
          writeRawLoop fuel (pInput.drop nBytesToWrite) cRawBytes nRunLength
            (outBufferSize - nBytesToWrite) (out ++ controlByte :: pInput.take nBytesToWrite)

/-- The control byte of one round of the run loop, with the run that remains after it. -/
def runRound (nRunLength : ℕ) : UInt8 × ℕ :=
  if nRunLength > 47 then
    if nRunLength < 50 then (planarControlByte 2 13, nRunLength - 45)
    else (planarControlByte 2 15, nRunLength - 47)
  else if nRunLength > 31 then (planarControlByte 2 (nRunLength - 32), 0)
  else if nRunLength > 15 then (planarControlByte 1 (nRunLength - 16), 0)
  else (planarControlByte nRunLength 0, 0)

/-- The run loop. -/
def writeRunLoop : ℕ → ℕ → ℕ → List UInt8 → Option (List UInt8)
  | 0, _, _, out => some out
  | fuel + 1, nRunLength, outBufferSize, out =>
    if nRunLength = 0 then some out
    else
      let (controlByte, nRunLength) := runRound nRunLength
      if outBufferSize < 1 then none
      else writeRunLoop fuel nRunLength (outBufferSize - 1) (out ++ [controlByte])

/-- `freerdp_bitmap_planar_write_rle_bytes`: the bytes written; none is the return value `0`. -/
def writeRleBytes (pInBuffer : List UInt8) (cRawBytes nRunLength outBufferSize : ℕ) : List UInt8 :=
  if cRawBytes = 0 ∧ nRunLength = 0 then []
  else
    let (cRawBytes, nRunLength) :=
      if nRunLength < 3 then (cRawBytes + nRunLength, 0) else (cRawBytes, nRunLength)
    match writeRawLoop cRawBytes pInBuffer cRawBytes nRunLength outBufferSize [] with
    | none => []
    | some (nRunLength, outBufferSize, out) =>
      (writeRunLoop nRunLength nRunLength outBufferSize out).getD []

/-- The variables of `freerdp_bitmap_planar_encode_rle_bytes`; `out` holds the bytes written. -/
structure LineState where
  symbol : UInt8
  cRawBytes : ℕ
  nRunLength : ℕ
  outBufferSize : ℕ
  out : List UInt8

/-- The end of `freerdp_bitmap_planar_encode_rle_bytes`: write what is pending; input left over
is a failure. -/
def encodeRleEnd (line : List UInt8) (inBufferSize : ℕ) (st : LineState) : List UInt8 :=
  let written :=
    writeRleBytes (line.drop (line.length - inBufferSize - (st.cRawBytes + st.nRunLength)))
      st.cRawBytes st.nRunLength st.outBufferSize
  if (st.cRawBytes ≠ 0 ∨ st.nRunLength ≠ 0) ∧ written = [] then []
  else if inBufferSize ≠ 0 then []
  else st.out ++ written

/-- A symbol `c` that ends a run: a short run joins the raw bytes, a longer one is written out
together with the raw bytes before it.  `pInput` is the position behind `c`. -/
def flushRun (line : List UInt8) (pInput : ℕ) (c : UInt8) (st : LineState) : Option LineState :=
  if st.nRunLength ≠ 0 ∧ st.symbol ≠ c then
    if st.nRunLength < 3 then
      some { st with cRawBytes := st.cRawBytes + st.nRunLength, nRunLength := 0 }
    else
      let pBytes := line.drop (pInput - (st.cRawBytes + st.nRunLength + 1))
      let written := writeRleBytes pBytes st.cRawBytes st.nRunLength st.outBufferSize
      if written = [] ∨ written.length > st.outBufferSize then none
      else
        some { st with cRawBytes := 0
                       nRunLength := 0
                       outBufferSize := st.outBufferSize - written.length
                       out := st.out ++ written }
  else some st

/-- Count the symbol `c` into the run or the raw bytes. -/
def countSymbol (c : UInt8) (st : LineState) : LineState :=
  if st.symbol = c then { st with nRunLength := st.nRunLength + 1 }
  else { st with symbol := c, cRawBytes := st.cRawBytes + 1 }

/-- The loop of `freerdp_bitmap_planar_encode_rle_bytes` over the rest of the line, as long as
there is room in the output. -/
def encodeRleLoop (line : List UInt8) : List UInt8 → LineState → List UInt8
  | [], st => encodeRleEnd line 0 st
  | c :: rest, st =>
    match flushRun line (line.length - rest.length) c st with
    | none => []
    | some st =>
      let st := countSymbol c st
      if st.outBufferSize = 0 then encodeRleEnd line rest.length st else encodeRleLoop line rest st

/-- `freerdp_bitmap_planar_encode_rle_bytes` for one line: the bytes written; none is the return
value `0`. -/
def encodeRleBytes (line : List UInt8) (outBufferSize : ℕ) : List UInt8 :=
  if outBufferSize = 0 then []
  else encodeRleLoop line line ⟨0, 0, 0, outBufferSize, []⟩

/-- The loop of `freerdp_bitmap_planar_compress_plane_rle` with `n` lines to go. -/
def compressLines (width : ℕ) : ℕ → List UInt8 → ℕ → List UInt8 → Option (List UInt8)
  | 0, _, _, out => some out
  | n + 1, pInput, outBufferSize, out =>
    if outBufferSize > 0 then
      let written := encodeRleBytes (pInput.take width) outBufferSize
      if written = [] ∨ written.length > outBufferSize then none
      else compressLines width n (pInput.drop width) (outBufferSize - written.length)
        (out ++ written)
    else some out

/-- `freerdp_bitmap_planar_compress_plane_rle`: the output, `none` for `FALSE`.  The loop runs at
least once. -/
def compressPlaneRle (inPlane : List UInt8) (width height : ℕ) (dstSize : UInt32) :
    Option (List UInt8) :=
  compressLines width (max height 1) inPlane dstSize.toNat []

/-! ## The measuring reader -/

/-- One scan line of `planar_skip_plane_rle`: the new `used`. -/
def skipLine (src : List UInt8) (nWidth : ℕ) : ℕ → ℕ → ℕ → Option ℕ
  | 0, _, used => some used
  | fuel + 1, x, used =>
    if x < nWidth then
      match src[used]? with
      | none => none
      | some controlByte =>
        let (nRunLength, cRawBytes) := readControlByte controlByte
        let used := uint32 (used + 1 + cRawBytes)
        let x := uint32 (x + cRawBytes + nRunLength)
        if x > nWidth then none
        else if used > src.length then none
        else skipLine src nWidth fuel x used
    else some used

/-- The scan lines of `planar_skip_plane_rle`. -/
def skipLines (src : List UInt8) (nWidth : ℕ) : ℕ → ℕ → Option ℕ
  | 0, used => some used
  | n + 1, used =>
    -- a round of a line uses up a control byte, and one in which `used` wraps moves `x` forwards
    match skipLine src nWidth ((nWidth + 1) * (src.length + 1)) 0 used with
    | none => none
    | some used => skipLines src nWidth n used

def planarSkipPlaneRle (src : List UInt8) (nWidth nHeight : ℕ) : ℤ :=
  match skipLines src nWidth nHeight 0 with
  | none => -1
  | some used => if used > int32Max then -1 else used

/-! ## The decoding reader -/

/-- `clamp`: the low byte. -/
def clamp (val : ℤ) : UInt8 := UInt8.ofNat (val % 256).toNat

/-- The signed difference a sign-folded byte stands for. -/
def unfoldDelta (deltaValue : UInt8) : ℤ :=
  if deltaValue &&& 1 ≠ 0 then -1 * ((deltaValue >>> 1) + 1).toNat else (deltaValue >>> 1).toNat

/-- `pixel` after reading a raw byte: the byte itself on the first scan line, the difference it
stands for on the others. -/
def rawPixel (previousScanline : Option (List UInt8)) (b : UInt8) : ℤ :=
  match previousScanline with
  | none => b.toNat
  | some _ => unfoldDelta b

/-- The byte stored at column `x` for `pixel`. -/
def storedPixel (previousScanline : Option (List UInt8)) (x : ℕ) (pixel : ℤ) : UInt8 :=
  match previousScanline with
  | none => clamp pixel
  | some prev => clamp ((prev.getD x 0).toNat + pixel)

/-- The raw loop: one byte of the source for every byte of the line. -/
def decodeRaw (previousScanline : Option (List UInt8)) :
    List UInt8 → List UInt8 → ℤ → List UInt8 × ℤ
  | [], line, pixel => (line, pixel)
  | b :: raw, line, _ =>
    let pixel := rawPixel previousScanline b
    decodeRaw previousScanline raw (line ++ [storedPixel previousScanline line.length pixel]) pixel

/-- The run loop: repeat `pixel`. -/
def decodeRun (previousScanline : Option (List UInt8)) (pixel : ℤ) : ℕ → List UInt8 → List UInt8
  | 0, line => line
  | n + 1, line =>
    decodeRun previousScanline pixel n (line ++ [storedPixel previousScanline line.length pixel])

/-- One scan line of `planar_decompress_plane_rle_only`: the line and the rest of the source. -/
def decodeLine (previousScanline : Option (List UInt8)) (nWidth : ℕ) :
    ℕ → List UInt8 → List UInt8 → ℤ → Option (List UInt8 × List UInt8)
  | 0, src, line, _ => some (line, src)
  | fuel + 1, src, line, pixel =>
    if line.length < nWidth then
      match src with
      | [] => none
      | controlByte :: src =>
        let (nRunLength, cRawBytes) := readControlByte controlByte
        if line.length + (cRawBytes + nRunLength) > nWidth then none
        else if src.length < cRawBytes then none
        else
          let (line, pixel) := decodeRaw previousScanline (src.take cRawBytes) line pixel
          decodeLine previousScanline nWidth fuel (src.drop cRawBytes)
            (decodeRun previousScanline pixel nRunLength line) pixel
    else some (line, src)

/-- The scan lines of `planar_decompress_plane_rle_only`: the plane and the rest of the source. -/
def decodeLines (nWidth : ℕ) :
    ℕ → Option (List UInt8) → List UInt8 → List UInt8 → Option (List UInt8 × List UInt8)
  | 0, _, src, dst => some (dst, src)
  | n + 1, previousScanline, src, dst =>
    -- every round of a line uses up a control byte
    match decodeLine previousScanline nWidth (src.length + 1) src [] 0 with
    | none => none
    | some (line, src) => decodeLines nWidth n (some line) src (dst ++ line)

/-- `planar_decompress_plane_rle_only`: the return value and the plane; `none` for a failed
assertion. -/
def planarDecompressPlaneRleOnly (src : List UInt8) (nWidth nHeight : ℕ) :
    Option (ℤ × List UInt8) :=
  if nHeight > int32Max ∨ nWidth > int32Max then none
  else
    match decodeLines nWidth nHeight none src [] with
    | none => some (-1, [])
    | some (dst, rest) => some (toInt32 ((src.length : ℤ) - rest.length), dst)

end WBFreeRDP.Planar

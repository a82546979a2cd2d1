/-
# The RDP8 bulk compressor

`zgfx.c`: the compressor of the graphics channel.  A message comes in one segment or in several
ones; a compressed segment is a string of tokens with prefix codes, literals, matches at a distance
and stretches of plain bytes, and its last byte says how many of its bits are padding.  The history
is a ring of 2500000 bytes.  The sender of this library does not compress: it frames plain segments.

Counters of 32 bits are natural numbers that wrap where the code lets them.  A loop that might not
end has fuel, and `none` stands for running out of it.
-/
import WBFreeRDP.ByteOrder
import WBFreeRDP.History
import WBFreeRDP.Stream

namespace WBFreeRDP.Zgfx

open History

/-! ## The history -/

/-- `sizeof(zgfx->HistoryBuffer)`, the value of `HistoryBufferSize`. -/
def historyBufferSize : ℕ := 2500000

/-- `sizeof(zgfx->OutputBuffer)`. -/
def outputBufferSize : ℕ := 65536

/-- The largest `INT32`. -/
def int32Max : ℕ := 2 ^ 31 - 1

/-- The largest `UINT32`. -/
def uint32Max : ℕ := 2 ^ 32 - 1

/-- `HistoryBuffer` and `HistoryIndex`: a ring and the place of the next byte, which is inside of
it. -/
structure HistoryRing (size : ℕ) where
  historyBuffer : Memory UInt8
  historyIndex : ℕ
  historyIndex_lt : historyIndex < size

namespace HistoryRing

variable {size : ℕ}

/-- The copies of `zgfx_history_buffer_ring_write` for at most a whole ring of bytes. -/
def store (r : HistoryRing size) (index : ℕ) (hindex : index < size) (src : List UInt8)
    (hsrc : src.length ≤ size) : HistoryRing size :=
  if hend : index + src.length ≤ size then
    { historyBuffer := write r.historyBuffer index src
      historyIndex := if index + src.length = size then 0 else index + src.length
      historyIndex_lt := by split <;> omega }
  else
    let front := size - index
    { historyBuffer := write (write r.historyBuffer index (src.take front)) 0 (src.drop front)
      historyIndex := src.length - front
      historyIndex_lt := by omega }

/-- `zgfx_history_buffer_ring_write`: of more bytes than the ring has the last ones are kept. -/
def ringWrite (r : HistoryRing size) (src : List UInt8) : HistoryRing size :=
  if src.length ≤ 0 then r
  else if hmore : src.length > size then
    let residue := src.length - size
    r.store ((r.historyIndex + residue) % size) (Nat.mod_lt _ (Nat.zero_lt_of_lt r.historyIndex_lt))
      (src.drop residue) (by rw [List.length_drop]; omega)
  else r.store r.historyIndex r.historyIndex_lt src (by omega)

def push (r : HistoryRing size) (c : UInt8) : HistoryRing size where
  historyBuffer := set r.historyBuffer r.historyIndex c
  historyIndex := if r.historyIndex + 1 = size then 0 else r.historyIndex + 1
  historyIndex_lt := by
    have := r.historyIndex_lt
    split <;> omega

/-- The bytes that `zgfx_history_buffer_ring_read` copies from the ring, in one part or in two. -/
def readFront (r : HistoryRing size) (index bytes : ℕ) : List UInt8 :=
  if index + bytes ≤ size then read r.historyBuffer index bytes
  else
    let front := size - index
    read r.historyBuffer index front ++ read r.historyBuffer 0 (bytes - front)

end HistoryRing

/-- The loop of `zgfx_history_buffer_ring_read`: what was copied is repeated, each time twice as
much. -/
def extend : ℕ → List UInt8 → ℕ → ℕ → List UInt8
  | 0, dst, _, _ => dst
  | fuel + 1, dst, valid, bytesLeft =>
    let bytes := if valid > bytesLeft then bytesLeft else valid
    let dst := dst ++ dst.take bytes
    if bytesLeft - bytes > 0 then extend fuel dst (valid * 2 % 2 ^ 32) (bytesLeft - bytes) else dst

/-- `zgfx_history_buffer_ring_read`: the bytes it writes to `dst`.  The index is computed with 32
bits. -/
def HistoryRing.ringRead {size : ℕ} (r : HistoryRing size) (offset count : ℕ) : List UInt8 :=
  if count ≤ 0 ∨ count > int32Max then []
  else
    let index := (r.historyIndex + size + 2 ^ 32 - offset) % 2 ^ 32 % size
    let bytes := min count offset
    let dst := r.readFront index bytes
    if count - bytes = 0 then dst else extend (count - bytes) dst bytes (count - bytes)

/-! ## The context -/

/-- A `ZGFX_CONTEXT`; `consumed` counts the bits that were taken and is no field of the code. -/
structure Context where
  /-- the bytes from `pbInputCurrent` to `pbInputEnd` -/
  input : List UInt8
  bits : ℕ
  cBitsRemaining : ℕ
  bitsCurrent : ℕ
  cBitsCurrent : ℕ
  /-- the first `OutputCount` bytes of `OutputBuffer` -/
  output : List UInt8
  history : HistoryRing historyBufferSize
  consumed : ℕ

/-- `zgfx_context_reset`. -/
def contextReset (zgfx : Context) : Context :=
  { zgfx with history := { zgfx.history with historyIndex := 0, historyIndex_lt := by decide } }

/-- `zgfx_context_new`. -/
def contextNew : Context :=
  contextReset
    { input := [], bits := 0, cBitsRemaining := 0, bitsCurrent := 0, cBitsCurrent := 0, output := []
      history := { historyBuffer := fill 0, historyIndex := 0, historyIndex_lt := by decide }
      consumed := 0 }

/-- The difference of two `UINT32`, which wraps. -/
def sub32 (a b : ℕ) : ℕ := (((a : ℤ) - b) % 2 ^ 32).toNat

/-- Bits are taken off `cBitsRemaining`. -/
def Context.take (zgfx : Context) (nbits : ℕ) : Context :=
  { zgfx with
    cBitsRemaining := sub32 zgfx.cBitsRemaining nbits
    consumed := zgfx.consumed + nbits }

/-- The loop of `zgfx_GetBits`; behind the input come zeros. -/
def fetch (nbits : ℕ) : ℕ → Context → Option Context
  | 0, _ => none
  | fuel + 1, zgfx =>
    if zgfx.cBitsCurrent < nbits then
      fetch nbits fuel
        { zgfx with
          bitsCurrent := zgfx.bitsCurrent <<< 8 % 2 ^ 32 + (zgfx.input.headD 0).toNat
          input := zgfx.input.tail
          cBitsCurrent := (zgfx.cBitsCurrent + 8) % 2 ^ 32 }
    else some zgfx

/-- `zgfx_GetBits`. -/
def getBits (zgfx : Context) (nbits : ℕ) : Option Context :=
  (fetch nbits (nbits + 1) zgfx).map fun zgfx =>
    let cBitsCurrent := zgfx.cBitsCurrent - nbits
    { zgfx.take nbits with
      cBitsCurrent := cBitsCurrent
      bits := zgfx.bitsCurrent >>> cBitsCurrent
      bitsCurrent := zgfx.bitsCurrent &&& (1 <<< cBitsCurrent - 1) }

/-! ## Tokens -/

/-- A `ZGFX_TOKEN`. -/
structure Token where
  prefixLength : ℕ
  prefixCode : ℕ
  valueBits : ℕ
  tokenType : ℕ
  valueBase : ℕ
  deriving DecidableEq

/-- `ZGFX_TOKEN_TABLE` without the row of zeros that ends it. -/
def tokenTable : List Token :=
  [⟨1, 0, 8, 0, 0⟩, ⟨5, 17, 5, 1, 0⟩, ⟨5, 18, 7, 1, 32⟩, ⟨5, 19, 9, 1, 160⟩, ⟨5, 20, 10, 1, 672⟩,
    ⟨5, 21, 12, 1, 1696⟩, ⟨5, 24, 0, 0, 0x00⟩, ⟨5, 25, 0, 0, 0x01⟩, ⟨6, 44, 14, 1, 5792⟩,
    ⟨6, 45, 15, 1, 22176⟩, ⟨6, 52, 0, 0, 0x02⟩, ⟨6, 53, 0, 0, 0x03⟩, ⟨6, 54, 0, 0, 0xFF⟩,
    ⟨7, 92, 18, 1, 54944⟩, ⟨7, 93, 20, 1, 317088⟩, ⟨7, 110, 0, 0, 0x04⟩, ⟨7, 111, 0, 0, 0x05⟩,
    ⟨7, 112, 0, 0, 0x06⟩, ⟨7, 113, 0, 0, 0x07⟩, ⟨7, 114, 0, 0, 0x08⟩, ⟨7, 115, 0, 0, 0x09⟩,
    ⟨7, 116, 0, 0, 0x0A⟩, ⟨7, 117, 0, 0, 0x0B⟩, ⟨7, 118, 0, 0, 0x3A⟩, ⟨7, 119, 0, 0, 0x3B⟩,
    ⟨7, 120, 0, 0, 0x3C⟩, ⟨7, 121, 0, 0, 0x3D⟩, ⟨7, 122, 0, 0, 0x3E⟩, ⟨7, 123, 0, 0, 0x3F⟩,
    ⟨7, 124, 0, 0, 0x40⟩, ⟨7, 125, 0, 0, 0x80⟩, ⟨8, 188, 20, 1, 1365664⟩, ⟨8, 189, 21, 1, 2414240⟩,
    ⟨8, 252, 0, 0, 0x0C⟩, ⟨8, 253, 0, 0, 0x38⟩, ⟨8, 254, 0, 0, 0x39⟩, ⟨8, 255, 0, 0, 0x66⟩,
    ⟨9, 380, 22, 1, 4511392⟩, ⟨9, 381, 23, 1, 8705696⟩, ⟨9, 382, 24, 1, 17094304⟩]

/-- The loop that reads bits of the prefix: the prefix so far and how many bits it lacks. -/
def readPrefix : ℕ → ℕ → Context → Option (ℕ × Context)
  | 0, inPrefix, zgfx => some (inPrefix, zgfx)
  | n + 1, inPrefix, zgfx =>
    (getBits zgfx 1).bind fun zgfx => readPrefix n (inPrefix <<< 1 + zgfx.bits) zgfx

/-- The loop over the table of tokens: the row of the prefix, or no row. -/
def findToken : List Token → ℕ → ℕ → Context → Option (Option Token × Context)
  | [], _, _, zgfx => some (none, zgfx)
  | token :: table, haveBits, inPrefix, zgfx =>
    (readPrefix (token.prefixLength - haveBits) inPrefix zgfx).bind fun (inPrefix, zgfx) =>
      if inPrefix = token.prefixCode then some (some token, zgfx)
      else findToken table (max haveBits token.prefixLength) inPrefix zgfx

/-- The loop over the ones of a length: the length and the number of extra bits, of 32 bits both. -/
def countOnes : ℕ → ℕ → ℕ → Context → Option (ℕ × ℕ × Context)
  | 0, _, _, _ => none
  | fuel + 1, count, extra, zgfx =>
    if zgfx.bits = 1 then
      (getBits zgfx 1).bind fun zgfx =>
        countOnes fuel (count * 2 % 2 ^ 32) ((extra + 1) % 2 ^ 32) zgfx
    else some (count, extra, zgfx)

def readCount (zgfx : Context) : Option (ℕ × Context) :=
  (getBits zgfx 1).bind fun zgfx =>
    if zgfx.bits = 0 then some (3, zgfx)
    else
      (getBits zgfx 1).bind fun zgfx =>
        (countOnes (8 * zgfx.input.length + zgfx.cBitsCurrent + 2) 4 2 zgfx).bind
          fun (count, extra, zgfx) =>
            (getBits zgfx extra).map fun zgfx => ((count + zgfx.bits) % 2 ^ 32, zgfx)

/-! ## Segments -/

/-- A literal is put out; `FALSE` when the output is full. -/
def putLiteral (zgfx : Context) (c : UInt8) : Bool × Context :=
  let zgfx := { zgfx with history := zgfx.history.push c }
  if zgfx.output.length ≥ outputBufferSize then (false, zgfx)
  else (true, { zgfx with output := zgfx.output ++ [c] })

/-- A literal. -/
def literalToken (zgfx : Context) (token : Token) : Option (Bool × Context) :=
  (getBits zgfx token.valueBits).map fun zgfx =>
    putLiteral zgfx (UInt8.ofNat (token.valueBase + zgfx.bits))

def putMatch (zgfx : Context) (distance count : ℕ) : Bool × Context :=
  if count > outputBufferSize - zgfx.output.length then (false, zgfx)
  else
    let bytes := zgfx.history.ringRead distance count
    (true, { zgfx with output := zgfx.output ++ bytes, history := zgfx.history.ringWrite bytes })

def matchToken (zgfx : Context) (distance : ℕ) : Option (Bool × Context) :=
  (readCount zgfx).map fun (count, zgfx) => putMatch zgfx distance count

/-- The bits up to the next byte are skipped. -/
def Context.align (zgfx : Context) : Context :=
  { zgfx.take zgfx.cBitsCurrent with cBitsCurrent := 0, bitsCurrent := 0 }

def putRaw (zgfx : Context) (count : ℕ) : Bool × Context :=
  if count > outputBufferSize - zgfx.output.length then (false, zgfx)
  else if count > zgfx.cBitsRemaining / 8 then (false, zgfx)
  else if count > zgfx.input.length then (false, zgfx)
  else
    let bytes := zgfx.input.take count
    (true, { zgfx.take (8 * count) with
        output := zgfx.output ++ bytes
        history := zgfx.history.ringWrite bytes
        input := zgfx.input.drop count })

/-- Plain bytes, from the next byte of the input on. -/
def rawToken (zgfx : Context) : Option (Bool × Context) :=
  (getBits zgfx 15).map fun zgfx => putRaw zgfx.align zgfx.bits

/-- One round of the loop of `zgfx_decompress_segment`; `false` for `return FALSE`.  A prefix that
is not in the table is skipped. -/
def decompressStep (zgfx : Context) : Option (Bool × Context) :=
  (findToken tokenTable 0 0 zgfx).bind fun (token, zgfx) =>
    match token with
    | none => some (true, zgfx)
    | some token =>
      if token.tokenType = 0 then literalToken zgfx token
      else
        (getBits zgfx token.valueBits).bind fun zgfx =>
          let distance := token.valueBase + zgfx.bits
          if distance ≠ 0 then matchToken zgfx distance else rawToken zgfx

/-- The loop of `zgfx_decompress_segment`. -/
def decompressLoop : ℕ → Context → Option (Bool × Context)
  | 0, _ => none
  | fuel + 1, zgfx =>
    if zgfx.cBitsRemaining = 0 then some (true, zgfx)
    else
      (decompressStep zgfx).bind fun (more, zgfx) =>
        if more then decompressLoop fuel zgfx else some (false, zgfx)

/-- The flag `PACKET_COMPRESSED` of a segment. -/
def packetCompressed : ℕ := 0x20

/-- A compressed segment of which the flags are read: `payload` without its last byte `padding`,
which counts the bits that are not used. -/
def decompressBits (zgfx : Context) (payload : List UInt8) (padding : UInt8) :
    Option (Bool × Context) :=
  let bits := 8 * payload.length
  if bits > uint32Max then some (false, zgfx)
  else if bits < padding.toNat then some (false, zgfx)
  else
    -- a token takes a bit of the input or adds a byte to the output
    decompressLoop (bits + outputBufferSize + 2)
      { zgfx with
        input := payload
        cBitsRemaining := bits - padding.toNat
        cBitsCurrent := 0
        bitsCurrent := 0
        consumed := 0 }

/-- `zgfx_decompress_segment`, on what is left of the stream. -/
def decompressSegment (zgfx : Context) (stream : List UInt8) (segmentSize : ℕ) :
    Option (Bool × Context) :=
  if segmentSize < 2 then some (false, zgfx)
  else if stream.length < segmentSize ∨ segmentSize > uint32Max then some (false, zgfx)
  else
    let flags := (stream.headD 0).toNat
    let segment := (stream.take segmentSize).tail
    let zgfx := { zgfx with output := [] }
    if flags &&& packetCompressed = 0 then
      let zgfx := { zgfx with history := zgfx.history.ringWrite segment }
      if segment.length > outputBufferSize then some (false, zgfx)
      else some (true, { zgfx with output := segment })
    else decompressBits zgfx segment.dropLast (segment.getLastD 0)

/-! ## Messages -/

/-- `zgfx_append`: the output of a segment is added; `none` for `FALSE`. -/
def append (output concatenated : List UInt8) (uncompressedSize : ℕ) : Option (List UInt8) :=
  if output.length > uint32Max - concatenated.length then none
  else if concatenated.length + output.length > uncompressedSize then none
  else some (concatenated ++ output)

/-- The loop over the segments of a message: `none` inside for a failure. -/
def decompressSegments (uncompressedSize : ℕ) :
    ℕ → Context → List UInt8 → List UInt8 → Option (Option (List UInt8) × Context)
  | 0, zgfx, _, concatenated => some (some concatenated, zgfx)
  | n + 1, zgfx, stream, concatenated =>
    match readLE 4 stream with
    | none => some (none, zgfx)
    | some (segmentSize, stream) =>
      (decompressSegment zgfx stream segmentSize).bind fun (success, zgfx) =>
        match success, append zgfx.output concatenated uncompressedSize with
        | true, some concatenated =>
          decompressSegments uncompressedSize n zgfx (stream.drop segmentSize) concatenated
        | _, _ => some (none, zgfx)

def decompressSingle (zgfx : Context) (stream : List UInt8) :
    Option (Option (List UInt8) × Context) :=
  (decompressSegment zgfx stream stream.length).map fun (success, zgfx) =>
    if success then
      if zgfx.output.length > 0 then
        match append zgfx.output [] zgfx.output.length with
        | none => (none, zgfx)
        | some concatenated =>
          if concatenated.length ≠ zgfx.output.length then (none, zgfx)
            else (some concatenated, zgfx)
      else (some [], zgfx)
    else (none, zgfx)

/-- The body of a message of several segments. -/
def decompressMultipart (zgfx : Context) (stream : List UInt8) :
    Option (Option (List UInt8) × Context) :=
  match readLE 2 stream with
  | none => some (none, zgfx)
  | some (segmentCount, stream) =>
    match readLE 4 stream with
    | none => some (none, zgfx)
    | some (uncompressedSize, stream) =>
      (decompressSegments uncompressedSize segmentCount zgfx stream []).map
        fun (concatenated, zgfx) =>
        (concatenated.filter fun concatenated => concatenated.length = uncompressedSize, zgfx)

def segmentedSingle : UInt8 := 0xE0

def segmentedMultipart : UInt8 := 0xE1

/-- `zgfx_decompress`: the data of the message, or `none` inside for the status -1. -/
def decompress (zgfx : Context) : List UInt8 → Option (Option (List UInt8) × Context)
  | [] => some (none, zgfx)
  | descriptor :: stream =>
    if descriptor = segmentedSingle then decompressSingle zgfx stream
    else if descriptor = segmentedMultipart then decompressMultipart zgfx stream
    else some (none, zgfx)

/-! ## The sender -/

def packetComprTypeRdp8 : ℕ := 0x04

def segmentedMaxSize : ℕ := 65535

/-- `zgfx_compress_segment`: the stream and the flags, which are to fit a byte. -/
def compressSegment (s : WStream) (src : List UInt8) (flags : ℕ) : Option (WStream × ℕ) :=
  (s.ensureRemainingCapacity (src.length + 1)).bind fun s =>
    let flags := flags ||| packetComprTypeRdp8
    if flags > 0xFF then none else some ((s.append [UInt8.ofNat flags]).append src, flags)

/-- The descriptor of the first fragment, and in front of several ones the number of segments, which
is filled in later, and the size: the stream and `posSegmentCount`. -/
def writeHeader (s : WStream) (uncompressedSize totalLength : ℕ) : Option (WStream × ℕ) :=
  let s := s.append [if totalLength = 0 then segmentedSingle else segmentedMultipart]
  if totalLength > 0 then
    let posSegmentCount := s.position
    (s.seek 2).map fun s => (s.append (leBytes 4 uncompressedSize), posSegmentCount)
  else some (s, 0)

def fillSize (s : WStream) (posDstSize posDataStart : ℕ) : Option WStream :=
  let dstSize := s.position - posDataStart
  if dstSize > uint32Max then none
  else
    (s.setPosition posDstSize).bind fun s =>
      (s.append (leBytes 4 dstSize)).setPosition (posDataStart + dstSize)

/-- The segment of a fragment, with its size when there are several ones. -/
def writeFragment (s : WStream) (src : List UInt8) (multipart : Bool) (flags : ℕ) :
    Option (WStream × ℕ) :=
  if multipart then
    let posDstSize := s.position
    (s.seek 4).bind fun s =>
      let posDataStart := s.position
      (compressSegment s src flags).bind fun (s, flags) =>
        (fillSize s posDstSize posDataStart).map fun s => (s, flags)
  else compressSegment s src flags

/-- The variables of `zgfx_compress_to_stream`; `source` is what follows `pSrcData`. -/
structure Sending where
  sDst : WStream
  source : List UInt8
  fragment : ℕ
  posSegmentCount : ℕ
  flags : ℕ

/-- One round of the loop of `zgfx_compress_to_stream`. -/
def compressFragment (uncompressedSize : ℕ) (st : Sending) : Option Sending :=
  let srcSize := if st.source.length > segmentedMaxSize then segmentedMaxSize else st.source.length
  let totalLength := st.source.length - srcSize
  (st.sDst.ensureRemainingCapacity 12).bind fun s =>
    (if st.fragment = 0 then writeHeader s uncompressedSize totalLength
      else some (s, st.posSegmentCount)).bind fun (s, posSegmentCount) =>
      (writeFragment s (st.source.take srcSize) (decide (st.fragment > 0 ∨ totalLength > 0))
        st.flags).map fun (s, flags) =>
          ⟨s, st.source.drop srcSize, st.fragment + 1, posSegmentCount, flags⟩

/-- The loop of `zgfx_compress_to_stream`. -/
def compressLoop (uncompressedSize : ℕ) : ℕ → Sending → Option Sending
  | 0, st => some st
  | fuel + 1, st =>
    if st.source.length > 0 ∨ st.fragment = 0 then
      (compressFragment uncompressedSize st).bind (compressLoop uncompressedSize fuel)
    else some st

/-- The number of segments is filled in, which is to fit two bytes. -/
def fillCount (st : Sending) : Option WStream :=
  let s := st.sDst.sealLength
  if st.posSegmentCount ≠ 0 then
    (s.setPosition st.posSegmentCount).bind fun s =>
      if st.fragment > 0xFFFF then none
      else
        let s := s.append (leBytes 2 st.fragment)
        s.setPosition s.length
  else some s

/-- `zgfx_compress_to_stream`: the stream, or `none` for a status below 0 and for a cast that fails.
Each round takes a byte of the source, but for the first one of an empty source. -/
def compressToStream (sDst : WStream) (uncompressed : List UInt8) (flags : ℕ) : Option WStream :=
  (compressLoop uncompressed.length (uncompressed.length + 1)
    ⟨sDst, uncompressed, 0, 0, flags⟩).bind fillCount

end WBFreeRDP.Zgfx

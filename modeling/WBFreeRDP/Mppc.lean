/-
# The MPPC compressor

`mppc.c`: RDP4 (8K history) and RDP5 (64K history) bulk compression.  The sender keeps every packet
in its history, looks three bytes up in a hash table of positions and replaces what it has sent
before by a copy offset and a length; the receiver rebuilds the same history.

Pointers into the history are indices.  The history is a memory of cells; the bit stream of the
context is attached afresh by every call and is local here.
-/
import WBFreeRDP.BitStream
import WBFreeRDP.Bulk
import WBFreeRDP.History

namespace WBFreeRDP.Mppc

open Bulk History

/-- An `MPPC_CONTEXT`. -/
structure Context where
  historyPtr : ℕ
  historyOffset : ℕ
  historyBufferSize : ℕ
  historyBuffer : Memory UInt8
  matchBuffer : Memory ℕ
  compressionLevel : ℕ

/-- `mppc_context_reset`. -/
def contextReset (mppc : Context) (flush : Bool) : Context :=
  { mppc with
    historyBuffer := fill 0
    matchBuffer := fill 0
    historyOffset := if flush then mppc.historyBufferSize + 1 else 0
    historyPtr := 0 }

/-- `mppc_context_new`. -/
def contextNew (compressionLevel : ℕ) : Context :=
  contextReset
    { historyPtr := 0
      historyOffset := 0
      historyBufferSize := if compressionLevel < 1 then 8192 else 65536
      historyBuffer := fill 0
      matchBuffer := fill 0
      compressionLevel := if compressionLevel < 1 then 0 else 1 } false

def setCompressionLevel (mppc : Context) (compressionLevel : ℕ) : Context :=
  { mppc with
    historyBufferSize := if compressionLevel < 1 then 8192 else 65536
    compressionLevel := if compressionLevel < 1 then 0 else 1 }

/-! ## The hash of three bytes -/

/-- `MPPC_MATCH_TABLE`, whose 256 entries are the multiples of its second one. -/
def matchTable : List ℕ := (List.range' 0 256).map (0x009CCF93 * ·)

/-- `MPPC_MATCH_INDEX`, in `UINT32`. -/
def matchIndex (sym1 sym2 sym3 : UInt8) : ℕ :=
  (((matchTable.getD sym3.toNat 0 <<< 16) + (matchTable.getD sym2.toNat 0 <<< 8) +
    matchTable.getD sym1.toNat 0) % 2 ^ 32 &&& 0x07FFF000) >>> 12

/-! ## Codes -/

/-- A field of bits: its value and its length. -/
abbrev Field := ℕ × ℕ

def writeField (bs : BitStream) : Option Field → BitStream
  | none => bs
  | some (bits, nbits) => bs.writeBits bits nbits

def literalField (literal : UInt8) : Field :=
  if literal.toNat < 0x80 then (literal.toNat, 8)
  else (0x100 ||| (literal.toNat &&& 0x7F), 9)

def offsetField (compressionLevel copyOffset : ℕ) : Option Field :=
  if compressionLevel ≠ 0 then
    if copyOffset < 64 then some (0x07C0 ||| (copyOffset &&& 0x003F), 11)
    else if copyOffset ≥ 64 ∧ copyOffset < 320 then
      some (0x1E00 ||| ((copyOffset - 64) &&& 0x00FF), 13)
    else if copyOffset ≥ 320 ∧ copyOffset < 2368 then
      some (0x7000 ||| ((copyOffset - 320) &&& 0x07FF), 15)
    else some (0x060000 ||| ((copyOffset - 2368) &&& 0xFFFF), 19)
  else
    if copyOffset < 64 then some (0x03C0 ||| (copyOffset &&& 0x003F), 10)
    else if copyOffset ≥ 64 ∧ copyOffset < 320 then
      some (0x0E00 ||| ((copyOffset - 64) &&& 0x00FF), 12)
    else if copyOffset ≥ 320 ∧ copyOffset < 8192 then
      some (0xC000 ||| ((copyOffset - 320) &&& 0x1FFF), 16)
    else none

def lengthField (compressionLevel lengthOfMatch : ℕ) : Option Field :=
  if lengthOfMatch = 3 then some (0, 1)
  else if lengthOfMatch ≥ 4 ∧ lengthOfMatch < 8 then
    some (0x0008 ||| (lengthOfMatch &&& 0x0003), 4)
  else if lengthOfMatch ≥ 8 ∧ lengthOfMatch < 16 then
    some (0x0030 ||| (lengthOfMatch &&& 0x0007), 6)
  else if lengthOfMatch ≥ 16 ∧ lengthOfMatch < 32 then
    some (0x00E0 ||| (lengthOfMatch &&& 0x000F), 8)
  else if lengthOfMatch ≥ 32 ∧ lengthOfMatch < 64 then
    some (0x03C0 ||| (lengthOfMatch &&& 0x001F), 10)
  else if lengthOfMatch ≥ 64 ∧ lengthOfMatch < 128 then
    some (0x0F80 ||| (lengthOfMatch &&& 0x003F), 12)
  else if lengthOfMatch ≥ 128 ∧ lengthOfMatch < 256 then
    some (0x3F00 ||| (lengthOfMatch &&& 0x007F), 14)
  else if lengthOfMatch ≥ 256 ∧ lengthOfMatch < 512 then
    some (0xFE00 ||| (lengthOfMatch &&& 0x00FF), 16)
  else if lengthOfMatch ≥ 512 ∧ lengthOfMatch < 1024 then
    some (0x3FC00 ||| (lengthOfMatch &&& 0x01FF), 18)
  else if lengthOfMatch ≥ 1024 ∧ lengthOfMatch < 2048 then
    some (0xFF800 ||| (lengthOfMatch &&& 0x03FF), 20)
  else if lengthOfMatch ≥ 2048 ∧ lengthOfMatch < 4096 then
    some (0x3FF000 ||| (lengthOfMatch &&& 0x07FF), 22)
  else if lengthOfMatch ≥ 4096 ∧ lengthOfMatch < 8192 then
    some (0xFFE000 ||| (lengthOfMatch &&& 0x0FFF), 24)
  else if (lengthOfMatch ≥ 8192 ∧ lengthOfMatch < 16384) ∧ compressionLevel ≠ 0 then
    some (0x3FFC000 ||| (lengthOfMatch &&& 0x1FFF), 26)
  else if (lengthOfMatch ≥ 16384 ∧ lengthOfMatch < 32768) ∧ compressionLevel ≠ 0 then
    some (0xFFF8000 ||| (lengthOfMatch &&& 0x3FFF), 28)
  else if (lengthOfMatch ≥ 32768 ∧ lengthOfMatch < 65536) ∧ compressionLevel ≠ 0 then
    some (0x3FFF0000 ||| (lengthOfMatch &&& 0x7FFF), 30)
  else none

/-! ## The sender -/

/-- The variables of `mppc_compress` that change while it runs; `high` is `mppc->HistoryPtr`, up to
which there is something to match. -/
structure Sending where
  historyBuffer : Memory UInt8
  matchBuffer : Memory ℕ
  high : ℕ
  historyPtr : ℕ
  bs : BitStream

/-- The parameters of `mppc_compress` that do not change: the level, the size of the history and
`DstSize`. -/
structure Params where
  compressionLevel : ℕ
  historyBufferSize : ℕ
  dstSize : ℕ

/-- The test for room in the output; `DstSize - 1` is in `UINT32`. -/
def Params.full (ps : Params) (bs : BitStream) (n : ℕ) : Bool :=
  bs.position / 8 + n > (ps.dstSize + 2 ^ 32 - 1) % 2 ^ 32

/-- The loop that extends a match, with what is left of the packet.  The last byte of the packet is
never matched. -/
def extendMatch (high : ℕ) :
    List UInt8 → Memory UInt8 → ℕ → ℕ → ℕ → List UInt8 × Memory UInt8 × ℕ × ℕ
  | sym :: next :: rest, history, historyPtr, matchPtr, lengthOfMatch =>
    if sym = history matchPtr ∧ matchPtr ≤ high then
      extendMatch high (next :: rest) (set history historyPtr sym) (historyPtr + 1)
        (matchPtr + 1) (lengthOfMatch + 1)
    else (sym :: next :: rest, history, historyPtr, lengthOfMatch)
  | src, history, historyPtr, _, lengthOfMatch => (src, history, historyPtr, lengthOfMatch)

/-- One round of the main loop of `mppc_compress`; `none` when there is no more room for the
output. -/
def compressStep (ps : Params) (st : Sending) (sym1 sym2 sym3 : UInt8) (rest : List UInt8) :
    Option (Sending × List UInt8) :=
  let history := set st.historyBuffer st.historyPtr sym1
  let historyPtr := st.historyPtr + 1
  let index := matchIndex sym1 sym2 sym3
  let matchPtr := st.matchBuffer index
  let matchBuffer :=
    if matchPtr ≠ historyPtr - 1 then set st.matchBuffer index (historyPtr % 2 ^ 16)
    else st.matchBuffer
  let high := if st.high < historyPtr then historyPtr else st.high
  if sym1 ≠ history (matchPtr - 1) ∨ sym2 ≠ history matchPtr ∨ sym3 ≠ history (matchPtr + 1) ∨
      matchPtr + 1 > high ∨ matchPtr = 0 ∨ matchPtr = historyPtr - 1 ∨ matchPtr = historyPtr then
    if ps.full st.bs 2 then none
    else some (⟨history, matchBuffer, high, historyPtr,
      writeField st.bs (some (literalField sym1))⟩, sym2 :: sym3 :: rest)
  else
    let copyOffset := (((historyPtr : ℤ) - matchPtr) % ps.historyBufferSize).toNat
    let history := set (set history historyPtr sym2) (historyPtr + 1) sym3
    let (src, history, historyPtr, lengthOfMatch) :=
      extendMatch high rest history (historyPtr + 2) (matchPtr + 2) 3
    if ps.full st.bs 7 then none
    else
      let bs := writeField st.bs (offsetField ps.compressionLevel copyOffset)
      let bs := writeField bs (lengthField ps.compressionLevel lengthOfMatch)
      some (⟨history, matchBuffer, high, historyPtr, bs⟩, src)

/-- The loop that encodes the trailing symbols as literals. -/
def compressTail (ps : Params) : List UInt8 → Sending → Option Sending
  | [], st => some st
  | sym :: rest, st =>
    if ps.full st.bs 2 then none
    else compressTail ps rest
      { st with
        historyBuffer := set st.historyBuffer st.historyPtr sym
        historyPtr := st.historyPtr + 1
        bs := writeField st.bs (some (literalField sym)) }

/-- The main loop of `mppc_compress`, which runs while more than three bytes are left. -/
def compressLoop (ps : Params) : ℕ → List UInt8 → Sending → Option Sending
  | fuel + 1, sym1 :: sym2 :: sym3 :: sym4 :: rest, st =>
    (compressStep ps st sym1 sym2 sym3 (sym4 :: rest)).bind fun (st, src) =>
      compressLoop ps fuel src st
  | _, src, st => compressTail ps src st

/-- `mppc_compress` into a buffer, whose length is the capacity the caller passes. -/
def compress (mppc : Context) (src dst : List UInt8) : Compressed Context :=
  let stay := mppc.historyOffset + src.length < mppc.historyBufferSize - 3 ∧ mppc.historyOffset ≠ 0
  let packetFlushed' := ¬ stay ∧ mppc.historyOffset = mppc.historyBufferSize + 1
  let historyOffset := if stay then mppc.historyOffset else 0
  let dstSize := if dst.length > src.length then src.length else dst.length
  let ps := ⟨mppc.compressionLevel, mppc.historyBufferSize, dstSize⟩
  match compressLoop ps src.length src
      ⟨mppc.historyBuffer, mppc.matchBuffer, mppc.historyPtr, historyOffset,
        (BitStream.empty.attach (dst.take dstSize))⟩ with
  | none =>
    { status := 1
      data := src
      flags := packetFlushed ||| mppc.compressionLevel
      context := contextReset mppc true }
  | some st =>
    { status := 1
      data := st.bs.flush.buffer.take ((st.bs.position + 7) / 8)
      flags := packetCompressed ||| mppc.compressionLevel |||
        (if stay then 0 else packetAtFront) ||| (if packetFlushed' then packetFlushed else 0)
      context :=
        { mppc with
          historyPtr := st.historyPtr
          historyOffset := st.historyPtr
          historyBuffer := st.historyBuffer
          matchBuffer := st.matchBuffer } }

/-! ## The receiver -/

/-- Decode a copy offset at the top of the accumulator: its value and the number of bits; `none`
for an invalid encoding. -/
def readOffset (compressionLevel : ℕ) (accumulator : BitVec 32) : Option Field :=
  if compressionLevel ≠ 0 then
    if accumulator &&& 0xF8000000 = 0xF8000000 then
      some (((accumulator >>> 21) &&& 0x3F).toNat, 11)
    else if accumulator &&& 0xF8000000 = 0xF0000000 then
      some (((accumulator >>> 19) &&& 0xFF).toNat + 64, 13)
    else if accumulator &&& 0xF0000000 = 0xE0000000 then
      some (((accumulator >>> 17) &&& 0x7FF).toNat + 320, 15)
    else if accumulator &&& 0xE0000000 = 0xC0000000 then
      some (((accumulator >>> 13) &&& 0xFFFF).toNat + 2368, 19)
    else none
  else
    if accumulator &&& 0xF0000000 = 0xF0000000 then
      some (((accumulator >>> 22) &&& 0x3F).toNat, 10)
    else if accumulator &&& 0xF0000000 = 0xE0000000 then
      some (((accumulator >>> 20) &&& 0xFF).toNat + 64, 12)
    else if accumulator &&& 0xE0000000 = 0xC0000000 then
      some (((accumulator >>> 16) &&& 0x1FFF).toNat + 320, 16)
    else none

/-- Decode a length of match at the top of the accumulator. -/
def readLength (compressionLevel : ℕ) (accumulator : BitVec 32) : Option Field :=
  if accumulator &&& 0x80000000 = 0x00000000 then some (3, 1)
  else if accumulator &&& 0xC0000000 = 0x80000000 then
    some (((accumulator >>> 28) &&& 0x0003).toNat + 0x0004, 4)
  else if accumulator &&& 0xE0000000 = 0xC0000000 then
    some (((accumulator >>> 26) &&& 0x0007).toNat + 0x0008, 6)
  else if accumulator &&& 0xF0000000 = 0xE0000000 then
    some (((accumulator >>> 24) &&& 0x000F).toNat + 0x0010, 8)
  else if accumulator &&& 0xF8000000 = 0xF0000000 then
    some (((accumulator >>> 22) &&& 0x001F).toNat + 0x0020, 10)
  else if accumulator &&& 0xFC000000 = 0xF8000000 then
    some (((accumulator >>> 20) &&& 0x003F).toNat + 0x0040, 12)
  else if accumulator &&& 0xFE000000 = 0xFC000000 then
    some (((accumulator >>> 18) &&& 0x007F).toNat + 0x0080, 14)
  else if accumulator &&& 0xFF000000 = 0xFE000000 then
    some (((accumulator >>> 16) &&& 0x00FF).toNat + 0x0100, 16)
  else if accumulator &&& 0xFF800000 = 0xFF000000 then
    some (((accumulator >>> 14) &&& 0x01FF).toNat + 0x0200, 18)
  else if accumulator &&& 0xFFC00000 = 0xFF800000 then
    some (((accumulator >>> 12) &&& 0x03FF).toNat + 0x0400, 20)
  else if accumulator &&& 0xFFE00000 = 0xFFC00000 then
    some (((accumulator >>> 10) &&& 0x07FF).toNat + 0x0800, 22)
  else if accumulator &&& 0xFFF00000 = 0xFFE00000 then
    some (((accumulator >>> 8) &&& 0x0FFF).toNat + 0x1000, 24)
  else if accumulator &&& 0xFFF80000 = 0xFFF00000 ∧ compressionLevel ≠ 0 then
    some (((accumulator >>> 6) &&& 0x1FFF).toNat + 0x2000, 26)
  else if accumulator &&& 0xFFFC0000 = 0xFFF80000 ∧ compressionLevel ≠ 0 then
    some (((accumulator >>> 4) &&& 0x3FFF).toNat + 0x4000, 28)
  else if accumulator &&& 0xFFFE0000 = 0xFFFC0000 ∧ compressionLevel ≠ 0 then
    some (((accumulator >>> 2) &&& 0x7FFF).toNat + 0x8000, 30)
  else none

/-- The variables of `mppc_decompress` that change while it runs. -/
structure Receiving where
  historyBuffer : Memory UInt8
  historyPtr : ℕ
  bs : BitStream

/-- The match branch of `mppc_decompress`: the status and the variables. -/
def decompressMatch (compressionLevel historyBufferSize : ℕ) (st : Receiving) : ℤ × Receiving :=
  match readOffset compressionLevel st.bs.accumulator with
  | none => (if compressionLevel ≠ 0 then -1001 else -1002, st)
  | some (copyOffset, nbits) =>
    let bs := st.bs.shift nbits
    match readLength compressionLevel bs.accumulator with
    | none => (-1003, { st with bs := bs })
    | some (lengthOfMatch, nbits) =>
      let bs := bs.shift nbits
      let srcPtr := (((st.historyPtr : ℤ) - copyOffset) %
        (if compressionLevel ≠ 0 then 0x10000 else 0x2000)).toNat
      if st.historyPtr + lengthOfMatch - 1 > historyBufferSize - 1 then
        (-1005, { st with bs := bs })
      else if srcPtr + lengthOfMatch > historyBufferSize - 1 then (-1006, { st with bs := bs })
      else (1, ⟨copy st.historyBuffer st.historyPtr srcPtr lengthOfMatch,
        st.historyPtr + lengthOfMatch, bs⟩)

/-- One round of the loop of `mppc_decompress`. -/
def decompressStep (compressionLevel historyBufferSize : ℕ) (st : Receiving) : ℤ × Receiving :=
  let accumulator := st.bs.accumulator
  if st.historyPtr > historyBufferSize - 1 then (-1004, st)
  else if accumulator &&& 0x80000000 = 0x00000000 then
    let literal := ((accumulator &&& 0x7F000000) >>> 24).toNat
    (1, ⟨set st.historyBuffer st.historyPtr (UInt8.ofNat literal),
      st.historyPtr + 1, st.bs.shift 8⟩)
  else if accumulator &&& 0xC0000000 = 0x80000000 then
    let literal := ((accumulator &&& 0x3F800000) >>> 23).toNat + 0x80
    (1, ⟨set st.historyBuffer st.historyPtr (UInt8.ofNat literal),
      st.historyPtr + 1, st.bs.shift 9⟩)
  else decompressMatch compressionLevel historyBufferSize st

/-- The loop of `mppc_decompress`, which runs while eight bits are left. -/
def decompressLoop (compressionLevel historyBufferSize : ℕ) : ℕ → Receiving → ℤ × Receiving
  | 0, st => (1, st)
  | fuel + 1, st =>
    if st.bs.remainingLength ≥ 8 then
      let (status, st) := decompressStep compressionLevel historyBufferSize st
      if status < 0 then (status, st) else decompressLoop compressionLevel historyBufferSize fuel st
    else (1, st)

/-- What the flags make `mppc_decompress` do to its history. -/
def opened (mppc : Context) (flags : ℕ) : Context :=
  let mppc :=
    if hasFlag flags packetAtFront then { mppc with historyOffset := 0, historyPtr := 0 } else mppc
  if hasFlag flags packetFlushed then
    { mppc with
      historyOffset := 0
      historyPtr := 0
      historyBuffer := ⟨fun j => if j < mppc.historyBufferSize then 0 else mppc.historyBuffer j⟩ }
  else mppc

/-- The loop of `mppc_decompress` over the bits of a packet.  A round that goes on writes a cell of
the history, and a round behind its end fails. -/
def receive (mppc : Context) (src : List UInt8) : ℤ × Receiving :=
  decompressLoop mppc.compressionLevel mppc.historyBufferSize (mppc.historyBufferSize + 1)
    ⟨mppc.historyBuffer, mppc.historyPtr, (BitStream.empty.attach src).fetch⟩

/-- The end of `mppc_decompress`: an error leaves the write index as it was. -/
def received (mppc : Context) (result : ℤ × Receiving) : Decompressed Context :=
  if result.1 < 0 then ⟨result.1, [], { mppc with historyBuffer := result.2.historyBuffer }⟩
  else
    { status := 1
      data := read result.2.historyBuffer mppc.historyPtr (result.2.historyPtr - mppc.historyPtr)
      context :=
        { mppc with
          historyBuffer := result.2.historyBuffer
          historyPtr := result.2.historyPtr } }

/-- `mppc_decompress`. -/
def decompress (mppc : Context) (src : List UInt8) (flags : ℕ) : Decompressed Context :=
  if ¬ hasFlag flags packetCompressed then ⟨1, src, opened mppc flags⟩
  else received (opened mppc flags) (receive (opened mppc flags) src)

end WBFreeRDP.Mppc

/-
# The NCRUSH compressor

`ncrush.c`: RDP6 bulk compression.  The sender puts the packet into its history, chains the
positions that start with the same two bytes and replaces what it finds along a chain by a copy
offset and a length, both Huffman coded; the last four offsets are kept in a cache on either side.

Pointers into the history are indices.  The output buffer is the list of the bytes written to it.
-/
import WBFreeRDP.Bulk
import WBFreeRDP.History
import WBFreeRDP.NcrushTables

namespace WBFreeRDP.Ncrush

open Bulk History LowBits

/-! ## Contexts -/

/-- The offset cache. -/
structure Cache where
  c0 : ℕ
  c1 : ℕ
  c2 : ℕ
  c3 : ℕ

def Cache.get (c : Cache) : ℕ → ℕ
  | 0 => c.c0
  | 1 => c.c1
  | 2 => c.c2
  | _ => c.c3

/-- An entry and the first one change places. -/
def Cache.swap (c : Cache) : ℕ → Cache
  | 0 => c
  | 1 => { c with c0 := c.c1, c1 := c.c0 }
  | 2 => { c with c0 := c.c2, c2 := c.c0 }
  | _ => { c with c0 := c.c3, c3 := c.c0 }

/-- A new offset comes first and the last one is dropped. -/
def Cache.push (c : Cache) (copyOffset : ℕ) : Cache := ⟨copyOffset, c.c0, c.c1, c.c2⟩

/-- Where the sender finds an offset; it looks at the last entry first. -/
def Cache.find (c : Cache) (copyOffset : ℕ) : Option ℕ :=
  if copyOffset = c.c3 then some 3
  else if copyOffset = c.c2 then some 2
  else if copyOffset = c.c1 then some 1
  else if copyOffset = c.c0 then some 0
  else none

/-- An `NCRUSH_CONTEXT`. -/
structure Context where
  historyPtr : ℕ
  historyOffset : ℕ
  historyEndOffset : ℕ
  historyBufferSize : ℕ
  historyBuffer : Memory UInt8
  historyBufferFence : ℕ
  offsetCache : Cache
  hashTable : Memory ℕ
  matchTable : Memory ℕ
  tables : Tables

def contextReset (ncrush : Context) (flush : Bool) : Context :=
  { ncrush with
    historyBuffer := fill 0
    offsetCache := ⟨0, 0, 0, 0⟩
    matchTable := fill 0
    hashTable := fill 0
    historyOffset := if flush then ncrush.historyBufferSize + 1 else 0
    historyPtr := if flush then ncrush.historyBufferSize + 1 else 0 }

/-- `ncrush_context_new`. -/
def contextNew : Option Context :=
  generateTables.map fun tables =>
    contextReset
      { historyPtr := 0
        historyOffset := 0
        historyEndOffset := 65535
        historyBufferSize := 65536
        historyBuffer := fill 0
        historyBufferFence := 0xABABABAB
        offsetCache := ⟨0, 0, 0, 0⟩
        hashTable := fill 0
        matchTable := fill 0
        tables := tables } false

/-! ## Bit streams -/

/-- What `NCrushWriteBits` writes to: the bytes behind `DstPtr`, the accumulator and its offset. -/
structure Writer where
  dst : List UInt8
  accumulator : ℕ
  offset : ℕ

/-- `NCrushWriteBits`. -/
def Writer.writeBits (w : Writer) (bits nbits : ℕ) : Writer :=
  let accumulator := w.accumulator ||| (bits <<< w.offset) % 2 ^ 32
  let offset := w.offset + nbits
  if offset ≥ 16 then
    { dst := w.dst ++
        [UInt8.ofNat (accumulator &&& 0xFF), UInt8.ofNat ((accumulator >>> 8) &&& 0xFF)]
      accumulator := accumulator >>> 16
      offset := offset - 16 }
  else { w with accumulator := accumulator, offset := offset }

/-- `NCrushWriteFinish`. -/
def Writer.finish (w : Writer) : List UInt8 :=
  w.dst ++ [UInt8.ofNat (w.accumulator &&& 0xFF), UInt8.ofNat ((w.accumulator >>> 8) &&& 0xFF)]

/-- What `NCrushFetchBits` reads from: the bytes behind `SrcPtr` and the bits that were fetched. -/
structure Reader where
  src : List UInt8
  nbits : ℤ
  bits : ℕ

/-- `NCrushFetchBits`; `none` for `FALSE`. -/
def Reader.fetchBits (r : Reader) : Option Reader :=
  if r.nbits < 16 then
    match r.src with
    | [] => if r.nbits < 0 then none else some r
    | [b] => some ⟨[], r.nbits + 8, (r.bits + b.toNat <<< r.nbits.toNat) % 2 ^ 32⟩
    | b :: b' :: rest =>
      some ⟨rest, r.nbits + 16,
        (r.bits + (b.toNat ||| b'.toNat <<< 8) <<< r.nbits.toNat % 2 ^ 32) % 2 ^ 32⟩
  else some r

def Reader.skip (r : Reader) (n : ℕ) : Option Reader :=
  { r with bits := r.bits >>> n, nbits := r.nbits - n }.fetchBits

/-- The mask of `n` bits of the receiver. -/
def maskOf (n : ℕ) : ℕ := getWord (fun i => huffTableMask.getD i 0) (2 * n + 3)

/-! ## The sender's chains -/

/-- `ncrush_hash_table_add`: every position but the last eight is put at the head of the chain of
its two bytes. -/
def hashTableAdd : List UInt8 → ℕ → Memory ℕ → Memory ℕ → Memory ℕ × Memory ℕ
  | a :: b :: rest, offset, hashTable, matchTable =>
    if (a :: b :: rest).length > 8 then
      let word := a.toNat ||| b.toNat <<< 8
      hashTableAdd (b :: rest) (offset + 1) (set hashTable word offset)
        (set matchTable offset (hashTable word))
    else (hashTable, matchTable)
  | _, _, hashTable, matchTable => (hashTable, matchTable)

/-- The loop of `ncrush_find_match_length`: where `Ptr1` ends. -/
def matchEnd (history : Memory UInt8) (historyPtr : ℕ) : ℕ → ℕ → ℕ → ℕ
  | 0, ptr1, _ => ptr1
  | fuel + 1, ptr1, ptr2 =>
    if ptr1 > historyPtr then ptr1
    else if history ptr1 = history ptr2 then matchEnd history historyPtr fuel (ptr1 + 1) (ptr2 + 1)
    else ptr1 + 1

def findMatchLength (history : Memory UInt8) (ptr1 ptr2 historyPtr : ℕ) : ℤ :=
  matchEnd history historyPtr (historyPtr + 1 - ptr1) ptr1 ptr2 - (ptr1 + 1)

/-- The probes of a round: the first of the next `n` offsets of the chain where the byte behind the
match so far is the right one, or else the offset after them. -/
def probe (fits : ℕ → Bool) (matchTable : Memory ℕ) : ℕ → ℕ → ℕ × Bool
  | 0, nextOffset => (nextOffset, false)
  | n + 1, nextOffset =>
    if fits nextOffset then (nextOffset, true) else probe fits matchTable n (matchTable nextOffset)

/-- The rounds of `ncrush_find_best_match`: the length and the offset of the match, or `none` for
-1. -/
def bestMatchLoop (history : Memory UInt8) (matchTable : Memory ℕ) (high historyOffset : ℕ) :
    ℕ → ℕ → ℕ → ℕ → Option (ℕ × ℕ)
  | 0, _, matchLength, matchOffset => some (matchLength, matchOffset)
  | n + 1, nextOffset, matchLength, matchOffset =>
    let fits (x : ℕ) : Bool := history (matchLength + x) = history (historyOffset + matchLength)
    match probe fits matchTable 6 nextOffset with
    | (nextOffset, false) =>
      bestMatchLoop history matchTable high historyOffset n nextOffset matchLength matchOffset
    | (offset, true) =>
      if offset ≠ historyOffset ∧ offset ≠ 0 then
        let length := findMatchLength history (historyOffset + 2) (offset + 2) high + 2
        if length < 2 then none
        else if length > 16 then some (matchLength, matchOffset)
        -- the match is now as long as the best one at least, so that the search goes on
        else if length > matchLength then
          bestMatchLoop history matchTable high historyOffset n (matchTable offset) length.toNat
            offset
        else
          bestMatchLoop history matchTable high historyOffset n (matchTable offset) matchLength
            matchOffset
      else some (matchLength, matchOffset)

/-- `ncrush_find_best_match`.  While it runs the chain leads from 0 back to the position itself. -/
def findBestMatch (history : Memory UInt8) (matchTable : Memory ℕ) (high historyOffset : ℕ) :
    Option (ℕ × ℕ) :=
  if matchTable historyOffset = 0 then none
  else bestMatchLoop history (set matchTable 0 historyOffset) high historyOffset 4
    (matchTable historyOffset) 2 (matchTable historyOffset)

/-- `ncrush_move_encoder_windows`: the last 32768 bytes come to the front. -/
def moveEncoderWindows (ncrush : Context) (historyPtr : ℕ) : Option Context :=
  if historyPtr < 32768 ∨ historyPtr > 65536 then none
  else
    let historyOffset := historyPtr - 32768
    some { ncrush with
      historyBuffer := ⟨fun j =>
        if j < 32768 then ncrush.historyBuffer (historyOffset + j) else ncrush.historyBuffer j⟩
      hashTable := ⟨fun i => ncrush.hashTable i - historyOffset⟩
      matchTable := ⟨fun j =>
        if j < 32768 then ncrush.matchTable (historyOffset + j) - historyOffset else 0⟩ }

/-! ## The sender -/

/-- Why `ncrush_compress` stops: the packet is sent as it is, or an error. -/
inductive Stop where
  | flush
  | error (status : ℤ)

/-- The variables of `ncrush_compress` that change while it runs. -/
structure Sending where
  offsetCache : Cache
  matchTable : Memory ℕ
  historyPtr : ℕ
  out : Writer

/-- Those that do not change; `high` is `ncrush->HistoryPtr`, the end of the packet, and `dstEnd`
the index of the last byte of the output. -/
structure Params where
  historyBuffer : Memory UInt8
  high : ℕ
  historyBufferSize : ℕ
  dstEnd : ℕ
  tables : Tables

/-- A symbol of the literal and offset code is written, unless its code is longer than `limit`. -/
def putLEC (limit : ℕ) (status : ℤ) (out : Writer) (indexLEC : ℕ) : Except Stop Writer :=
  if indexLEC ≥ 294 then .error (.error (-1))
  else if (codeLEC indexLEC).2 > limit then .error (.error status)
  else .ok (out.writeBits (codeLEC indexLEC).1 (codeLEC indexLEC).2)

/-- A length of match is written: the code of its class and the low bits. -/
def putLength (tables : Tables) (status : ℤ) (out : Writer) (matchLength : ℕ) :
    Except Stop Writer :=
  let indexCO := if matchLength - 2 ≥ 768 then 28 else tables.huffTableLOM.getD matchLength 0
  if indexCO ≥ 30 then .error (.error (-1))
  else
    let out := out.writeBits (codeLOM indexCO).1 (codeLOM indexCO).2
    let indexLOM := lomBits.getD indexCO 0
    let maskedBits := (matchLength - 2) &&& (2 ^ indexLOM - 1)
    let out := out.writeBits maskedBits indexLOM
    if maskedBits + lomBase.getD indexCO 0 ≠ matchLength then .error (.error status) else .ok out

/-- A copy offset that is not in the cache is written: the code of its class and the low bits. -/
def putOffset (tables : Tables) (out : Writer) (copyOffset : ℕ) : Except Stop Writer :=
  let copyOffsetIndex := tables.huffTableCopyOffset.getD (copyOffsetSlot copyOffset) 0
  if copyOffsetIndex ≥ 32 then .error (.error (-1))
  else
    let bits := copyOffsetBits.getD copyOffsetIndex 0
    (putLEC 15 (-1008) out (257 + copyOffsetIndex)).bind fun out =>
      if bits > 18 then .error (.error (-1009))
      else .ok (out.writeBits (copyOffset &&& (2 ^ bits - 1)) bits)

/-- A match is written, with its offset or with the place of the offset in the cache. -/
def putMatch (tables : Tables) (cache : Cache) (out : Writer) (copyOffset matchLength : ℕ) :
    Except Stop (Cache × Writer) :=
  match cache.find copyOffset with
  | some index =>
    (putLEC 14 (-1011) out (289 + index)).bind fun out =>
      (putLength tables (-1012) out matchLength).map fun out => (cache.swap index, out)
  | none =>
    (putOffset tables out copyOffset).bind fun out =>
      (putLength tables (-1010) out matchLength).map fun out => (cache.push copyOffset, out)

/-- The match that `ncrush_compress` takes at a position: its length and copy offset; length 0 for a
literal. -/
def chooseMatch (ps : Params) (st : Sending) : Except Stop (ℕ × ℕ) :=
  if st.historyPtr > ps.high then .error (.error (-1))
  else if st.historyPtr ≥ 65536 then .error (.error (-1004))
  else if st.matchTable st.historyPtr ≠ 0 then
    match findBestMatch ps.historyBuffer st.matchTable ps.high st.historyPtr with
    | none => .error (.error (-1005))
    | some (matchLength, matchOffset) =>
      let copyOffset := (((st.historyPtr : ℤ) - matchOffset) % ps.historyBufferSize).toNat
      if matchLength = 2 ∧ copyOffset ≥ 64 then .ok (0, copyOffset)
        else .ok (matchLength, copyOffset)
  else .ok (0, 0)

/-- The chains after the search, which has used cell 0. -/
def Sending.searched (st : Sending) : Memory ℕ :=
  if st.matchTable st.historyPtr ≠ 0 then set st.matchTable 0 0 else st.matchTable

/-- A literal is written, if there is room for it. -/
def putLiteral (ps : Params) (status : ℤ) (st : Sending) (literal : UInt8) : Except Stop Sending :=
  if st.out.dst.length + 2 > ps.dstEnd then .error .flush
  else
    (putLEC 15 status st.out literal.toNat).map fun out =>
      { st with historyPtr := st.historyPtr + 1, out := out }

/-- One round of the main loop of `ncrush_compress`, with what is left of the packet. -/
def compressStep (ps : Params) (st : Sending) (src : List UInt8) :
    Except Stop (Sending × List UInt8) :=
  match chooseMatch ps st, src with
  | .error stop, _ => .error stop
  | .ok (0, _), literal :: src =>
    (putLiteral ps (-1006) { st with matchTable := st.searched } literal).map
      fun st => (st, src)
  | .ok (matchLength, copyOffset), src =>
    if st.out.dst.length + 8 > ps.dstEnd then .error .flush
    else
      (putMatch ps.tables st.offsetCache st.out copyOffset matchLength).map fun (cache, out) =>
        (⟨cache, st.searched, st.historyPtr + matchLength, out⟩, src.drop matchLength)

/-- The loop that encodes the trailing bytes as literals. -/
def compressTail (ps : Params) : List UInt8 → Sending → Except Stop Sending
  | [], st => .ok st
  | literal :: src, st => (putLiteral ps (-1014) st literal).bind (compressTail ps src)

/-- The main loop of `ncrush_compress`, which runs while more than two bytes are left. -/
def compressLoop (ps : Params) : ℕ → List UInt8 → Sending → Except Stop Sending
  | 0, src, st => compressTail ps src st
  | fuel + 1, src, st =>
    if src.length > 2 then
      (compressStep ps st src).bind fun (st, src) =>
        if st.historyPtr ≥ 65536 then .error (.error (-1013)) else compressLoop ps fuel src st
    else compressTail ps src st

/-- The end of the stream is written, if there is room for it. -/
def compressEnd (ps : Params) (st : Sending) : Except Stop (List UInt8) :=
  if st.out.dst.length + 4 ≥ ps.dstEnd then .error .flush
  else (putLEC 15 (-1015) st.out 256).map Writer.finish

/-- The packet is encoded: the variables at the end and the output. -/
def encode (ps : Params) (src : List UInt8) (st : Sending) : Except Stop (Sending × List UInt8) :=
  (compressLoop ps src.length src st).bind fun st => (compressEnd ps st).map fun data => (st, data)

/-- How `ncrush_compress` makes room for a packet: the context and the flag that says so. -/
def makeRoom (ncrush : Context) (srcSize : ℕ) : Option (Context × ℕ) :=
  if srcSize + ncrush.historyOffset ≥ 65529 then
    if ncrush.historyOffset = ncrush.historyBufferSize + 1 then
      some ({ ncrush with historyOffset := 0, historyPtr := 0 }, packetFlushed)
    else
      (moveEncoderWindows ncrush ncrush.historyOffset).map fun ncrush =>
        ({ ncrush with historyOffset := 32768, historyPtr := 32768 }, packetAtFront)
  else some (ncrush, 0)

/-- The packet is put into the history and its positions into the chains. -/
def addPacket (ncrush : Context) (src : List UInt8) : Context :=
  let chains := hashTableAdd src ncrush.historyOffset ncrush.hashTable ncrush.matchTable
  { ncrush with
    hashTable := chains.1
    matchTable := chains.2
    historyBuffer := write ncrush.historyBuffer ncrush.historyOffset src
    historyPtr := ncrush.historyOffset + src.length }

/-- The end of `ncrush_compress`.  After an error the context is not used again; it is returned as
it was when the packet was added. -/
def sent (ncrush : Context) (src : List UInt8) (front : ℕ) :
    Except Stop (Sending × List UInt8) → Compressed Context
  | .error .flush => ⟨1, src, packetFlushed ||| 2, contextReset ncrush true⟩
  | .error (.error status) => ⟨status, [], 0, ncrush⟩
  | .ok (st, data) =>
    if data.length > src.length then ⟨-1016, [], 0, ncrush⟩
    else if st.historyPtr ≥ ncrush.historyBufferSize then ⟨-1, [], 0, ncrush⟩
    else
      { status := 1
        data := data
        flags := packetCompressed ||| 2 ||| front
        context :=
          { ncrush with
            offsetCache := st.offsetCache
            matchTable := st.matchTable
            historyOffset := st.historyPtr } }

/-- `ncrush_compress` into a buffer of `dstSize` bytes. -/
def compress (ncrush : Context) (src : List UInt8) (dstSize : ℕ) : Compressed Context :=
  match makeRoom ncrush src.length with
  | none => ⟨-1001, [], 0, ncrush⟩
  | some (ncrush, front) =>
    if dstSize < src.length then ⟨-1003, [], 0, ncrush⟩
    else
      let added := addPacket ncrush src
      sent added src front
        (encode ⟨added.historyBuffer, added.historyPtr, added.historyBufferSize, src.length - 1,
          added.tables⟩ src ⟨added.offsetCache, added.matchTable, added.historyOffset, ⟨[], 0, 0⟩⟩)

/-! ## The receiver -/

/-- A length of match is read: the code of its class and the low bits. -/
def readLength (r : Reader) : Option (ℕ × Reader) :=
  let maskedBits := r.bits &&& maskOf 9
  if maskedBits ≥ 512 then none
  else
    let lengthOfMatch := huffTableLOM maskedBits &&& 0xFFF
    (r.skip (huffTableLOM maskedBits >>> 12)).bind fun r =>
      if lengthOfMatch ≥ 30 then none
      else
        let bits := lomBits.getD lengthOfMatch 0
        if bits ≠ 0 then
          if 2 * bits + 3 ≥ 39 then none
          else (r.skip bits).map fun r' =>
            (lomBase.getD lengthOfMatch 0 + (r.bits &&& maskOf bits), r')
        else some (lomBase.getD lengthOfMatch 0, r)

def readOffset (r : Reader) (copyOffsetIndex : ℕ) : Option (ℕ × Reader) :=
  let bits := copyOffsetBits.getD copyOffsetIndex 0
  let base := copyOffsetBase.getD copyOffsetIndex 0
  if bits ≠ 0 then
    if 2 * bits + 3 ≥ 39 then none
    else if base + (r.bits &&& maskOf bits) < 1 then none
    else (r.skip bits).map fun r' => (base + (r.bits &&& maskOf bits) - 1, r')
  else some (base - 1, r)

/-- The variables of `ncrush_decompress` that change while it runs. -/
structure Receiving where
  historyBuffer : Memory UInt8
  historyPtr : ℕ
  offsetCache : Cache
  input : Reader

/-- How a round of `ncrush_decompress` ends. -/
inductive Next where
  | more
  | done
  | failed (status : ℤ)

/-- The loop that repeats the `copyOffset` bytes from cell `base` on. -/
def copyCyclic (base copyOffset : ℕ) : ℕ → Memory UInt8 → ℕ → ℕ → Memory UInt8
  | 0, history, _, _ => history
  | n + 1, history, historyPtr, index =>
    let index := if index ≥ copyOffset then 0 else index
    copyCyclic base copyOffset n (set history historyPtr (history (base + index))) (historyPtr + 1)
      (index + 1)

/-- The bytes of a match are copied; a match that starts in front of the history is taken from its
end. -/
def copyMatch (history : Memory UInt8) (historyEnd historyPtr copyOffset lengthOfMatch : ℕ) :
    Memory UInt8 × ℕ :=
  let copyLength := if lengthOfMatch > copyOffset then copyOffset else lengthOfMatch
  if copyOffset ≤ historyPtr then
    let history := copy history historyPtr (historyPtr - copyOffset) copyLength
    (copyCyclic (historyPtr - copyOffset + copyLength) copyOffset
      (lengthOfMatch - copyOffset) history
      (historyPtr + copyLength) 0, historyPtr + copyLength + (lengthOfMatch - copyOffset))
  else
    let copyOffsetPtr := historyEnd - (copyOffset - historyPtr) + 1
    let copyLength := min copyLength (historyEnd + 1 - copyOffsetPtr)
    let history := copy history historyPtr copyOffsetPtr copyLength
    (copyCyclic 0 copyOffset (lengthOfMatch - copyOffset) history (historyPtr + copyLength) 0,
      historyPtr + copyLength + (lengthOfMatch - copyOffset))

/-- The match branch of `ncrush_decompress` once the offset and the length are known. -/
def decompressCopy (historyEnd : ℕ) (st : Receiving) (copyOffset lengthOfMatch : ℕ) :
    Next × Receiving :=
  let copyOffsetPtr := (((st.historyPtr : ℤ) - copyOffset) % 65536).toNat
  if lengthOfMatch < 2 then (.failed (-1005), st)
  else if copyOffsetPtr + lengthOfMatch ≥ historyEnd ∨
    st.historyPtr + lengthOfMatch ≥ historyEnd then
    (.failed (-1006), st)
  else
    let copied := copyMatch st.historyBuffer historyEnd st.historyPtr copyOffset lengthOfMatch
    (.more, { st with historyBuffer := copied.1, historyPtr := copied.2 })

/-- The match branch of `ncrush_decompress` for a symbol above the end of the stream. -/
def decompressMatch (historyEnd : ℕ) (st : Receiving) (indexLEC : ℕ) : Next × Receiving :=
  if indexLEC - 257 ≥ 32 then
    if indexLEC - 289 ≥ 4 then (.failed (-1004), st)
    else
      match readLength st.input with
      | none => (.failed (-1), st)
      | some (lengthOfMatch, r) =>
        decompressCopy historyEnd
          { st with offsetCache := st.offsetCache.swap (indexLEC - 289), input := r }
          (st.offsetCache.get (indexLEC - 289)) lengthOfMatch
  else
    match readOffset st.input (indexLEC - 257) with
    | none => (.failed (-1), st)
    | some (copyOffset, r) =>
      match readLength r with
      | none => (.failed (-1), st)
      | some (lengthOfMatch, r) =>
        decompressCopy historyEnd
          { st with offsetCache := st.offsetCache.push copyOffset, input := r } copyOffset
          lengthOfMatch

/-- One round of the loops of `ncrush_decompress`. -/
def decompressStep (historyEnd : ℕ) (st : Receiving) : Next × Receiving :=
  let maskedBits := st.input.bits &&& maskOf 13
  if maskedBits ≥ 8192 then (.failed (-1), st)
  else
    let indexLEC := huffTableLEC maskedBits &&& 0xFFF
    match st.input.skip (huffTableLEC maskedBits >>> 12) with
    | none => (.failed (-1), st)
    | some r =>
      let st := { st with input := r }
      if indexLEC < 256 then
        if st.historyPtr ≥ historyEnd then (.failed (-1003), st)
        else
          let literal := UInt8.ofNat (huffTableLEC maskedBits &&& 0xFF)
          (.more, { st with
            historyBuffer := set st.historyBuffer st.historyPtr literal
            historyPtr := st.historyPtr + 1 })
      else if indexLEC = 256 then (.done, st)
      else decompressMatch historyEnd st indexLEC

/-- The loops of `ncrush_decompress`: the status and the variables. -/
def decompressLoop (historyEnd : ℕ) : ℕ → Receiving → ℤ × Receiving
  | 0, st => (-1, st)
  | fuel + 1, st =>
    match decompressStep historyEnd st with
    | (.more, st) => decompressLoop historyEnd fuel st
    | (.done, st) => (1, st)
    | (.failed status, st) => (status, st)

/-- What `PACKET_AT_FRONT` makes `ncrush_decompress` do to its history. -/
def movedToFront (ncrush : Context) : Context :=
  { ncrush with
    historyBuffer := ⟨fun j =>
      if j < 32768 then ncrush.historyBuffer (ncrush.historyPtr - 32768 + j)
      else if j < 65536 then 0 else ncrush.historyBuffer j⟩
    historyPtr := 32768 }

/-- What `PACKET_FLUSHED` makes `ncrush_decompress` do to its history. -/
def flushed (ncrush : Context) : Context :=
  { ncrush with
    historyPtr := 0
    historyBuffer := ⟨fun j => if j < 65536 then 0 else ncrush.historyBuffer j⟩
    offsetCache := ⟨0, 0, 0, 0⟩ }

/-- What the flags make `ncrush_decompress` do; `none` for -1002. -/
def opened (ncrush : Context) (flags : ℕ) : Option Context :=
  if hasFlag flags packetAtFront ∧ ncrush.historyPtr ≤ 32768 then none
  else
    let ncrush := if hasFlag flags packetAtFront then movedToFront ncrush else ncrush
    some (if hasFlag flags packetFlushed then flushed ncrush else ncrush)

/-- The loops of `ncrush_decompress` over the bits of a packet, of which the first 32 are fetched at
once.  Every code has a bit at least. -/
def receive (ncrush : Context) (src : List UInt8) : ℤ × Receiving :=
  decompressLoop ncrush.historyEndOffset (8 * src.length + 1)
    ⟨ncrush.historyBuffer, ncrush.historyPtr, ncrush.offsetCache,
      ⟨src.drop 4, 32, bytesNat (src.take 4)⟩⟩

/-- The end of `ncrush_decompress`: an error leaves the write index as it was. -/
def received (ncrush : Context) (result : ℤ × Receiving) : Decompressed Context :=
  let after :=
    { ncrush with
      historyBuffer := result.2.historyBuffer
      offsetCache := result.2.offsetCache }
  if result.1 < 0 then ⟨result.1, [], after⟩
  else if ncrush.historyBufferFence ≠ 0xABABABAB then ⟨-1007, [], after⟩
  else
    { status := 1
      data := read result.2.historyBuffer ncrush.historyPtr
        (result.2.historyPtr - ncrush.historyPtr)
      context := { after with historyPtr := result.2.historyPtr } }

/-- `ncrush_decompress`. -/
def decompress (ncrush : Context) (src : List UInt8) (flags : ℕ) : Decompressed Context :=
  if ncrush.historyEndOffset ≠ 65535 then ⟨-1001, [], ncrush⟩
  else
    match opened ncrush flags with
    | none => ⟨-1002, [], ncrush⟩
    | some ncrush =>
      if ¬ hasFlag flags packetCompressed then ⟨1, src, ncrush⟩
      else if src.length < 4 then ⟨-1, [], ncrush⟩
      else received ncrush (receive ncrush src)

end WBFreeRDP.Ncrush

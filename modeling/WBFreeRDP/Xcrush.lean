/-
# The XCRUSH compressor

`xcrush.c`: RDP 6.1 bulk compression.  Level 1 cuts a packet into chunks at positions that depend on
its content, looks every chunk up in a table of hash values over a history of two million bytes,
extends what it finds in both directions and replaces it by match details.  Level 2 is MPPC over
what level 1 has left.

Pointers into a buffer are indices.  The signatures and the two lists of matches are filled and used
by one call and are local here.  Behind the history of a context stands its block buffer, so that an
index behind the history reads from there.
-/
import WBFreeRDP.ByteOrder
import WBFreeRDP.Mppc

namespace WBFreeRDP.Xcrush

open Bulk History

/-! ## Contexts -/

/-- `L1_COMPRESSED`. -/
def l1Compressed : ℕ := 0x01
/-- `L1_NO_COMPRESSION`. -/
def l1NoCompression : ℕ := 0x02
/-- `L1_PACKET_AT_FRONT`. -/
def l1PacketAtFront : ℕ := 0x04
def l1InnerCompression : ℕ := 0x10

/-- An `XCRUSH_MATCH_INFO`. -/
structure MatchInfo where
  matchOffset : ℕ
  chunkOffset : ℕ
  matchLength : ℕ
  deriving DecidableEq, Repr

/-- An `XCRUSH_SIGNATURE`. -/
structure Signature where
  seed : ℕ
  size : ℕ
  deriving DecidableEq, Repr

/-- The chunk tables of a context: the two fields of the `Chunks`, and `NextChunks`, which has the
newest chunk of every seed.  Chunk `0` stands for none. -/
structure Chunks where
  chunkHead : ℕ
  chunkTail : ℕ
  offset : Memory ℕ
  next : Memory ℕ
  nextChunks : Memory ℕ

/-- An `XCRUSH_CONTEXT`. -/
structure Context where
  mppc : Mppc.Context
  historyOffset : ℕ
  historyBufferSize : ℕ
  historyBuffer : Memory UInt8
  blockBuffer : Memory UInt8
  compressionFlags : ℕ
  chunks : Chunks

def Chunks.empty : Chunks := ⟨1, 1, fill 0, fill 0, fill 0⟩

def contextReset (xcrush : Context) (flush : Bool) : Context :=
  { xcrush with
    compressionFlags := 0
    chunks := .empty
    historyOffset := if flush then xcrush.historyBufferSize + 1 else 0
    mppc := Mppc.contextReset xcrush.mppc flush }

/-- `xcrush_context_new`. -/
def contextNew : Context :=
  contextReset
    { mppc := Mppc.contextNew 1
      historyOffset := 0
      historyBufferSize := 2000000
      historyBuffer := fill 0
      blockBuffer := fill 0
      compressionFlags := 0
      chunks := .empty } false

/-- What a read from the history buffer sees: behind the history stands the block buffer. -/
def Context.memory (xcrush : Context) : Memory UInt8 :=
  ⟨fun i => if i < xcrush.historyBufferSize then xcrush.historyBuffer i
    else xcrush.blockBuffer (i - xcrush.historyBufferSize)⟩

/-! ## Signatures -/

/-- The loop of `xcrush_update_hash`, which stops four bytes before the end. -/
def updateHashLoop : List UInt8 → ℕ → ℕ
  | b0 :: b1 :: _ :: b3 :: b4 :: rest, seed =>
    updateHashLoop (b4 :: rest) ((seed + ((b3 ^^^ b0).toNat + b1.toNat <<< 8)) % 2 ^ 16)
  | _, seed => seed

/-- `xcrush_update_hash`. -/
def updateHash (data : List UInt8) : ℕ :=
  if data.length > 32 then updateHashLoop (data.take 32) 5413 else updateHashLoop data 5381

/-- The variables of `xcrush_compute_chunks`: the accumulator, the signatures and the start of the
current chunk. -/
structure Chunking where
  accumulator : BitVec 32
  signatures : List Signature
  offset : ℕ

/-- `xcrush_append_chunk`; `none` for a return value of `0`. -/
def appendChunk (data : List UInt8) (st : Chunking) (stop : ℕ) : Option Chunking :=
  if st.signatures.length ≥ 1000 then none
  else
    let size := stop - st.offset
    if size > 65535 then none
    else if size ≥ 15 then
      let seed := updateHash ((data.drop st.offset).take size)
      some { st with signatures := st.signatures ++ [⟨seed, size⟩], offset := stop }
    else some st

/-- One byte of the loop of `xcrush_compute_chunks`. -/
def chunkStep (data : List UInt8) (i : ℕ) (st : Chunking) : Option Chunking :=
  let accumulator := (data.getD (i + 32) 0).toBitVec.setWidth 32 ^^^
    (data.getD i 0).toBitVec.setWidth 32 ^^^ st.accumulator.rotateLeft 1
  let st := { st with accumulator := accumulator }
  if accumulator &&& 0x7F = 0 then appendChunk data st (i + 32) else some st

/-- The loop of `xcrush_compute_chunks`, four bytes at a time. -/
def computeChunksLoop (data : List UInt8) : ℕ → ℕ → Chunking → Option Chunking
  | 0, _, st => some st
  | fuel + 1, i, st =>
    if i < data.length - 64 then
      (chunkStep data i st).bind fun st =>
        (chunkStep data (i + 1) st).bind fun st =>
          (chunkStep data (i + 2) st).bind fun st =>
            (chunkStep data (i + 3) st).bind fun st => computeChunksLoop data fuel (i + 4) st
    else some st

/-- `xcrush_compute_chunks`; `none` for a return value of `0`. -/
def computeChunks (data : List UInt8) : Option (List Signature) :=
  if data.length < 128 then none
  else
    let accumulator := (data.take 32).foldl
      (fun accumulator b => b.toBitVec.setWidth 32 ^^^ accumulator.rotateLeft 1) (0 : BitVec 32)
    (computeChunksLoop data data.length 0 ⟨accumulator, [], 0⟩).bind fun st =>
      if data.length = st.offset then some st.signatures
      else (appendChunk data st data.length).map Chunking.signatures

def computeSignatures (data : List UInt8) : List Signature := (computeChunks data).getD []

/-! ## Chunk tables -/

def clearRange (m : Memory ℕ) (first last : ℕ) : Memory ℕ :=
  ⟨fun i => if first ≤ m i ∧ m i ≤ last then 0 else m i⟩

def clearHashTableRange (t : Chunks) (first last : ℕ) : Chunks :=
  { t with nextChunks := clearRange t.nextChunks first last, next := clearRange t.next first last }

/-- The first part of `xcrush_insert_chunk`: start over when the table is full, and forget the
entries of the next ten thousand chunks. -/
def makeRoom (t : Chunks) : Chunks :=
  let t := if t.chunkHead ≥ 65530 then { t with chunkHead := 1, chunkTail := 1 } else t
  if t.chunkHead ≥ t.chunkTail then
    { clearHashTableRange t t.chunkTail (t.chunkTail + 10000) with
      chunkTail := t.chunkTail + 10000 }
  else t

/-- `xcrush_insert_chunk`: the previous chunk of the seed, which stays what it was when there is
none. -/
def insertChunk (t : Chunks) (seed offset : ℕ) (prevChunk : Option ℕ) :
    Except ℤ (Option ℕ) × Chunks :=
  let t := makeRoom t
  let index := t.chunkHead
  let t := { t with chunkHead := index + 1 }
  if t.chunkHead ≥ 65534 then (.error (-3001), t)
  else
    let t := { t with offset := set t.offset index offset }
    let previous := t.nextChunks seed
    if previous ≠ 0 ∧ previous ≥ 65534 then (.error (-3003), t)
    else
      (.ok (if previous ≠ 0 then some previous else prevChunk),
        { t with next := set t.next index previous, nextChunks := set t.nextChunks seed index })

/-- `xcrush_find_next_matching_chunk`.  The index of the chunk is divided by the size of an entry
once more. -/
def findNextMatchingChunk (t : Chunks) (chunk : ℕ) : Except ℤ (Option ℕ) :=
  if t.next chunk ≠ 0 then
    let index := chunk / 8
    if index ≥ 65534 then .error (-4002)
    else if index < t.chunkHead ∨ t.next chunk ≥ t.chunkHead then
      if t.next chunk ≥ 65534 then .error (-4003) else .ok (some (t.next chunk))
    else .ok none
  else .ok none

/-! ## Matches -/

/-- The loop that extends a match forwards; `n` bytes of the packet are left. -/
def forwardMatchLength (h : Memory UInt8) : ℕ → ℕ → ℕ → ℕ
  | 0, _, _ => 0
  | n + 1, i, j => if h i ≠ h j then 0 else forwardMatchLength h n (i + 1) (j + 1) + 1

/-- The loop that extends a match backwards: it stops behind the first byte of the packet, and
behind the first byte of the history. -/
def reverseMatchLength (h : Memory UInt8) (historyOffset : ℕ) : ℕ → ℕ → ℕ
  | i + 1, j + 1 =>
    if i > historyOffset ∧ j > 0 ∧ h i = h j then reverseMatchLength h historyOffset i j + 1 else 0
  | _, _ => 0

/-- `xcrush_find_match_length`: the status and, when it is positive, the match.  The checks that
compare a pointer with the start of the buffer cannot fail. -/
def findMatchLength (h : Memory UInt8)
    (historyBufferSize matchOffset chunkOffset historyOffset srcSize
    maxMatchLength : ℕ) : ℤ × MatchInfo :=
  let historyBufferEnd := historyOffset + srcSize
  if matchOffset > historyBufferSize then (-2001, ⟨0, 0, 0⟩)
  else if chunkOffset > historyBufferSize then (-2002, ⟨0, 0, 0⟩)
  else if matchOffset = chunkOffset then (-2003, ⟨0, 0, 0⟩)
  else if matchOffset + maxMatchLength + 1 < historyBufferEnd ∧
      h (matchOffset + maxMatchLength + 1) ≠ h (chunkOffset + maxMatchLength + 1) then
    (0, ⟨0, 0, 0⟩)
  else
    let forward := forwardMatchLength h (historyBufferEnd - matchOffset) matchOffset chunkOffset
    let reverse := reverseMatchLength h historyOffset matchOffset chunkOffset
    if reverse + forward < 11 then (0, ⟨0, 0, 0⟩)
    else (reverse + forward, ⟨matchOffset - reverse, chunkOffset - reverse, reverse + forward⟩)

/-- What a search for matches does not change: the memory, the size of the history, and where the
packet is. -/
structure Packet where
  memory : Memory UInt8
  historyBufferSize : ℕ
  historyOffset : ℕ
  srcSize : ℕ

/-- One chunk of a chain: the longest match so far, and whether it is long enough to stop. -/
def probeChunk (p : Packet) (offset chunkOffset : ℕ) (best : MatchInfo) :
    Except ℤ (MatchInfo × Bool) :=
  if chunkOffset < p.historyOffset ∨ chunkOffset < offset ∨
      chunkOffset > p.srcSize + p.historyOffset then
    let (status, info) := findMatchLength p.memory p.historyBufferSize offset chunkOffset
      p.historyOffset p.srcSize best.matchLength
    if status < 0 then .error status
    else if status.toNat > best.matchLength then .ok (info, decide (status.toNat > 256))
    else .ok (best, false)
  else .ok (best, false)

/-- The loop along the chunks of a chain; `fuel` is the number of chunks after this one. -/
def chainLoop (p : Packet) (t : Chunks) (offset : ℕ) :
    ℕ → Option ℕ → MatchInfo → Except ℤ (Option ℕ × MatchInfo)
  | _, none, best => .ok (none, best)
  | fuel, some chunk, best =>
    match probeChunk p offset (t.offset chunk) best with
    | .error status => .error status
    | .ok (best, true) => .ok (some chunk, best)
    | .ok (best, false) =>
      match fuel with
      | 0 => .ok (some chunk, best)
      | fuel + 1 =>
        match findNextMatchingChunk t chunk with
        | .error status => .error status
        | .ok chunk => chainLoop p t offset fuel chunk best

/-- The variables of `xcrush_find_all_matches`.  The chunk stays what it was when a seed is new. -/
structure Search where
  chunks : Chunks
  chunk : Option ℕ
  srcOffset : ℕ
  prevMatchEnd : ℕ
  originalMatches : List MatchInfo

/-- Take a match into the list: the status is `0` or an error. -/
def addMatch (p : Packet) (s : Search) (best : MatchInfo) : ℤ × Search :=
  if best.matchLength ≠ 0 then
    let s := { s with originalMatches := s.originalMatches ++ [best] }
    if best.matchOffset < p.historyOffset then (-1002, s)
    else
      let s := { s with prevMatchEnd := best.matchLength + best.matchOffset }
      if s.originalMatches.length ≥ 1000 then (-1003, s) else (0, s)
  else (0, s)

/-- The search for one signature: the status is `0` or an error. -/
def searchSignature (p : Packet) (signature : Signature) (s : Search) : ℤ × Search :=
  let offset := s.srcOffset + p.historyOffset
  match insertChunk s.chunks signature.seed offset s.chunk with
  | (.error status, chunks) => (status, { s with chunks := chunks })
  | (.ok chunk, chunks) =>
    let s := { s with chunks := chunks, chunk := chunk }
    if chunk.isSome ∧ s.srcOffset + p.historyOffset + signature.size ≥ s.prevMatchEnd then
      match chainLoop p chunks offset 5 chunk ⟨0, 0, 0⟩ with
      | .error status => (status, s)
      | .ok (chunk, best) => addMatch p { s with chunk := chunk } best
    else (0, s)

/-- The loop of `xcrush_find_all_matches`: the status is `0` or an error. -/
def findAllMatchesLoop (p : Packet) : List Signature → Search → ℤ × Search
  | [], s => (0, s)
  | signature :: signatures, s =>
    if signature.size = 0 then (-1001, s)
    else
      let (status, s) := searchSignature p signature s
      if status < 0 then (status, s)
      else
        let s := { s with srcOffset := s.srcOffset + signature.size }
        if s.srcOffset > p.srcSize then (-1004, s) else findAllMatchesLoop p signatures s

/-- `xcrush_find_all_matches`: the number of matches or an error, the tables and the matches. -/
def findAllMatches (p : Packet) (t : Chunks) (signatures : List Signature) :
    ℤ × Chunks × List MatchInfo :=
  let (status, s) := findAllMatchesLoop p signatures ⟨t, none, 0, 0, []⟩
  if status < 0 then (status, s.chunks, s.originalMatches)
  else if s.srcOffset > p.srcSize then (-1005, s.chunks, s.originalMatches)
  else (s.originalMatches.length, s.chunks, s.originalMatches)

/-- The loop of `xcrush_optimize_matches`: the matches that are kept, without what they share with
the one before. -/
def optimizeMatchesLoop : ℕ → List MatchInfo → Except ℤ (List MatchInfo)
  | _, [] => .ok []
  | prevMatchEnd, m :: ms =>
    if m.matchOffset ≤ prevMatchEnd then
      if m.matchOffset < prevMatchEnd ∧ m.matchLength + m.matchOffset > prevMatchEnd + 6 then
        let matchDiff := prevMatchEnd - m.matchOffset
        if m.matchLength ≤ matchDiff then .error (-5001)
        else if matchDiff ≥ 20000 then .error (-5002)
        else
          let m : MatchInfo :=
            ⟨m.matchOffset + matchDiff, m.chunkOffset + matchDiff, m.matchLength - matchDiff⟩
          (optimizeMatchesLoop (m.matchLength + m.matchOffset) ms).map (m :: ·)
      else optimizeMatchesLoop prevMatchEnd ms
    else (optimizeMatchesLoop (m.matchLength + m.matchOffset) ms).map (m :: ·)

/-- A `UINT32` as an `int`. -/
def toInt (n : ℕ) : ℤ := if n % 2 ^ 32 < 2 ^ 31 then (n % 2 ^ 32 : ℕ) else (n % 2 ^ 32 : ℕ) - 2 ^ 32

/-- `xcrush_optimize_matches`: the total length or an error, and the matches. -/
def optimizeMatches (ms : List MatchInfo) : ℤ × List MatchInfo :=
  match optimizeMatchesLoop 0 ms with
  | .error status => (status, [])
  | .ok optimized => (toInt (optimized.map MatchInfo.matchLength).sum, optimized)

/-! ## Output -/

/-- The bytes of an `RDP61_MATCH_DETAILS`. -/
def matchDetails (historyOffset : ℕ) (m : MatchInfo) : List UInt8 :=
  leBytes 2 m.matchLength ++ leBytes 2 (m.matchOffset - historyOffset) ++ leBytes 4 m.chunkOffset

/-- The loop that copies the literals between the matches: the status is `0` or an error; then the
buffer, the position in it and the position in the history. -/
def literalsLoop (h : Memory UInt8) (outputSize : ℕ) :
    List MatchInfo → Memory UInt8 → ℕ → ℕ → ℤ × Memory UInt8 × ℕ × ℕ
  | [], output, literals, currentOffset => (0, output, literals, currentOffset)
  | m :: ms, output, literals, currentOffset =>
    let matchLength := m.matchLength % 2 ^ 16
    if m.matchOffset ≤ currentOffset then
      if m.matchOffset ≠ currentOffset then (-6003, output, literals, currentOffset)
      else literalsLoop h outputSize ms output literals (m.matchOffset + matchLength)
    else
      let matchOffsetDiff := m.matchOffset - currentOffset
      if literals + m.matchOffset - currentOffset ≥ outputSize then
        (-6004, output, literals, currentOffset)
      else
        let output := write output literals (read h currentOffset matchOffsetDiff)
        if literals ≥ outputSize then (-6005, output, literals, currentOffset)
        else
          literalsLoop h outputSize ms output (literals + matchOffsetDiff)
            (m.matchOffset + matchLength)

/-- `xcrush_generate_output`: the status, the output buffer and the size of the output.  The packet
is in the history `h` from `historyOffset` to `historyEnd`. -/
def generateOutput (h output : Memory UInt8) (outputSize historyOffset historyEnd : ℕ)
    (ms : List MatchInfo) : ℤ × Memory UInt8 × ℕ :=
  if 2 ≥ outputSize then (-6001, output, 0)
  else
    let output := write output 0 (leBytes 2 ms.length)
    let literals := 2 + 8 * ms.length
    if literals > outputSize then (-6002, output, 0)
    else
      let output := write output 2 (ms.flatMap (matchDetails historyOffset))
      let (status, output, literals, currentOffset) :=
        literalsLoop h outputSize ms output literals historyOffset
      if status < 0 then (status, output, 0)
      else
        let historyOffsetDiff := (historyEnd + 2 ^ 32 - currentOffset) % 2 ^ 32
        if literals + historyOffsetDiff ≥ outputSize then (-6006, output, 0)
        else
          (1, write output literals (read h currentOffset historyOffsetDiff),
            literals + historyOffsetDiff)

/-! ## The sender -/

/-- What `xcrush_compress_l1` returns: the status, the flags, the data and the context. -/
structure Level1 where
  status : ℤ
  flags : ℕ
  data : List UInt8
  context : Context

/-- The part of `xcrush_compress_l1` that looks for matches, when there are signatures.  The packet
is in the history already, and `flags` are the ones so far. -/
def compressMatches (xcrush : Context) (src : List UInt8) (historyOffset flags : ℕ)
    (signatures : List Signature) : Level1 :=
  let p : Packet := ⟨xcrush.memory, xcrush.historyBufferSize, historyOffset, src.length⟩
  let (status, chunks, originalMatches) := findAllMatches p xcrush.chunks signatures
  let xcrush := { xcrush with chunks := chunks }
  if status < 0 then ⟨status, flags, [], xcrush⟩
  else
    let (status, optimizedMatches) :=
      if originalMatches ≠ [] then optimizeMatches originalMatches else (0, [])
    if status < 0 then ⟨status, flags, [], xcrush⟩
    else if optimizedMatches ≠ [] then
      let (status, blockBuffer, dstSize) := generateOutput xcrush.historyBuffer xcrush.blockBuffer
        src.length historyOffset xcrush.historyOffset optimizedMatches
      let xcrush := { xcrush with blockBuffer := blockBuffer }
      if status < 0 then ⟨status, flags, [], xcrush⟩
      else ⟨1, flags ||| l1Compressed, read blockBuffer 0 dstSize, xcrush⟩
    else ⟨1, flags ||| l1NoCompression, src, xcrush⟩

/-- `xcrush_compress_l1`. -/
def compressL1 (xcrush : Context) (src : List UInt8) : Level1 :=
  let wrap := xcrush.historyOffset + src.length + 8 > xcrush.historyBufferSize
  let historyOffset := if wrap then 0 else xcrush.historyOffset
  let flags := if wrap then l1PacketAtFront else 0
  let xcrush := { xcrush with
    historyBuffer := write xcrush.historyBuffer historyOffset src
    historyOffset := historyOffset + src.length }
  let signatures := if src.length > 50 then computeSignatures src else []
  if signatures ≠ [] then compressMatches xcrush src historyOffset flags signatures
  else ⟨1, flags ||| l1NoCompression, src, xcrush⟩

/-- What level 2 leaves: the status, the flags, `DstSize`, the data and the MPPC context. -/
structure Level2 where
  status : ℤ
  flags : ℕ
  dstSize : ℕ
  data : List UInt8
  mppc : Mppc.Context

/-- Level 2 of `xcrush_compress`, which is left out for short data. -/
def level2 (mppc : Mppc.Context) (srcSize : ℕ) (data dst : List UInt8) : Level2 :=
  if data.length > 50 then
    let c := Mppc.compress mppc data ((dst.drop 2).take (srcSize - 2))
    ⟨c.status, c.flags, c.data.length, c.data, c.context⟩
  else ⟨0, 0, srcSize - 2, [], mppc⟩

/-- The part of `xcrush_compress` behind level 2. -/
def finishCompress (xcrush : Context) (src dst : List UInt8) (level1Flags : ℕ) (data : List UInt8)
    (l2 : Level2) : Compressed Context :=
  if l2.status < 0 then ⟨l2.status, [], 0, xcrush⟩
  else
    let raw := l2.status = 0 ∨ hasFlag l2.flags packetFlushed
    if raw ∧ data.length > l2.dstSize then ⟨1, src, 0, contextReset xcrush true⟩
    else
      let output := if raw then data else l2.data
      let level2Flags :=
        if hasFlag l2.flags packetCompressed then l2.flags ||| xcrush.compressionFlags else l2.flags
      let xcrush :=
        { xcrush with
          compressionFlags :=
            if hasFlag l2.flags packetCompressed then 0
            else if hasFlag l2.flags packetFlushed then packetFlushed
            else xcrush.compressionFlags }
      if dst.length < output.length + 2 then ⟨-1006, [], 0, xcrush⟩
      else
        { status := 1
          data := UInt8.ofNat (level1Flags ||| l1InnerCompression) ::
            UInt8.ofNat level2Flags :: output
          flags := packetCompressed ||| 3
          context := xcrush }

/-- `xcrush_compress` into a buffer, whose length is the capacity the caller passes. -/
def compress (xcrush : Context) (src dst : List UInt8) : Compressed Context :=
  if src.length > 16384 then ⟨-1001, [], 0, xcrush⟩
  else if src.length + 2 > dst.length then ⟨-1002, [], 0, xcrush⟩
  else
    let l1 := compressL1 xcrush src
    if l1.status < 0 then ⟨l1.status, [], 0, l1.context⟩
    else if hasFlag l1.flags l1Compressed ∧ l1.data.length > src.length then
      ⟨-1003, [], 0, l1.context⟩
    else if ¬ hasFlag l1.flags l1Compressed ∧ l1.data.length ≠ src.length then
      ⟨-1004, [], 0, l1.context⟩
    else
      let l2 := level2 l1.context.mppc src.length l1.data dst
      finishCompress { l1.context with mppc := l2.mppc } src dst l1.flags l1.data l2

/-! ## The receiver -/

/-- `memcpy` inside the history. -/
def memcpy (h : Memory UInt8) (dst src num : ℕ) : Memory UInt8 := write h dst (read h src num)

/-- The loop of `xcrush_copy_bytes_no_overlap` over the pieces of `diff` bytes. -/
def copyPieces (diff : ℕ) : ℕ → Memory UInt8 → ℕ → ℕ → Memory UInt8
  | 0, h, _, _ => h
  | pieces + 1, h, dst, src =>
      copyPieces diff pieces (memcpy h dst src diff) (dst + diff) (src + diff)

def copyBytesNoOverlap (h : Memory UInt8) (dst src num : ℕ) : Memory UInt8 :=
  let diff := if dst > src then dst - src else src - dst
  let rest := if diff ≠ 0 then num % diff else 0
  let stop := num - rest
  let h := copyPieces diff (stop / diff) h dst src
  if rest ≠ 0 then memcpy h (dst + stop) (src + stop) rest else h

/-- `xcrush_copy_bytes` inside the history. -/
def copyBytes (h : Memory UInt8) (dst src num : ℕ) : Memory UInt8 :=
  if src + num < dst ∨ src > dst + num then memcpy h dst src num
  else if src ≠ dst then copyBytesNoOverlap h dst src num
  else h

/-- The variables of `xcrush_decompress_l1`; `literals` are the bytes up to the end of the input. -/
structure Receiving where
  historyBuffer : Memory UInt8
  historyPtr : ℕ
  literals : List UInt8
  outputOffset : ℕ

/-- One round of the loop of `xcrush_decompress_l1`: the status is `0` or an error. -/
def decompressMatch (historyBufferSize : ℕ) (st : Receiving)
    (matchLength matchOutputOffset matchHistoryOffset : ℕ) : ℤ × Receiving :=
  if matchOutputOffset < st.outputOffset then (-1005, st)
  else if matchLength > historyBufferSize then (-1006, st)
  else if matchHistoryOffset > historyBufferSize then (-1007, st)
  else
    let outputLength := matchOutputOffset - st.outputOffset
    if outputLength > historyBufferSize then (-1008, st)
    else if outputLength > 0 ∧ (st.historyPtr + outputLength ≥ historyBufferSize ∨
        st.literals = [] ∨ outputLength > st.literals.length) then (-1009, st)
    else
      -- without literals in front of the match this changes nothing
      let st : Receiving :=
        ⟨write st.historyBuffer st.historyPtr (st.literals.take outputLength),
          st.historyPtr + outputLength, st.literals.drop outputLength,
          st.outputOffset + outputLength⟩
      if st.historyPtr + matchLength ≥ historyBufferSize ∨
          matchHistoryOffset + matchLength ≥ historyBufferSize then (-1011, st)
      else
        (0, { st with
          historyBuffer := copyBytes st.historyBuffer st.historyPtr matchHistoryOffset matchLength
          outputOffset := st.outputOffset + matchLength
          historyPtr := st.historyPtr + matchLength })

/-- The loop of `xcrush_decompress_l1` over the match details. -/
def decompressMatches (historyBufferSize : ℕ) : ℕ → List UInt8 → Receiving → ℤ × Receiving
  | 0, _, st => (0, st)
  | matchCount + 1, details, st =>
    let (status, st) := decompressMatch historyBufferSize st (leNat (details.take 2))
      (leNat ((details.drop 2).take 2)) (leNat ((details.drop 4).take 4))
    if status < 0 then (status, st)
    else decompressMatches historyBufferSize matchCount (details.drop 8) st

/-- The end of `xcrush_decompress_l1`: the literals behind the last match. -/
def decompressRest (xcrush : Context) (st : Receiving) : Decompressed Context :=
  if st.literals ≠ [] ∧ st.historyPtr + st.literals.length ≥ xcrush.historyBufferSize then
    ⟨-1012, [], { xcrush with historyBuffer := st.historyBuffer }⟩
  else
    let historyBuffer := write st.historyBuffer st.historyPtr st.literals
    let historyPtr := st.historyPtr + st.literals.length
    { status := 1
      data := read historyBuffer xcrush.historyOffset (historyPtr - xcrush.historyOffset)
      context := { xcrush with historyBuffer := historyBuffer, historyOffset := historyPtr } }

def decompressL1 (xcrush : Context) (src : List UInt8) (flags : ℕ) : Decompressed Context :=
  if src.length < 1 then ⟨-1001, [], xcrush⟩
  else
    let xcrush := if hasFlag flags l1PacketAtFront then { xcrush with historyOffset := 0 }
      else xcrush
    if hasFlag flags l1NoCompression then
      decompressRest xcrush ⟨xcrush.historyBuffer, xcrush.historyOffset, src, 0⟩
    else if ¬ hasFlag flags l1Compressed then ⟨-1002, [], xcrush⟩
    else if 2 > src.length then ⟨-1003, [], xcrush⟩
    else
      let matchCount := leNat (src.take 2)
      if 2 + 8 * matchCount > src.length then ⟨-1004, [], xcrush⟩
      else
        let (status, st) := decompressMatches xcrush.historyBufferSize matchCount (src.drop 2)
          ⟨xcrush.historyBuffer, xcrush.historyOffset, src.drop (2 + 8 * matchCount), 0⟩
        if status < 0 then ⟨status, [], { xcrush with historyBuffer := st.historyBuffer }⟩
        else decompressRest xcrush st

/-- What `PACKET_FLUSHED` makes `xcrush_decompress` do to its history. -/
def flushed (xcrush : Context) (flags : ℕ) : Context :=
  if hasFlag flags packetFlushed then
    { xcrush with
      historyBuffer := ⟨fun i => if i < xcrush.historyBufferSize then 0 else xcrush.historyBuffer i⟩
      historyOffset := 0 }
  else xcrush

/-- `xcrush_decompress`. -/
def decompress (xcrush : Context) (src : List UInt8) (flags : ℕ) : Decompressed Context :=
  match src with
  | level1Flags :: level2Flags :: data =>
    let xcrush := flushed xcrush flags
    if ¬ hasFlag level2Flags.toNat packetCompressed then decompressL1 xcrush data level1Flags.toNat
    else
      let d := Mppc.decompress xcrush.mppc data level2Flags.toNat
      let xcrush := { xcrush with mppc := d.context }
      if d.status < 0 then ⟨d.status, [], xcrush⟩
      else decompressL1 xcrush d.data level1Flags.toNat
  | _ => ⟨-1, [], xcrush⟩

end WBFreeRDP.Xcrush

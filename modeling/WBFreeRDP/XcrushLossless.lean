/-
# XCRUSH loses nothing before its history is full

The receiver is never told about a packet that is sent as it is.  This is in order because the
sender resets its context then, and sends the next packet to the front of the history.
-/
import WBFreeRDP.XcrushErrors

namespace WBFreeRDP.Xcrush

open Bulk History Nat
open List hiding count

/-! ## Copying -/

theorem memcpy_agree (hag : Agree dst g h) (hle : src + num ≤ dst)
    (hrep : ∀ k < num, g (src + k) = g (dst + k)) : Agree (dst + num) g (memcpy h dst src num) := by
  have hread : read h src num = read g dst num := by
    rw [← hag.read_eq hle]
    exact read_shift_congr num src dst hrep
  rw [memcpy, hread]
  exact hag.write_read num

theorem copyPieces_agree (pieces) : ∀ {h} {dst src}, Agree dst g h → src + diff = dst →
      (∀ k < pieces * diff, g (src + k) = g (dst + k)) →
      Agree (dst + pieces * diff) g (copyPieces diff pieces h dst src) := by
  induction pieces with
  | zero =>
    intro h dst src hag _ _
    rw [Nat.zero_mul]
    exact hag
  | succ pieces ih =>
  intro h dst src hag hdiff hrep
  rw [succ_mul] at hrep ⊢
  rw [show dst + (pieces * diff + diff) = dst + diff + pieces * diff by omega]
  apply ih
  · exact memcpy_agree hag hdiff.le fun k hk => hrep k (by omega)
  · omega
  intro k hk
  rw [add_assoc, add_assoc]
  exact hrep (diff + k) (by omega)

/-- **A copy of bytes that are repeated in the sender's history.** -/
theorem copyBytes_agree (hag : Agree dst g h) (hlt : src < dst)
    (hrep : ∀ k < num, g (src + k) = g (dst + k)) :
    Agree (dst + num) g (copyBytes h dst src num) := by
  unfold copyBytes
  by_cases hapart : src + num < dst ∨ src > dst + num
  · rw [if_pos hapart]
    exact memcpy_agree hag (by omega) hrep
  rw [if_neg hapart, if_pos hlt.ne]
  have hdiff : 0 < dst - src := by omega
  have hsplit := div_add_mod' num (dst - src)
  have hstop : (num - num % (dst - src)) / (dst - src) = num / (dst - src) := by
    rw [show num - num % (dst - src) = num / (dst - src) * (dst - src) by omega,
      Nat.mul_div_cancel _ hdiff]
  have hpieces := copyPieces_agree (num / (dst - src)) hag (show src + (dst - src) = dst by omega)
    fun k hk => hrep k (by omega)
  simp only [copyBytesNoOverlap]
  rw [if_pos hlt, if_pos hdiff.ne', hstop,
    show num - num % (dst - src) = num / (dst - src) * (dst - src) by omega]
  generalize copyPieces (dst - src) (num / (dst - src)) h dst src = h' at hpieces
  generalize num / (dst - src) * (dst - src) = stop at hsplit hpieces
  generalize hmod : num % (dst - src) = rest at hsplit
  have hrest : rest < dst - src := hmod ▸ mod_lt _ hdiff
  by_cases hzero : rest = 0
  · rw [← hsplit, hzero]
    exact hpieces
  rw [if_pos hzero, ← hsplit, ← add_assoc]
  apply memcpy_agree hpieces
  · omega
  intro k hk
  rw [add_assoc, add_assoc]
  exact hrep (stop + k) (by omega)

/-! ## Level 1 of the receiver -/

theorem matchDetails_read (hlength : m.matchLength < 65536)
    (hoffset : m.matchOffset - first < 65536) (hchunk : m.chunkOffset < 4294967296)
    (rest) : leNat ((matchDetails first m ++ rest).take 2) = m.matchLength ∧
      leNat (((matchDetails first m ++ rest).drop 2).take 2) = m.matchOffset - first ∧
      leNat (((matchDetails first m ++ rest).drop 4).take 4) = m.chunkOffset ∧
      (matchDetails first m ++ rest).drop 8 = rest := by
  have h1 := leBytes_length 2 m.matchLength
  have h2 := leBytes_length 2 (m.matchOffset - first)
  have h3 := leBytes_length 4 m.chunkOffset
  have h12 : (leBytes 2 m.matchLength ++ leBytes 2 (m.matchOffset - first)).length = 4 := by
    rw [length_append, h1, h2]
  refine ⟨?_, ?_, ?_, ?_⟩
  · rw [matchDetails, append_assoc, append_assoc, take_left' h1]
    exact leNat_leBytes hlength
  · rw [matchDetails, append_assoc, append_assoc, drop_left' h1, take_left' h2]
    exact leNat_leBytes hoffset
  · rw [matchDetails, append_assoc, drop_left' h12, take_left' h3]
    exact leNat_leBytes hchunk
  · refine drop_left' ?_
    rw [matchDetails, length_append, h12, h3]

section Level1

variable {g : Memory UInt8} {first stop : ℕ}

/-- What the receiver has while it goes through the matches. -/
structure Receiving.Ok (g : Memory UInt8) (first start : ℕ) (st : Receiving) : Prop where
  agree : Agree start g st.historyBuffer
  ptr_eq : st.historyPtr = start
  output_eq : first + st.outputOffset = start

theorem decompressMatch_spec
    (hst : st.Ok g first start)
    (hliterals : st.literals = read g start (m.matchOffset - start) ++ rest)
    (hstart : start ≤ m.matchOffset) (hend : m.matchOffset + m.matchLength + 8 ≤ 2000000)
    (hrepeats : Repeats g m) (hbefore : m.chunkOffset < m.matchOffset) :
    ∃ st', decompressMatch 2000000 st m.matchLength (m.matchOffset - first) m.chunkOffset =
      (0, st') ∧ st'.Ok g first (m.matchOffset + m.matchLength) ∧ st'.literals = rest := by
  obtain ⟨hagree, hptr, houtput⟩ := hst
  have hlength : (read g start (m.matchOffset - start)).length = m.matchOffset - start :=
    length_read _ _ _
  have hdiff : m.matchOffset - first - st.outputOffset = m.matchOffset - start := by omega
  simp only [decompressMatch, hdiff, hptr, hliterals]
  rw [if_neg (by omega), if_neg (by omega), if_neg (by omega), if_neg (by omega),
    if_neg, if_neg (by omega)]
  · refine ⟨_, rfl, ⟨?_, ?_, ?_⟩, ?_⟩
    · -- the literals, then the match
      have hcopied := hagree.write_read (m.matchOffset - start)
      rw [show start + (m.matchOffset - start) = m.matchOffset by omega] at hcopied ⊢
      rw [take_left' hlength]
      exact copyBytes_agree hcopied hbefore hrepeats
    · simp only
      omega
    · simp only
      omega
    · rw [drop_left' hlength]
  · rintro ⟨hpos, hfull | hnil | hlong⟩
    · omega
    · have := congrArg List.length hnil
      rw [length_append, length_nil] at this
      omega
    · rw [length_append] at hlong
      omega

/-- **The loop over the matches** leaves the literals behind the last one. -/
theorem decompressMatches_spec (hsize : stop + 8 ≤ 2000000) (hpacket : stop ≤ first + 16384) :
    ∀ {start} {st} tail, st.Ok g first start → first ≤ start →
      Ordered stop start ms → Tiles g stop start ms st.literals →
      (∀ m ∈ ms, Repeats g m ∧ m.chunkOffset < m.matchOffset) →
      ∃ st' current, decompressMatches 2000000 ms.length
        (ms.flatMap (matchDetails first) ++ tail) st =
          (0, st') ∧ st'.Ok g first current ∧ current ≤ stop ∧
        st'.literals = read g current (stop - current) := by
  induction ms with
  | nil =>
    intro start st _ hst _ hordered htiles _
    exact ⟨st, start, rfl, hst, hordered, htiles.2⟩
  | cons m ms ih =>
  rintro start st tail hst hfirst ⟨hstart, hordered⟩ ⟨-, rest, hliterals, htiles⟩ hall
  have hle := hordered.le
  obtain ⟨hrepeats, hbefore⟩ := hall m mem_cons_self
  obtain ⟨h1, h2, h3, h4⟩ := matchDetails_read (show m.matchLength < 65536 by omega)
    (show m.matchOffset - first < 65536 by omega) (show m.chunkOffset < 4294967296 by omega)
    (ms.flatMap (matchDetails first) ++ tail)
  obtain ⟨st', hmatch, hst', hrest⟩ := decompressMatch_spec hst hliterals hstart (by omega) hrepeats
    hbefore
  rw [length_cons, flatMap_cons, append_assoc, decompressMatches, h1, h2, h3, hmatch]
  refine ih tail hst' (by omega) hordered ?_ fun x hx => hall x (mem_cons_of_mem m hx)
  rwa [hrest]

end Level1

section Rest

variable {first stop : ℕ} {r : Context}

theorem decompressRest_spec (hsize : r.historyBufferSize = 2000000)
    (hfirst : r.historyOffset = first) (hstop : stop + 8 ≤ 2000000) (hst : st.Ok g first current)
    (hle : first ≤ current ∧ current ≤ stop)
    (hliterals : st.literals = read g current (stop - current)) :
    ∃ h', decompressRest r st = ⟨1, read g first (stop - first),
        { r with historyBuffer := h', historyOffset := stop }⟩ ∧ Agree stop g h' := by
  obtain ⟨hagree, hptr, -⟩ := hst
  have hwritten := hagree.write_read (stop - current)
  rw [show current + (stop - current) = stop by omega] at hwritten
  simp only [decompressRest, hptr, hliterals, length_read, hfirst]
  rw [if_neg (by omega), show current + (stop - current) = stop by omega,
    ← hwritten.read_eq (by omega)]
  exact ⟨_, rfl, hwritten⟩

def frontOf (r : Context) (flags : ℕ) : ℕ :=
  if hasFlag flags l1PacketAtFront then 0 else r.historyOffset

theorem opened_eq (hfirst : frontOf r flags = first) :
    (if hasFlag flags l1PacketAtFront = true then { r with historyOffset := 0 } else r) =
      { r with historyOffset := first } := by
  unfold frontOf at hfirst
  split_ifs at hfirst ⊢
  · rw [← hfirst]
  · rw [← hfirst]

/-- **A packet without compression** is received. -/
theorem decompressL1_plain (hsize : r.historyBufferSize = 2000000)
    (hflag : hasFlag flags l1NoCompression = true) (hfirst : frontOf r flags = first)
    (hagree : Agree first g r.historyBuffer) (hstop : stop + 8 ≤ 2000000) (hlt : first < stop) :
    ∃ h', decompressL1 r (read g first (stop - first)) flags = ⟨1, read g first (stop - first),
        { r with historyBuffer := h', historyOffset := stop }⟩ ∧ Agree stop g h' := by
  have hok : Receiving.Ok g first first ⟨r.historyBuffer, first, read g first (stop - first), 0⟩ :=
    ⟨hagree, rfl, rfl⟩
  obtain ⟨h', heq, hag⟩ :=
    decompressRest_spec (r := { r with historyOffset := first }) hsize rfl hstop hok
    ⟨le_rfl, hlt.le⟩ rfl
  refine ⟨h', ?_, hag⟩
  simp only [decompressL1, opened_eq hfirst, length_read]
  rw [if_neg (by omega), if_pos hflag]
  exact heq

/-- **A packet that is cut into matches and literals** is received. -/
theorem decompressL1_compressed (hsize : r.historyBufferSize = 2000000)
    (hflag : hasFlag flags l1Compressed = true ∧ hasFlag flags l1NoCompression = false)
    (hfirst : frontOf r flags = first) (hagree : Agree first g r.historyBuffer)
    (hstop : stop + 8 ≤ 2000000) (hpacket : stop ≤ first + 16384)
    (hordered : Ordered stop first ms) (htiles : Tiles g stop first ms literals)
    (hall : ∀ m ∈ ms, Repeats g m ∧ 7 ≤ m.matchLength ∧ m.chunkOffset < m.matchOffset) :
    ∃ h', decompressL1 r (outputBytes first ms literals) flags = ⟨1, read g first (stop - first),
        { r with historyBuffer := h', historyOffset := stop }⟩ ∧ Agree stop g h' := by
  have hle := hordered.le
  have hcount := mul_length_le_sum MatchInfo.matchLength fun m hm => (hall m hm).2.1
  have hlength := length_outputBytes first ms literals
  -- the count, the details and the literals of the output
  have htwo : (outputBytes first ms literals).take 2 = leBytes 2 ms.length := by
    exact take_left' (leBytes_length _ _)
  have hdetails : (outputBytes first ms literals).drop 2 =
      ms.flatMap (matchDetails first) ++ literals := by
    exact drop_left' (leBytes_length _ _)
  have hliterals : (outputBytes first ms literals).drop (2 + 8 * ms.length) = literals := by
    refine drop_left' ?_
    rw [length_append, leBytes_length, length_matchDetails]
  have hleNat : leNat (leBytes 2 ms.length) = ms.length :=
    leNat_leBytes (show ms.length < 65536 by omega)
  have hok : Receiving.Ok g first first ⟨r.historyBuffer, first, literals, 0⟩ := ⟨hagree, rfl, rfl⟩
  obtain ⟨st, current, hloop, hst, hcurrent, hrest⟩ := decompressMatches_spec hstop hpacket literals
    hok le_rfl hordered htiles fun m hm => ⟨(hall m hm).1, (hall m hm).2.2⟩
  obtain ⟨h', heq, hag⟩ :=
    decompressRest_spec (r := { r with historyOffset := first }) hsize rfl hstop hst
    ⟨hst.output_eq ▸ le_add_right _ _, hcurrent⟩ hrest
  refine ⟨h', ?_, hag⟩
  simp only [decompressL1, opened_eq hfirst]
  simp only [htwo, hdetails, hleNat, hliterals, hsize, hloop]
  rw [if_neg (by omega), if_neg (by simp [hflag.2]), if_neg (by simp [hflag.1]), if_neg (by omega),
    if_neg (by omega), if_neg (lt_irrefl _)]
  simpa only [hsize] using heq

end Rest

/-! ## Contexts in step -/

/-- A packet that `xcrush_compress` sends as it is goes past the receiver. -/
def deliver (r : Context) (data : List UInt8) (flags : ℕ) : Decompressed Context :=
  if flags = 0 then ⟨1, data, r⟩ else decompress r data flags

/-- The level 1 histories are in step, with `count` bytes since the last reset: they agree, or the
sender's was reset and its next packet goes to the front. -/
def HistorySync (x r : Context) (count : ℕ) : Prop :=
  x.historyOffset = 2000001 ∧ count = 0 ∨
    x.historyOffset = count ∧ r.historyOffset = count ∧ Agree count x.historyBuffer r.historyBuffer

/-- The inner contexts are in step, or the sender's was flushed, after which its output is not sent
any more. -/
def InnerSync (x r : Context) : Prop :=
  x.mppc.historyOffset = x.mppc.historyBufferSize + 1 ∨
    Mppc.Sync x.mppc r.mppc ∧ x.mppc.historyOffset ≠ x.mppc.historyBufferSize + 1 ∧
    x.compressionFlags = 0

/-- The two contexts are in step. -/
structure Sync (x r : Context) (count : ℕ) : Prop where
  sender : x.Ok
  receiver : r.historyBufferSize = 2000000
  chunks : x.chunks.Ok count
  history : HistorySync x r count
  inner : InnerSync x r

theorem sync_new : Sync contextNew contextNew 0 := by
  refine ⟨reachable_ok .new, rfl, Chunks.empty_ok 0, Or.inr ⟨rfl, rfl, ?_⟩, Or.inr ⟨?_, ?_, rfl⟩⟩
  · intro j hj
    omega
  · exact Mppc.sync_new 1
  · decide

section Step

variable {x r : Context} {count : ℕ} {src dst : List UInt8}

theorem HistorySync.front (h : HistorySync x r count) (hsize : x.historyBufferSize = 2000000)
    (hlen : src.length < 16384) (hcount : count + src.length + 8 ≤ 2000000) :
    count = front x src.length ∧ Agree count x.historyBuffer r.historyBuffer ∧
      ∀ flags, (hasFlag flags l1PacketAtFront = true ↔ frontFlags x src.length = 4) →
        frontOf r flags = count := by
  rcases h with ⟨hoffset, rfl⟩ | ⟨hoffset, hoffset', hagree⟩
  · -- the packet behind a reset
    have hfull : x.historyOffset + src.length + 8 > x.historyBufferSize := by omega
    refine ⟨by rw [Xcrush.front, if_pos hfull], fun j hj => absurd hj (not_lt_zero j), ?_⟩
    intro flags hflags
    rw [frontFlags, if_pos hfull] at hflags
    rw [frontOf, if_pos (hflags.mpr rfl)]
  · have hroom : ¬ x.historyOffset + src.length + 8 > x.historyBufferSize := by omega
    refine ⟨by rw [Xcrush.front, if_neg hroom, hoffset], hagree, ?_⟩
    intro flags hflags
    rw [frontFlags, if_neg hroom] at hflags
    rw [frontOf, if_neg (fun hflag => absurd (hflags.mp hflag) (by decide)), hoffset']

/-- The level 1 flags of a packet, as the receiver reads them. -/
def level1Byte (x : Context) (n kind : ℕ) : ℕ :=
  (UInt8.ofNat (frontFlags x n ||| kind ||| l1InnerCompression)).toNat

theorem level1Byte_tests (x n) : (hasFlag (level1Byte x n l1NoCompression) l1NoCompression = true ∧
      (hasFlag (level1Byte x n l1NoCompression) l1PacketAtFront = true ↔ frontFlags x n = 4)) ∧
    (hasFlag (level1Byte x n l1Compressed) l1Compressed = true ∧
      hasFlag (level1Byte x n l1Compressed) l1NoCompression = false) ∧
    (hasFlag (level1Byte x n l1Compressed) l1PacketAtFront = true ↔ frontFlags x n = 4) := by
  unfold level1Byte
  rcases frontFlags_cases x n with h | h <;> rw [h] <;> decide

/-- What level 1 leaves on the sender's side, with `stop` bytes since the last reset. -/
structure Level1Ok (x : Context) (src : List UInt8) (stop : ℕ) (l1 : Level1) : Prop where
  ok : l1.context.Ok
  chunks : l1.context.chunks.Ok stop
  offset_eq : l1.context.historyOffset = stop
  mppc_eq : l1.context.mppc = x.mppc
  flags_eq : l1.context.compressionFlags = x.compressionFlags

/-- **Level 1 of a packet** is undone by the receiver, whatever its inner context is. -/
theorem level1_received (h : Sync x r count) (hlen : 0 < src.length ∧ src.length < 16384)
    (hcount : count + src.length + 8 ≤ 2000000) (hstatus : 0 ≤ (compressL1 x src).status)
    (mppc : Mppc.Context) :
    Level1Ok x src (count + src.length) (compressL1 x src) ∧
    ∃ h', decompressL1 { r with mppc := mppc } (compressL1 x src).data
        (UInt8.ofNat ((compressL1 x src).flags ||| l1InnerCompression)).toNat =
          ⟨1, src, { r with
            mppc := mppc, historyBuffer := h', historyOffset := count + src.length }⟩ ∧
      Agree (count + src.length) (compressL1 x src).context.historyBuffer h' := by
  have hsize := h.sender.size_eq
  obtain ⟨hfront, hagree, hflags⟩ := h.history.front hsize hlen.2 hcount
  have hp : (packetOf x src).Ok (count + src.length) := by
    refine ⟨?_, ?_⟩
    · rw [hfront]
      exact le_rfl
    · change count + src.length ≤ x.historyBufferSize
      omega
  obtain ⟨t', block', ht', hcontext, hres⟩ := compressL1_spec hsize hlen.2.le hp
    (h.chunks.mono (le_add_right _ _))
  have hplaced : (placed x src).historyBuffer = write x.historyBuffer count src := by
    rw [hfront]
    rfl
  have hagree' : Agree count (placed x src).historyBuffer r.historyBuffer := by
    intro j hj
    rw [hplaced, write_below _ _ _ _ hj]
    exact hagree j hj
  have hread : read (placed x src).historyBuffer count (count + src.length - count) = src := by
    rw [hplaced, Nat.add_sub_cancel_left]
    exact read_write _ _ _
  obtain ⟨⟨hplain, hatfront⟩, hcompressed, hatfront'⟩ := level1Byte_tests x src.length
  have hbuffer : (compressL1 x src).context.historyBuffer = (placed x src).historyBuffer := by
    rw [hcontext]
  rw [hbuffer]
  constructor
  · rw [show count + src.length = (placed x src).historyOffset by rw [placed, hfront]] at ht' ⊢
    constructor
    · rw [hcontext]
      refine ⟨hsize, ht'.mono ?_, h.sender.mppc, h.sender.level_eq⟩
      change Xcrush.front x src.length + src.length ≤ 2000000
      omega
    · rw [hcontext]
      exact ht'
    · rw [hcontext]
    · rw [hcontext]
      rfl
    · rw [hcontext]
      rfl
  cases hres with
  | plain _ hf hdata =>
    obtain ⟨h', heq, hag⟩ := decompressL1_plain (r := { r with mppc := mppc }) h.receiver hplain
      (hflags _ hatfront) hagree' (show count + src.length + 8 ≤ 2000000 from hcount) (by omega)
    rw [hread] at heq
    rw [hf, hdata]
    exact ⟨h', heq, hag⟩
  | compressed _ hf ms literals hcut hdata _ =>
    have hordered := hcut.ordered
    have htiles := hcut.tiles
    have hall : ∀ m ∈ ms, Repeats (placed x src).historyBuffer m ∧ 7 ≤ m.matchLength ∧
        m.chunkOffset < m.matchOffset := by
      intro m hm
      have hbefore := hcut.before (by rw [hfront]; rfl) m hm
      have hend : m.matchOffset + m.matchLength ≤ Xcrush.front x src.length + src.length :=
        hordered.end_le m hm
      refine ⟨?_, (hcut.kept m hm).least_le, hbefore⟩
      intro i hi
      have hrepeats := (hcut.kept m hm).repeats i hi
      -- below its end the memory is the history
      have hmemory : ∀ j, j < 2000000 →
          (packetOf x src).memory j = (placed x src).historyBuffer j := by
        intro j hj
        change (if j < x.historyBufferSize then _ else _) = _
        rw [if_pos (by omega)]
      rwa [hmemory _ (by omega), hmemory _ (by omega)] at hrepeats
    change Ordered (Xcrush.front x src.length + src.length) (Xcrush.front x src.length) ms
      at hordered
    change Tiles _ (Xcrush.front x src.length + src.length) (Xcrush.front x src.length) ms _
      at htiles
    rw [← hfront] at hordered htiles hdata
    obtain ⟨h', heq, hag⟩ :=
      decompressL1_compressed (r := { r with mppc := mppc }) h.receiver hcompressed
      (hflags _ hatfront') hagree' hcount (by omega) hordered htiles hall
    rw [hread] at heq
    rw [hf, hdata]
    exact ⟨h', heq, hag⟩
  | failed hneg _ => exact absurd hneg (not_lt.mpr hstatus)

/-- A level 2 byte without `PACKET_COMPRESSED`: level 1 gets the data. -/
theorem decompress_plain (hflag : hasFlag level2Flags.toNat packetCompressed = false) :
    decompress r (level1Flags :: level2Flags :: data) (packetCompressed ||| 3) =
      decompressL1 r data level1Flags.toNat := by
  have hopen : flushed r (packetCompressed ||| 3) = r := by
    rw [flushed, if_neg (by decide)]
  simp only [decompress, hflag]
  rfl

/-- A level 2 byte with `PACKET_COMPRESSED`: level 1 gets what the inner context makes of the
data. -/
theorem decompress_inner (hlevel2 : level2Flags.toNat = flags)
    (hflag : hasFlag flags packetCompressed = true) (hd : Mppc.decompress r.mppc data flags = d)
    (hstatus : 0 ≤ d.status) :
    decompress r (level1Flags :: level2Flags :: data) (packetCompressed ||| 3) =
      decompressL1 { r with mppc := d.context } d.data level1Flags.toNat := by
  have hopen : flushed r (packetCompressed ||| 3) = r := by
    rw [flushed, if_neg (by decide)]
  simp only [decompress, hopen, hlevel2, hflag, hd]
  rw [if_neg (by simp), if_neg (not_lt.mpr hstatus)]

theorem sync_reset (hx : x.Ok) (hr : r.historyBufferSize = 2000000) :
    Sync (contextReset x true) r 0 := by
  refine ⟨contextReset_ok hx true, hr, Chunks.empty_ok 0, Or.inl ⟨?_, rfl⟩, Or.inl rfl⟩
  change x.historyBufferSize + 1 = 2000001
  rw [hx.size_eq]

theorem compress_started (hlen : src.length < 16384) (hstatus : (compress x src dst).status = 1) :
    src.length + 2 ≤ dst.length ∧ 0 ≤ (compressL1 x src).status := by
  simp only [compress] at hstatus
  rw [if_neg (by omega)] at hstatus
  by_cases hdst : src.length + 2 > dst.length
  · rw [if_pos hdst] at hstatus
    cases hstatus
  rw [if_neg hdst] at hstatus
  by_cases hneg : (compressL1 x src).status < 0
  · rw [if_pos hneg] at hstatus
    exact absurd (show (compressL1 x src).status = 1 from hstatus) (by omega)
  · exact ⟨not_lt.mp hdst, not_lt.mp hneg⟩

/-- What a packet is to do: it is delivered and leaves the contexts in step. -/
def Delivers (r : Context) (count : ℕ) (src : List UInt8) (c : Compressed Context) : Prop :=
  (deliver r c.data c.flags).status = 1 ∧ (deliver r c.data c.flags).data = src ∧
    Sync c.context (deliver r c.data c.flags).context
      (if c.flags = 0 then 0 else count + src.length)

theorem delivers_reset (hx : x.Ok) (hr : r.historyBufferSize = 2000000) :
    Delivers r count src ⟨1, src, 0, contextReset x true⟩ :=
  ⟨rfl, rfl, sync_reset hx hr⟩

theorem delivers_sent
    (hr : r.historyBufferSize = 2000000) (hx : x'.Ok) (hchunks : x'.chunks.Ok (count + src.length))
    (hoffset : x'.historyOffset = count + src.length)
    (hag : Agree (count + src.length) x'.historyBuffer h')
    (hdec : decompress r data (packetCompressed ||| 3) =
      ⟨1, src, { r with mppc := mppc, historyBuffer := h', historyOffset := count + src.length }⟩)
    (hinner : InnerSync x' { r with mppc := mppc }) :
    Delivers r count src ⟨1, data, packetCompressed ||| 3, x'⟩ := by
  have hflags : packetCompressed ||| 3 ≠ 0 := by decide
  simp only [Delivers, deliver, if_neg hflags, hdec]
  exact ⟨trivial, trivial, ⟨hx, hr, hchunks, Or.inr ⟨hoffset, rfl, hag⟩, hinner⟩⟩

/-- The receiver undoes level 1, whatever its inner context is. -/
def Received (r : Context) (src : List UInt8) (stop : ℕ) (l1 : Level1) : Prop :=
  ∀ mppc, ∃ h', decompressL1 { r with mppc := mppc } l1.data
      (UInt8.ofNat (l1.flags ||| l1InnerCompression)).toNat =
        ⟨1, src, { r with mppc := mppc, historyBuffer := h', historyOffset := stop }⟩ ∧
    Agree stop l1.context.historyBuffer h'

section Level2

theorem Level1Ok.context_ok (hleft : Level1Ok x src stop l1)
    (hm : Mppc.SenderOk m) (hlevel : m.compressionLevel = 1) (flags) :
    Context.Ok { l1.context with mppc := m, compressionFlags := flags } :=
  ⟨hleft.ok.size_eq, hleft.ok.chunks, hm, hlevel⟩

theorem delivers_short (h : Sync x r count) (hleft : Level1Ok x src (count + src.length) l1)
    (hreceived : Received r src (count + src.length) l1) (hle : l1.data.length ≤ src.length)
    (hdst : src.length + 2 ≤ dst.length) :
    Delivers r count src (finishCompress { l1.context with mppc := x.mppc } src dst l1.flags l1.data
      ⟨0, 0, src.length - 2, [], x.mppc⟩) := by
  have hok := fun flags => hleft.context_ok h.sender.mppc h.sender.level_eq flags
  obtain ⟨h', hdec, hag⟩ := hreceived r.mppc
  by_cases hmore : src.length - 2 < l1.data.length
  · rw [finishCompress_reset le_rfl (Or.inl rfl) hmore]
    exact delivers_reset (hok _) h.receiver
  rw [finishCompress_plain le_rfl (Or.inl rfl) (not_lt.mp hmore)
    (show hasFlag 0 packetCompressed = false by decide) (by omega)]
  have hbyte : hasFlag (UInt8.ofNat 0).toNat packetCompressed = false := by decide
  refine delivers_sent h.receiver (hok _) hleft.chunks hleft.offset_eq hag
    ((decompress_plain hbyte).trans hdec) ?_
  rcases h.inner with hsentinel | ⟨hsync, hne, hflags⟩
  · exact Or.inl hsentinel
  refine Or.inr ⟨hsync, hne, ?_⟩
  have hunset : hasFlag 0 packetFlushed = false := by decide
  simp only [hunset]
  exact hleft.flags_eq.trans hflags

theorem flagsOf_toByte (hlevel : m.compressionLevel = 1) (n) :
    (UInt8.ofNat (Mppc.flagsOf m n ||| 0)).toNat = Mppc.flagsOf m n := by
  unfold Mppc.flagsOf
  rw [hlevel]
  split_ifs <;> decide

theorem delivers_long (h : Sync x r count) (hleft : Level1Ok x src (count + src.length) l1)
    (hreceived : Received r src (count + src.length) l1) (hle : l1.data.length ≤ src.length)
    (hlong : 50 < l1.data.length) (hlen : src.length < 16384) (hdst : src.length + 2 ≤ dst.length)
    (hc : Mppc.compress x.mppc l1.data ((dst.drop 2).take (src.length - 2)) = c) :
    Delivers r count src
      (finishCompress { l1.context with mppc := c.context } src dst l1.flags l1.data
      ⟨c.status, c.flags, c.data.length, c.data, c.context⟩) := by
  have hlevel := h.sender.level_eq
  have hsize := h.sender.mppc_size
  have hroom : (dst.drop 2).take (src.length - 2) ≠ [] := by
    apply ne_nil_of_length_pos
    rw [length_take, length_drop]
    omega
  have hne : l1.data ≠ [] := ne_nil_of_length_pos (by omega)
  rcases Mppc.compress_spec h.sender.mppc hne (by omega) hroom with
    hraw | ⟨ts, bytes, matchBuffer, pad, hcomp, -, -, -, hshort, hend⟩
  · -- the inner history is flushed, and the data of level 1 is sent
    obtain rfl := hc.symm.trans hraw
    rw [hlevel, finishCompress_plain (show (0 : ℤ) ≤ 1 by decide)
      (Or.inr (show hasFlag (packetFlushed ||| 1) packetFlushed = true by decide)) le_rfl
      (show hasFlag (packetFlushed ||| 1) packetCompressed = false by decide) (by omega)]
    obtain ⟨h', hdec, hag⟩ := hreceived r.mppc
    have hbyte : hasFlag (UInt8.ofNat (packetFlushed ||| 1)).toNat packetCompressed = false := by
      decide
    exact delivers_sent h.receiver (hleft.context_ok (h.sender.mppc.reset true) hlevel _)
      hleft.chunks hleft.offset_eq hag ((decompress_plain hbyte).trans hdec) (Or.inl rfl)
  obtain ⟨hcompressed, -, hflushed⟩ := Mppc.flagsOf_tests h.sender.mppc.level_le l1.data.length
  have hsender : Mppc.SenderOk c.context := by
    rw [← hc, hcomp]
    exact ⟨h.sender.mppc.level_le, h.sender.mppc.size_eq, hend⟩
  have hlevel' : c.context.compressionLevel = 1 := by
    rw [← hc, hcomp]
    exact hlevel
  have hstatus : c.status = 1 := by rw [← hc, hcomp]
  have hflags : c.flags = Mppc.flagsOf x.mppc l1.data.length := by rw [← hc, hcomp]
  have hshort' : c.data.length < l1.data.length := by
    rw [← hc, hcomp]
    exact hshort
  rw [← hflags] at hflushed hcompressed
  by_cases hsentinel : x.mppc.historyOffset = x.mppc.historyBufferSize + 1
  · -- the flag of the restart is taken for a failure
    have hflag : hasFlag c.flags packetFlushed = true := by
      apply hflushed.mpr
      refine ⟨?_, hsentinel⟩
      rintro ⟨hstays, -⟩
      omega
    rw [finishCompress_reset (by simp only [hstatus]; decide) (Or.inr hflag) hshort']
    exact delivers_reset (hleft.context_ok hsender hlevel' _) h.receiver
  have hflag : hasFlag c.flags packetFlushed = false := by
    rw [← Bool.not_eq_true, hflushed]
    rintro ⟨-, heq⟩
    exact hsentinel heq
  obtain ⟨hsync, -, hzero⟩ := h.inner.resolve_left hsentinel
  obtain ⟨-, hdstatus, hddata, hsync', -⟩ := Mppc.sync_step hsync hne (by omega) hroom
  rw [hc] at hdstatus hddata hsync'
  rw [finishCompress_inner (by simp only [hstatus]; decide) hflag hcompressed (by simp only; omega)]
  have hbyte : (UInt8.ofNat (c.flags ||| l1.context.compressionFlags)).toNat = c.flags := by
    rw [hleft.flags_eq, hzero, hflags]
    exact flagsOf_toByte hlevel _
  obtain ⟨h', hdec, hag⟩ := hreceived (Mppc.decompress r.mppc c.data c.flags).context
  refine delivers_sent h.receiver (hleft.context_ok hsender hlevel' _)
    hleft.chunks hleft.offset_eq hag
    ((decompress_inner hbyte hcompressed rfl (by rw [hdstatus]; decide)).trans ?_)
    (Or.inr ⟨hsync', ?_, rfl⟩)
  · rw [hddata]
    exact hdec
  rw [← hc, hcomp]
  simp only
  omega

end Level2

/-- **Every packet is delivered and leaves the contexts in step.** -/
theorem sync_step (h : Sync x r count) (hlen : 50 < src.length ∧ src.length < 16384)
    (hcount : count + src.length + 8 ≤ 2000000) (hstatus : (compress x src dst).status = 1) :
    Delivers r count src (compress x src dst) := by
  obtain ⟨hdst, hl1⟩ := compress_started hlen.2 hstatus
  obtain ⟨-, -, hres⟩ := compressL1_ok h.sender hlen.2.le
  obtain ⟨hle, hcompress⟩ := compress_eq hlen.2.le hdst hres hl1
  obtain ⟨hleft, -⟩ := level1_received h ⟨by omega, hlen.2⟩ hcount hl1 r.mppc
  have hreceived : Received r src (count + src.length) (compressL1 x src) := fun mppc =>
    (level1_received h ⟨by omega, hlen.2⟩ hcount hl1 mppc).2
  rw [hcompress, hleft.mppc_eq]
  unfold level2
  by_cases hlong : (compressL1 x src).data.length > 50
  · rw [if_pos hlong]
    exact delivers_long h hleft hreceived hle hlong hlen.2 hdst rfl
  · rw [if_neg hlong]
    exact delivers_short h hleft hreceived hle hdst

end Step

/-! ## The session -/

/-- A run of the sender in which every call returns 1 and the bytes placed in the level 1 history
since the last reset, `count` so far, never exceed 2000000 - 8.  A call that sends its packet as it
is has reset the context.  A packet comes with the output buffer of the call. -/
def Fits : Context → ℕ → List (List UInt8 × List UInt8) → Prop
  | _, _, [] => True
  | x, count, (src, dst) :: packets =>
    (compress x src dst).status = 1 ∧ count + src.length ≤ 2000000 - 8 ∧
      Fits (compress x src dst).context
        (if (compress x src dst).flags = 0 then 0 else count + src.length) packets

theorem session_of_sync : ∀ {x r} {count}, Sync x r count →
      (∀ p ∈ packets, 50 < p.1.length ∧ p.1.length < 16384) → Fits x count packets →
      session (fun x p => compress x p.1 p.2) deliver x r packets =
        packets.map fun p => ⟨1, 1, p.1⟩ := by
  induction packets with
  | nil => intro x r count _ _ _; rfl
  | cons p packets ih =>
  intro x r count hsync hlen hfits
  obtain ⟨src, dst⟩ := p
  obtain ⟨hstatus, hcount, hfits⟩ := hfits
  obtain ⟨hreceived, hdata, hnext⟩ := sync_step hsync (hlen (src, dst) mem_cons_self)
    (by simp only; omega) hstatus
  rw [session, ih hnext (fun q hq => hlen q (mem_cons_of_mem _ hq)) hfits]
  simp [hstatus, hreceived, hdata]

/-- **XCRUSH loses nothing** while the level 1 history is not full: in a session of packets of the
sizes that are compressed, in which every call returns 1 and the bytes since the last reset fit into
the history, every packet is received as it was sent. -/
theorem xcrush_session_lossless (packets : List (List UInt8 × List UInt8))
    (hlen : ∀ p ∈ packets, 50 < p.1.length ∧ p.1.length < 16384)
    (hfits : Fits contextNew 0 packets) :
    session (fun x p => compress x p.1 p.2) deliver contextNew contextNew packets =
      packets.map fun p => ⟨1, 1, p.1⟩ :=
  session_of_sync sync_new hlen hfits

/-- Two packets, of which the first is compressed by level 1: its second half repeats the first
one. -/
theorem xcrush_session_lossless_run :
    let src : List UInt8 := (range 160).map fun i => UInt8.ofNat (i % 80 * (i % 80 + 1))
    let packets : List (List UInt8 × List UInt8) :=
      [(src, replicate 200 0), (replicate 60 0, replicate 100 0)]
    hasFlag (compressL1 contextNew src).flags l1Compressed = true ∧ Fits contextNew 0 packets ∧
      session (fun x p => compress x p.1 p.2) deliver contextNew contextNew packets =
        packets.map fun p => ⟨1, 1, p.1⟩ := by
  intro src packets
  have hfits : Fits contextNew 0 packets := by
    refine ⟨?_, ?_, ?_, ?_, trivial⟩
    all_goals decide +kernel
  exact ⟨by decide +kernel, hfits, xcrush_session_lossless packets (by decide +kernel) hfits⟩

end WBFreeRDP.Xcrush

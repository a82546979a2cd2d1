/-
# Failures of XCRUSH

A sender that fails has its packet sent as it is, and the receiver is not told.  So a failure must
leave the sender where it was, and it does not.
-/
import WBFreeRDP.MppcLossless
import WBFreeRDP.XcrushSearch

namespace WBFreeRDP.Xcrush

open Bulk History List

/-! ## The sender's contexts -/

/-- The contexts a sender can have. -/
inductive Reachable : Context → Prop
  | new : Reachable contextNew
  | reset {x : Context} (flush : Bool) : Reachable x → Reachable (contextReset x flush)
  | compress {x : Context} (src dst : List UInt8) :
      Reachable x → Reachable (compress x src dst).context

/-- What the sender's context is between packets. -/
structure Context.Ok (x : Context) : Prop where
  size_eq : x.historyBufferSize = 2000000
  chunks : x.chunks.Ok 2000000
  mppc : Mppc.SenderOk x.mppc
  level_eq : x.mppc.compressionLevel = 1

theorem Context.Ok.mppc_size {x : Context} (hx : x.Ok) : x.mppc.historyBufferSize = 65536 := by
  rw [hx.mppc.size_eq, hx.level_eq]
  rfl

theorem contextReset_ok (hx : x.Ok) (flush) : (contextReset x flush).Ok :=
  ⟨hx.size_eq, Chunks.empty_ok _, hx.mppc.reset flush, hx.level_eq⟩

theorem packetOf_ok (hsize : x.historyBufferSize = 2000000)
    (hlen : src.length ≤ 16384) : (packetOf x src).Ok 2000000 := by
  refine ⟨?_, hsize.ge⟩
  change front x src.length + src.length ≤ 2000000
  unfold front
  split_ifs <;> omega

theorem level2_ok (hmppc : Mppc.SenderOk mppc) (hlevel : mppc.compressionLevel = 1)
    (hdata : data.length ≤ srcSize) (hsrc : srcSize ≤ 16384)
    (hdst : srcSize + 2 ≤ dst.length) :
    0 ≤ (level2 mppc srcSize data dst).status ∧ Mppc.SenderOk (level2 mppc srcSize data dst).mppc ∧
      (level2 mppc srcSize data dst).mppc.compressionLevel = 1 ∧
      (level2 mppc srcSize data dst).data.length ≤ data.length := by
  unfold level2
  by_cases hlong : data.length > 50
  swap
  · rw [if_neg hlong]
    exact ⟨le_rfl, hmppc, hlevel, Nat.zero_le _⟩
  have hsize : mppc.historyBufferSize = 65536 := by
    rw [hmppc.size_eq, hlevel]
    rfl
  have hroom : (dst.drop 2).take (srcSize - 2) ≠ [] := by
    apply ne_nil_of_length_pos
    rw [length_take, length_drop]
    omega
  rw [if_pos hlong]
  rcases Mppc.compress_spec hmppc (ne_nil_of_length_pos (show 0 < data.length by omega))
    (by omega) hroom with hraw | ⟨ts, bytes, matchBuffer, pad, hcomp, -, -, -, hshort, hend⟩
  · simp only [hraw]
    exact ⟨by decide, hmppc.reset true, hlevel, le_rfl⟩
  · simp only [hcomp]
    exact ⟨by decide, ⟨hmppc.level_le, hmppc.size_eq, hend⟩, hlevel, hshort.le⟩

theorem finishCompress_ok (hx : x.Ok) (src dst) (level1Flags)
    (data) (l2) : (finishCompress x src dst level1Flags data l2).context.Ok := by
  have hflags : ∀ flags : ℕ, Context.Ok { x with compressionFlags := flags } := fun _ =>
    ⟨hx.size_eq, hx.chunks, hx.mppc, hx.level_eq⟩
  simp only [finishCompress]
  generalize (if hasFlag l2.flags packetCompressed = true then 0 else _ : ℕ) = flags
  by_cases hstatus : l2.status < 0
  · rw [if_pos hstatus]
    exact hx
  rw [if_neg hstatus]
  by_cases hraw : (l2.status = 0 ∨ hasFlag l2.flags packetFlushed = true) ∧ data.length > l2.dstSize
  · rw [if_pos hraw]
    exact contextReset_ok hx true
  split_ifs
  all_goals exact hflags flags

/-- Level 2 was left out or has flushed, and the data of level 1 is too long: the packet is sent as
it is. -/
theorem finishCompress_reset (hstatus : 0 ≤ l2.status)
    (hraw : l2.status = 0 ∨ hasFlag l2.flags packetFlushed = true)
    (hlong : l2.dstSize < data.length) :
    finishCompress x src dst level1Flags data l2 = ⟨1, src, 0, contextReset x true⟩ := by
  simp only [finishCompress]
  rw [if_neg (not_lt.mpr hstatus), if_pos ⟨hraw, hlong⟩]

/-- Level 2 was left out or has flushed: the data of level 1 is sent. -/
theorem finishCompress_plain (hstatus : 0 ≤ l2.status)
    (hraw : l2.status = 0 ∨ hasFlag l2.flags packetFlushed = true) (hle : data.length ≤ l2.dstSize)
    (hflag : hasFlag l2.flags packetCompressed = false) (hdst : data.length + 2 ≤ dst.length) :
    finishCompress x src dst level1Flags data l2 =
      ⟨1, UInt8.ofNat (level1Flags ||| l1InnerCompression) :: UInt8.ofNat l2.flags :: data,
        packetCompressed ||| 3,
        { x with
          compressionFlags :=
            if hasFlag l2.flags packetFlushed then packetFlushed else x.compressionFlags }⟩ := by
  simp only [finishCompress, hflag, if_pos hraw]
  rw [if_neg (not_lt.mpr hstatus), if_neg (fun h => not_lt.mpr hle h.2), if_neg (not_lt.mpr hdst)]
  rfl

theorem finishCompress_inner (hstatus : 0 < l2.status)
    (hflushed : hasFlag l2.flags packetFlushed = false)
    (hflag : hasFlag l2.flags packetCompressed = true) (hdst : l2.data.length + 2 ≤ dst.length) :
    finishCompress x src dst level1Flags data l2 =
      ⟨1, UInt8.ofNat (level1Flags ||| l1InnerCompression) ::
          UInt8.ofNat (l2.flags ||| x.compressionFlags) :: l2.data,
        packetCompressed ||| 3, { x with compressionFlags := 0 }⟩ := by
  have hraw : ¬ (l2.status = 0 ∨ hasFlag l2.flags packetFlushed = true) := by
    rw [hflushed]
    rintro (hzero | hfalse)
    · omega
    · cases hfalse
  simp only [finishCompress, hflag, if_neg hraw]
  rw [if_neg (not_lt.mpr hstatus.le), if_neg (fun h => hraw h.1), if_neg (not_lt.mpr hdst)]
  rfl

theorem frontFlags_cases (x n) : frontFlags x n = 0 ∨ frontFlags x n = 4 := by
  unfold frontFlags
  split_ifs
  · exact Or.inr rfl
  · exact Or.inl rfl

theorem hasFlag_compressed (x n) :
    hasFlag (frontFlags x n ||| l1Compressed) l1Compressed = true := by
  rcases frontFlags_cases x n with h | h <;> rw [h] <;> decide

/-- **The call, when level 1 succeeds**: the tests of its result do not fail. -/
theorem compress_eq (hlen : src.length ≤ 16384) (hdst : src.length + 2 ≤ dst.length)
    (hres : Level1Result x src bound (compressL1 x src)) (hstatus : 0 ≤ (compressL1 x src).status) :
    (compressL1 x src).data.length ≤ src.length ∧
    compress x src dst = finishCompress
        { (compressL1 x src).context with
          mppc := (level2 (compressL1 x src).context.mppc src.length
            (compressL1 x src).data dst).mppc }
        src dst (compressL1 x src).flags (compressL1 x src).data
        (level2 (compressL1 x src).context.mppc src.length (compressL1 x src).data dst) := by
  have htests : (compressL1 x src).data.length ≤ src.length ∧
      ¬ (hasFlag (compressL1 x src).flags l1Compressed = true ∧
        (compressL1 x src).data.length > src.length) ∧
      ¬ (¬ hasFlag (compressL1 x src).flags l1Compressed = true ∧
        (compressL1 x src).data.length ≠ src.length) := by
    cases hres with
    | plain _ _ hdata =>
      rw [hdata]
      simp
    | compressed _ hflags _ _ _ _ hshort =>
      rw [hflags, hasFlag_compressed]
      refine ⟨hshort.le, ?_, by simp⟩
      omega
    | failed hneg _ => exact absurd hneg (not_lt.mpr hstatus)
  obtain ⟨hle, h1, h2⟩ := htests
  refine ⟨hle, ?_⟩
  simp only [compress]
  rw [if_neg (not_lt.mpr hlen), if_neg (not_lt.mpr hdst), if_neg (not_lt.mpr hstatus), if_neg h1,
    if_neg h2]

theorem compressL1_ok (hx : x.Ok) (hlen : src.length ≤ 16384) :
    (compressL1 x src).context.Ok ∧ (compressL1 x src).context.mppc = x.mppc ∧
      Level1Result x src 2000000 (compressL1 x src) := by
  obtain ⟨t', block', ht', hcontext, hres⟩ :=
    compressL1_spec hx.size_eq hlen (packetOf_ok hx.size_eq hlen) hx.chunks
  rw [hcontext]
  exact ⟨⟨hx.size_eq, ht', hx.mppc, hx.level_eq⟩, rfl, hres⟩

/-- **A call keeps the sender's context in order.** -/
theorem compress_ok (hx : x.Ok) (src dst : List UInt8) : (compress x src dst).context.Ok := by
  by_cases hlen : src.length > 16384
  · simp only [compress]
    rwa [if_pos hlen]
  by_cases hdst : src.length + 2 > dst.length
  · simp only [compress]
    rwa [if_neg hlen, if_pos hdst]
  obtain ⟨hok, hmppc, hres⟩ := compressL1_ok hx (show src.length ≤ 16384 by omega)
  by_cases hstatus : (compressL1 x src).status < 0
  · simp only [compress]
    rwa [if_neg hlen, if_neg hdst, if_pos hstatus]
  obtain ⟨hle, heq⟩ := compress_eq (show src.length ≤ 16384 by omega)
    (show src.length + 2 ≤ dst.length by omega) hres (not_lt.mp hstatus)
  obtain ⟨-, hsender, hlevel, -⟩ := level2_ok hok.mppc hok.level_eq hle
    (show src.length ≤ 16384 by omega) (show src.length + 2 ≤ dst.length by omega)
  rw [heq]
  apply finishCompress_ok
  exact ⟨hok.size_eq, hok.chunks, hsender, hlevel⟩

/-- **The contexts a sender can have are in order.** -/
theorem reachable_ok (hx : Reachable x) : x.Ok := by
  induction hx with
  | new =>
    refine ⟨rfl, Chunks.empty_ok _, ?_, rfl⟩
    exact (Mppc.sync_new 1).sender.reset false
  | reset flush _ ih => exact contextReset_ok ih flush
  | compress src dst _ ih => exact compress_ok ih src dst

/-- Level 1 fails if and only if the matches do not pay. -/
theorem Level1Result.status_nonneg_iff (h : Level1Result x src bound l1) :
    0 ≤ l1.status ↔ Pays x src := by
  cases h with
  | plain hstatus _ _ hpays | compressed hstatus _ _ _ _ _ _ hpays =>
    exact iff_of_true (by rw [hstatus]; decide) hpays
  | failed hstatus hcosts => exact iff_of_false (not_le.mpr hstatus) hcosts

/-! ## Packets that do not fail -/

/-- A repeat of eleven bytes or more in a packet that cannot be made longer, as
`xcrush_find_match_length` extends it: not backwards into the first byte of the packet or of the
history. -/
structure MaximalRepeat (p : Packet) (m : MatchInfo) : Prop where
  repeats : Repeats p.memory m
  eleven_le : 11 ≤ m.matchLength
  first_le : p.historyOffset ≤ m.matchOffset
  end_le : m.matchOffset + m.matchLength ≤ p.historyOffset + p.srcSize
  chunk_le : m.chunkOffset ≤ p.historyBufferSize
  chunk_ne : m.chunkOffset ≠ m.matchOffset
  backward : m.matchOffset ≤ p.historyOffset + 1 ∨ m.chunkOffset ≤ 1 ∨
    p.memory (m.matchOffset - 1) ≠ p.memory (m.chunkOffset - 1)
  forward : m.matchOffset + m.matchLength = p.historyOffset + p.srcSize ∨
    p.memory (m.matchOffset + m.matchLength) ≠ p.memory (m.chunkOffset + m.matchLength)

/-- No maximal repeat sticks out seven to ten bytes behind another one that it overlaps. -/
def Apart (p : Packet) : Prop :=
  ∀ a b, MaximalRepeat p a → MaximalRepeat p b → b.matchOffset < a.matchOffset + a.matchLength →
    a.matchOffset + a.matchLength + 6 < b.matchOffset + b.matchLength →
    a.matchOffset + a.matchLength + 11 ≤ b.matchOffset + b.matchLength

theorem Matched.maximalRepeat (h : Matched p bound m) : MaximalRepeat p m := by
  have horiginal := h.original
  obtain ⟨offset, chunkOffset, hfirst, hlast, hchunk, htest, hfound⟩ := h
  have heq := hfound.chunk_eq
  have hle := hfound.match_le
  have hsize := hfound.size
  have hback := hfound.back_le
  refine ⟨horiginal.repeats, horiginal.eleven_le, horiginal.first_le, horiginal.end_le, by omega,
    by omega, ?_, ?_⟩
  · -- one more byte backwards would have been taken
    by_contra hmore
    push Not at hmore
    have hbackward : Backward p.memory p.historyOffset offset chunkOffset
        (offset - m.matchOffset + 1) := by
      intro d hd
      by_cases hlt : d < offset - m.matchOffset
      · exact hfound.back d hlt
      rw [show offset - 1 - d = m.matchOffset - 1 by omega,
        show chunkOffset - 1 - d = m.chunkOffset - 1 by omega]
      exact ⟨by omega, by omega, hmore.2.2⟩
    have := hfound.back_max _ hbackward
    omega
  -- and one more byte forwards
  by_contra hmore
  push Not at hmore
  have hend := horiginal.end_le
  have hforward : Forward p.memory (p.historyOffset + p.srcSize) offset chunkOffset
      (m.matchLength - (offset - m.matchOffset) + 1) := by
    intro d hd
    by_cases hlt : d < m.matchLength - (offset - m.matchOffset)
    · exact hfound.forward d hlt
    rw [show offset + d = m.matchOffset + m.matchLength by omega,
      show chunkOffset + d = m.chunkOffset + m.matchLength by omega]
    exact ⟨by omega, hmore.2⟩
  have := hfound.forward_max _ hforward
  omega

theorem Apart.separated (h : Apart p) (bound) : Separated p bound := by
  intro a b ha hb hover hout
  exact h a b ha.maximalRepeat hb.maximalRepeat hover hout

theorem finishCompress_status (hstatus : 0 ≤ l2.status) (hdata : data.length + 2 ≤ dst.length)
    (hdata' : l2.data.length ≤ data.length) :
    (finishCompress x src dst level1Flags data l2).status = 1 := by
  simp only [finishCompress]
  rw [if_neg (not_lt.mpr hstatus)]
  have houtput : ∀ raw : Prop, [Decidable raw] → (if raw then data else l2.data).length ≤
      data.length := by
    intro raw _
    split_ifs
    · exact le_rfl
    · exact hdata'
  have hfit := houtput (l2.status = 0 ∨ hasFlag l2.flags packetFlushed = true)
  by_cases hraw : (l2.status = 0 ∨ hasFlag l2.flags packetFlushed = true) ∧ data.length > l2.dstSize
  · rw [if_pos hraw]
  · rw [if_neg hraw, if_neg (by omega)]

/-- A call that returns 1, or fails and leaves the history offset, the chunk tables and the MPPC
context as they were. -/
def SucceedsOrKeeps (x : Context) (src dst : List UInt8) : Prop :=
  (compress x src dst).status = 1 ∨
    (compress x src dst).status < 0 ∧ (compress x src dst).context.historyOffset = x.historyOffset ∧
      (compress x src dst).context.chunks = x.chunks ∧ (compress x src dst).context.mppc = x.mppc

/-- A failure of level 1 leaves the history offset behind the packet. -/
theorem compress_of_level1_failure (hx : x.Ok) (hpos : 0 < src.length) (hlen : src.length ≤ 16384)
    (hdst : src.length + 2 ≤ dst.length) (hstatus : (compressL1 x src).status < 0) :
    (compress x src dst).status < 0 ∧
    (compress x src dst).context.historyOffset ≠ x.historyOffset := by
  obtain ⟨t', block', -, hcontext, -⟩ :=
    compressL1_spec hx.size_eq hlen (packetOf_ok hx.size_eq hlen) hx.chunks
  simp only [compress]
  rw [if_neg (not_lt.mpr hlen), if_neg (not_lt.mpr hdst), if_pos hstatus, hcontext]
  refine ⟨hstatus, ?_⟩
  change front x src.length + src.length ≠ x.historyOffset
  -- a packet goes to the front only when the offset is far behind it
  have hsize := hx.size_eq
  unfold front
  split_ifs
  · omega
  · omega

/-- **When a call succeeds or changes nothing**: exactly if the destination is too small, which is
found before anything is changed, or the matches pay.  They do for a packet shorter than 128 bytes,
for one without a repeat, and for one shorter than fifteen thousand bytes in which no maximal repeat
sticks out seven to ten bytes behind another one. -/
theorem compress_succeeds_or_keeps {x : Context} (hx : Reachable x) {src : List UInt8}
    (hmin : 50 < src.length) (hmax : src.length < 16384) (dst : List UInt8) :
    (SucceedsOrKeeps x src dst ↔ dst.length < src.length + 2 ∨ Pays x src) ∧
    (src.length < 128 ∨ (∀ m, ¬ MaximalRepeat (packetOf x src) m) ∨
      src.length < 15000 ∧ Apart (packetOf x src) → Pays x src) := by
  have hok := reachable_ok hx
  have hp := packetOf_ok hok.size_eq hmax.le
  obtain ⟨hok', -, hres⟩ := compressL1_ok hok hmax.le
  refine ⟨?_, ?_⟩
  · by_cases hdst : dst.length < src.length + 2
    · refine iff_of_true (Or.inr ?_) (Or.inl hdst)
      simp only [compress]
      rw [if_neg (by omega), if_pos hdst]
      exact ⟨show (-1002 : ℤ) < 0 by decide, rfl, rfl, rfl⟩
    rw [or_iff_right hdst, ← hres.status_nonneg_iff]
    rw [not_lt] at hdst
    constructor
    · intro h
      by_contra hneg
      obtain ⟨hstatus, hmoved⟩ :=
        compress_of_level1_failure hok (by omega) hmax.le hdst (not_le.mp hneg)
      rcases h with hone | ⟨-, hkept, -⟩
      · omega
      · exact hmoved hkept
    · intro hstatus
      obtain ⟨hle, heq⟩ := compress_eq hmax.le hdst hres hstatus
      obtain ⟨hstatus', -, -, hdata⟩ := level2_ok hok'.mppc hok'.level_eq hle hmax.le hdst
      left
      rw [heq]
      exact finishCompress_status hstatus' (by omega) hdata
  · rintro (hshort | hnone | ⟨hlen, hapart⟩)
    · exact pays_of_no_signature (computeSignatures_short hshort)
    · obtain ⟨_, _, ms, hfind, -, hmatched, -⟩ := findAllMatches_spec hp hok.chunks rfl
      have hnil : ms = [] := eq_nil_iff_forall_not_mem.mpr fun m hm =>
        hnone m (hmatched m hm).maximalRepeat
      exact pays_of_nil (by rw [foundMatches, hfind, hnil])
    · exact pays_of_separated hok.size_eq hp hok.chunks hlen (hapart.separated _)

/-- A packet of 160 bytes whose second half is the first one, sent by a new context: one match is
found and pays. -/
theorem compress_succeeds_or_keeps_run :
    let src : List UInt8 := (List.range 160).map fun i => UInt8.ofNat (i % 80 * (i % 80 + 1))
    foundMatches contextNew src = [⟨81, 1, 79⟩] ∧
      SucceedsOrKeeps contextNew src (List.replicate 200 0) := by
  intro src
  have hlength : src.length = 160 := by rw [length_map, length_range]
  have hpays : Pays contextNew src := by decide +kernel
  refine ⟨by decide +kernel, ?_⟩
  exact (compress_succeeds_or_keeps .new (by omega) (by omega) _).1.mpr (.inr hpays)

/-- **A failure that moves the history.** A packet of 181 bytes: its second match is cut down to
seven bytes, for which eight bytes of details are sent, and the output would be as long as the
packet.  The call fails, and the history offset stays behind the packet. -/
theorem failing_packet_moves_history :
    let src : List UInt8 :=
      [14, 23, 21, 92, 43, 78, 64, 54, 9, 40, 110, 100, 95, 113, 68, 9, 7, 93, 119,
        81, 97, 108, 42, 45, 60,
        59, 6, 45, 83, 44, 34, 92, 68, 114, 106, 93, 90, 92, 114, 41, 102, 118,
        63, 125, 71, 127, 90, 93,
        118, 89, 116, 124, 56, 83, 42, 68, 122, 79, 114, 41, 102, 118, 64, 125, 71,
        127, 90, 20, 27, 15, 12,
        69, 58, 27, 34, 68, 62, 53, 15, 108, 8, 14, 92, 92, 44, 63, 6, 21, 29, 17,
        6, 10, 5, 95, 65, 32, 40,
        47, 0, 98, 11, 63, 172, 9, 1, 88, 28, 73, 86, 125, 7, 78, 114, 11, 67, 102,
        39, 122, 57, 23, 80, 26,
        6, 114, 32, 100, 124, 83, 36, 87, 66, 67, 92, 68, 114, 106, 93, 90, 92,
        114, 41, 102, 118, 64, 125,
        71, 127, 90, 20, 27, 16, 12, 69, 58, 27, 34, 68, 62, 53, 15, 108, 8, 14,
        92, 92, 44, 63, 6, 21, 29, 17, 6, 10, 5, 95, 65, 32, 40, 47, 0, 98]
    (compress contextNew src (replicate 200 0)).status = -6006 ∧ contextNew.historyOffset = 0 ∧
      (compress contextNew src (replicate 200 0)).context.historyOffset = 181 := by
  decide +kernel

/-! ## The inner call -/

/-- The call of `mppc_compress` that `xcrush_compress` makes, if it makes one: what level 1 has
left, and what the call returns. -/
def innerCall (x : Context) (src dst : List UInt8) :
    Option (List UInt8 × Compressed Mppc.Context) :=
  if src.length > 16384 ∨ src.length + 2 > dst.length then none
  else
    let l1 := compressL1 x src
    if l1.status < 0 ∨ hasFlag l1.flags l1Compressed ∧ l1.data.length > src.length ∨
        ¬ hasFlag l1.flags l1Compressed ∧ l1.data.length ≠ src.length then none
    else if l1.data.length > 50 then
      some (l1.data, Mppc.compress l1.context.mppc l1.data ((dst.drop 2).take (src.length - 2)))
    else none

/-- The output of the inner call is sent: the flags contain `PACKET_COMPRESSED`, the level 2 flags
contain it too, and `PACKET_FLUSHED` when the inner history was restarted. -/
def Emits (x : Context) (src dst : List UInt8) (inner : Compressed Mppc.Context) : Prop :=
  (compress x src dst).status = 1 ∧ hasFlag (compress x src dst).flags packetCompressed = true ∧
    ∃ level1Flags level2Flags : UInt8,
      (compress x src dst).data = level1Flags :: level2Flags :: inner.data ∧
      hasFlag level2Flags.toNat packetCompressed = true ∧
      (hasFlag inner.flags packetFlushed = true → hasFlag level2Flags.toNat packetFlushed = true)

section Inner

variable {x : Context} {src dst data : List UInt8} {inner : Compressed Mppc.Context}

theorem compress_of_innerCall (hinner : innerCall x src dst = some (data, inner)) :
    src.length ≤ 16384 ∧ src.length + 2 ≤ dst.length ∧ 50 < data.length ∧ data.length ≤ src.length ∧
      data = (compressL1 x src).data ∧
      inner = Mppc.compress (compressL1 x src).context.mppc data
        ((dst.drop 2).take (src.length - 2)) ∧
      compress x src dst =
        finishCompress { (compressL1 x src).context with mppc := inner.context } src dst
        (compressL1 x src).flags data ⟨inner.status, inner.flags, inner.data.length, inner.data,
          inner.context⟩ := by
  simp only [innerCall] at hinner
  split_ifs at hinner with h1 h2 h3
  cases hinner
  push Not at h1 h2
  obtain ⟨hstatus, hlong, hshort⟩ := h2
  have hle : (compressL1 x src).data.length ≤ src.length := by
    by_cases hflag : hasFlag (compressL1 x src).flags l1Compressed = true
    · exact hlong hflag
    · exact (hshort hflag).le
  refine ⟨h1.1, h1.2, h3, hle, rfl, rfl, ?_⟩
  simp only [compress, level2]
  rw [if_neg (by omega), if_neg (by omega), if_neg (by omega), if_neg (fun h => by omega),
    if_neg (fun h => h.2 (hshort h.1)), if_pos h3]

/-- **When the output of the inner call is sent.** If the inner call compresses its data, the output
is sent if and only if the inner history was not flushed before. -/
theorem compress_emits_iff (hx : Reachable x)
    (hinner : innerCall x src dst = some (data, inner))
    (hcompressed : hasFlag inner.flags packetCompressed = true)
    (hshort : inner.data.length < data.length) :
    Emits x src dst inner ↔ x.mppc.historyOffset ≠ x.mppc.historyBufferSize + 1 := by
  obtain ⟨hmax, hdst, hlong, hle, hdata, heq, hcompress⟩ := compress_of_innerCall hinner
  obtain ⟨hok, hmppc, -⟩ := compressL1_ok (reachable_ok hx) hmax
  have hsize := hok.mppc_size
  have hroom : (dst.drop 2).take (src.length - 2) ≠ [] := by
    apply ne_nil_of_length_pos
    rw [length_take, length_drop]
    omega
  rw [hmppc] at heq hsize
  obtain ⟨-, -, hflushed⟩ := Mppc.flagsOf_tests (reachable_ok hx).mppc.level_le data.length
  rcases Mppc.compress_spec (reachable_ok hx).mppc
      (ne_nil_of_length_pos (show 0 < data.length by omega)) (by omega) hroom with
    hraw | ⟨ts, bytes, matchBuffer, pad, hcomp, -⟩
  · -- data that is left as it is comes without the flag
    rw [heq, hraw, (reachable_ok hx).level_eq] at hcompressed
    exact absurd hcompressed
      (show ¬ hasFlag (packetFlushed ||| 1) packetCompressed = true by decide)
  rw [hcomp] at heq
  have hstatus : inner.status = 1 := by rw [heq]
  have hflags : inner.flags = Mppc.flagsOf x.mppc data.length := by rw [heq]
  rw [← hflags] at hflushed
  by_cases hsticky : x.mppc.historyOffset = x.mppc.historyBufferSize + 1
  · -- the flag is taken for a failure
    have hflag : hasFlag inner.flags packetFlushed = true := by
      apply hflushed.mpr
      refine ⟨?_, hsticky⟩
      rintro ⟨hstays, -⟩
      omega
    constructor
    · rintro ⟨-, hsent, -⟩
      rw [hcompress, finishCompress_reset (by simp only [hstatus]; decide) (Or.inr hflag) hshort]
        at hsent
      exact absurd hsent (show ¬ hasFlag 0 packetCompressed = true by decide)
    · intro hne
      exact absurd hsticky hne
  have hflag : hasFlag inner.flags packetFlushed = false := by
    rw [← Bool.not_eq_true, hflushed]
    rintro ⟨-, heq⟩
    exact hsticky heq
  constructor
  · intro _
    exact hsticky
  intro _
  rw [Emits, hcompress, finishCompress_inner (by simp only [hstatus]; decide) hflag hcompressed
    (by simp only; omega)]
  refine ⟨rfl, show hasFlag (packetCompressed ||| 3) packetCompressed = true by decide,
    _, _, rfl, ?_, fun h => absurd h (by rw [hflag]; decide)⟩
  refine (hasFlag_toByte (show 5 < 8 by decide)).trans ?_
  refine (hasFlag_lor _ _ 5).trans ?_
  rw [show hasFlag inner.flags (2 ^ 5) = true from hcompressed, Bool.true_or]

end Inner

/-- A context whose inner history is in use: the second of two packets of zeros. -/
theorem compress_emits_iff_run :
    let x := (compress contextNew (List.replicate 60 0) (List.replicate 200 0)).context
    ∃ inner, innerCall x (List.replicate 70 0) (List.replicate 200 0) =
      some (List.replicate 70 0, inner) ∧
      (Emits x (List.replicate 70 0) (List.replicate 200 0) inner ↔
        x.mppc.historyOffset ≠ x.mppc.historyBufferSize + 1) := by
  intro x
  have hcall : (innerCall x (replicate 70 0) (replicate 200 0)).map (fun call =>
      (call.1, hasFlag call.2.flags packetCompressed, decide (call.2.data.length < 70))) =
      some (replicate 70 0, true, true) := by
    decide +kernel
  obtain ⟨⟨data, inner⟩, hinner, heq⟩ := Option.map_eq_some_iff.mp hcall
  simp only [Prod.mk.injEq] at heq
  obtain ⟨rfl, hflag, hshort⟩ := heq
  refine ⟨inner, hinner, ?_⟩
  exact compress_emits_iff (.compress _ _ .new) hinner hflag (by simpa using hshort)

/-- **A flush is sticky.** Sixty different bytes cannot be compressed and flush the inner history.
The sixty zeros after them are compressed by the inner call, and are sent as they are; and the inner
history is flushed again. -/
theorem flush_is_sticky :
    let x := (compress contextNew ((List.range 60).map fun i => UInt8.ofNat (128 + i))
      (List.replicate 200 0)).context
    let zeros : List UInt8 := List.replicate 60 0
    (innerCall x zeros (List.replicate 200 0)).map (fun call =>
      (call.1, hasFlag call.2.flags packetCompressed, decide (call.2.data.length < 60))) =
      some (zeros, true, true) ∧
    (compress x zeros (List.replicate 200 0)).flags = 0 ∧
    (compress x zeros (List.replicate 200 0)).data = zeros ∧
    (compress x zeros (List.replicate 200 0)).context.mppc.historyOffset = 65537 := by
  decide +kernel

end WBFreeRDP.Xcrush

/-
# The framing of the RDP8 compressor

What `zgfx_compress_to_stream` frames, `zgfx_decompress` takes apart again.  The number of segments
and their sizes are filled in behind the sender's back, at positions it has kept.
-/
import WBFreeRDP.Zgfx

namespace WBFreeRDP.Zgfx

open History List

/-! ## Frames -/

/-- A plain segment: its header and its bytes. -/
def segmentData (chunk : List UInt8) : List UInt8 := 0x04 :: chunk

def segmentFrame (chunk : List UInt8) : List UInt8 :=
  leBytes 4 (segmentData chunk).length ++ segmentData chunk

def single (data : List UInt8) : List UInt8 := segmentedSingle :: segmentData data

def multipart (uncompressedSize : ℕ) (chunks : List (List UInt8)) : List UInt8 :=
  segmentedMultipart :: leBytes 2 chunks.length ++ leBytes 4 uncompressedSize ++
    (chunks.map segmentFrame).flatten

/-- The chunks of the sender: none is empty and none too long. -/
def Chunked (chunks : List (List UInt8)) : Prop :=
  ∀ chunk ∈ chunks, chunk ≠ [] ∧ chunk.length ≤ segmentedMaxSize

/-! ## The sender -/

section Sender

variable {s : WStream} {chunk : List UInt8}

theorem compressSegment_spec {flags} (hflags : flags ||| packetComprTypeRdp8 = 4)
    (hchunk : chunk.length ≤ segmentedMaxSize) (hroom : s.position ≤ 2 ^ 63) :
    ∃ s', compressSegment s chunk flags = some (s', 4) ∧
    s'.filled = s.filled ++ segmentData chunk := by
  have hsize : segmentedMaxSize = 65535 := rfl
  have hmax : sizeMax = 2 ^ 64 - 1 := rfl
  obtain ⟨s1, hs1, hfilled, -⟩ := s.ensureRemainingCapacity_spec (chunk.length + 1) (by omega)
  refine ⟨(s1.append [0x04]).append chunk, ?_, ?_⟩
  · rw [compressSegment, hs1, Option.bind_some]
    simp only [hflags]
    rfl
  · rw [WStream.append_filled, WStream.append_filled, hfilled, append_assoc]
    rfl

theorem writeFragment_spec {flags} (hflags : flags ||| packetComprTypeRdp8 = 4)
    (hchunk : chunk.length ≤ segmentedMaxSize) (hroom : s.position + 4 ≤ 2 ^ 63)
    (hcapacity : s.position + 4 ≤ s.buffer.length) :
    ∃ s', writeFragment s chunk true flags = some (s', 4) ∧
      s'.filled = s.filled ++ segmentFrame chunk := by
  obtain ⟨s1, hs1, -, hposition, hole, hhole, hfilled1⟩ := s.seek_spec hcapacity
  obtain ⟨s2, hs2, hfilled2⟩ := compressSegment_spec (s := s1) hflags hchunk (by omega)
  have hsize : segmentedMaxSize = 65535 := rfl
  have hmax : uint32Max = 2 ^ 32 - 1 := rfl
  have hdata : (segmentData chunk).length = chunk.length + 1 := rfl
  have hsplit : s2.filled = s.filled ++ hole ++ segmentData chunk := by rw [hfilled2, hfilled1]
  have hdst : s2.position - s1.position = (segmentData chunk).length := by
    rw [← s2.filled_length, ← s1.filled_length, hfilled2, length_append, Nat.add_sub_cancel_left]
  have hend : s1.position + (segmentData chunk).length = s2.position := by
    omega
  obtain ⟨s3, s4, hs3, hs4, -, hfilled4, -⟩ :=
    s2.patch_spec (leBytes 4 (segmentData chunk).length) hsplit (by rw [hhole, leBytes_length])
  refine ⟨s4, ?_, ?_⟩
  · rw [s.filled_length] at hs3
    have hfill : fillSize s2 s.position s1.position = some s4 := by
      unfold fillSize
      rw [hdst, if_neg (by omega), hs3, Option.bind_some, hend, hs4]
    rw [writeFragment, hs1]
    simp only [Option.bind_some]
    rw [hs2, Option.bind_some, hfill]
    rfl
  · rw [hfilled4, segmentFrame, append_assoc]

theorem writeHeader_single (s uncompressedSize) :
    writeHeader s uncompressedSize 0 = some (s.append [segmentedSingle], 0) := rfl

theorem writeHeader_multipart
    (hmore : 0 < totalLength) : writeHeader s uncompressedSize totalLength =
      ((s.append [segmentedMultipart]).seek 2).map fun s' =>
        (s'.append (leBytes 4 uncompressedSize), (s.append [segmentedMultipart]).position) := by
  unfold writeHeader
  rw [if_neg (ne_of_gt hmore)]
  exact if_pos hmore

/-- The next fragment: its size, and what is left of the source. -/
theorem take_fragment (source : List UInt8) :
    (if source.length > segmentedMaxSize then segmentedMaxSize else source.length) ≤
      segmentedMaxSize ∧ (0 < source.length →
        0 < if source.length > segmentedMaxSize then segmentedMaxSize else source.length) := by
  have hsize : segmentedMaxSize = 65535 := rfl
  constructor
  · split <;> omega
  · split <;> omega

variable {uncompressedSize : ℕ}

theorem compressFragment_next {st} (hfragment : 0 < st.fragment)
    (hflags : st.flags = 4) (hsource : 0 < st.source.length) (hroom : st.sDst.position ≤ 2 ^ 62) :
    ∃ chunk st', compressFragment uncompressedSize st = some st' ∧ chunk ++ st'.source = st.source ∧
      chunk ≠ [] ∧ chunk.length ≤ segmentedMaxSize ∧
        (st'.source ≠ [] → chunk.length = segmentedMaxSize) ∧
          st'.sDst.filled = st.sDst.filled ++ segmentFrame chunk ∧ st'.fragment = st.fragment + 1 ∧
            st'.posSegmentCount = st.posSegmentCount ∧ st'.flags = 4 := by
  have hmax : sizeMax = 2 ^ 64 - 1 := rfl
  obtain ⟨hle, hpos⟩ := take_fragment st.source
  generalize hsrc : (if st.source.length > segmentedMaxSize then segmentedMaxSize
    else st.source.length) =
    srcSize at hle hpos
  obtain ⟨s1, hs1, hfilled1, hposition1⟩ := st.sDst.ensureRemainingCapacity_spec 12 (by omega)
  have hcapacity := WStream.ensureRemainingCapacity_room hs1
  have hchunk : (st.source.take srcSize).length ≤ segmentedMaxSize := by
    rw [length_take]
    omega
  obtain ⟨s2, hs2, hfilled2⟩ := @writeFragment_spec s1 _ st.flags (by rw [hflags]; rfl)
    hchunk (by omega) (by omega)
  refine ⟨st.source.take srcSize,
    ⟨s2, st.source.drop srcSize, st.fragment + 1, st.posSegmentCount, 4⟩,
    ?_, take_append_drop _ _, ?_, hchunk, ?_, ?_, rfl, rfl, rfl⟩
  · unfold compressFragment
    simp only [hsrc]
    rw [hs1, Option.bind_some, if_neg (by omega), Option.bind_some]
    rw [decide_eq_true (show st.fragment > 0 ∨ st.source.length - srcSize > 0 from .inl hfragment)]
    rw [hs2]
    rfl
  · intro hnil
    have := congrArg List.length hnil
    rw [length_take, length_nil] at this
    omega
  · intro hmore
    have hleft : 0 < (st.source.drop srcSize).length := length_pos_of_ne_nil hmore
    rw [length_drop] at hleft
    rw [length_take]
    split at hsrc <;> omega
  · rw [hfilled2, hfilled1]

/-- **The rounds after the first one** write the frames of the chunks, all of them full but the
last. -/
theorem compressLoop_next (fuel : ℕ) : ∀ {st}, 0 < st.fragment →
    st.flags = 4 → st.source.length ≤ fuel → st.sDst.position + 6 * st.source.length ≤ 2 ^ 62 →
    ∃ chunks st', compressLoop uncompressedSize fuel st = some st' ∧ chunks.flatten = st.source ∧
      Chunked chunks ∧ segmentedMaxSize * chunks.length < st.source.length + segmentedMaxSize ∧
        st'.sDst.filled = st.sDst.filled ++ (chunks.map segmentFrame).flatten ∧
          st'.fragment = st.fragment + chunks.length ∧
          st'.posSegmentCount = st.posSegmentCount := by
  induction fuel with
  | zero =>
    intro st _ _ hfuel _
    refine ⟨[], st, rfl, ?_, ?_, ?_, ?_, rfl, rfl⟩
    · exact (length_eq_zero_iff.mp (Nat.le_zero.mp hfuel)).symm
    · intro chunk hchunk
      cases hchunk
    · exact Nat.lt_of_lt_of_le (by decide) (Nat.le_add_left _ _)
    · rw [map_nil, flatten_nil, append_nil]
  | succ fuel ih =>
  intro st hfragment hflags hfuel hroom
  have hsize : segmentedMaxSize = 65535 := rfl
  by_cases hsource : 0 < st.source.length
  · obtain ⟨chunk, st1, hst1, hsplit, hne, hchunk, hfull, hfilled, hfragment1, hcount, hflags1⟩ :=
      @compressFragment_next uncompressedSize _ hfragment hflags hsource (by omega)
    have hlength : chunk.length + st1.source.length = st.source.length := by
      rw [← hsplit, length_append]
    have hpos := length_pos_of_ne_nil hne
    have hframe : (segmentFrame chunk).length = chunk.length + 5 := by
      rw [segmentFrame, length_append, leBytes_length, segmentData, length_cons]
      omega
    have hposition : st1.sDst.position = st.sDst.position + (chunk.length + 5) := by
      rw [← st1.sDst.filled_length, hfilled, length_append, st.sDst.filled_length, hframe]
    obtain ⟨chunks, st2, hst2, hflat, hchunked, hcounted, hfilled2, hfragment2, hcount2⟩ :=
      @ih st1 (by omega) hflags1 (by omega) (by omega)
    refine ⟨chunk :: chunks, st2, ?_, ?_, ?_, ?_, ?_, ?_, hcount2.trans hcount⟩
    · rw [compressLoop, if_pos (.inl hsource), hst1, Option.bind_some, hst2]
    · rw [flatten_cons, hflat, hsplit]
    · intro c hc
      rcases mem_cons.mp hc with rfl | hc
      · exact ⟨hne, hchunk⟩
      · exact hchunked c hc
    · -- a chunk that is not the last one is full
      rw [hsize] at hcounted hfull ⊢
      rw [length_cons]
      by_cases hmore : st1.source = []
      · rw [hmore, length_nil] at hcounted hlength
        omega
      · rw [hfull hmore] at hlength
        omega
    · rw [hfilled2, hfilled, map_cons, flatten_cons, append_assoc]
    · rw [length_cons]
      omega
  · refine ⟨[], st, ?_, ?_, ?_, ?_, ?_, rfl, rfl⟩
    · rw [compressLoop, if_neg (by omega)]
    · exact (length_eq_zero_iff.mp (by omega)).symm
    · intro chunk hchunk
      cases hchunk
    · rw [length_nil]
      omega
    · rw [map_nil, flatten_nil, append_nil]

end Sender

variable {s : WStream}

/-- A message of one segment. -/
theorem compressToStream_single (hs : s.position ≤ 2 ^ 61) {data}
    (hsingle : data.length ≤ segmentedMaxSize) :
    ∃ s', compressToStream s data 0 = some s' ∧ s'.filled = s.filled ++ single data := by
  have hmax : sizeMax = 2 ^ 64 - 1 := rfl
  obtain ⟨s1, hs1, hfilled1, hposition1⟩ := s.ensureRemainingCapacity_spec 12 (by omega)
  obtain ⟨s2, hs2, hfilled2⟩ := @compressSegment_spec (s1.append [segmentedSingle]) data 0 rfl
    hsingle (by
      rw [← WStream.filled_length, WStream.append_filled, hfilled1, length_append, s.filled_length,
        length_singleton]
      omega)
  have hfragment : compressFragment data.length ⟨s, data, 0, 0, 0⟩ = some ⟨s2, [], 1, 0, 4⟩ := by
    unfold compressFragment
    simp only [if_neg (show ¬data.length > segmentedMaxSize by omega), Nat.sub_self]
    rw [hs1, Option.bind_some, if_pos trivial, writeHeader_single, Option.bind_some, writeFragment]
    simp only [List.take_length, List.drop_length]
    rw [hs2]
    rfl
  have hdone : compressLoop data.length data.length ⟨s2, [], 1, 0, 4⟩ = some ⟨s2, [], 1, 0, 4⟩ := by
    rcases data.length with _ | n
    · rfl
    rw [compressLoop, if_neg]
    rintro (h | h)
    · cases h
    · cases h
  refine ⟨s2.sealLength, ?_, ?_⟩
  · rw [compressToStream, compressLoop, if_pos (.inr rfl), hfragment, Option.bind_some, hdone]
    rfl
  · rw [WStream.sealLength_filled, hfilled2, WStream.append_filled, hfilled1, append_assoc]
    rfl

/-- The first round of a message of several segments leaves a hole for their number. -/
theorem compressFragment_first (hs : s.position ≤ 2 ^ 61) (hmany : segmentedMaxSize < data.length) :
    ∃ hole st, hole.length = 2 ∧ compressFragment data.length ⟨s, data, 0, 0, 0⟩ = some st ∧
      st.source = data.drop segmentedMaxSize ∧ st.fragment = 1 ∧
        st.posSegmentCount = s.position + 1 ∧ st.flags = 4 ∧
        st.sDst.filled = s.filled ++ segmentedMultipart :: hole ++ leBytes 4 data.length ++
          segmentFrame (data.take segmentedMaxSize) := by
  have hmax : sizeMax = 2 ^ 64 - 1 := rfl
  obtain ⟨s1, hs1, hfilled1, hposition1⟩ := s.ensureRemainingCapacity_spec 12 (by omega)
  have hroom1 := WStream.ensureRemainingCapacity_room hs1
  have hposition2 : (s1.append [segmentedMultipart]).position = s.position + 1 := by
    rw [← WStream.filled_length, WStream.append_filled, hfilled1, length_append, s.filled_length,
      length_singleton]
  have hroom2 := s1.le_append_length [segmentedMultipart]
  obtain ⟨s3, hs3, hbuffer3, hposition3, hole, hhole, hfilled3⟩ :=
    @WStream.seek_spec (s1.append [segmentedMultipart]) 2 (by omega)
  have hroom4 := s3.le_append_length (leBytes 4 data.length)
  have hposition4 : (s3.append (leBytes 4 data.length)).position = s.position + 7 := by
    rw [← WStream.filled_length, WStream.append_filled, length_append, s3.filled_length, hposition3,
      hposition2, leBytes_length]
  obtain ⟨s5, hs5, hfilled5⟩ := @writeFragment_spec (s3.append (leBytes 4 data.length))
    (data.take segmentedMaxSize) 0 rfl (by rw [length_take]; omega)
    (by omega) (by rw [hbuffer3] at hroom4; omega)
  refine ⟨hole, ⟨s5, data.drop segmentedMaxSize, 1, s.position + 1, 4⟩, hhole,
    ?_, rfl, rfl, rfl, rfl, ?_⟩
  · obtain ⟨totalLength, htotal⟩ : ∃ n, data.length - segmentedMaxSize = n := ⟨_, rfl⟩
    have hmore : 0 < totalLength := by omega
    unfold compressFragment
    simp only [if_pos hmany, htotal]
    rw [hs1, Option.bind_some, if_pos trivial, writeHeader_multipart hmore, hposition2, hs3]
    simp only [Option.map_some, Option.bind_some]
    rw [decide_eq_true (show 0 > 0 ∨ totalLength > 0 from .inr hmore), hs5, Option.map_some]
  · rw [hfilled5, WStream.append_filled, hfilled3, WStream.append_filled, hfilled1]
    simp

/-- A message of several segments. -/
theorem compressToStream_multipart (hs : s.position ≤ 2 ^ 61)
    (hmany : segmentedMaxSize < data.length) (hmax : data.length ≤ 65535 * 65535) :
    ∃ chunks s', compressToStream s data 0 = some s' ∧
      s'.filled = s.filled ++ multipart data.length chunks ∧
      chunks.flatten = data ∧ Chunked chunks ∧ chunks.length ≤ 65535 := by
  have hsize : segmentedMaxSize = 65535 := rfl
  obtain ⟨hole, st, hhole, hst, hsource, hfragment, hcount, hflags, hfilled⟩ :=
    compressFragment_first hs hmany
  have htake : (data.take segmentedMaxSize).length = segmentedMaxSize := by
    rw [length_take]
    omega
  have hdrop : st.source.length = data.length - segmentedMaxSize := by rw [hsource, length_drop]
  have hposition : st.sDst.position = s.position + segmentedMaxSize + 12 := by
    rw [← WStream.filled_length, hfilled]
    simp only [length_append, length_cons, leBytes_length, segmentFrame,
      segmentData, s.filled_length]
    omega
  obtain ⟨chunks, st', hst', hflat, hchunked, hcounted, hfilled', hfragment', hcount'⟩ :=
    @compressLoop_next data.length data.length st (by omega) hflags (by omega)
      (by omega)
  have hlength : chunks.length + 1 ≤ 65535 := by
    rw [hsize] at hcounted hdrop
    omega
  have hall : st'.sDst.sealLength.filled = (s.filled ++ [segmentedMultipart]) ++ hole ++
      (leBytes 4 data.length ++
        ((data.take segmentedMaxSize :: chunks).map segmentFrame).flatten) := by
    rw [WStream.sealLength_filled, hfilled', hfilled]
    simp
  obtain ⟨s1, s2, hs1, hs2, hlength1, hfilled2, -⟩ := st'.sDst.sealLength.patch_spec
    (leBytes 2 st'.fragment) hall (by rw [hhole, leBytes_length])
  refine ⟨data.take segmentedMaxSize :: chunks, s2, ?_, ?_, ?_, ?_, hlength⟩
  · rw [length_append, s.filled_length] at hs1
    rw [compressToStream, compressLoop, if_pos (.inr rfl), hst, Option.bind_some,
      hst', Option.bind_some, fillCount, hcount', hcount]
    simp only
    rw [if_pos (Nat.succ_ne_zero _),
      show s.position + 1 = s.position + [segmentedMultipart].length from rfl,
      hs1, Option.bind_some, if_neg (by omega), hlength1]
    exact hs2
  · rw [hfilled2, multipart, hfragment', hfragment, add_comm 1]
    simp
  · rw [flatten_cons, hflat, hsource, take_append_drop]
  · intro chunk hchunk
    rcases mem_cons.mp hchunk with rfl | hchunk
    · refine ⟨?_, by omega⟩
      intro hnil
      rw [hnil, length_nil] at htake
      omega
    · exact hchunked chunk hchunk

/-! ## The receiver -/

theorem decompressSegment_data (zgfx) (hne : chunk ≠ [])
    (hchunk : chunk.length ≤ segmentedMaxSize) (rest) :
    ∃ zgfx', decompressSegment zgfx (segmentData chunk ++ rest) (segmentData chunk).length =
      some (true, zgfx') ∧ zgfx'.output = chunk := by
  have hsize : segmentedMaxSize = 65535 := rfl
  have hmax : uint32Max = 2 ^ 32 - 1 := rfl
  have hout : outputBufferSize = 65536 := rfl
  have hpos := length_pos_of_ne_nil hne
  have hdata : (segmentData chunk).length = chunk.length + 1 := rfl
  have hsegment : ((segmentData chunk ++ rest).take (segmentData chunk).length).tail = chunk := by
    rw [take_left' rfl]
    rfl
  refine ⟨{ zgfx with output := chunk, history := zgfx.history.ringWrite chunk }, ?_, rfl⟩
  unfold decompressSegment
  rw [if_neg (by omega), if_neg (by rw [length_append]; omega)]
  simp only [hsegment]
  rw [if_pos (show ((segmentData chunk ++ rest).headD 0).toNat &&& packetCompressed = 0 from by
    change (4 : UInt8).toNat &&& packetCompressed = 0
    decide), if_neg (by omega)]

theorem append_eq
    (hsize : concatenated.length + output.length ≤ uncompressedSize)
    (hmax : uncompressedSize ≤ uint32Max) :
    append output concatenated uncompressedSize = some (concatenated ++ output) := by
  rw [append, if_neg (by omega), if_neg (by omega)]

/-- **The frames are taken apart.** -/
theorem decompressSegments_frames (hmax : uncompressedSize ≤ uint32Max)
    (chunks : List (List UInt8)) : ∀ zgfx concatenated, Chunked chunks →
      concatenated.length + chunks.flatten.length ≤ uncompressedSize →
      ∃ zgfx', decompressSegments uncompressedSize chunks.length zgfx
        (chunks.map segmentFrame).flatten
        concatenated = some (some (concatenated ++ chunks.flatten), zgfx') := by
  induction chunks with
  | nil =>
    intro zgfx concatenated _ _
    refine ⟨zgfx, ?_⟩
    rw [flatten_nil, append_nil]
    rfl
  | cons chunk chunks ih =>
  intro zgfx concatenated hchunked hlength
  obtain ⟨hne, hchunk⟩ := hchunked chunk mem_cons_self
  rw [flatten_cons, length_append] at hlength
  obtain ⟨zgfx1, hsegment, houtput⟩ :=
    decompressSegment_data zgfx hne hchunk (chunks.map segmentFrame).flatten
  obtain ⟨zgfx2, hrest⟩ := ih zgfx1 (concatenated ++ chunk)
    (fun c hc => hchunked c (mem_cons_of_mem _ hc))
    (by rw [length_append]; omega)
  have hsize : (segmentData chunk).length < 256 ^ 4 := by
    have hsize : segmentedMaxSize = 65535 := rfl
    have hdata : (segmentData chunk).length = chunk.length + 1 := rfl
    omega
  refine ⟨zgfx2, ?_⟩
  rw [length_cons, map_cons, flatten_cons, segmentFrame, append_assoc,
    decompressSegments, readLE_leBytes hsize]
  simp only
  rw [hsegment, Option.bind_some]
  simp only [houtput]
  rw [append_eq (by omega) hmax]
  simp only
  rw [drop_left' rfl, hrest, flatten_cons, append_assoc]

/-- **Framing round-trips**: every message that is not empty and has no more than 65535 segments of
65535 bytes is framed behind what the stream holds, and in whatever context the receiver is it takes
the same bytes out of the frame. -/
theorem framing_round_trip (zgfx : Context) (s : WStream) (hs : s.position ≤ 2 ^ 61)
    (data : List UInt8) (hne : data ≠ []) (hmax : data.length ≤ 65535 * 65535) :
    ∃ s' frame, compressToStream s data 0 = some s' ∧ s'.filled = s.filled ++ frame ∧
      ∃ zgfx', decompress zgfx frame = some (some data, zgfx') := by
  have hmax' : uint32Max = 2 ^ 32 - 1 := rfl
  by_cases hmany : segmentedMaxSize < data.length
  · obtain ⟨chunks, s', hs', hfilled, hflat, hchunked, hcount⟩ :=
      compressToStream_multipart hs hmany hmax
    obtain ⟨zgfx', hsegments⟩ := @decompressSegments_frames data.length (by omega)
      chunks zgfx [] hchunked (by rw [hflat, length_nil]; omega)
    refine ⟨s', _, hs', hfilled, zgfx', ?_⟩
    rw [multipart, cons_append, cons_append, decompress, if_neg (by decide),
      decompressMultipart, append_assoc, readLE_leBytes (by omega)]
    simp only
    rw [readLE_leBytes (by omega)]
    simp only
    rw [hsegments, hflat]
    simp
  · obtain ⟨s', hs', hfilled⟩ := @compressToStream_single _ hs data (by omega)
    obtain ⟨zgfx', hsegment, houtput⟩ := decompressSegment_data zgfx hne (by omega) []
    refine ⟨s', _, hs', hfilled, zgfx', ?_⟩
    rw [append_nil] at hsegment
    rw [single, decompress, decompressSingle, hsegment, Option.map_some]
    simp only [houtput]
    rw [append_eq (by rw [length_nil, zero_add]) (by omega)]
    simp

/-- A message of two segments behind a byte. -/
theorem framing_round_trip_bytes : ∃ s' frame,
    compressToStream ⟨[9], 1, 1, Nat.le_refl 1⟩ (replicate 70000 7) 0 = some s' ∧
    s'.filled = [9] ++ frame ∧
      ∃ zgfx', decompress contextNew frame = some (some (replicate 70000 7), zgfx') :=
  framing_round_trip contextNew ⟨[9], 1, 1, le_refl 1⟩ (by decide) (replicate 70000 7)
    (replicate_succ ▸ cons_ne_nil _ _) (length_replicate.trans_le (by omega))

end WBFreeRDP.Zgfx

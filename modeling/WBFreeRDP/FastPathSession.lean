/-
# Fast-path sessions

An update passes three layers: `fastpath.c` cuts it into PDUs, `bulk.c` compresses the data of each
PDU, and on the other side `transport.c` cuts the byte stream into PDUs again.  With RDP5 or RDP6
compression every update of a session arrives, however the reads split the stream.
-/
import WBFreeRDP.FastPath
import WBFreeRDP.MppcLossless
import WBFreeRDP.NcrushLossless
import WBFreeRDP.TransportCut
import WBFreeRDP.Xcrush

namespace WBFreeRDP.FastPath

open WBFreeRDP.Bulk WBFreeRDP.Transport

/-! ## The bulk layer -/

/-- One direction of `rdpBulk`: the contexts, and how often `OutputBuffer` was used. -/
structure BulkContext where
  mppc : Mppc.Context
  ncrush : Ncrush.Context
  xcrush : Xcrush.Context
  calls : ℕ

def bulkNew : Option BulkContext :=
  Ncrush.contextNew.map fun ncrush => ⟨Mppc.contextNew 1, ncrush, Xcrush.contextNew, 0⟩

/-- What a compressor gives, unless its status is negative. -/
def ofCompressed {C : Type} (c : Compressed C) : Option (List UInt8 × ℕ) :=
  if c.status < 0 then none else some (c.data, c.flags)

/-- `bulk_compress`; `outputBuffer n` is what `OutputBuffer` holds at its use number `n`. -/
def bulkCompress (compressionLevel : ℕ) (outputBuffer : ℕ → Vector UInt8 65536) (bulk : BulkContext)
    (src : List UInt8) : Option (List UInt8 × ℕ) × BulkContext :=
  if src.length ≤ 50 ∨ src.length ≥ 16384 then (some (src, 0), bulk)
  else
    let dst := (outputBuffer bulk.calls).toList
    let bulk := { bulk with calls := bulk.calls + 1 }
    -- levels above RDP61 are taken for RDP61
    if compressionLevel ≤ 1 then
      let c := Mppc.compress (Mppc.setCompressionLevel bulk.mppc compressionLevel) src dst
      (ofCompressed c, { bulk with mppc := c.context })
    else if compressionLevel = 2 then
      let c := Ncrush.compress bulk.ncrush src dst.length
      (ofCompressed c, { bulk with ncrush := c.context })
    else
      let c := Xcrush.compress bulk.xcrush src dst
      (ofCompressed c, { bulk with xcrush := c.context })

def ofDecompressed {C : Type} (d : Decompressed C) : Option (List UInt8) :=
  if d.status < 0 then none else some d.data

/-- The switch of `bulk_decompress` over the type in the flags. -/
def bulkCodec (bulk : BulkContext) (src : List UInt8) (flags : ℕ) :
    Option (List UInt8) × BulkContext :=
  let type := flags &&& 0x0F
  if type ≤ 1 then
    let d := Mppc.decompress (Mppc.setCompressionLevel bulk.mppc type) src flags
    (ofDecompressed d, { bulk with mppc := d.context })
  else if type = 2 then
    let d := Ncrush.decompress bulk.ncrush src flags
    (ofDecompressed d, { bulk with ncrush := d.context })
  else if type = 3 then
    let d := Xcrush.decompress bulk.xcrush src flags
    (ofDecompressed d, { bulk with xcrush := d.context })
  else (none, bulk)

/-- The bulk layer of the source. -/
def rdpBulk (compressionLevel : ℕ) (outputBuffer : ℕ → Vector UInt8 65536) :
    Bulk BulkContext BulkContext :=
  ⟨bulkCompress compressionLevel outputBuffer, bulkCodec⟩

/-- The two sides are in step, for RDP5 with its 64K history and for RDP6. -/
structure BulkInStep (s r : BulkContext) : Prop where
  mppc : Mppc.Sync s.mppc r.mppc
  level_eq : s.mppc.compressionLevel = 1
  ncrush : Ncrush.Sync s.ncrush r.ncrush

theorem bulkInStep_new : ∃ bulk, bulkNew = some bulk ∧ BulkInStep bulk bulk := by
  obtain ⟨ncrush, hnew, hsync⟩ := Ncrush.sync_new
  exact ⟨_, by rw [bulkNew, hnew]; rfl, Mppc.sync_new 1, rfl, hsync⟩

theorem setCompressionLevel_one {c : Mppc.Context} (hlevel : c.compressionLevel = 1)
    (hsize : c.historyBufferSize = 65536) : Mppc.setCompressionLevel c 1 = c := by
  obtain ⟨_, _, _, _, _, _⟩ := c
  subst hlevel hsize
  rfl

variable {src : List UInt8} {s r : BulkContext} {outputBuffer : ℕ → Vector UInt8 65536}

/-- Data of a compressor for `src`, with flags that the peer takes to the same codec. -/
structure Marked (type : ℕ) (src data : List UInt8) (flags : ℕ) : Prop where
  length_le : data.length ≤ src.length
  byte : flags < 256
  type_eq : flags &&& 0x0F = type
  compressed : flags &&& bulkCompressionFlagsMask ≠ 0

theorem mppc_marked {c : Mppc.Context} {dst} (hc : Mppc.SenderOk c)
    (hlevel : c.compressionLevel = 1)
    (hne : src ≠ []) (hlen : src.length < 16384) (hdst : dst ≠ []) :
    Marked 1 src (Mppc.compress c src dst).data (Mppc.compress c src dst).flags ∧
      (Mppc.compress c src dst).context.compressionLevel = 1 := by
  have hsize : c.historyBufferSize = 65536 := by rw [hc.size_eq, hlevel]; rfl
  rcases Mppc.compress_spec hc hne (by omega) hdst with h
    | ⟨ts, data, mb, pad, h, -, -, -, hdata, -⟩
  · rw [h, hlevel]
    exact ⟨show Marked 1 src src 0x81 from ⟨le_rfl, by decide, by decide, by decide⟩, hlevel⟩
  · rw [h]
    simp only [Mppc.flagsOf, hlevel]
    refine ⟨⟨hdata.le, ?_, ?_, ?_⟩, trivial⟩ <;> split_ifs <;> decide

theorem ncrush_marked {c d : Ncrush.Context} (h : Ncrush.Sync c d) (hlen : src.length < 16384) :
    Marked 2 src (Ncrush.compress c src 65536).data (Ncrush.compress c src 65536).flags := by
  obtain ⟨c1, front, d1, hmake, -, -, hready⟩ := h.makeRoom hlen
  have hfront : front = 0 ∨ front = packetAtFront ∨ front = packetFlushed := by
    unfold Ncrush.makeRoom at hmake
    split_ifs at hmake
    · cases hmake
      exact .inr (.inr rfl)
    · obtain ⟨_, -, heq⟩ := Option.map_eq_some_iff.mp hmake
      cases heq
      exact .inr (.inl rfl)
    · cases hmake
      exact .inl rfl
  have hcompress : Ncrush.compress c src 65536 = Ncrush.sent (Ncrush.addPacket c1 src) src front
      (Ncrush.encode (Ncrush.paramsOf c1 src) src (Ncrush.sendingOf c1 src)) := by
    simp only [Ncrush.compress, hmake, if_neg (show ¬ 65536 < src.length by omega)]
    rfl
  rw [hcompress]
  rcases Ncrush.encode_spec hready.params hready.sendInv with henc |
    ⟨ts, st', data, henc, -, hptr, -, -, -, hdata⟩
  · rw [henc]
    exact show Marked 2 src src 0x82 from ⟨le_rfl, by decide, by decide, by decide⟩
  have hroom := hready.room
  have hsize : (Ncrush.addPacket c1 src).historyBufferSize = 65536 := hready.size_eq
  have hhigh : (Ncrush.paramsOf c1 src).high = c1.historyOffset + src.length := rfl
  have hend : (Ncrush.paramsOf c1 src).dstEnd = src.length - 1 := rfl
  have hle : data.length ≤ src.length := by omega
  rw [henc, Ncrush.sent, if_neg (by omega), if_neg (by omega)]
  rcases hfront with rfl | rfl | rfl
  · exact show Marked 2 src data 0x22 from ⟨hle, by decide, by decide, by decide⟩
  · exact show Marked 2 src data 0x62 from ⟨hle, by decide, by decide, by decide⟩
  · exact show Marked 2 src data 0xA2 from ⟨hle, by decide, by decide, by decide⟩

/-- **One call of the bulk layer**: the packet is left as it is, or the peer restores it. -/
theorem bulkCompress_spec (level : ℕ) (hlevel : level = 1 ∨ level = 2) (h : BulkInStep s r) :
    bulkCompress level outputBuffer s src = (some (src, 0), s) ∨
      ∃ data flags s' r', bulkCompress level outputBuffer s src = (some (data, flags), s') ∧
        Marked level src data flags ∧ bulkCodec r data flags = (some src, r') ∧
        BulkInStep s' r' := by
  by_cases hsize : src.length ≤ 50 ∨ src.length ≥ 16384
  · exact .inl (by rw [bulkCompress, if_pos hsize])
  have hne : src ≠ [] := List.length_pos_iff.mp (by omega)
  have hmax : src.length < 16384 := by omega
  right
  rcases hlevel with rfl | rfl
  · have hs : s.mppc.historyBufferSize = 65536 := by rw [h.mppc.sender.size_eq, h.level_eq]; rfl
    have hsame := setCompressionLevel_one h.level_eq hs
    have hr := setCompressionLevel_one (h.mppc.level_eq.trans h.level_eq) (h.mppc.size_eq.trans hs)
    have hdst : (outputBuffer s.calls).toList ≠ [] := by simp
    obtain ⟨hstatus, hdec, hdata, hsync, -⟩ := Mppc.sync_step h.mppc hne (by omega) hdst
    obtain ⟨hmark, hkept⟩ := mppc_marked h.mppc.sender h.level_eq hne hmax hdst
    set c := Mppc.compress s.mppc src (outputBuffer s.calls).toList with hc
    have hcall : bulkCompress 1 outputBuffer s src =
        (some (c.data, c.flags), { s with calls := s.calls + 1, mppc := c.context }) := by
      simp only [bulkCompress, if_neg hsize, hsame, ← hc, ofCompressed, hstatus]
      rfl
    have hcodec : bulkCodec r c.data c.flags =
        (some src, { r with mppc := (Mppc.decompress r.mppc c.data c.flags).context }) := by
      simp only [bulkCodec, hmark.type_eq, hr, ofDecompressed, hdec, hdata]
      rfl
    exact ⟨_, _, _, _, hcall, hmark, hcodec, hsync, hkept, h.ncrush⟩
  · obtain ⟨hstatus, hdec, hdata, hsync⟩ := Ncrush.sync_step h.ncrush (by omega) hmax
    have hmark := ncrush_marked h.ncrush hmax
    set c := Ncrush.compress s.ncrush src 65536 with hc
    have hcall : bulkCompress 2 outputBuffer s src =
        (some (c.data, c.flags), { s with calls := s.calls + 1, ncrush := c.context }) := by
      simp only [bulkCompress, if_neg hsize, Vector.length_toList, ← hc, ofCompressed, hstatus]
      rfl
    have hcodec : bulkCodec r c.data c.flags =
        (some src, { r with ncrush := (Ncrush.decompress r.ncrush c.data c.flags).context }) := by
      simp only [bulkCodec, hmark.type_eq, ofDecompressed, hdec, hdata]
      rfl
    exact ⟨_, _, _, _, hcall, hmark, hcodec, h.mppc, h.level_eq, hsync⟩

/-- **RDP5 and RDP6 restore every packet**, whatever `OutputBuffer` holds. -/
theorem rdpBulk_restores (hlevel : level = 1 ∨ level = 2) :
    Restores (rdpBulk level outputBuffer) BulkInStep where
  raw {s r src dst s'} h hcall hflags := by
    rcases bulkCompress_spec level hlevel h with hraw | ⟨data, flags, s1, r1, hsent, hmark, -⟩
    · cases hcall.symm.trans hraw
      exact h
    · cases hcall.symm.trans hsent
      exact absurd (by rw [hflags data flags rfl]; rfl) hmark.compressed
  restore {s r src data flags s'} h hcall hflags := by
    rcases bulkCompress_spec level hlevel h with hraw
      | ⟨data', flags', s1, r1, hsent, hmark, hdec, hstep⟩
    · cases hcall.symm.trans hraw
      exact absurd rfl hflags
    · cases hcall.symm.trans hsent
      exact ⟨hmark.byte, hmark.length_le, r1, (if_pos hmark.compressed).trans hdec, hstep⟩

/-! ## Sessions -/

/-- An update that `fastpath_send_update_pdu` takes. -/
structure Update (settings : Settings) where
  updateCode : Fin 16
  src : List UInt8
  skipCompression : Bool
  fits : src.length ≤ settings.multifragMaxRequestSize

/-- The updates of a session, one call of `fastpath_send_update_pdu` for each. -/
def sendUpdates {S R : Type} (bulk : Bulk S R) (settings : Settings) :
    List (Update settings) → S → Option (List (List UInt8) × S)
  | [], s => some ([], s)
  | u :: updates, s =>
    (sendUpdatePdu bulk settings u.updateCode u.src u.skipCompression s).bind fun sent =>
      (sendUpdates bulk settings updates sent.2).map fun rest => (sent.1 ++ rest.1, rest.2)

theorem writeUpdatePduHeader_pdu {body : List UInt8} {len : ℕ} (hbody : body.length + 3 = len)
    (hmax : len < 0x8000) : DefaultPdu (writeUpdatePduHeader len ++ body) := by
  have hhigh : ∀ k < 128, (UInt8.ofNat (0x80 ||| k)).toNat = 128 + k := by decide +kernel
  have h1 := hhigh (len >>> 8) (by omega)
  have h2 : (UInt8.ofNat (len &&& 0xFF)).toNat = len % 256 := by
    have hand : len &&& 0xFF = len % 2 ^ 8 := Nat.and_two_pow_sub_one_eq_mod len 8
    rw [UInt8.toNat_ofNat']
    omega
  refine .fastPath2 (by decide) (by omega) (by omega) ?_
  change body.length + 3 = _
  omega

/-- The PDUs of an update are PDUs of the transport. -/
theorem sendLoop_pdus {S R : Type} (bulk : Bulk S R) (settings updateCode skip fuel) :
    ∀ fragment src s pdus s', sendLoop bulk settings updateCode skip fuel fragment src s =
      some (pdus, s') → ∀ pdu ∈ pdus, DefaultPdu pdu := by
  induction fuel with
  | zero =>
    intro fragment src s pdus s' h
    cases h
  | succ fuel ih =>
  intro fragment src s pdus s' h
  rw [sendLoop] at h
  by_cases hmore : src.length > 0 ∨ fragment = 0
  swap
  · rw [if_neg hmore] at h
    cases h
    simp
  simp only [if_pos hmore, Option.ite_none_left_eq_some, Option.map_eq_some_iff] at h
  obtain ⟨-, -, hmax, ⟨rest, s1⟩, hrest, heq⟩ := h
  cases heq
  refine List.forall_mem_cons.mpr ⟨?_, ih _ _ _ _ _ hrest⟩
  simp only [List.length_append, writeUpdateHeader_length] at hmax
  rw [List.append_assoc]
  refine writeUpdatePduHeader_pdu ?_ ?_
  · rw [List.length_append, writeUpdateHeader_length]
    omega
  · simp only [writeUpdatePduHeader, maxPacketSize, List.length_cons] at hmax
    omega

variable {settings : Settings}

/-- **A session at the fast path**, from any two sides in step: no PDU fails. -/
theorem sendUpdates_spec (hrestores : Restores bulk InStep) (hout : settings.fastPathOutput)
    (recvUpdate : ℕ → List UInt8 → Bool) (updates : List (Update settings))
    (haccept : ∀ u ∈ updates, recvUpdate u.updateCode u.src = true) :
    ∀ (s : BulkContext) (fastpath : Receiver BulkContext), InStep s fastpath.bulk →
      fastpath.Received calls →
      ∃ pdus s' received, sendUpdates bulk settings updates s = some (pdus, s') ∧
        (∀ pdu ∈ pdus, DefaultPdu pdu) ∧
        recvPdus bulk recvUpdate settings.multifragMaxRequestSize pdus fastpath = (true, received) ∧
        received.Received (calls ++ updates.map fun u => (u.updateCode.val, u.src)) := by
  induction updates generalizing calls with
  | nil => exact fun s fastpath _ hrecv => ⟨[], s, fastpath, rfl, by simp,
      rfl, by simpa using hrecv⟩
  | cons u updates ih =>
  intro s fastpath hstep hrecv
  obtain ⟨hfirst, hrest⟩ := List.forall_mem_cons.mp haccept
  obtain ⟨pdus, s1, _, hsend, -, hpdus, -, hrecv1, hstep1⟩ := sendLoop_spec hrestores settings
    u.updateCode.isLt u.skipCompression recvUpdate (u.src.length + 2) 0 u.src
    [] s fastpath (by omega)
    (fun _ => by omega) (fun h => absurd rfl h) (by simpa using u.fits) hstep
    ⟨hrecv.updateData_eq, fun _ => ⟨hrecv.fragmentation_eq, rfl⟩, fun h => absurd rfl h⟩
  rw [hrecv.calls_eq] at hrecv1
  rw [List.nil_append, hfirst] at hpdus
  obtain ⟨rest, s2, received, hsends, hdefault, hreceived, hcalls⟩ := ih hrest s1 _ hstep1 hrecv1
  refine ⟨pdus ++ rest, s2, received, ?_, ?_, ?_, by simpa using hcalls⟩
  · have hfits := u.fits
    have hone : sendUpdatePdu bulk settings u.updateCode u.src u.skipCompression s =
        some (pdus, s1) := by
      rw [sendUpdatePdu, if_neg (by simpa using hout), if_neg (by omega), hsend]
    rw [sendUpdates, hone, Option.bind_some, hsends]
    rfl
  · exact List.forall_mem_append.mpr ⟨sendLoop_pdus _ _ _ _ _ _ _ _ _ _ hsend, hdefault⟩
  · rw [recvPdus_append _ _ _ _ _ _ (by rw [hpdus]), hpdus]
    exact hreceived

/-- **Every update of a session arrives**, once and in order: with RDP5 or RDP6 compression, from
new contexts, whatever the output buffer holds and however the reads split the stream of PDUs, if
`fastpath_recv_update` accepts the updates.  The first PDU that fails would end the session. -/
theorem session_delivers_updates (settings : Settings) (hout : settings.fastPathOutput)
    (hlevel : settings.compressionLevel = 1 ∨ settings.compressionLevel = 2)
    (outputBuffer : ℕ → Vector UInt8 65536) (recvUpdate : ℕ → List UInt8 → Bool)
    (updates : List (Update settings))
    (haccept : ∀ u ∈ updates, recvUpdate u.updateCode u.src = true) :
    let bulk := rdpBulk settings.compressionLevel outputBuffer
    ∃ new pdus s', bulkNew = some new ∧ sendUpdates bulk settings updates new = some (pdus, s') ∧
      ∀ (stream : WStream) (bio : Bio), stream.position = 0 → bio.Open → bio.Fair →
        bio.pending = pdus.flatten →
        ∃ n received, recvPdus bulk recvUpdate settings.multifragMaxRequestSize
            ((delivered (readPdus (plainMode false) n stream bio).1).map Prod.snd)
            ⟨0, 0, [], -1, [], new⟩ = (true, received) ∧
          received.Received (updates.map fun u => (u.updateCode.val, u.src)) := by
  obtain ⟨new, hnew, hstep⟩ := bulkInStep_new
  obtain ⟨pdus, s', received, hsend, hpdus, hrecv, hcalls⟩ := sendUpdates_spec
    (rdpBulk_restores hlevel) hout recvUpdate updates haccept new ⟨0, 0, [], -1, [], new⟩ hstep
    ⟨rfl, rfl, rfl⟩
  refine ⟨new, pdus, s', hnew, hsend, fun stream bio hpos hopen hfair hbio => ?_⟩
  obtain ⟨cut, rfl⟩ : ∃ cut : List (Pdu false), cut.map Pdu.bytes = pdus :=
    ⟨pdus.attach.map fun pdu => ⟨pdu.1, hpdus _ pdu.2⟩, by simp⟩
  have hc : Cutting cut 1 [] stream bio := by
    refine ⟨?_, ?_, hopen⟩
    · rw [WStream.filled, hpos, List.take_zero, List.nil_append, hbio, List.append_nil]
      rfl
    · rw [hpos]
      exact limit_pos .clean cut
  obtain ⟨j, hj, hready⟩ := hfair bio.calls
  obtain ⟨d, rfl⟩ := Nat.exists_eq_add_of_le hj
  obtain ⟨n, hn⟩ := readPdus_delivers .clean d cut stream bio rfl hfair hready hc
  refine ⟨n, received, ?_, hcalls⟩
  rw [hn, expected, if_pos rfl, List.append_nil, List.map_map]
  exact hrecv

/-- Two updates that are read one byte at a time; the second one takes two PDUs. -/
theorem session_delivers_trickle :
    let bulk := rdpBulk 2 fun _ => Vector.replicate 65536 0
    let updates : List (Update ⟨true, 2, true, 20000⟩) :=
      [⟨4, List.replicate 60 7, false, by decide⟩,
        ⟨1, List.replicate 17000 5, false,
          List.length_replicate.trans_le (show 17000 ≤ 20000 by omega)⟩]
    ∃ new pdus s', bulkNew = some new ∧
      sendUpdates bulk ⟨true, 2, true, 20000⟩ updates new = some (pdus, s') ∧
      ∃ n received, recvPdus bulk (fun code _ => code < 5) 20000
          ((delivered (readPdus (plainMode false) n ⟨[], 0, 0, le_rfl⟩
            (trickle pdus.flatten)).1).map Prod.snd) ⟨0, 0, [], -1, [], new⟩ = (true, received) ∧
        received.Received [(4, List.replicate 60 7), (1, List.replicate 17000 5)] := by
  intro bulk updates
  have haccept : ∀ u ∈ updates, decide (u.updateCode.val < 5) = true :=
    List.forall_mem_cons.mpr ⟨rfl, List.forall_mem_singleton.mpr rfl⟩
  obtain ⟨new, pdus, s', hnew, hsend, hread⟩ := session_delivers_updates ⟨true, 2, true, 20000⟩ rfl
    (.inr rfl) (fun _ => Vector.replicate 65536 0) (fun code _ => code < 5) updates haccept
  exact ⟨new, pdus, s', hnew, hsend, hread _ _ rfl trickle_open trickle_fair rfl⟩

end WBFreeRDP.FastPath

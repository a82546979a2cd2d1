/-
# Fast-path updates

`fastpath.c`: an update is sent in one fast-path PDU, or in several that the receiver puts together
again.  Without encryption; the bulk layer is a parameter.
-/
import WBFreeRDP.ByteOrder

namespace WBFreeRDP.FastPath

open List Nat

/-! ## Headers -/

def fragmentSingle : ℕ := 0

def fragmentLast : ℕ := 1

def fragmentFirst : ℕ := 2

def fragmentNext : ℕ := 3

def compressionUsed : ℕ := 2

def maxPacketSize : ℕ := 0x3FFF

/-- `FASTPATH_UPDATE_HEADER`. -/
structure UpdateHeader where
  updateCode : ℕ
  fragmentation : ℕ
  compression : ℕ
  compressionFlags : ℕ
  size : ℕ

def getUpdateHeaderSize (header : UpdateHeader) : ℕ := if header.compression ≠ 0 then 4 else 3

def writeUpdateHeader (header : UpdateHeader) : List UInt8 :=
  UInt8.ofNat ((header.updateCode &&& 0x0F) ||| (header.fragmentation &&& 0x03) <<< 4 |||
      (header.compression &&& 0x03) <<< 6) ::
    ((if header.compression ≠ 0 then [UInt8.ofNat header.compressionFlags] else []) ++
      leBytes 2 header.size)

/-- `fastpath_write_update_pdu_header`, without encryption. -/
def writeUpdatePduHeader (length : ℕ) : List UInt8 :=
  [0, UInt8.ofNat (0x80 ||| length >>> 8), UInt8.ofNat (length &&& 0xFF)]

/-- `fastpath_read_update_header`: `updateCode`, `fragmentation` and `compression`. -/
def readUpdateHeader (updateHeader : UInt8) : ℕ × ℕ × ℕ :=
  ((updateHeader &&& 0x0F).toNat, ((updateHeader >>> 4) &&& 0x03).toNat,
    ((updateHeader >>> 6) &&& 0x03).toNat)

/-! ## The bulk layer -/

/-- The bulk layer of the sender, with its state `S`, and that of the receiver, with its state `R`:
what a fragment is compressed to and with which flags, and what it is decompressed to. -/
structure Bulk (S R : Type*) where
  compress : S → List UInt8 → Option (List UInt8 × ℕ) × S
  codec : R → List UInt8 → ℕ → Option (List UInt8) × R

variable {S R : Type*}

def bulkCompressionFlagsMask : ℕ := 0xE0

/-- `bulk_decompress`: without flags the data is as it was sent. -/
def bulkDecompress (bulk : Bulk S R) (r : R) (src : List UInt8) (flags : ℕ) :
    Option (List UInt8) × R :=
  if flags &&& bulkCompressionFlagsMask ≠ 0 then bulk.codec r src flags else (some src, r)

/-- **The bulk layer restores fragments**: while the two sides are in step, a fragment does not
become longer, the peer decompresses it to what it was, and the sides stay in step. -/
structure Restores (bulk : Bulk S R) (InStep : S → R → Prop) : Prop where
  raw : ∀ {s r src dst s'}, InStep s r → bulk.compress s src = (dst, s') →
    (∀ data flags, dst = some (data, flags) → flags = 0) → InStep s' r
  restore : ∀ {s r src data flags s'}, InStep s r →
    bulk.compress s src = (some (data, flags), s') → flags ≠ 0 →
    flags < 256 ∧ data.length ≤ src.length ∧
      ∃ r', bulkDecompress bulk r data flags = (some src, r') ∧ InStep s' r'

/-! ## The sender -/

/-- The settings that the sender looks at. -/
structure Settings where
  compressionEnabled : Bool
  compressionLevel : ℕ
  fastPathOutput : Bool
  multifragMaxRequestSize : ℕ

def bulkCompressionMaxSize (settings : Settings) : ℕ :=
  if settings.compressionLevel < 1 then 8192 else 2 ^ 16 - 1

/-- `maxLength` of `fastpath_send_update_pdu`, a `UINT16`. -/
def maxLength (settings : Settings) (skipCompression : Bool) : ℕ :=
  let maxLength := maxPacketSize - 20
  if settings.compressionEnabled ∧ ¬ skipCompression then
    let maxLength :=
      if maxLength < bulkCompressionMaxSize settings then maxLength
      else bulkCompressionMaxSize settings
    (maxLength + 2 ^ 16 - 20) % 2 ^ 16
  else maxLength

/-- The data of a fragment as it is sent, and the fields `compression` and `compressionFlags`. -/
def compressFragment (bulk : Bulk S R) (settings : Settings) (skipCompression : Bool) (s : S)
    (src : List UInt8) : (List UInt8 × ℕ × ℕ) × S :=
  if settings.compressionEnabled ∧ ¬ skipCompression then
    match bulk.compress s src with
    | (some (data, flags), s) =>
      if flags ≠ 0 then ((data, compressionUsed, flags % 256), s) else ((src, 0, 0), s)
    | (none, s) => ((src, 0, 0), s)
  else ((src, 0, 0), s)

/-- The loop of `fastpath_send_update_pdu`: the PDUs that are written, or `none` for `FALSE`. -/
def sendLoop (bulk : Bulk S R) (settings : Settings) (updateCode : ℕ) (skipCompression : Bool) :
    ℕ → ℕ → List UInt8 → S → Option (List (List UInt8) × S)
  | 0, _, _, _ => none
  | fuel + 1, fragment, src, s =>
    if src.length > 0 ∨ fragment = 0 then
      let srcSize :=
        if src.length > maxLength settings skipCompression then maxLength settings skipCompression
        else src.length % 2 ^ 16
      let ((data, compression, compressionFlags), s) :=
        compressFragment bulk settings skipCompression s (src.take srcSize)
      if data.length > 2 ^ 16 - 1 then none
      else
        let rest := src.drop srcSize
        let fragmentation :=
          if rest.length = 0 then (if fragment = 0 then fragmentSingle else fragmentLast)
          else (if fragment = 0 then fragmentFirst else fragmentNext)
        let header : UpdateHeader :=
          { updateCode, fragmentation, compression, compressionFlags, size := data.length }
        let len := header.size + (getUpdateHeaderSize header + 3)
        if len > 2 ^ 16 - 1 then none
        else
          let pdu := writeUpdatePduHeader len ++ writeUpdateHeader header ++ data
          -- the stream the PDU is written to does not grow
          if pdu.length > maxPacketSize then none
          else
            (sendLoop bulk settings updateCode skipCompression fuel (fragment + 1) rest s).map
              fun (pdus, s) => (pdu :: pdus, s)
    else some ([], s)

/-- `fastpath_send_update_pdu` without encryption, the transport taking what is written. -/
def sendUpdatePdu (bulk : Bulk S R) (settings : Settings) (updateCode : ℕ) (src : List UInt8)
    (skipCompression : Bool) (s : S) : Option (List (List UInt8) × S) :=
  if ¬ settings.fastPathOutput then none
  else if src.length > settings.multifragMaxRequestSize then none
  else sendLoop bulk settings updateCode skipCompression (src.length + 2) 0 src s

/-! ## The receiver -/

/-- `rdp_fastpath` of the receiver: `updateData` holds the bytes up to its position, `calls` the
calls of `fastpath_recv_update` with their update code and data, and `bulk` the bulk layer. -/
structure Receiver (R : Type*) where
  encryptionFlags : ℕ
  numberEvents : ℕ
  updateData : List UInt8
  fragmentation : ℤ
  calls : List (ℕ × List UInt8)
  bulk : R

/-- `per_read_length`. -/
def perReadLength : List UInt8 → Option (ℕ × List UInt8)
  | [] => none
  | byte :: s =>
    if byte &&& 0x80 ≠ 0 then
      match s with
      | [] => none
      | low :: s => some ((byte &&& ~~~0x80).toNat <<< 8 + low.toNat, s)
    else some (byte.toNat, s)

/-- `fastpath_read_header_rdp`: the length of what follows, the receiver and what follows. -/
def readHeaderRdp (fastpath : Receiver R) (pdu : List UInt8) :
    Option (ℕ × Receiver R × List UInt8) :=
  match pdu with
  | [] => none
  | header :: s =>
    let fastpath := { fastpath with
      encryptionFlags := ((header &&& 0xC0) >>> 6).toNat
      numberEvents := ((header &&& 0x3C) >>> 2).toNat }
    match perReadLength s with
    | none => none
    | some (length, s) =>
      let pos := pdu.length - s.length
      if pos > length then none else some (length - pos, fastpath, s)

/-- `fastpath_recv_update`: the data is what `updateData` holds, which is empty afterwards.  What
the update does is left to `recvUpdate`; `false` for a negative status. -/
def callRecvUpdate (recvUpdate : ℕ → List UInt8 → Bool) (fastpath : Receiver R) (updateCode : ℕ) :
    Bool × Receiver R :=
  (recvUpdate updateCode fastpath.updateData, { fastpath with
    calls := fastpath.calls ++ [(updateCode, fastpath.updateData)]
    updateData := [] })

/-- `fastpath_recv_update_data` from where the data has been decompressed. -/
def recvFragment (recvUpdate : ℕ → List UInt8 → Bool) (multifragMaxRequestSize : ℕ)
    (fastpath : Receiver R) (updateCode fragmentation : ℕ) (data : List UInt8) :
    Bool × Receiver R :=
  let fastpath := { fastpath with updateData := fastpath.updateData ++ data }
  if fragmentation = fragmentSingle then
    if fastpath.fragmentation ≠ -1 then (false, fastpath)
    else callRecvUpdate recvUpdate fastpath updateCode
  else if fastpath.updateData.length > multifragMaxRequestSize then (false, fastpath)
  else if fragmentation = fragmentFirst then
    if fastpath.fragmentation ≠ -1 then (false, fastpath)
    else (true, { fastpath with fragmentation := fragmentFirst })
  else if fragmentation = fragmentNext then
    if fastpath.fragmentation ≠ fragmentFirst ∧ fastpath.fragmentation ≠ fragmentNext then
      (false, fastpath)
    else (true, { fastpath with fragmentation := fragmentNext })
  else
    if fastpath.fragmentation ≠ fragmentFirst ∧ fastpath.fragmentation ≠ fragmentNext then
      (false, fastpath)
    else callRecvUpdate recvUpdate { fastpath with fragmentation := -1 } updateCode

/-- `fastpath_recv_update_data`: `false` for a negative status, the receiver and what is left. -/
def recvUpdateData (bulk : Bulk S R) (recvUpdate : ℕ → List UInt8 → Bool)
    (multifragMaxRequestSize : ℕ) (fastpath : Receiver R) (s : List UInt8) :
    Bool × Receiver R × List UInt8 :=
  match s with
  | [] => (false, fastpath, s)
  | updateHeader :: s =>
    let (updateCode, fragmentation, compression) := readUpdateHeader updateHeader
    match (if compression = compressionUsed then readLE 1 s else some (0, s)) with
    | none => (false, fastpath, s)
    | some (compressionFlags, s) =>
      match readLE 2 s with
      | none => (false, fastpath, s)
      | some (size, s) =>
        if s.length < size then (false, fastpath, s)
        else
          match bulkDecompress bulk fastpath.bulk (s.take size) compressionFlags with
          | (none, r) => (false, { fastpath with bulk := r }, s.drop size)
          | (some data, r) =>
            let (status, fastpath) := recvFragment recvUpdate multifragMaxRequestSize
              { fastpath with bulk := r } updateCode fragmentation data
            (status, fastpath, s.drop size)

/-- `fastpath_recv_updates`; `false` for `STATE_RUN_FAILED`.  Every round takes a byte. -/
def recvUpdates (bulk : Bulk S R) (recvUpdate : ℕ → List UInt8 → Bool)
    (multifragMaxRequestSize : ℕ) : ℕ → Receiver R → List UInt8 → Bool × Receiver R
  | 0, fastpath, _ => (false, fastpath)
  | fuel + 1, fastpath, s =>
    if s.length ≥ 3 then
      match recvUpdateData bulk recvUpdate multifragMaxRequestSize fastpath s with
      | (true, fastpath, s) => recvUpdates bulk recvUpdate multifragMaxRequestSize fuel fastpath s
      | (false, fastpath, _) => (false, fastpath)
    else (true, fastpath)

/-- `rdp_recv_fastpath_pdu` without encryption; `false` for `STATE_RUN_FAILED`. -/
def rdpRecvFastpathPdu (bulk : Bulk S R) (recvUpdate : ℕ → List UInt8 → Bool)
    (multifragMaxRequestSize : ℕ) (fastpath : Receiver R) (pdu : List UInt8) : Bool × Receiver R :=
  match readHeaderRdp fastpath pdu with
  | none => (false, fastpath)
  | some (length, fastpath, s) =>
    if length = 0 ∨ s.length < length then (false, fastpath)
    else recvUpdates bulk recvUpdate multifragMaxRequestSize (s.length + 1) fastpath s

/-- The receiver after a PDU. -/
def recvPdu (bulk : Bulk S R) (recvUpdate : ℕ → List UInt8 → Bool) (multifragMaxRequestSize : ℕ)
    (fastpath : Receiver R) (pdu : List UInt8) : Receiver R :=
  (rdpRecvFastpathPdu bulk recvUpdate multifragMaxRequestSize fastpath pdu).2

/-- The PDUs that `transport_check_fds` hands on, which ends with the first one that fails. -/
def recvPdus (bulk : Bulk S R) (recvUpdate : ℕ → List UInt8 → Bool) (multifragMaxRequestSize : ℕ) :
    List (List UInt8) → Receiver R → Bool × Receiver R
  | [], fastpath => (true, fastpath)
  | pdu :: pdus, fastpath =>
    match rdpRecvFastpathPdu bulk recvUpdate multifragMaxRequestSize fastpath pdu with
    | (true, fastpath) => recvPdus bulk recvUpdate multifragMaxRequestSize pdus fastpath
    | (false, fastpath) => (false, fastpath)

/-! ## One PDU -/

/-- The fields of the update header are read as they were written. -/
theorem readUpdateHeader_write (hcode : code < 16)
    (hfrag : fragmentation < 4) (hcomp : compression < 4) :
    readUpdateHeader (UInt8.ofNat ((code &&& 0x0F) ||| (fragmentation &&& 0x03) <<< 4 |||
      (compression &&& 0x03) <<< 6)) = (code, fragmentation, compression) := by
  have hall : ∀ code < 16, ∀ fragmentation < 4, ∀ compression < 4,
      readUpdateHeader (UInt8.ofNat ((code &&& 0x0F) ||| (fragmentation &&& 0x03) <<< 4 |||
        (compression &&& 0x03) <<< 6)) = (code, fragmentation, compression) := by decide +kernel
  exact hall code hcode fragmentation hfrag compression hcomp

/-- A header that a sender may write. -/
structure UpdateHeader.Ok (header : UpdateHeader) : Prop where
  updateCode_lt : header.updateCode < 16
  fragmentation_lt : header.fragmentation < 4
  flags_lt : header.compressionFlags < 256
  compression_eq : header.compression = 0 ∧ header.compressionFlags = 0 ∨
    header.compression = compressionUsed
  size_lt : header.size < 2 ^ 16

theorem writeUpdateHeader_length (header : UpdateHeader) :
    (writeUpdateHeader header).length = getUpdateHeaderSize header := by
  unfold writeUpdateHeader getUpdateHeaderSize
  split_ifs
  all_goals
    rfl

variable {data src : List UInt8} {r : R}

section Receive

variable {bulk : Bulk S R} {recvUpdate : ℕ → List UInt8 → Bool} {multifragMaxRequestSize : ℕ}

variable {header : UpdateHeader}

/-- **The body of a PDU at the receiver**: the header is read, and the data decompressed. -/
theorem recvUpdateData_body (h : header.Ok)
    (hsize : header.size = data.length) (fastpath : Receiver R)
    (hbulk : bulkDecompress bulk fastpath.bulk data header.compressionFlags = (some src, r)) :
    recvUpdateData bulk recvUpdate multifragMaxRequestSize fastpath
        (writeUpdateHeader header ++ data) =
      ((recvFragment recvUpdate multifragMaxRequestSize { fastpath with bulk := r }
          header.updateCode header.fragmentation src).1,
        (recvFragment recvUpdate multifragMaxRequestSize { fastpath with bulk := r }
          header.updateCode header.fragmentation src).2, []) := by
  have hcomp : header.compression < 4 := by
    rcases h.compression_eq with ⟨h0, -⟩ | h2
    · omega
    · rw [h2]
      decide
  have hflags : (if header.compression = compressionUsed then
      readLE 1 ((if header.compression ≠ 0 then [UInt8.ofNat header.compressionFlags] else []) ++
        (leBytes 2 header.size ++ data))
      else some (0, (if header.compression ≠ 0 then [UInt8.ofNat header.compressionFlags]
        else []) ++
        (leBytes 2 header.size ++ data))) =
      some (header.compressionFlags, leBytes 2 header.size ++ data) := by
    rcases h.compression_eq with ⟨h0, hzero⟩ | h2
    · rw [h0, hzero, if_neg (by decide), if_neg (by decide), nil_append]
    · rw [h2]
      exact readLE_leBytes (w := 1) h.flags_lt _
  have hread := readLE_leBytes (w := 2) h.size_lt data
  rw [writeUpdateHeader, cons_append, append_assoc]
  unfold recvUpdateData
  simp only [readUpdateHeader_write h.updateCode_lt h.fragmentation_lt hcomp]
  rw [hflags]
  simp only [hread]
  rw [if_neg (by omega), hsize, take_length, hbulk, drop_length]

theorem readHeaderRdp_write {length} (hlen : length < 0x8000) (h3 : 3 ≤ length)
    (fastpath : Receiver R) :
    perReadLength ((writeUpdatePduHeader length ++ body).tail) = some (length, body) ∧
      readHeaderRdp fastpath (writeUpdatePduHeader length ++ body) =
        some (length - 3, { fastpath with encryptionFlags := 0, numberEvents := 0 }, body) := by
  have hper : perReadLength (UInt8.ofNat (0x80 ||| length >>> 8) ::
      UInt8.ofNat (length &&& 0xFF) :: body) = some (length, body) := by
    have hhigh : ∀ k < 128, (UInt8.ofNat (0x80 ||| k)) &&& 0x80 ≠ 0 ∧
        ((UInt8.ofNat (0x80 ||| k)) &&& ~~~0x80).toNat = k := by decide +kernel
    have hk : length >>> 8 < 128 := by
      omega
    obtain ⟨hbit, hval⟩ := hhigh _ hk
    have hlow : (UInt8.ofNat (length &&& 0xFF)).toNat = length % 256 := by
      have hand : length &&& 0xFF = length % 2 ^ 8 := and_two_pow_sub_one_eq_mod length 8
      rw [UInt8.toNat_ofNat']
      omega
    rw [perReadLength, if_pos hbit]
    simp only [hval, hlow]
    rw [shiftLeft_eq, shiftRight_eq_div_pow, show length / 2 ^ 8 * 2 ^ 8 + length % 256 =
      length by omega]
  refine ⟨hper, ?_⟩
  change readHeaderRdp fastpath (0 :: UInt8.ofNat (0x80 ||| length >>> 8) ::
      UInt8.ofNat (length &&& 0xFF) :: body) = _
  unfold readHeaderRdp
  simp only [hper, length_cons]
  rw [if_neg (by omega), show body.length + 1 + 1 + 1 - body.length = 3 by omega]
  rfl

variable (recvUpdate multifragMaxRequestSize) in
/-- **A PDU at the receiver** is the fragment in it. -/
theorem rdpRecvFastpathPdu_eq (h : header.Ok) (hsize : header.size = data.length) {len : ℕ}
    (hlen : len = header.size + (getUpdateHeaderSize header + 3)) (hmax : len < 0x8000)
    (hbulk : bulkDecompress bulk fastpath.bulk data header.compressionFlags = (some src, r)) :
    rdpRecvFastpathPdu bulk recvUpdate multifragMaxRequestSize fastpath
        (writeUpdatePduHeader len ++ writeUpdateHeader header ++ data) =
      recvFragment recvUpdate multifragMaxRequestSize
        { fastpath with encryptionFlags := 0, numberEvents := 0, bulk := r }
        header.updateCode header.fragmentation src := by
  have h3 : 3 ≤ (writeUpdateHeader header).length := by
    rw [writeUpdateHeader_length, getUpdateHeaderSize]
    split_ifs
    · omega
    · omega
  have hbody : ¬ (len - 3 = 0 ∨ (writeUpdateHeader header ++ data).length < len - 3) := by
    rw [length_append, writeUpdateHeader_length]
    rw [writeUpdateHeader_length] at h3
    omega
  rw [append_assoc]
  unfold rdpRecvFastpathPdu
  rw [(readHeaderRdp_write hmax (by omega) fastpath).2]
  simp only [if_neg hbody]
  rw [recvUpdates, if_pos (by rw [length_append]; omega),
    recvUpdateData_body h hsize { fastpath with encryptionFlags := 0, numberEvents := 0 } hbulk]
  generalize recvFragment recvUpdate multifragMaxRequestSize
    { fastpath with encryptionFlags := 0, numberEvents := 0, bulk := r }
    header.updateCode header.fragmentation src = result
  obtain ⟨status, fastpath'⟩ := result
  rcases status with _ | _
  · rfl
  simp only
  have hpos : ∃ n, (writeUpdateHeader header ++ data).length = n + 1 :=
    ⟨(writeUpdateHeader header ++ data).length - 1, by rw [length_append]; omega⟩
  obtain ⟨n, hn⟩ := hpos
  rw [hn, recvUpdates, if_neg (by decide)]

end Receive

/-! ## The sender against the receiver -/

theorem maxLength_bounds (settings skipCompression) :
    0 < maxLength settings skipCompression ∧ maxLength settings skipCompression ≤ 16363 ∧
      (settings.compressionEnabled ∧ ¬ skipCompression →
        maxLength settings skipCompression ≤ 16343) := by
  unfold maxLength bulkCompressionMaxSize maxPacketSize
  simp only
  split_ifs with hon h1 h2 h3
  iterate 4 exact ⟨by omega, by omega, fun _ => by omega⟩
  · exact ⟨by omega, by omega, fun h => absurd h hon⟩

variable {InStep : S → R → Prop} {bulk : Bulk S R}

/-- **A fragment through the bulk layer**: it is sent raw or compressed, and restored. -/
theorem compressFragment_spec
    (hrestores : Restores bulk InStep) (settings : Settings) (skipCompression : Bool)
    (h : InStep s r) (src : List UInt8) : ∃ data compression flags s' r',
      compressFragment bulk settings skipCompression s src = ((data, compression, flags), s') ∧
      (compression = 0 ∧ flags = 0 ∨
        compression = compressionUsed ∧ settings.compressionEnabled ∧ ¬ skipCompression) ∧
      flags < 256 ∧ data.length ≤ src.length ∧
      bulkDecompress bulk r data flags = (some src, r') ∧ InStep s' r' := by
  have hraw : bulkDecompress bulk r src 0 = (some src, r) := if_neg (by decide)
  unfold compressFragment
  split_ifs with hon
  swap
  · exact ⟨src, 0, 0, s, r, rfl, Or.inl ⟨rfl, rfl⟩, by decide, le_refl _, hraw, h⟩
  rcases hcompress : bulk.compress s src with ⟨dst, s'⟩
  rcases dst with _ | dst
  · exact ⟨src, 0, 0, s', r, rfl, Or.inl ⟨rfl, rfl⟩, by decide, le_refl _, hraw,
      hrestores.raw h hcompress fun data flags hdst => by cases hdst⟩
  obtain ⟨data, flags⟩ := dst
  by_cases hflags : flags = 0
  · subst hflags
    exact ⟨src, 0, 0, s', r, rfl, Or.inl ⟨rfl, rfl⟩, by decide, le_refl _, hraw,
      hrestores.raw h hcompress fun data' flags hdst => by cases hdst; rfl⟩
  · obtain ⟨hlt, hlen, r', hdec, hstep⟩ := hrestores.restore h hcompress hflags
    simp only [ne_eq, hflags]
    exact ⟨data, compressionUsed, flags % 256, s', r', rfl, Or.inr ⟨rfl, hon⟩,
      mod_lt _ (by decide), hlen, by rw [mod_eq_of_lt hlt]; exact hdec, hstep⟩

/-- The receiver in front of a fragment: what it holds of the update is `done`. -/
structure Receiver.Awaits (fastpath : Receiver R) (fragment : ℕ) (done : List UInt8) : Prop where
  updateData_eq : fastpath.updateData = done
  first : fragment = 0 → fastpath.fragmentation = -1 ∧ done = []
  next : fragment ≠ 0 → fastpath.fragmentation = fragmentFirst ∨
    fastpath.fragmentation = fragmentNext

/-- The receiver after an update: one call more, and nothing is held. -/
structure Receiver.Received (fastpath : Receiver R) (calls : List (ℕ × List UInt8)) : Prop where
  updateData_eq : fastpath.updateData = []
  fragmentation_eq : fastpath.fragmentation = -1
  calls_eq : fastpath.calls = calls

/-- A PDU with a length field that is its size. -/
def WellSized (pdu : List UInt8) : Prop :=
  (perReadLength pdu.tail).map Prod.fst = some pdu.length ∧ pdu.length < 0x8000

variable {fragment : ℕ}

section Fragments

variable (recvUpdate : ℕ → List UInt8 → Bool)

/-- What is done with a fragment leaves the bulk layer alone. -/
theorem recvFragment_bulk (multifragMaxRequestSize)
    (fastpath : Receiver R) (updateCode fragmentation) (data) :
    (recvFragment recvUpdate multifragMaxRequestSize fastpath updateCode
      fragmentation data).2.bulk = fastpath.bulk := by
  unfold recvFragment callRecvUpdate
  simp only
  split_ifs <;> rfl

/-- Behind its first fragment an update is open. -/
theorem Receiver.Awaits.not_idle {fastpath : Receiver R} (h : fastpath.Awaits fragment done)
    (hfirst : fragment ≠ 0) :
    ¬(fastpath.fragmentation ≠ fragmentFirst ∧ fastpath.fragmentation ≠ fragmentNext) :=
  fun hboth => (h.next hfirst).elim hboth.1 hboth.2

/-- The last fragment of an update gives the whole of it to `fastpath_recv_update`, which
decides. -/
theorem recvFragment_last
    (h : fastpath.Awaits fragment done) (hmax : done.length + data.length ≤ multifragMaxRequestSize)
    (updateCode) :
    let result := recvFragment recvUpdate multifragMaxRequestSize fastpath updateCode
      (if fragment = 0 then fragmentSingle else fragmentLast) data
    result.1 = recvUpdate updateCode (done ++ data) ∧
      result.2.Received (fastpath.calls ++ [(updateCode, done ++ data)]) := by
  intro result
  unfold result
  unfold recvFragment callRecvUpdate
  by_cases hfirst : fragment = 0
  · obtain ⟨hfrag, hdone⟩ := h.first hfirst
    simp only [hfirst, hfrag, h.updateData_eq]
    exact ⟨rfl, rfl, rfl, rfl⟩
  have hnext := h.not_idle hfirst
  simp only [if_neg hfirst, h.updateData_eq, length_append, if_neg (not_lt.mpr hmax), if_neg hnext]
  exact ⟨rfl, rfl, rfl, rfl⟩

/-- Any other fragment is kept. -/
theorem recvFragment_more
    (h : fastpath.Awaits fragment done) (hmax : done.length + data.length ≤ multifragMaxRequestSize)
    (updateCode) :
    let result := recvFragment recvUpdate multifragMaxRequestSize fastpath updateCode
      (if fragment = 0 then fragmentFirst else fragmentNext) data
    result.1 = true ∧ result.2.Awaits (fragment + 1) (done ++ data) ∧
      result.2.calls = fastpath.calls := by
  intro result
  unfold result recvFragment
  by_cases hfirst : fragment = 0
  · obtain ⟨hfrag, hdone⟩ := h.first hfirst
    simp only [hfirst, if_true, if_neg (show ¬ fragmentFirst = fragmentSingle by decide),
      h.updateData_eq, length_append, if_neg (not_lt.mpr hmax), hfrag, ne_eq,
      not_true_eq_false, if_false]
    exact ⟨trivial, ⟨rfl, fun h0 => absurd h0 (by omega), fun _ => Or.inl rfl⟩, trivial⟩
  have hnext := h.not_idle hfirst
  simp only [if_neg hfirst, if_neg (show ¬ fragmentNext = fragmentSingle by decide),
    if_neg (show ¬ fragmentNext = fragmentFirst by decide), if_true, h.updateData_eq,
    length_append, if_neg (not_lt.mpr hmax), if_neg hnext]
  exact ⟨trivial, ⟨rfl, fun h0 => absurd h0 (by omega), fun _ => Or.inr rfl⟩, trivial⟩

end Fragments

@[simp] theorem recvPdus_singleton
    (bulk : Bulk S R) (recvUpdate multifragMaxRequestSize) (pdu fastpath) :
    recvPdus bulk recvUpdate multifragMaxRequestSize [pdu] fastpath =
      rdpRecvFastpathPdu bulk recvUpdate multifragMaxRequestSize fastpath pdu := by
  rw [recvPdus]
  rcases rdpRecvFastpathPdu bulk recvUpdate multifragMaxRequestSize fastpath pdu with ⟨_ | _, _⟩
  · rfl
  · rfl

/-- PDUs behind others are received if none of those fails. -/
theorem recvPdus_append (bulk : Bulk S R) (recvUpdate multifragMaxRequestSize) (pdus pdus' fastpath)
    (h : (recvPdus bulk recvUpdate multifragMaxRequestSize pdus fastpath).1 = true) :
    recvPdus bulk recvUpdate multifragMaxRequestSize (pdus ++ pdus') fastpath =
      recvPdus bulk recvUpdate multifragMaxRequestSize pdus'
        (recvPdus bulk recvUpdate multifragMaxRequestSize pdus fastpath).2 := by
  induction pdus generalizing fastpath with
  | nil => rfl
  | cons pdu pdus ih =>
  rw [cons_append, recvPdus, recvPdus]
  rw [recvPdus] at h
  rcases hpdu : rdpRecvFastpathPdu bulk recvUpdate multifragMaxRequestSize fastpath pdu with
    ⟨status, fastpath'⟩
  rw [hpdu] at h
  rcases status with _ | _
  · cases h
  · exact ih fastpath' h

variable {updateCode : ℕ}

/-- **One round of the sender**: a PDU with the next bytes, which the receiver takes as the fragment
it is. -/
theorem sendLoop_round (hrestores : Restores bulk InStep)
    (settings : Settings) (hcode : updateCode < 16) (skipCompression : Bool)
    (recvUpdate : ℕ → List UInt8 → Bool) (fuel : ℕ)
    (hsrc : src.length > 0 ∨ fragment = 0) {s : S}
    (hstep : InStep s fastpath.bulk) :
    ∃ k pdu s1 r1, k ≤ src.length ∧ (src.length > 0 → k > 0) ∧ WellSized pdu ∧ InStep s1 r1 ∧
      sendLoop bulk settings updateCode skipCompression (fuel + 1) fragment src s =
        (sendLoop bulk settings updateCode skipCompression fuel (fragment + 1) (src.drop k) s1).map
          (fun (pdus, s) => (pdu :: pdus, s)) ∧
      rdpRecvFastpathPdu bulk recvUpdate settings.multifragMaxRequestSize fastpath pdu =
        recvFragment recvUpdate settings.multifragMaxRequestSize
          { fastpath with encryptionFlags := 0, numberEvents := 0, bulk := r1 } updateCode
          (if (src.drop k).length = 0 then (if fragment = 0 then fragmentSingle else fragmentLast)
            else (if fragment = 0 then fragmentFirst else fragmentNext)) (src.take k) := by
  obtain ⟨hpos, hle, hcomp⟩ := maxLength_bounds settings skipCompression
  set k := if src.length > maxLength settings skipCompression
    then maxLength settings skipCompression else src.length % 2 ^ 16 with hk
  have hkle : k ≤ src.length ∧ k ≤ maxLength settings skipCompression ∧
      (src.length > 0 → k > 0) := by
    rw [hk]
    split_ifs with hlong
    · omega
    · omega
  obtain ⟨data, compression, flags, s1, r1, hfragment, hused, hflags, hdata, hdec, hstep1⟩ :=
    compressFragment_spec hrestores settings skipCompression hstep (src.take k)
  rw [length_take] at hdata
  set fragmentation := if (src.drop k).length = 0
    then (if fragment = 0 then fragmentSingle else fragmentLast)
    else (if fragment = 0 then fragmentFirst else fragmentNext) with hfrag
  set header : UpdateHeader := ⟨updateCode, fragmentation, compression, flags, data.length⟩ with hh
  have hheader : header.Ok := by
    refine ⟨hcode, ?_, hflags, ?_, ?_⟩
    · simp only [hh, hfrag]
      split_ifs <;> decide
    · rcases hused with h0 | ⟨h2, -⟩
      · exact Or.inl h0
      · exact Or.inr h2
    · simp only [hh]
      omega
  -- the PDU is not longer than the stream it is written to
  have hsize : data.length + (getUpdateHeaderSize header + 3) ≤ 0x3FFF := by
    unfold getUpdateHeaderSize
    split_ifs with hzero
    · rcases hused with ⟨h0, -⟩ | ⟨-, hon⟩
      · exact absurd h0 hzero
      · omega
    · omega
  set pdu := writeUpdatePduHeader (data.length + (getUpdateHeaderSize header + 3)) ++
    writeUpdateHeader header ++ data with hpdu
  have hpdulen : pdu.length = data.length + (getUpdateHeaderSize header + 3) := by
    rw [length_append, length_append, writeUpdateHeader_length]
    change 3 + _ + _ = _
    omega
  have hwell : WellSized pdu := by
    refine ⟨?_, by omega⟩
    rw [hpdulen, hpdu, append_assoc, (readHeaderRdp_write (by omega) (by omega) fastpath).1]
    rfl
  refine ⟨k, pdu, s1, r1, hkle.1, hkle.2.2, hwell, hstep1, ?_, ?_⟩
  · rw [sendLoop, if_pos hsrc]
    simp only [← hk, hfragment, ← hfrag, ← hh]
    rw [if_neg (by omega), if_neg (by omega), ← hpdu, if_neg (by rw [maxPacketSize]; omega)]
  · have hlt : data.length + (getUpdateHeaderSize header + 3) < 0x8000 := by omega
    exact rdpRecvFastpathPdu_eq recvUpdate settings.multifragMaxRequestSize hheader rfl rfl hlt hdec

/-- **The loop of the sender against the receiver**: what is left of the update is sent, and with
the last PDU the receiver calls `fastpath_recv_update` with the whole.  No PDU fails before that
call. -/
theorem sendLoop_spec (hrestores : Restores bulk InStep)
    (settings : Settings) (hcode : updateCode < 16) (skipCompression : Bool)
    (recvUpdate : ℕ → List UInt8 → Bool) (fuel : ℕ) :
    ∀ fragment src done s fastpath,
      src.length < fuel → (fragment = 0 → src.length + 1 < fuel) → (fragment ≠ 0 → src ≠ []) →
      done.length + src.length ≤ settings.multifragMaxRequestSize → InStep s fastpath.bulk →
      fastpath.Awaits fragment done →
      ∃ pdus s' received, sendLoop bulk settings updateCode skipCompression fuel fragment src s =
          some (pdus, s') ∧ (∀ pdu ∈ pdus, WellSized pdu) ∧
        recvPdus bulk recvUpdate settings.multifragMaxRequestSize pdus fastpath =
          (recvUpdate updateCode (done ++ src), received) ∧
        pdus.foldl (recvPdu bulk recvUpdate settings.multifragMaxRequestSize) fastpath = received ∧
        received.Received (fastpath.calls ++ [(updateCode, done ++ src)]) ∧
        InStep s' received.bulk := by
  induction fuel with
  | zero => omega
  | succ fuel ih =>
  intro fragment src done s fastpath hfuel hfuel0 hne hmax hstep hawaits
  have hsrc : src.length > 0 ∨ fragment = 0 := by
    by_cases h0 : fragment = 0
    · exact Or.inr h0
    · exact Or.inl (length_pos_iff.mpr (hne h0))
  obtain ⟨k, pdu, s1, r1, hk, hkpos, hwell, hstep1, hloop, hrecv⟩ :=
    sendLoop_round hrestores settings hcode skipCompression recvUpdate fuel hsrc hstep
  have hawaits' : Receiver.Awaits
      { fastpath with encryptionFlags := 0, numberEvents := 0, bulk := r1 } fragment done :=
    ⟨hawaits.updateData_eq, hawaits.first, hawaits.next⟩
  have htake : done.length + (src.take k).length ≤ settings.multifragMaxRequestSize := by
    rw [length_take]
    omega
  have hbulk := recvFragment_bulk recvUpdate settings.multifragMaxRequestSize { fastpath with
    encryptionFlags := 0, numberEvents := 0, bulk := r1 } updateCode
  rw [hloop]
  by_cases hlast : (src.drop k).length = 0
  · -- the loop ends behind this PDU
    have hall : src.take k = src := take_of_length_le (by
      rw [length_drop] at hlast
      omega)
    have hend : sendLoop bulk settings updateCode skipCompression fuel (fragment + 1)
        (src.drop k) s1 = some ([], s1) := by
      obtain ⟨fuel, rfl⟩ : ∃ n, fuel = n + 1 := ⟨fuel - 1, by
        rcases hsrc with h | h
        · omega
        · omega⟩
      rw [sendLoop, if_neg (by omega)]
    rw [if_pos hlast, hall] at hrecv
    rw [hall] at htake
    obtain ⟨hstatus, hreceived⟩ := recvFragment_last recvUpdate hawaits' htake updateCode
    refine ⟨[pdu], s1, _, by rw [hend]; rfl, ?_, ?_, ?_, hreceived, ?_⟩
    · intro other hother
      rw [mem_singleton.mp hother]
      exact hwell
    · rw [recvPdus_singleton, hrecv, ← hstatus]
    · rw [foldl_cons, foldl_nil, recvPdu, hrecv]
    · rw [hbulk]
      exact hstep1
  rw [if_neg hlast] at hrecv
  obtain ⟨hstatus, hmore, hcalls⟩ := recvFragment_more recvUpdate hawaits' htake updateCode
  rw [← hrecv] at hstatus hmore hcalls
  rw [length_drop] at hlast
  obtain ⟨pdus, s', received, hrest, hwells, hpdus, hfold, hreceived, hstep'⟩ :=
    ih (fragment + 1) (src.drop k) (done ++ src.take k) s1 _ (by rw [length_drop]; omega)
    (fun h0 => absurd h0 (succ_ne_zero _))
    (fun _ hnil => by
      rw [← length_eq_zero_iff, length_drop] at hnil
      exact hlast hnil)
    (by
      rw [length_append, length_take, length_drop]
      omega)
    (by
      rw [hrecv, hbulk]
      exact hstep1) hmore
  rw [append_assoc, take_append_drop] at hpdus
  refine ⟨pdu :: pdus, s', received, by rw [hrest]; rfl, ?_, ?_, hfold, ?_, hstep'⟩
  · intro other hother
    rcases mem_cons.mp hother with rfl | hmem
    · exact hwell
    · exact hwells other hmem
  · have happend := recvPdus_append bulk recvUpdate settings.multifragMaxRequestSize
      [pdu] pdus fastpath
    rw [recvPdus_singleton] at happend
    exact (happend hstatus).trans hpdus
  · rw [hcalls, append_assoc, take_append_drop] at hreceived
    exact hreceived

/-- **Every update arrives once, as it was sent.**  An update code of 0 to 15 and a payload that is
not longer than `MultifragMaxRequestSize` are sent; every PDU has its size as its length, below
0x8000; and a receiver that holds nothing calls `fastpath_recv_update` once, with the update code
and the payload, and holds nothing again. -/
theorem fastpath_update_round_trip {bulk : Bulk S R} {InStep : S → R → Prop}
    (hrestores : Restores bulk InStep) (settings : Settings) (hout : settings.fastPathOutput)
    {updateCode : ℕ} (hcode : updateCode < 16) (skipCompression : Bool) (payload : List UInt8)
    (hmax : payload.length ≤ settings.multifragMaxRequestSize)
    (recvUpdate : ℕ → List UInt8 → Bool) (s : S) (fastpath : Receiver R)
    (hstep : InStep s fastpath.bulk) (hfrag : fastpath.fragmentation = -1)
    (hempty : fastpath.updateData = []) :
    ∃ pdus s', sendUpdatePdu bulk settings updateCode payload skipCompression s = some (pdus, s') ∧
      (∀ pdu ∈ pdus, WellSized pdu) ∧
      (pdus.foldl (recvPdu bulk recvUpdate settings.multifragMaxRequestSize) fastpath).Received
        (fastpath.calls ++ [(updateCode, payload)]) ∧
      InStep s'
        (pdus.foldl (recvPdu bulk recvUpdate settings.multifragMaxRequestSize) fastpath).bulk := by
  unfold sendUpdatePdu
  rw [if_neg (by simpa using hout), if_neg (by omega)]
  obtain ⟨pdus, s', _, hsend, hwell, -, rfl, hreceived, hstep'⟩ :=
    sendLoop_spec hrestores settings hcode
    skipCompression recvUpdate (payload.length + 2) 0 payload [] s fastpath (by omega)
    (fun _ => by omega) (fun h => absurd rfl h) (by simpa using hmax) hstep
    ⟨hempty, fun _ => ⟨hfrag, rfl⟩, fun h => absurd rfl h⟩
  exact ⟨pdus, s', hsend, hwell, hreceived, hstep'⟩

/-- A bulk layer that sends every packet backwards, as a compressed one. -/
def reverseBulk : Bulk Unit Unit where
  compress s src := (some (src.reverse, 0x21), s)
  codec r src _ := (some src.reverse, r)

theorem reverseBulk_restores : Restores reverseBulk fun _ _ => True where
  raw _ _ _ := trivial
  restore _ h hflags := by
    cases h
    refine ⟨by decide, le_of_eq length_reverse, (), ?_, trivial⟩
    exact congrArg (fun data => (some data, ())) (reverse_reverse _)

/-- An update of 17000 bytes takes two compressed PDUs. -/
theorem fastpath_update_round_trip_two :
    ∃ pdus s', sendUpdatePdu reverseBulk ⟨true, 1, true, 20000⟩ 4 (replicate 17000 7) false () =
        some (pdus, s') ∧
      (pdus.foldl (recvPdu reverseBulk (fun _ _ => true) 20000) ⟨0, 0, [], -1, [], ()⟩).Received
        [(4, replicate 17000 7)] := by
  obtain ⟨pdus, s', hsend, -, hreceived, -⟩ := fastpath_update_round_trip reverseBulk_restores
    ⟨true, 1, true, 20000⟩ rfl (show 4 < 16 by decide) false (replicate 17000 7)
    (length_replicate.trans_le (show 17000 ≤ 20000 by omega))
    (fun _ _ => true) () ⟨0, 0, [], -1, [], ()⟩ trivial rfl rfl
  exact ⟨pdus, s', hsend, hreceived⟩

/-! ## The fragments that are accepted -/

/-- The kind of a fragment and its decompressed data. -/
abbrev Fragment : Type := ℕ × List UInt8

def readFragment (bulk : Bulk S R) (r : R) (s : List UInt8) : Option Fragment :=
  match s with
  | [] => none
  | updateHeader :: s =>
    let (_, fragmentation, compression) := readUpdateHeader updateHeader
    match (if compression = compressionUsed then readLE 1 s else some (0, s)) with
    | none => none
    | some (compressionFlags, s) => (readLE 2 s).bind fun (size, s) =>
      if s.length < size then none
      else (bulkDecompress bulk r (s.take size) compressionFlags).1.map (Prod.mk fragmentation)

/-- The calls of `fastpath_recv_update_data` that return no negative status, one after the other,
with the fragments of their PDUs.  What `fastpath_recv_update` answers may change from call to
call. -/
inductive Accepts (bulk : Bulk S R) (multifragMaxRequestSize : ℕ) :
    Receiver R → List Fragment → Receiver R → Prop
  | nil (fastpath : Receiver R) : Accepts bulk multifragMaxRequestSize fastpath [] fastpath
  | cons {fastpath fastpath₁ fastpath₂ : Receiver R} {s rest : List UInt8} {fragment : Fragment}
      {fragments : List Fragment} (recvUpdate : ℕ → List UInt8 → Bool)
      (hread : readFragment bulk fastpath.bulk s = some fragment)
      (hcall : recvUpdateData bulk recvUpdate multifragMaxRequestSize fastpath s =
        (true, fastpath₁, rest))
      (h : Accepts bulk multifragMaxRequestSize fastpath₁ fragments fastpath₂) :
      Accepts bulk multifragMaxRequestSize fastpath (fragment :: fragments) fastpath₂

/-- A group that is open: `FIRST NEXT*`. -/
def OpenGroup (group : List Fragment) : Prop :=
  ∃ data nexts, group = (fragmentFirst, data) :: nexts ∧
  ∀ fragment ∈ nexts, fragment.1 = fragmentNext

/-- Whole groups: `(SINGLE | FIRST NEXT* LAST)*`. -/
inductive Groups : List Fragment → Prop
  | nil : Groups []
  | single {fragments : List Fragment} (h : Groups fragments) (data : List UInt8) :
      Groups (fragments ++ [(fragmentSingle, data)])
  | group {fragments group : List Fragment} (h : Groups fragments) (hgroup : OpenGroup group)
      (data : List UInt8) : Groups (fragments ++ (group ++ [(fragmentLast, data)]))

/-- What the receiver knows of the fragments it has taken: whole groups came first, and `group` is
what came of the one that is open. -/
structure Receiver.Holds (fastpath : Receiver R) (multifragMaxRequestSize : ℕ)
    (fragments group : List Fragment) : Prop where
  groups : ∃ done, Groups done ∧ fragments = done ++ group
  opened : group = [] ∨ OpenGroup group
  fragmentation_eq : fastpath.fragmentation = -1 ↔ group = []
  updateData_eq : fastpath.updateData = (group.map Prod.snd).flatten
  length_le : group ≠ [] → fastpath.updateData.length ≤ multifragMaxRequestSize

section Accepted

variable {limit : ℕ} {fastpath fastpath₁ : Receiver R}

theorem recvUpdateData_fragment
    (h : recvUpdateData bulk recvUpdate limit fastpath s = (true, fastpath₁, rest)) :
    ∃ updateCode fragmentation data r, fragmentation < 4 ∧
      readFragment bulk fastpath.bulk s = some (fragmentation, data) ∧
        recvFragment recvUpdate limit { fastpath with bulk := r } updateCode
          fragmentation data = (true, fastpath₁) := by
  have hfalse {a : Receiver R} {b : List UInt8} : (false, a, b) ≠ (true, fastpath₁, rest) := by simp
  rcases s with _ | ⟨updateHeader, s⟩
  · exact absurd h hfalse
  have hkind : (readUpdateHeader updateHeader).2.1 < 4 := by
    exact lt_of_le_of_lt and_le_right (by decide)
  simp only [recvUpdateData, readFragment] at h ⊢
  generalize readUpdateHeader updateHeader = header at h hkind ⊢
  rcases hflags : (if header.2.2 = compressionUsed then readLE 1 s else some (0, s)) with _ | flags
  · rw [hflags] at h
    exact absurd h hfalse
  rw [hflags] at h
  rcases hsize : readLE 2 flags.2 with _ | size
  · simp only [hsize] at h
    exact absurd h hfalse
  simp only [hsize] at h
  by_cases hshort : size.2.length < size.1
  · rw [if_pos hshort] at h
    exact absurd h hfalse
  rw [if_neg hshort] at h
  rcases hbulk : bulkDecompress bulk fastpath.bulk (size.2.take size.1) flags.1 with
    ⟨_ | data, r⟩
  · rw [hbulk] at h
    exact absurd h hfalse
  rw [hbulk] at h
  simp only [Prod.mk.injEq] at h
  exact ⟨_, _, data, r, hkind, by simp [hsize, hshort, hbulk], Prod.ext h.1 h.2.1⟩

/-- **One fragment** that is taken goes on with the groups. -/
theorem Receiver.Holds.step (h : fastpath.Holds limit fragments group)
    {fragmentation : ℕ} (hkind : fragmentation < 4)
    (hrecv : recvFragment recvUpdate limit { fastpath with bulk := r } updateCode
      fragmentation data = (true, fastpath₁)) :
    ∃ group1, fastpath₁.Holds limit (fragments ++ [(fragmentation, data)]) group1 := by
  obtain ⟨⟨done, hdone, rfl⟩, hopened, hclosed, hdata, -⟩ := h
  have hfalse {a : Receiver R} : (false, a) ≠ (true, fastpath₁) := by simp
  -- the receiver after a call of `fastpath_recv_update`, with whole groups only
  have hempty {q : Receiver R} (hq : callRecvUpdate recvUpdate q updateCode = (true, fastpath₁))
      (hfrag : q.fragmentation = -1) {fragments : List Fragment} (hgroups : Groups fragments) :
      ∃ group1, fastpath₁.Holds limit fragments group1 := by
    obtain rfl := (Prod.mk.inj hq).2
    exact ⟨[], ⟨fragments, hgroups, (append_nil _).symm⟩, .inl rfl, iff_of_true hfrag rfl, rfl,
      fun hne => absurd rfl hne⟩
  unfold recvFragment at hrecv
  by_cases hsingle : fragmentation = fragmentSingle
  · rw [if_pos hsingle] at hrecv
    by_cases hopen : fastpath.fragmentation ≠ -1
    · rw [if_pos hopen] at hrecv
      exact absurd hrecv hfalse
    rw [if_neg hopen] at hrecv
    rw [hclosed.mp (not_not.mp hopen), append_nil, hsingle]
    exact hempty hrecv (not_not.mp hopen) (hdone.single data)
  rw [if_neg hsingle] at hrecv
  by_cases hlong : (fastpath.updateData ++ data).length > limit
  · rw [if_pos hlong] at hrecv
    exact absurd hrecv hfalse
  rw [if_neg hlong] at hrecv
  by_cases hfirst : fragmentation = fragmentFirst
  · rw [if_pos hfirst] at hrecv
    by_cases hopen : fastpath.fragmentation ≠ -1
    · rw [if_pos hopen] at hrecv
      exact absurd hrecv hfalse
    rw [if_neg hopen] at hrecv
    obtain rfl := (Prod.mk.inj hrecv).2
    rw [hclosed.mp (not_not.mp hopen)] at hdata ⊢
    refine ⟨[(fragmentation, data)], ⟨done, hdone, by rw [append_nil]⟩, .inr ?_,
      iff_of_false (show (fragmentFirst : ℤ) ≠ -1 by decide) (by simp), by simp [hdata], fun _ =>
        ?_⟩
    · exact ⟨data, [], by rw [hfirst], fun _ hmem => absurd hmem not_mem_nil⟩
    · exact not_lt.mp hlong
  -- the other kinds need a group that is open
  have hgroup (hnot : ¬(fastpath.fragmentation ≠ fragmentFirst ∧
    fastpath.fragmentation ≠ fragmentNext)) :
      OpenGroup group := by
    refine hopened.resolve_left fun hnil => hnot ?_
    rw [hclosed.mpr hnil]
    decide
  by_cases hnext : fragmentation = fragmentNext
  · split_ifs at hrecv with hnot
    · exact absurd hrecv hfalse
    obtain rfl := (Prod.mk.inj hrecv).2
    obtain ⟨first, nexts, rfl, hnexts⟩ := hgroup hnot
    refine ⟨(fragmentFirst, first) :: nexts ++ [(fragmentation, data)],
      ⟨done, hdone, append_assoc _ _ _⟩, .inr ⟨first, nexts ++ [(fragmentation, data)], rfl, ?_⟩,
      iff_of_false (show (fragmentNext : ℤ) ≠ -1 by decide) (by simp), by simp [hdata], fun _ => ?_⟩
    · intro fragment hmem
      rcases mem_append.mp hmem with hmem | hmem
      · exact hnexts fragment hmem
      · rw [mem_singleton.mp hmem, hnext]
    · exact not_lt.mp hlong
  · have hlast : fragmentation = fragmentLast := by
      have h0 : fragmentation ≠ 0 := hsingle
      have h2 : fragmentation ≠ 2 := hfirst
      have h3 : fragmentation ≠ 3 := hnext
      exact show fragmentation = 1 by omega
    split_ifs at hrecv with hnot
    · exact absurd hrecv hfalse
    · rw [append_assoc, hlast]
      exact hempty hrecv rfl (hdone.group (hgroup hnot) data)

theorem Accepts.holds (h : Accepts bulk limit fastpath fragments fastpath₁) :
    ∀ {before group}, fastpath.Holds limit before group →
      ∃ group1, fastpath₁.Holds limit (before ++ fragments) group1 := by
  induction h with
  | nil fastpath =>
    intro before group hholds
    exact ⟨group, by rwa [append_nil]⟩
  | cons recvUpdate hread hcall _ ih =>
  intro before group hholds
  obtain ⟨updateCode, fragmentation, data, r, hkind, hread', hrecv⟩ := recvUpdateData_fragment hcall
  obtain rfl := Option.some.inj (hread.symm.trans hread')
  obtain ⟨group1, hstep⟩ := hholds.step hkind hrecv
  obtain ⟨group2, hlast⟩ := ih hstep
  exact ⟨group2, by rwa [append_assoc] at hlast⟩

end Accepted

/-- **The receiver accepts well-formed sequences of fragments only**: from its first state on, as
long as every call of `fastpath_recv_update_data` succeeds, the kinds of the fragments are those of
whole groups and of a group that is open; `updateData` holds the data of the group that is open,
within the limit. -/
theorem accepted_fragments (bulk : Bulk S R) (multifragMaxRequestSize : ℕ)
    (fastpath fastpath₁ : Receiver R)
    (fragments : List Fragment) (hfrag : fastpath.fragmentation = -1)
    (hempty : fastpath.updateData = [])
    (h : Accepts bulk multifragMaxRequestSize fastpath fragments fastpath₁) :
    ∃ done group, fragments = done ++ group ∧ Groups done ∧ (group = [] ∨ OpenGroup group) ∧
      (fastpath₁.fragmentation = -1 ↔ group = []) ∧
      fastpath₁.updateData = (group.map Prod.snd).flatten ∧
          (group ≠ [] → fastpath₁.updateData.length ≤ multifragMaxRequestSize) := by
  have hstart : fastpath.Holds multifragMaxRequestSize [] [] :=
    ⟨⟨[], .nil, rfl⟩, .inl rfl, iff_of_true hfrag rfl, hempty, fun hne => absurd rfl hne⟩
  obtain ⟨group, ⟨done, hdone, hsplit⟩, hopened, hclosed, hdata, hle⟩ := h.holds hstart
  exact ⟨done, group, hsplit, hdone, hopened, hclosed, hdata, hle⟩

/-- A first fragment of two bytes. -/
theorem accepted_fragments_first :
    ∃ done group, [(fragmentFirst, [7, 8])] = done ++ group ∧ Groups done ∧
    (group = [] ∨ OpenGroup group) ∧ ((2 : ℤ) = -1 ↔ group = []) ∧
      [7, 8] = (group.map Prod.snd).flatten ∧ (group ≠ [] → 2 ≤ 100) :=
  accepted_fragments reverseBulk 100 ⟨0, 0, [], -1, [], ()⟩ ⟨0, 0, [7, 8], 2, [], ()⟩
    [(fragmentFirst, [7, 8])] rfl rfl
    (.cons (s := [0x24, 2, 0, 7, 8]) (fun _ _ => true) rfl rfl (.nil _))

end WBFreeRDP.FastPath

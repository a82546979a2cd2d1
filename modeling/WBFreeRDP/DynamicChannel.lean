/-
# Dynamic virtual channels

`drdynvc_main.c` and `server.c`: a message on a dynamic virtual channel is sent as one `DATA` PDU,
or as a `DATA_FIRST` PDU with the length of the whole and `DATA` PDUs behind it.  The client and the
server write the same PDUs and put them together again in different ways: the server counts to a
total length, the client fills a stream of the length.
-/
import WBFreeRDP.ByteOrder

namespace WBFreeRDP.DynamicChannel

open List

/-! ## PDUs -/

/-- `CREATE_REQUEST_PDU`. -/
def createRequestPdu : ℕ := 0x01

/-- `DATA_FIRST_PDU`. -/
def dataFirstPdu : ℕ := 0x02

/-- `DATA_PDU`. -/
def dataPdu : ℕ := 0x03

/-- `CLOSE_REQUEST_PDU`. -/
def closeRequestPdu : ℕ := 0x04

def capabilityRequestPdu : ℕ := 0x05

def dataFirstCompressedPdu : ℕ := 0x06

/-- `DATA_COMPRESSED_PDU`. -/
def dataCompressedPdu : ℕ := 0x07

def softSyncRequestPdu : ℕ := 0x08

def softSyncResponsePdu : ℕ := 0x09

/-- `CHANNEL_CHUNK_LENGTH` of the client and `DVC_MAX_DATA_PDU_SIZE` of the server. -/
def channelChunkLength : ℕ := 1600

/-- `drdynvc_write_variable_uint` and `wts_write_variable_uint`: the code of the width, and the
bytes. -/
def writeVariableUint (val : ℕ) : ℕ × List UInt8 :=
  if val ≤ 0xFF then (0, leBytes 1 val)
  else if val ≤ 0xFFFF then (1, leBytes 2 val)
  else (2, leBytes 4 val)

def header (cmd sp cbChId : ℕ) : UInt8 := UInt8.ofNat (cmd <<< 4 ||| cbChId ||| sp <<< 2)

/-- `Cmd`, `Sp` and `cbChId` of the first byte of a PDU. -/
def readHeader (value : UInt8) : ℕ × ℕ × ℕ :=
  (((value &&& 0xf0) >>> 4).toNat, ((value &&& 0x0c) >>> 2).toNat, ((value &&& 0x03) >>> 0).toNat)

/-! ## Writing -/

/-- The loop of `drdynvc_write_data`. -/
def drdynvcWriteLoop (channelId : ℕ) : ℕ → List UInt8 → List (List UInt8)
  | 0, _ => []
  | fuel + 1, data =>
    if data.length > 0 then
      let (cbChId, chId) := writeVariableUint channelId
      let pos := 1 + chId.length
      let clen := channelChunkLength - pos
      let chunkLength := if data.length > clen then clen else data.length
      (header dataPdu 0 cbChId :: chId ++ data.take chunkLength) ::
        drdynvcWriteLoop channelId fuel (data.drop chunkLength)
    else []

/-- `drdynvc_write_data`: the PDUs that are sent. -/
def drdynvcWriteData (channelId : ℕ) (data : List UInt8) : List (List UInt8) :=
  let (cbChId, chId) := writeVariableUint channelId
  let pos := 1 + chId.length
  if data.length = 0 then []
  else if data.length ≤ channelChunkLength - pos then
    [header dataPdu 0 cbChId :: chId ++ data]
  else
    let (cbLen, len) := writeVariableUint data.length
    let pos := pos + len.length
    let chunkLength := channelChunkLength - pos
    (header dataFirstPdu cbLen cbChId :: chId ++ len ++ data.take chunkLength) ::
      drdynvcWriteLoop channelId data.length (data.drop chunkLength)

/-- The loop of `FreeRDP_WTSVirtualChannelWrite` for a dynamic channel. -/
def wtsWriteLoop (channelId : ℕ) : ℕ → Bool → List UInt8 → List (List UInt8)
  | 0, _, _ => []
  | fuel + 1, first, data =>
    if data.length > 0 then
      let (cbChId, chId) := writeVariableUint channelId
      let pos := 1 + chId.length
      let (start, pos) :=
        if first ∧ data.length > channelChunkLength - pos then
          let (cbLen, len) := writeVariableUint data.length
          (header dataFirstPdu cbLen cbChId :: chId ++ len, pos + len.length)
        else (header dataPdu 0 cbChId :: chId, pos)
      let written := channelChunkLength - pos
      let written := if written > data.length then data.length else written
      (start ++ data.take written) :: wtsWriteLoop channelId fuel false (data.drop written)
    else []

/-- `FreeRDP_WTSVirtualChannelWrite` for a dynamic channel: the PDUs that are queued. -/
def wtsVirtualChannelWrite (channelId : ℕ) (data : List UInt8) : List (List UInt8) :=
  wtsWriteLoop channelId data.length true data

/-! ## The server's receiver -/

/-- `dvc_open_state`. -/
inductive OpenState where
  | none
  | succeeded
  | failed
  | closed
deriving DecidableEq

/-- A dynamic channel of the server: `receiveData` holds the bytes up to its position, `queue` the
messages that were posted and `quit` says that the queue was told to end. -/
structure PeerChannel where
  dvcOpenState : OpenState
  dvcTotalLength : ℕ
  receiveData : List UInt8
  queue : List (List UInt8)
  quit : Bool

/-- `sizeof(wtsChannelMessage)`. -/
def sizeofWtsChannelMessage : ℕ := 12

/-- `wts_queue_receive_data` of one buffer, with an id of 16 bits as it asserts. -/
def wtsQueueReceiveData (channel : PeerChannel) (buffer : List UInt8) : Bool × PeerChannel :=
  if buffer.length > 2 ^ 32 - 1 - sizeofWtsChannelMessage then (false, channel)
  else (true, { channel with queue := channel.queue ++ [buffer] })

/-- `wts_read_variable_uint`; `none` for 0. -/
def wtsReadVariableUint (s : List UInt8) (cbLen : ℕ) : Option (ℕ × List UInt8) :=
  match cbLen with
  | 0 => readLE 1 s
  | 1 => readLE 2 s
  | 2 => readLE 4 s
  | _ => none

def wtsReadDrdynvcDataFirst (channel : PeerChannel) (s : List UInt8) (cbLen : ℕ) :
    Bool × PeerChannel :=
  match wtsReadVariableUint s cbLen with
  | none => (false, channel)
  | some (dvcTotalLength, s) =>
    let channel := { channel with dvcTotalLength := dvcTotalLength }
    if s.length > dvcTotalLength then (false, channel)
    else (true, { channel with receiveData := s })

def wtsReadDrdynvcData (channel : PeerChannel) (s : List UInt8) : Bool × PeerChannel :=
  if channel.dvcTotalLength > 0 then
    if channel.receiveData.length + s.length > channel.dvcTotalLength then
      (false, { channel with dvcTotalLength := 0 })
    else
      let channel := { channel with receiveData := channel.receiveData ++ s }
      if channel.receiveData.length ≥ channel.dvcTotalLength then
        let (ret, channel) :=
          wtsQueueReceiveData channel (channel.receiveData.take channel.dvcTotalLength)
        (ret, { channel with dvcTotalLength := 0 })
      else (true, channel)
  else wtsQueueReceiveData channel s

/-- `wts_read_drdynvc_create_response`; the callback for the status is taken to succeed. -/
def wtsReadDrdynvcCreateResponse (channel : PeerChannel) (s : List UInt8) : Bool × PeerChannel :=
  match readLE 4 s with
  | none => (false, channel)
  | some (creationStatus, _) =>
    -- a status below 0 as an `INT32`
    if creationStatus ≥ 2 ^ 31 then (true, { channel with dvcOpenState := .failed })
    else (true, { channel with dvcOpenState := .succeeded })

def wtsReadDrdynvcPduReadyGuarded (s : List UInt8) (cmd sp : ℕ) (dvc : PeerChannel) :
    Bool × PeerChannel :=
  if cmd = createRequestPdu then wtsReadDrdynvcCreateResponse dvc s
  else if cmd = dataFirstPdu then
    if dvc.dvcOpenState ≠ .succeeded then (true, dvc) else wtsReadDrdynvcDataFirst dvc s sp
  else if cmd = dataPdu then
    if dvc.dvcOpenState ≠ .succeeded then (true, dvc) else wtsReadDrdynvcData dvc s
  else if cmd = closeRequestPdu then (true, { dvc with dvcOpenState := .closed, quit := true })
  else if cmd = softSyncRequestPdu then (false, dvc)
  else (true, dvc)

/-- The channels of the server by their id, `drdynvc_state` being `DRDYNVC_STATE_READY`. -/
abbrev Server := ℕ → Option PeerChannel

/-- `wts_read_drdynvc_capabilities_response`, for a server that is ready. -/
def wtsReadDrdynvcCapabilitiesResponse (s : List UInt8) : Bool :=
  match readLE 2 (s.drop 1) with
  | none => false
  | some (version, _) => 1 ≤ version

/-- `wts_read_drdynvc_pdu` of a server that is ready. -/
def wtsReadDrdynvcPdu (vcm : Server) (pdu : List UInt8) : Bool × Server :=
  match pdu with
  | [] => (false, vcm)
  | value :: s =>
    let (cmd, sp, cbChId) := readHeader value
    if cmd = capabilityRequestPdu then (wtsReadDrdynvcCapabilitiesResponse s, vcm)
    else if cmd = softSyncRequestPdu then (false, vcm)
    else if cmd = softSyncResponsePdu then (true, vcm)
    else
      match wtsReadVariableUint s cbChId with
      | none => (false, vcm)
      | some (channelId, s) =>
        match vcm channelId with
        | none => (true, vcm)
        | some dvc =>
          let (rc, dvc) := wtsReadDrdynvcPduReadyGuarded s cmd sp dvc
          (rc, Function.update vcm channelId (some dvc))

/-! ## The client's receiver -/

/-- `channel->state`. -/
inductive ChannelState where
  | init
  | running
  | closed
deriving DecidableEq

/-- A dynamic channel of the client: `dvcData` is the stream of a message that is being received,
and `received` lists the calls of the data callback.  `decompressor` is what `zgfx_decompress`
keeps. -/
structure DvcmanChannel (D : Type*) where
  state : ChannelState
  dvcData : Option (List UInt8)
  dvcDataLength : ℕ
  received : List (List UInt8)
  decompressor : D

/-- The channels of the client by their id. -/
abbrev Client (D : Type*) := ℕ → Option (DvcmanChannel D)

/-- The code outside of the channels: `zgfx_decompress`, whether the data callback of a channel
accepts a message, and what a request makes of the channel it is to create. -/
structure Plugins (D : Type*) where
  zgfxDecompress : D → List UInt8 → D × Option (List UInt8)
  onDataReceived : ℕ → List UInt8 → Bool
  dvcmanCreateChannel : Client D → ℕ → List UInt8 → Bool × Option (DvcmanChannel D)

variable {D : Type*}

def drdynvcCblenToBytes (cbLen : ℕ) : ℕ :=
  match cbLen with
  | 0 => 1
  | 1 => 2
  | _ => 4

/-- `dvcman_call_on_receive`; `true` for `CHANNEL_RC_OK`. -/
def dvcmanCallOnReceive (plugins : Plugins D) (channelId : ℕ) (channel : DvcmanChannel D)
    (data : List UInt8) : Bool × DvcmanChannel D :=
  (plugins.onDataReceived channelId data, { channel with received := channel.received ++ [data] })

/-- `dvcman_channel_close` of a channel that is running. -/
def dvcmanChannelClose (channel : DvcmanChannel D) : DvcmanChannel D :=
  { channel with state := .closed }

def dvcmanReceiveChannelDataFirst (channel : DvcmanChannel D) (length : ℕ) : DvcmanChannel D :=
  { channel with dvcData := some [], dvcDataLength := length }

/-- `dvcman_receive_channel_data`; `true` for `CHANNEL_RC_OK`. -/
def dvcmanReceiveChannelData (plugins : Plugins D) (channelId : ℕ) (channel : DvcmanChannel D)
    (data : List UInt8) : Bool × DvcmanChannel D :=
  match channel.dvcData with
  | some dvcData =>
    if dvcData.length + data.length > channel.dvcDataLength then
      (false, { channel with dvcData := none })
    else
      let dvcData := dvcData ++ data
      if dvcData.length ≥ channel.dvcDataLength then
        let (status, channel) := dvcmanCallOnReceive plugins channelId channel dvcData
        (status, { channel with dvcData := none })
      else (true, { channel with dvcData := some dvcData })
  | none => dvcmanCallOnReceive plugins channelId channel data

/-- The bytes of a PDU that may be compressed. -/
def decompress (plugins : Plugins D) (channel : DvcmanChannel D) (compressed : Bool)
    (s : List UInt8) : DvcmanChannel D × Option (List UInt8) :=
  if compressed then
    let (decompressor, data) := plugins.zgfxDecompress channel.decompressor s
    ({ channel with decompressor := decompressor }, data)
  else (channel, some s)

/-- The channel of a PDU, unless it is not running, after its data was received by `receive`. -/
def withChannel (drdynvc : Client D) (plugins : Plugins D) (channelId : ℕ) (compressed : Bool)
    (s : List UInt8) (receive : DvcmanChannel D → List UInt8 → Bool × DvcmanChannel D) :
    Bool × Client D :=
  match drdynvc channelId with
  | none => (true, drdynvc)
  | some channel =>
    if channel.state ≠ .running then (true, drdynvc)
    else
      match decompress plugins channel compressed s with
      | (channel, none) => (false, Function.update drdynvc channelId (some channel))
      | (channel, some data) =>
        let (status, channel) := receive channel data
        let channel := if status then channel else dvcmanChannelClose channel
        (true, Function.update drdynvc channelId (some channel))

def drdynvcProcessDataFirst (drdynvc : Client D) (plugins : Plugins D) (sp cbChId : ℕ)
    (s : List UInt8) (compressed : Bool) : Bool × Client D :=
  match readLE (drdynvcCblenToBytes cbChId) s with
  | none => (false, drdynvc)
  | some (channelId, s) =>
    match readLE (drdynvcCblenToBytes sp) s with
    | none => (false, drdynvc)
    | some (length, s) =>
      withChannel drdynvc plugins channelId compressed s fun channel data =>
        dvcmanReceiveChannelData plugins channelId
          (dvcmanReceiveChannelDataFirst channel length) data

def drdynvcProcessData (drdynvc : Client D) (plugins : Plugins D) (cbChId : ℕ) (s : List UInt8)
    (compressed : Bool) : Bool × Client D :=
  match readLE (drdynvcCblenToBytes cbChId) s with
  | none => (false, drdynvc)
  | some (channelId, s) =>
    withChannel drdynvc plugins channelId compressed s fun channel data =>
      dvcmanReceiveChannelData plugins channelId channel data

def drdynvcProcessCloseRequest (drdynvc : Client D) (cbChId : ℕ) (s : List UInt8) :
    Bool × Client D :=
  match readLE (drdynvcCblenToBytes cbChId) s with
  | none => (false, drdynvc)
  | some (channelId, _) =>
    match drdynvc channelId with
    | none => (true, drdynvc)
    | some channel =>
      (true, Function.update drdynvc channelId
        (some (if channel.state = .running then dvcmanChannelClose channel else channel)))

def drdynvcProcessCreateRequest (drdynvc : Client D) (plugins : Plugins D) (cbChId : ℕ)
    (s : List UInt8) : Bool × Client D :=
  match readLE (drdynvcCblenToBytes cbChId) s with
  | none => (false, drdynvc)
  | some (channelId, name) =>
    if 0 ∈ name then
      let (status, channel) := plugins.dvcmanCreateChannel drdynvc channelId name
      (status, Function.update drdynvc channelId channel)
    else (false, drdynvc)

/-- `drdynvc_process_capability_request`: versions 2 and 3 have four priorities. -/
def drdynvcProcessCapabilityRequest (s : List UInt8) : Bool :=
  match readLE 2 (s.drop 1) with
  | none => false
  | some (version, s) => ¬ (version = 2 ∨ version = 3) ∨ 8 ≤ s.length

/-- `drdynvc_order_recv`. -/
def drdynvcOrderRecv (plugins : Plugins D) (drdynvc : Client D) (pdu : List UInt8) :
    Bool × Client D :=
  match pdu with
  | [] => (false, drdynvc)
  | value :: s =>
    let (cmd, sp, cbChId) := readHeader value
    if cmd = capabilityRequestPdu then (drdynvcProcessCapabilityRequest s, drdynvc)
    else if cmd = createRequestPdu then drdynvcProcessCreateRequest drdynvc plugins cbChId s
    else if cmd = dataFirstPdu ∨ cmd = dataFirstCompressedPdu then
      drdynvcProcessDataFirst drdynvc plugins sp cbChId s (cmd = dataFirstCompressedPdu)
    else if cmd = dataPdu ∨ cmd = dataCompressedPdu then
      drdynvcProcessData drdynvc plugins cbChId s (cmd = dataCompressedPdu)
    else if cmd = closeRequestPdu then drdynvcProcessCloseRequest drdynvc cbChId s
    else (false, drdynvc)

/-! ## Fragments -/

/-- A PDU of a channel without its header. -/
inductive Fragment where
  | first (total : ℕ) (bytes : List UInt8)
  | data (bytes : List UInt8)

/-- The PDU of a fragment. -/
def Fragment.pdu (channelId : ℕ) : Fragment → List UInt8
  | .first total bytes =>
    header dataFirstPdu (writeVariableUint total).1 (writeVariableUint channelId).1 ::
      (writeVariableUint channelId).2 ++ (writeVariableUint total).2 ++ bytes
  | .data bytes =>
    header dataPdu 0 (writeVariableUint channelId).1 :: (writeVariableUint channelId).2 ++ bytes

/-- The fragments of a message. -/
inductive IsMessage (m : List UInt8) : List Fragment → Prop where
  | single : IsMessage m [.data m]
  | fragmented {bytes : List UInt8} {chunks : List (List UInt8)}
      (hall : bytes ++ chunks.flatten = m)
      (hne : chunks ≠ []) (hchunks : ∀ chunk ∈ chunks, chunk ≠ []) :
      IsMessage m (.first m.length bytes :: chunks.map .data)

/-- PDUs that carry a message on a channel, none longer than a chunk. -/
def Sends (channelId : ℕ) (m : List UInt8) (pdus : List (List UInt8)) : Prop :=
  ∃ fs, pdus = fs.map (Fragment.pdu channelId) ∧ IsMessage m fs ∧
    ∀ pdu ∈ pdus, pdu.length ≤ channelChunkLength

/-- The bytes that a `DATA` PDU has room for. -/
abbrev room (channelId : ℕ) : ℕ := channelChunkLength - (1 + (writeVariableUint channelId).2.length)

theorem writeVariableUint_bounds (val) : (writeVariableUint val).1 < 3 ∧
    0 < (writeVariableUint val).2.length ∧ (writeVariableUint val).2.length ≤ 4 := by
  unfold writeVariableUint
  split_ifs
  · simp
  · simp
  · simp

theorem ite_gt (a b : ℕ) : (if a > b then b else a) = min a b := by
  split_ifs <;> omega

theorem sends_single {channelId} (h : m.length ≤ room channelId) :
    Sends channelId m [(Fragment.data m).pdu channelId] := by
  have h4 := writeVariableUint_bounds channelId
  refine ⟨[.data m], rfl, .single, fun pdu hpdu => ?_⟩
  rw [mem_singleton.mp hpdu]
  simp only [Fragment.pdu, length_cons, length_append]
  rw [room, channelChunkLength] at h
  rw [channelChunkLength]
  omega

variable (channelId : ℕ)

/-- **The loop of the client's writer** cuts what is left into chunks. -/
theorem drdynvcWriteLoop_spec (fuel : ℕ) :
    ∀ data : List UInt8, data.length ≤ fuel → ∃ chunks : List (List UInt8),
      drdynvcWriteLoop channelId fuel data = (chunks.map .data).map (Fragment.pdu channelId) ∧
      chunks.flatten = data ∧ (∀ chunk ∈ chunks, chunk ≠ []) ∧
      ∀ pdu ∈ drdynvcWriteLoop channelId fuel data, pdu.length ≤ channelChunkLength := by
  have h4 := writeVariableUint_bounds channelId
  induction fuel with
  | zero =>
    intro data hlen
    exact ⟨[], rfl, (length_eq_zero_iff.mp (Nat.le_zero.mp hlen)).symm, nofun, nofun⟩
  | succ fuel ih =>
  intro data hlen
  unfold drdynvcWriteLoop
  by_cases hdata : data.length > 0
  swap
  · rw [if_neg hdata]
    exact ⟨[], rfl, (length_eq_zero_iff.mp (by omega)).symm, nofun, nofun⟩
  rw [if_pos hdata]
  simp only [ite_gt]
  set n := min data.length (room channelId) with hn
  rw [room, channelChunkLength] at hn
  obtain ⟨chunks, hloop, hflat, hne, hmax⟩ := ih (data.drop n) (by
    rw [length_drop]
    omega)
  refine ⟨data.take n :: chunks, by rw [hloop]; rfl, ?_, ?_, ?_⟩
  · rw [flatten_cons, hflat, take_append_drop]
  · refine forall_mem_cons.mpr ⟨?_, hne⟩
    rw [ne_eq, ← length_eq_zero_iff, length_take]
    omega
  · refine forall_mem_cons.mpr ⟨?_, hmax⟩
    simp only [length_cons, length_append, length_take, channelChunkLength]
    omega

/-- Behind its first PDU the server's writer does what the client's does. -/
theorem wtsWriteLoop_false (channelId fuel data) :
    wtsWriteLoop channelId fuel false data = drdynvcWriteLoop channelId fuel data := by
  induction fuel generalizing data with
  | zero => rfl
  | succ fuel ih =>
  unfold wtsWriteLoop drdynvcWriteLoop
  simp only [Bool.false_eq_true, false_and, if_false, ite_gt, ih,
    min_comm (room channelId) data.length]

variable {m : List UInt8}

/-- What both writers send of a message that does not fit one PDU. -/
theorem sends_first {channelId} (hfuel : m.length ≤ fuel + 1)
    (hlong : m.length > room channelId) (hn : n = channelChunkLength -
      (1 + (writeVariableUint channelId).2.length + (writeVariableUint m.length).2.length)) :
    Sends channelId m ((Fragment.first m.length (m.take n)).pdu channelId ::
      drdynvcWriteLoop channelId fuel (m.drop n)) := by
  have h4 := writeVariableUint_bounds channelId
  have h4' := writeVariableUint_bounds m.length
  rw [channelChunkLength] at hn
  rw [room, channelChunkLength] at hlong
  obtain ⟨chunks, hloop, hflat, hne, hmax⟩ := drdynvcWriteLoop_spec channelId fuel (m.drop n) (by
    rw [length_drop]
    omega)
  refine ⟨.first m.length (m.take n) :: chunks.map .data, by rw [hloop]; rfl,
    .fragmented ?_ ?_ hne, forall_mem_cons.mpr ⟨?_, hmax⟩⟩
  · rw [hflat, take_append_drop]
  · rintro rfl
    have hlen := congrArg List.length hflat
    rw [flatten_nil, length_nil, length_drop] at hlen
    omega
  · simp only [Fragment.pdu, length_cons, length_append, length_take, channelChunkLength]
    omega

/-- **The client's writer** sends the message. -/
theorem drdynvcWriteData_sends (hm : m ≠ []) :
    Sends channelId m (drdynvcWriteData channelId m) := by
  unfold drdynvcWriteData
  simp only
  rw [if_neg (fun h => hm (length_eq_zero_iff.mp h))]
  by_cases hshort : m.length ≤ room channelId
  · rw [if_pos hshort]
    exact sends_single hshort
  · rw [if_neg hshort]
    exact sends_first (by omega) (by omega) rfl

theorem drdynvcWriteLoop_nil (channelId fuel : ℕ) : drdynvcWriteLoop channelId fuel [] = [] := by
  cases fuel <;> rfl

/-- What the server's writer sends: one PDU, or a first one and then what the client's loop
sends. -/
theorem wtsVirtualChannelWrite_eq (channelId) (hlen : m.length = fuel + 1) :
    let n := channelChunkLength -
      (1 + (writeVariableUint channelId).2.length + (writeVariableUint m.length).2.length)
    wtsVirtualChannelWrite channelId m =
      if m.length ≤ room channelId then [(Fragment.data m).pdu channelId]
      else (Fragment.first m.length (m.take n)).pdu channelId ::
        drdynvcWriteLoop channelId fuel (m.drop n) := by
  intro n
  unfold wtsVirtualChannelWrite
  rw [hlen, wtsWriteLoop, if_pos (by omega), ← hlen]
  simp only [true_and, wtsWriteLoop_false, ite_gt]
  by_cases hshort : m.length ≤ room channelId
  · rw [if_pos hshort]
    simp only [if_neg (not_lt.mpr hshort)]
    rw [min_eq_right hshort, take_length, drop_length, drdynvcWriteLoop_nil]
    rfl
  · rw [if_neg hshort]
    simp only [if_pos (not_le.mp hshort)]
    rw [min_eq_left (by rw [room] at hshort; omega)]
    rfl

/-- **The server's writer** sends it too. -/
theorem wtsVirtualChannelWrite_sends (hm : m ≠ []) :
    Sends channelId m (wtsVirtualChannelWrite channelId m) := by
  obtain ⟨fuel, hlen⟩ := Nat.exists_eq_succ_of_ne_zero fun h => hm (length_eq_zero_iff.mp h)
  rw [wtsVirtualChannelWrite_eq channelId hlen]
  split_ifs with hshort
  · exact sends_single hshort
  · exact sends_first (by omega) (by omega) rfl

/-- The loop of the client does not depend on its fuel, as long as that is enough. -/
theorem drdynvcWriteLoop_fuel (channelId fuel) :
    ∀ fuel' {data}, data.length ≤ fuel → data.length ≤ fuel' →
    drdynvcWriteLoop channelId fuel data = drdynvcWriteLoop channelId fuel' data := by
  have h4 := writeVariableUint_bounds channelId
  induction fuel with
  | zero =>
    intro fuel' data h _
    rw [length_eq_zero_iff.mp (Nat.le_zero.mp h), drdynvcWriteLoop_nil, drdynvcWriteLoop_nil]
  | succ fuel ih =>
  intro fuel' data h h'
  rcases data with _ | ⟨b, data⟩
  · rw [drdynvcWriteLoop_nil, drdynvcWriteLoop_nil]
  obtain ⟨fuel', rfl⟩ : ∃ n, fuel' = n + 1 := ⟨fuel' - 1, by rw [length_cons] at h'; omega⟩
  rw [drdynvcWriteLoop, drdynvcWriteLoop, if_pos (by simp), if_pos (by simp)]
  simp only [ite_gt]
  rw [ih]
  all_goals
    rw [length_drop, channelChunkLength]
    omega

/-- **Both writers send the same PDUs.** -/
theorem writers_agree (channelId : ℕ) (m : List UInt8) :
    wtsVirtualChannelWrite channelId m = drdynvcWriteData channelId m := by
  have h4 := writeVariableUint_bounds channelId
  have h4' := writeVariableUint_bounds m.length
  unfold drdynvcWriteData
  simp only
  by_cases hm : m.length = 0
  · rw [length_eq_zero_iff.mp hm]
    rfl
  obtain ⟨fuel, hlen⟩ := Nat.exists_eq_succ_of_ne_zero hm
  rw [wtsVirtualChannelWrite_eq channelId hlen, if_neg hm]
  refine if_congr Iff.rfl rfl (congrArg _ ?_)
  refine drdynvcWriteLoop_fuel channelId fuel m.length ?_ ?_
  all_goals
    rw [length_drop, channelChunkLength]
    omega

/-! ## Reading a PDU -/

/-- The fields of the first byte are read as they were written. -/
theorem readHeader_header (hcmd : cmd < 16) (hsp : sp < 4) (hcb : cbChId < 4) :
    readHeader (header cmd sp cbChId) = (cmd, sp, cbChId) := by
  have hall : ∀ cmd < 16, ∀ sp < 4, ∀ cbChId < 4,
      readHeader (header cmd sp cbChId) = (cmd, sp, cbChId) := by decide +kernel
  exact hall cmd hcmd sp hsp cbChId hcb

theorem writeVariableUint_read {val} (h : val < 2 ^ 32) (rest) :
    wtsReadVariableUint ((writeVariableUint val).2 ++ rest) (writeVariableUint val).1 =
        some (val, rest) ∧
      readLE (drdynvcCblenToBytes (writeVariableUint val).1) ((writeVariableUint val).2 ++ rest) =
        some (val, rest) := by
  unfold writeVariableUint
  split_ifs with h1 h2
  · have hread := readLE_leBytes (w := 1) (n := val) (by omega) rest
    exact ⟨hread, hread⟩
  · have hread := readLE_leBytes (w := 2) (n := val) (by omega) rest
    exact ⟨hread, hread⟩
  · have hread := readLE_leBytes (w := 4) (n := val) (by omega) rest
    exact ⟨hread, hread⟩

/-- The channel a PDU is for, as `readId` reads it; none for one that has no channel id. -/
def pduChannelId (readId : List UInt8 → ℕ → Option (ℕ × List UInt8)) : List UInt8 → Option ℕ
  | [] => none
  | value :: s =>
    let (cmd, _, cbChId) := readHeader value
    if cmd = capabilityRequestPdu ∨ cmd = softSyncRequestPdu ∨ cmd = softSyncResponsePdu then none
    else (readId s cbChId).map Prod.fst

def serverChannelId : List UInt8 → Option ℕ := pduChannelId wtsReadVariableUint

def clientChannelId : List UInt8 → Option ℕ :=
  pduChannelId fun s cbChId => readLE (drdynvcCblenToBytes cbChId) s

def Fragment.Fits : Fragment → Prop
  | .first total _ => total < 2 ^ 32
  | .data _ => True

variable {fs : List Fragment}

theorem IsMessage.fits (h : IsMessage m fs) (hlen : m.length < 2 ^ 32) : ∀ f ∈ fs, f.Fits := by
  intro f hf
  cases h with
  | single =>
    rw [mem_singleton.mp hf]
    exact trivial
  | fragmented hall hne hchunks =>
  rcases mem_cons.mp hf with rfl | hmem
  · exact hlen
  · obtain ⟨chunk, -, rfl⟩ := mem_map.mp hmem
    exact trivial

/-- `Cmd` of a fragment. -/
def Fragment.cmd : Fragment → ℕ
  | .first _ _ => dataFirstPdu
  | .data _ => dataPdu

/-- `Sp` of a fragment. -/
def Fragment.sp : Fragment → ℕ
  | .first total _ => (writeVariableUint total).1
  | .data _ => 0

/-- What follows the channel id of a fragment. -/
def Fragment.body : Fragment → List UInt8
  | .first total bytes => (writeVariableUint total).2 ++ bytes
  | .data bytes => bytes

theorem Fragment.pdu_eq {f : Fragment} (hf : f.Fits) :
    ∃ value, f.pdu channelId = value :: ((writeVariableUint channelId).2 ++ f.body) ∧
      readHeader value = (f.cmd, f.sp, (writeVariableUint channelId).1) := by
  have hcb : (writeVariableUint channelId).1 < 4 :=
    Nat.lt_succ_of_lt (writeVariableUint_bounds channelId).1
  cases f with
  | first total bytes =>
    refine ⟨_, ?_, readHeader_header (show dataFirstPdu < 16 by decide) (Nat.lt_succ_of_lt
      (writeVariableUint_bounds total).1) hcb⟩
    rw [Fragment.pdu, cons_append, cons_append, append_assoc]
    rfl
  | data bytes =>
    exact ⟨_, rfl, readHeader_header (show dataPdu < 16 by decide) (show 0 < 4 by decide) hcb⟩

theorem pduChannelId_pdu {readId} {channelId}
    {f : Fragment} (hf : f.Fits) (hread : ∀ rest, readId ((writeVariableUint channelId).2 ++ rest)
      (writeVariableUint channelId).1 = some (channelId, rest)) :
    pduChannelId readId (f.pdu channelId) = some channelId := by
  obtain ⟨value, hpdu, hheader⟩ := f.pdu_eq channelId hf
  have hcmd : ¬ (f.cmd = capabilityRequestPdu ∨ f.cmd = softSyncRequestPdu ∨
      f.cmd = softSyncResponsePdu) := by
    cases f with
    | first total bytes | data bytes => exact of_decide_eq_true rfl
  rw [hpdu, pduChannelId, hheader]
  simp [if_neg hcmd, hread]

/-- **A run of a receiver** does to a channel what the fragments for it do, whatever PDUs are for
other channels. -/
theorem run_fragments {S C : Type*} {step : S → List UInt8 → S} (channel : S → Option C)
    (fragment : C → Fragment → C) (channelId : ℕ) (idOf : List UInt8 → Option ℕ)
    (hother : ∀ s pdu, idOf pdu ≠ some channelId → channel (step s pdu) = channel s)
    (hown : ∀ s c f, Fragment.Fits f → channel s = some c →
      channel (step s (f.pdu channelId)) = some (fragment c f)) (pdus : List (List UInt8)) :
    ∀ (fs : List Fragment) (s : S) (c : C), (∀ f ∈ fs, f.Fits) → channel s = some c →
      pdus.filter (fun pdu => idOf pdu = some channelId) = fs.map (Fragment.pdu channelId) →
      channel (pdus.foldl step s) = some (fs.foldl fragment c) := by
  induction pdus with
  | nil =>
    intro fs s c _ hs hfs
    have hnil : fs = [] := map_eq_nil_iff.mp hfs.symm
    rw [hnil]
    exact hs
  | cons pdu pdus ih =>
  intro fs s c hfits hs hfs
  by_cases hid : idOf pdu = some channelId
  · rw [filter_cons_of_pos (by rwa [decide_eq_true_eq])] at hfs
    rcases fs with _ | ⟨f, fs⟩
    · cases hfs
    obtain ⟨rfl, hrest⟩ := List.cons.inj hfs
    exact ih fs _ _ (fun g hg => hfits g (mem_cons_of_mem _ hg))
      (hown s c f (hfits f mem_cons_self) hs) hrest
  · rw [filter_cons_of_neg (by rwa [decide_eq_true_eq])] at hfs
    exact ih fs _ c hfits ((hother s pdu hid).trans hs) hfs

/-! ## Reassembly -/

/-- What a receiver is to do with a fragment: the message that it is in the middle of, with its
length, and the messages that are complete; none for a fragment that is refused, or complete though
the first. -/
def assemble : Option (ℕ × List UInt8) → Fragment →
    Option (Option (ℕ × List UInt8) × List (List UInt8))
  | _, .first total bytes => if bytes.length < total then some (some (total, bytes), []) else none
  | none, .data bytes => some (none, [bytes])
  | some (total, got), .data bytes =>
    if got.length + bytes.length < total then some (some (total, got ++ bytes), [])
    else if got.length + bytes.length = total then some (none, [got ++ bytes])
    else none

variable {f : Fragment} {pending pending' : Option (ℕ × List UInt8)}
  {out queue received : List (List UInt8)}

section Messages

variable {C : Type*} {fragment : C → Fragment → C}
  {Holds : C → Option (ℕ × List UInt8) → List (List UInt8) → Prop}
  {delivered : List UInt8 → List (List UInt8)}
  (hstep : ∀ {c pending received f pending' out}, Holds c pending received →
    assemble pending f = some (pending', out) →
    Holds (fragment c f) pending' (received ++ out.flatMap delivered))

include hstep

/-- **The rest of a message**: chunks that fill it up to its length. -/
theorem foldl_chunks (chunks : List (List UInt8)) (total : ℕ) :
    ∀ c got, Holds c (some (total, got)) received →
      total = got.length + chunks.flatten.length → got.length < total →
      (∀ chunk ∈ chunks, chunk ≠ []) →
      Holds ((chunks.map .data).foldl fragment c) none
        (received ++ delivered (got ++ chunks.flatten)) := by
  induction chunks with
  | nil =>
    intro c got _ htotal hlt _
    exact absurd htotal (Nat.ne_of_gt hlt)
  | cons chunk chunks ih =>
  intro c got hc htotal _ hchunks
  rw [flatten_cons, length_append] at htotal
  obtain ⟨-, hrest⟩ := forall_mem_cons.mp hchunks
  rw [flatten_cons, ← append_assoc]
  by_cases hmore : got.length + chunk.length < total
  · have hnext := hstep hc (f := .data chunk) (if_pos hmore)
    rw [flatMap_nil, append_nil] at hnext
    refine ih _ _ hnext ?_ ?_ hrest
    · rw [length_append]
      omega
    · rwa [length_append]
  -- nothing is left for a further chunk
  have hnil : chunks = [] := by
    rcases chunks with _ | ⟨next, rest⟩
    · rfl
    have hpos := length_pos_iff.mpr (hrest next mem_cons_self)
    rw [flatten_cons, length_append] at htotal
    omega
  subst hnil
  have hlast := hstep hc (f := .data chunk)
    ((if_neg hmore).trans (if_pos (by omega)))
  rw [flatMap_singleton] at hlast
  rwa [flatten_nil, append_nil]

/-- **A message** is delivered. -/
theorem foldl_message (hfs : IsMessage m fs) (h : Holds c none received) :
    Holds (fs.foldl fragment c) none (received ++ delivered m) := by
  cases hfs with
  | single =>
    have hnext := hstep h (f := .data m) rfl
    rwa [flatMap_singleton] at hnext
  | @fragmented bytes chunks hall hne hchunks =>
  obtain ⟨chunk, rest, rfl⟩ := exists_cons_of_ne_nil hne
  have hpos := length_pos_iff.mpr (hchunks chunk mem_cons_self)
  have hlen : m.length = bytes.length + (chunk :: rest).flatten.length := by
    rw [← hall, length_append]
  have hlt : bytes.length < m.length := by
    rw [hlen, flatten_cons, length_append]
    omega
  have hfirst := hstep h (f := .first m.length bytes) (if_pos hlt)
  rw [flatMap_nil, append_nil] at hfirst
  have hrest := foldl_chunks hstep (chunk :: rest) _ _ _ hfirst hlen hlt hchunks
  rwa [hall] at hrest

theorem foldl_messages {write} {channelId}
    (hwrite : ∀ {m}, m ≠ [] → Sends channelId m (write m)) (ms : List (List UInt8)) :
    ∀ (c : C) (received : List (List UInt8)), Holds c none received →
      (∀ m ∈ ms, m ≠ [] ∧ m.length < 2 ^ 32) →
      ∃ fs : List Fragment, ms.flatMap write = fs.map (Fragment.pdu channelId) ∧
      (∀ f ∈ fs, f.Fits) ∧
        Holds (fs.foldl fragment c) none (received ++ ms.flatMap delivered) := by
  induction ms with
  | nil =>
    intro c received hc _
    exact ⟨[], rfl, nofun, by rwa [flatMap_nil, append_nil]⟩
  | cons m ms ih =>
  intro c received hc hms
  obtain ⟨⟨hm, hlen⟩, hms⟩ := forall_mem_cons.mp hms
  obtain ⟨fs, hfs, hmsg, -⟩ := hwrite hm
  obtain ⟨gs, hgs, hfits, hidle⟩ := ih _ _ (foldl_message hstep hmsg hc) hms
  refine ⟨fs ++ gs, ?_, ?_, ?_⟩
  · rw [flatMap_cons, hfs, hgs, map_append]
  · exact forall_mem_append.mpr ⟨hmsg.fits hlen, hfits⟩
  · rw [foldl_append, flatMap_cons, ← append_assoc]
    exact hidle

end Messages

/-! ## The server -/

/-- What a fragment does to a channel of the server. -/
def PeerChannel.fragment (dvc : PeerChannel) : Fragment → PeerChannel
  | .first total bytes =>
    if dvc.dvcOpenState ≠ .succeeded then dvc
    else if bytes.length > total then { dvc with dvcTotalLength := total }
    else { dvc with dvcTotalLength := total, receiveData := bytes }
  | .data bytes => if dvc.dvcOpenState ≠ .succeeded then dvc else (wtsReadDrdynvcData dvc bytes).2

/-- A PDU of another channel does nothing to a channel of the server. -/
theorem wtsReadDrdynvcPdu_other {channelId} (vcm pdu) (h : serverChannelId pdu ≠ some channelId) :
    (wtsReadDrdynvcPdu vcm pdu).2 channelId = vcm channelId := by
  rcases pdu with _ | ⟨value, s⟩
  · rfl
  unfold serverChannelId pduChannelId at h
  unfold wtsReadDrdynvcPdu
  simp only at h ⊢
  split_ifs with h1 h2 h3
  · rfl
  · rfl
  · rfl
  · rw [if_neg (by rintro (h | h | h) <;> contradiction)] at h
    rcases hread : wtsReadVariableUint s (readHeader value).2.2 with _ | idRest
    · rfl
    obtain ⟨id, rest⟩ := idRest
    rw [hread] at h
    have hne : channelId ≠ id := fun heq => h (congrArg some heq.symm)
    simp only
    cases hdvc : vcm id with
    | none => rfl
    | some dvc => exact Function.update_of_ne hne _ _

/-- A fragment's PDU does to its channel what the fragment does. -/
theorem wtsReadDrdynvcPdu_own {channelId} (hid : channelId < 2 ^ 32) (vcm)
    (dvc) (f) (hf : f.Fits) (hdvc : vcm channelId = some dvc) :
    (wtsReadDrdynvcPdu vcm (f.pdu channelId)).2 channelId = some (dvc.fragment f) ∧
      (wtsReadDrdynvcPdu vcm (f.pdu channelId)).1 =
        (wtsReadDrdynvcPduReadyGuarded f.body f.cmd f.sp dvc).1 := by
  obtain ⟨value, hpdu, hheader⟩ := f.pdu_eq channelId hf
  have hread := (writeVariableUint_read hid f.body).1
  have hguard : (wtsReadDrdynvcPduReadyGuarded f.body f.cmd f.sp dvc).2 = dvc.fragment f := by
    rcases f with ⟨total, bytes⟩ | bytes
    · change (wtsReadDrdynvcPduReadyGuarded ((writeVariableUint total).2 ++ bytes) dataFirstPdu
        (writeVariableUint total).1 dvc).2 = _
      unfold wtsReadDrdynvcPduReadyGuarded
      rw [if_neg (by decide), if_pos rfl, PeerChannel.fragment, wtsReadDrdynvcDataFirst,
        (writeVariableUint_read hf bytes).1]
      split_ifs with hopen hlong
      · rfl
      · simp [if_pos hlong]
      · simp [if_neg hlong]
    change (wtsReadDrdynvcPduReadyGuarded bytes dataPdu 0 dvc).2 = _
    unfold wtsReadDrdynvcPduReadyGuarded
    rw [if_neg (by decide), if_neg (by decide), if_pos rfl, PeerChannel.fragment]
    split_ifs with hopen
    · rfl
    · rfl
  have hcmd : f.cmd = dataFirstPdu ∨ f.cmd = dataPdu := by
    cases f with
    | first total bytes => exact .inl rfl
    | data bytes => exact .inr rfl
  unfold wtsReadDrdynvcPdu
  rw [hpdu]
  simp only [hheader, hread, hdvc]
  rw [if_neg (by rcases hcmd with h | h <;> rw [h] <;> decide),
    if_neg (by rcases hcmd with h | h <;> rw [h] <;> decide),
    if_neg (by rcases hcmd with h | h <;> rw [h] <;> decide)]
  simp [hguard]

/-- An open channel of the server that is not in the middle of a message. -/
structure PeerChannel.Idle (dvc : PeerChannel) (queue : List (List UInt8)) : Prop where
  opened : dvc.dvcOpenState = .succeeded
  total : dvc.dvcTotalLength = 0
  queue_eq : dvc.queue = queue

/-- What is posted of a message: nothing where it is too long for a message of the queue. -/
def posted (m : List UInt8) : List (List UInt8) :=
  if m.length > 2 ^ 32 - 1 - sizeofWtsChannelMessage then [] else [m]

theorem wtsQueueReceiveData_eq (dvc m) : wtsQueueReceiveData dvc m =
      (decide (posted m = [m]), { dvc with queue := dvc.queue ++ posted m }) := by
  unfold wtsQueueReceiveData posted
  split_ifs
  · simp
  · simp

/-- An open channel of the server that is in the middle of a message, or idle. -/
structure PeerChannel.Holds (dvc : PeerChannel) (pending : Option (ℕ × List UInt8))
    (queue : List (List UInt8)) : Prop where
  opened : dvc.dvcOpenState = .succeeded
  queue_eq : dvc.queue = queue
  held : match pending with
    | none => dvc.dvcTotalLength = 0
    | some (total, got) => dvc.dvcTotalLength = total ∧ dvc.receiveData = got ∧ got.length < total

variable {dvc : PeerChannel}

/-- **The server reassembles**, and posts what fits its queue. -/
theorem PeerChannel.Holds.fragment (h : dvc.Holds pending queue)
    (hf : assemble pending f = some (pending', out)) :
    (dvc.fragment f).Holds pending' (queue ++ out.flatMap posted) := by
  obtain ⟨hopen, rfl, hheld⟩ := h
  rcases f with ⟨total, bytes⟩ | bytes
  · obtain ⟨hlt, heq⟩ := Option.ite_none_right_eq_some.mp hf
    cases heq
    rw [PeerChannel.fragment, if_neg (not_not.mpr hopen), if_neg (Nat.lt_asymm hlt), flatMap_nil,
      append_nil]
    exact ⟨hopen, rfl, rfl, rfl, hlt⟩
  rw [PeerChannel.fragment, if_neg (not_not.mpr hopen), wtsReadDrdynvcData]
  rcases pending with _ | ⟨total, got⟩
  · cases hf
    rw [if_neg (by rw [hheld]; decide), wtsQueueReceiveData_eq, flatMap_singleton]
    exact ⟨hopen, rfl, hheld⟩
  obtain ⟨rfl, rfl, hlt⟩ := hheld
  rw [if_pos (by omega)]
  simp only [length_append]
  simp only [assemble] at hf
  split_ifs at hf with hmore hlast
  · cases hf
    rw [if_neg (by omega), if_neg (by omega), flatMap_nil, append_nil]
    exact ⟨hopen, rfl, rfl, rfl, by rwa [length_append]⟩
  · cases hf
    rw [if_neg (by omega), if_pos (by omega), take_of_length_le (by rw [length_append]; omega),
      wtsQueueReceiveData_eq, flatMap_singleton]
    exact ⟨hopen, rfl, rfl⟩

/-! ## The client -/

/-- What a fragment does to a channel of the client. -/
def DvcmanChannel.fragment (plugins : Plugins D) (channelId : ℕ) (channel : DvcmanChannel D)
    (f : Fragment) : DvcmanChannel D :=
  if channel.state ≠ .running then channel
  else
    let (status, channel) :=
      match f with
      | .first total bytes => dvcmanReceiveChannelData plugins channelId
          (dvcmanReceiveChannelDataFirst channel total) bytes
      | .data bytes => dvcmanReceiveChannelData plugins channelId channel bytes
    if status then channel else dvcmanChannelClose channel

variable {drdynvc : Client D} {plugins : Plugins D}

theorem withChannel_other {id channelId} (hne : channelId ≠ id) {compressed} {s} {receive} :
    (withChannel drdynvc plugins id compressed s receive).2 channelId = drdynvc channelId := by
  unfold withChannel
  rcases drdynvc id with _ | channel
  · rfl
  simp only
  split_ifs
  · rfl
  · split
    all_goals exact Function.update_of_ne hne _ _

/-- A PDU of another channel does nothing to a channel of the client. -/
theorem drdynvcOrderRecv_other {channelId} (plugins) (drdynvc : Client D)
    (pdu) (h : clientChannelId pdu ≠ some channelId) :
    (drdynvcOrderRecv plugins drdynvc pdu).2 channelId = drdynvc channelId := by
  rcases pdu with _ | ⟨value, s⟩
  · rfl
  unfold clientChannelId pduChannelId at h
  unfold drdynvcOrderRecv
  simp only at h ⊢
  by_cases hnone : (readHeader value).1 = capabilityRequestPdu ∨
      (readHeader value).1 = softSyncRequestPdu ∨ (readHeader value).1 = softSyncResponsePdu
  · rcases hnone with h | h | h <;> rw [h] <;> rfl
  rw [if_neg hnone] at h
  unfold drdynvcProcessCreateRequest drdynvcProcessDataFirst drdynvcProcessData
    drdynvcProcessCloseRequest
  rcases hread : readLE (drdynvcCblenToBytes (readHeader value).2.2) s with _ | idRest
  · split_ifs <;> rfl
  rw [hread] at h
  have hne : channelId ≠ idRest.1 := fun heq => h (congrArg some heq.symm)
  simp only
  split_ifs
  · rfl
  · exact Function.update_of_ne hne _ _
  · rfl
  · cases readLE (drdynvcCblenToBytes (readHeader value).2.1) idRest.2 with
    | none => rfl
    | some lengthRest => exact withChannel_other hne
  · exact withChannel_other hne
  · cases drdynvc idRest.1 with
    | none => rfl
    | some channel => exact Function.update_of_ne hne _ _
  · rfl

variable {channel : DvcmanChannel D}

theorem withChannel_own {channelId} (h : drdynvc channelId = some channel) {s} {receive} :
    (withChannel drdynvc plugins channelId false s receive).2 channelId =
      some (if channel.state ≠ .running then channel
        else if (receive channel s).1 then (receive channel s).2
        else dvcmanChannelClose (receive channel s).2) := by
  unfold withChannel
  rw [h]
  simp only [decompress, Bool.false_eq_true, if_false]
  split_ifs with hrun hstatus
  · exact h
  all_goals exact Function.update_self _ _ _

/-- A fragment's PDU does to its channel what the fragment does. -/
theorem drdynvcOrderRecv_own {channelId} (hid : channelId < 2 ^ 32) (plugins)
    (drdynvc) (channel : DvcmanChannel D) (f) (hf : f.Fits)
    (hchannel : drdynvc channelId = some channel) :
    (drdynvcOrderRecv plugins drdynvc (f.pdu channelId)).2 channelId =
      some (channel.fragment plugins channelId f) := by
  obtain ⟨value, hpdu, hheader⟩ := f.pdu_eq channelId hf
  have hread := (writeVariableUint_read hid f.body).2
  unfold drdynvcOrderRecv
  rw [hpdu]
  simp only [hheader]
  rcases f with ⟨total, bytes⟩ | bytes
  · have hlength := (writeVariableUint_read hf bytes).2
    have hcmd : (Fragment.first total bytes).cmd = dataFirstPdu := rfl
    simp only [hcmd]
    rw [if_neg (show ¬ dataFirstPdu = capabilityRequestPdu by decide),
      if_neg (show ¬ dataFirstPdu = createRequestPdu by decide), if_pos (.inl trivial)]
    unfold drdynvcProcessDataFirst
    rw [hread]
    simp only [Fragment.body, Fragment.sp]
    rw [hlength]
    exact withChannel_own hchannel
  have hcmd : (Fragment.data bytes).cmd = dataPdu := rfl
  simp only [hcmd]
  rw [if_neg (show ¬ dataPdu = capabilityRequestPdu by decide),
    if_neg (show ¬ dataPdu = createRequestPdu by decide),
    if_neg (show ¬ (dataPdu = dataFirstPdu ∨ dataPdu = dataFirstCompressedPdu) by decide),
    if_pos (.inl trivial)]
  unfold drdynvcProcessData
  rw [hread]
  exact withChannel_own hchannel

/-- A running channel of the client that is not in the middle of a message. -/
structure DvcmanChannel.Idle (channel : DvcmanChannel D) (received : List (List UInt8)) : Prop where
  running : channel.state = .running
  dvcData : channel.dvcData = none
  received_eq : channel.received = received

/-- A running channel of the client that is in the middle of a message, or idle. -/
structure DvcmanChannel.Holds (channel : DvcmanChannel D) (pending : Option (ℕ × List UInt8))
    (received : List (List UInt8)) : Prop where
  running : channel.state = .running
  received_eq : channel.received = received
  held : match pending with
    | none => channel.dvcData = none
    | some (total, got) =>
      channel.dvcData = some got ∧ channel.dvcDataLength = total ∧ got.length < total

/-- Data that is received, and whether the callback accepts the messages of it. -/
theorem DvcmanChannel.Holds.receive (plugins channelId) {bytes} (h : channel.Holds pending received)
    (hf : assemble pending (.data bytes) = some (pending', out)) :
    (dvcmanReceiveChannelData plugins channelId channel bytes).1 =
        out.all (plugins.onDataReceived channelId) ∧
      (dvcmanReceiveChannelData plugins channelId channel bytes).2.Holds pending'
        (received ++ out) := by
  obtain ⟨hrun, rfl, hheld⟩ := h
  unfold dvcmanReceiveChannelData
  rcases pending with _ | ⟨total, got⟩
  · cases hf
    have hnone : channel.dvcData = none := hheld
    rw [hnone]
    exact ⟨(Bool.and_true _).symm, hrun, rfl, hnone⟩
  obtain ⟨hdata, rfl, hlt⟩ := hheld
  simp only [hdata, length_append, assemble] at hf ⊢
  split_ifs at hf with hmore hlast
  · cases hf
    rw [if_neg (by omega), if_neg (by omega), append_nil]
    exact ⟨rfl, hrun, rfl, rfl, rfl, by rwa [length_append]⟩
  · cases hf
    rw [if_neg (by omega), if_pos (by omega)]
    exact ⟨(Bool.and_true _).symm, hrun, rfl, rfl⟩

/-- **The client reassembles**, as long as its callback accepts the messages. -/
theorem DvcmanChannel.Holds.fragment {channelId : ℕ} (h : channel.Holds pending received)
    (hf : assemble pending f = some (pending', out))
    (hok : (∀ m, plugins.onDataReceived channelId m = true) ∨
      (channel.fragment plugins channelId f).state = .running) :
    (channel.fragment plugins channelId f).Holds pending' (received ++ out) := by
  -- a first fragment is received as data behind the start of the message
  obtain ⟨c, held, bytes, hc, hdata, heq⟩ : ∃ (c : DvcmanChannel D) (held : _) (bytes : _),
      c.Holds held received ∧ assemble held (.data bytes) = some (pending', out) ∧
      channel.fragment plugins channelId f =
        if (dvcmanReceiveChannelData plugins channelId c bytes).1
        then (dvcmanReceiveChannelData plugins channelId c bytes).2
        else dvcmanChannelClose (dvcmanReceiveChannelData plugins channelId c bytes).2 := by
    cases f with
    | first total bytes =>
      obtain ⟨hlt, hsome⟩ := Option.ite_none_right_eq_some.mp hf
      refine ⟨dvcmanReceiveChannelDataFirst channel total, some (total, []), bytes,
        ⟨h.running, h.received_eq, rfl, rfl, Nat.zero_lt_of_lt hlt⟩, ?_,
        if_neg (not_not.mpr h.running)⟩
      rw [assemble, if_pos (by rwa [length_nil, zero_add])]
      exact hsome
    | data bytes => exact ⟨channel, pending, bytes, h, hf, if_neg (not_not.mpr h.running)⟩
  obtain ⟨hstatus, hholds⟩ := hc.receive plugins channelId hdata
  rw [heq] at hok ⊢
  split_ifs at hok ⊢ with hs
  · exact hholds
  rcases hok with hok | hok
  · exact absurd (hstatus.trans (all_eq_true.mpr fun m _ => hok m)) hs
  · cases hok

/-! ## Runs -/

/-- The server's receiver on a sequence of PDUs. -/
def serverRun (vcm : Server) (pdus : List (List UInt8)) : Server :=
  pdus.foldl (fun vcm pdu => (wtsReadDrdynvcPdu vcm pdu).2) vcm

/-- The client's receiver on a sequence of PDUs. -/
def clientRun (plugins : Plugins D) (drdynvc : Client D) (pdus : List (List UInt8)) : Client D :=
  pdus.foldl (fun drdynvc pdu => (drdynvcOrderRecv plugins drdynvc pdu).2) drdynvc

variable {ms : List (List UInt8)} {pdus : List (List UInt8)}

/-- **Messages at the server**: each one that is not too long for the queue is posted. -/
theorem serverRun_messages {channelId : ℕ} (hid : channelId < 2 ^ 32)
    (hms : ∀ m ∈ ms, m ≠ [] ∧ m.length < 2 ^ 32) (vcm : Server)
    (hdvc : vcm channelId = some dvc) (h : dvc.Idle queue)
    (hpdus : pdus.filter (fun pdu => serverChannelId pdu = some channelId) =
      ms.flatMap (drdynvcWriteData channelId)) :
    ∃ dvc', serverRun vcm pdus channelId = some dvc' ∧ dvc'.Idle (queue ++ ms.flatMap posted) := by
  obtain ⟨fs, hfs, hfits, hrun⟩ := @foldl_messages _ PeerChannel.fragment PeerChannel.Holds posted
    (fun hc hf => hc.fragment hf) _ _ (drdynvcWriteData_sends channelId) ms dvc queue
    ⟨h.opened, h.queue_eq, h.total⟩ hms
  refine ⟨_, ?_, hrun.opened, hrun.held, hrun.queue_eq⟩
  exact run_fragments (fun vcm : Server => vcm channelId) PeerChannel.fragment channelId
    serverChannelId (fun vcm pdu hne => wtsReadDrdynvcPdu_other vcm pdu hne)
    (fun vcm dvc f hf hdvc => (wtsReadDrdynvcPdu_own hid vcm dvc f hf hdvc).1) pdus fs vcm dvc hfits
    hdvc (hpdus.trans hfs)

/-- **Messages at the client**: the data callback is called with each one. -/
theorem clientRun_messages {channelId : ℕ} (hid : channelId < 2 ^ 32)
    (hms : ∀ m ∈ ms, m ≠ [] ∧ m.length < 2 ^ 32)
    (hcb : ∀ m, plugins.onDataReceived channelId m = true)
    (hchannel : drdynvc channelId = some channel) (h : channel.Idle received)
    (hpdus : pdus.filter (fun pdu => clientChannelId pdu = some channelId) =
      ms.flatMap (wtsVirtualChannelWrite channelId)) :
    ∃ channel', clientRun plugins drdynvc pdus channelId = some channel' ∧
      channel'.Idle (received ++ ms) := by
  obtain ⟨fs, hfs, hfits, hrun⟩ := @foldl_messages _ (DvcmanChannel.fragment plugins channelId)
    DvcmanChannel.Holds (fun m => [m]) (fun hc hf => by
      rw [flatMap_singleton']
      exact hc.fragment hf (.inl hcb)) _ _
    (wtsVirtualChannelWrite_sends channelId) ms channel received
    ⟨h.running, h.received_eq, h.dvcData⟩ hms
  rw [flatMap_singleton'] at hrun
  refine ⟨_, ?_, hrun.running, hrun.held, hrun.received_eq⟩
  exact run_fragments (fun drdynvc : Client D => drdynvc channelId)
    (DvcmanChannel.fragment plugins channelId) channelId clientChannelId
    (fun drdynvc pdu hne => drdynvcOrderRecv_other plugins drdynvc pdu hne)
    (fun drdynvc channel f hf hc => drdynvcOrderRecv_own hid plugins drdynvc channel f hf hc)
      pdus fs
    drdynvc channel hfits hchannel (hpdus.trans hfs)

theorem length_le_of_mem_flatMap {channelId}
    (hwrite : ∀ {m}, m ≠ [] → Sends channelId m (write m)) (hms : ∀ m ∈ ms, m ≠ []) :
    ∀ pdu ∈ ms.flatMap write, pdu.length ≤ channelChunkLength := by
  intro pdu hpdu
  obtain ⟨m, hm, hmem⟩ := mem_flatMap.mp hpdu
  obtain ⟨fs, -, -, hmax⟩ := hwrite (hms m hm)
  exact hmax pdu hmem

/-- **Messages on a dynamic channel arrive as they were written.**  No PDU is longer than a chunk.
What the client writes is posted by the server, one message of the queue for each, as long as it
fits a message of the queue with its header; what the server writes is what the data callback of the
client is called with.  Both receivers are idle after it, whatever PDUs of other channels come in
between. -/
theorem dynamic_channel_round_trip (channelId : ℕ) (hid : channelId ≤ 0xFFFF)
    (ms : List (List UInt8)) (hms : ∀ m ∈ ms, m ≠ [] ∧ m.length < 2 ^ 32) :
    (∀ pdu ∈ ms.flatMap (drdynvcWriteData channelId) ++
      ms.flatMap (wtsVirtualChannelWrite channelId), pdu.length ≤ 1600) ∧
    ((∀ m ∈ ms, m.length ≤ 2 ^ 32 - 13) →
      ∀ (vcm : Server) (dvc : PeerChannel) (queue : List (List UInt8)),
        vcm channelId = some dvc → dvc.Idle queue → ∀ pdus,
        pdus.filter (fun pdu => serverChannelId pdu = some channelId) =
          ms.flatMap (drdynvcWriteData channelId) →
        ∃ dvc', serverRun vcm pdus channelId = some dvc' ∧ dvc'.Idle (queue ++ ms)) ∧
    ∀ plugins : Plugins D, (∀ m, plugins.onDataReceived channelId m = true) →
      ∀ (drdynvc : Client D) (channel : DvcmanChannel D) (received : List (List UInt8)),
        drdynvc channelId = some channel → channel.Idle received → ∀ pdus,
        pdus.filter (fun pdu => clientChannelId pdu = some channelId) =
          ms.flatMap (wtsVirtualChannelWrite channelId) →
        ∃ channel', clientRun plugins drdynvc pdus channelId = some channel' ∧
          channel'.Idle (received ++ ms) := by
  have hid32 : channelId < 2 ^ 32 := by omega
  have hne : ∀ m ∈ ms, m ≠ [] := fun m hm => (hms m hm).1
  refine ⟨?_, ?_, ?_⟩
  · intro pdu hpdu
    rcases mem_append.mp hpdu with hmem | hmem
    · exact length_le_of_mem_flatMap (drdynvcWriteData_sends channelId) hne pdu hmem
    · exact length_le_of_mem_flatMap (wtsVirtualChannelWrite_sends channelId) hne pdu hmem
  · intro hfit vcm dvc queue hdvc h pdus hpdus
    have hposted : ms.flatMap posted = ms := by
      rw [flatMap_congr (g := fun m => [m]) fun m hm => ?_, flatMap_singleton']
      have := hfit m hm
      exact if_neg (by rw [sizeofWtsChannelMessage]; omega)
    have hrun := serverRun_messages hid32 hms vcm hdvc h hpdus
    rwa [hposted] at hrun
  · intro plugins hcb drdynvc channel received hchannel h pdus hpdus
    exact clientRun_messages hid32 hms hcb hchannel h hpdus

/-- An open channel of the server that has received nothing. -/
def openedChannel : PeerChannel := ⟨.succeeded, 0, [], [], false⟩

/-- Plugins that accept all data. -/
def acceptAll : Plugins Unit := ⟨fun d s => (d, some s), fun _ _ => true, fun _ _ _ => (true, none)⟩

/-- A running channel of the client that has received nothing. -/
def runningChannel : DvcmanChannel Unit := ⟨.running, none, 0, [], ()⟩

/-- Two messages in either direction, of which the first takes two PDUs, with a PDU of channel 4 in
between. -/
theorem dynamic_channel_round_trip_two :
    let ms : List (List UInt8) := [replicate 2000 7, [5]]
    (∃ dvc, serverRun (fun _ => some openedChannel)
        (drdynvcWriteData 3 (replicate 2000 7) ++ [[0x30, 4, 9], [0x30, 3, 5]]) 3 = some dvc ∧
      dvc.Idle ms) ∧
    ∃ channel, clientRun acceptAll (fun _ => some runningChannel)
        (wtsVirtualChannelWrite 3 (replicate 2000 7) ++ [[0x30, 4, 9], [0x30, 3, 5]]) 3 =
          some channel ∧
      channel.Idle ms := by
  intro ms
  have hms : ∀ m ∈ ms, m ≠ [] ∧ m.length ≤ 2000 := forall_mem_cons.mpr
    ⟨⟨replicate_succ ▸ cons_ne_nil _ _, length_replicate.le⟩, forall_mem_singleton.mpr (by decide)⟩
  obtain ⟨-, hserver, hclient⟩ := dynamic_channel_round_trip (D := Unit) 3 (by decide) ms
    fun m hm => ⟨(hms m hm).1, (hms m hm).2.trans_lt (by decide)⟩
  exact ⟨hserver (fun m hm => (hms m hm).2.trans (by decide)) _ openedChannel
    [] rfl ⟨rfl, rfl, rfl⟩ _
      (by decide +kernel),
    hclient acceptAll (fun _ => rfl) _ runningChannel [] rfl ⟨rfl, rfl, rfl⟩ _
      (by decide +kernel)⟩

/-- A message of `2 ^ 32 - 1` bytes is not posted: with its header it is too long for the queue. -/
theorem server_does_not_post_longest_message : ∃ m : List UInt8, m ≠ [] ∧ m.length < 2 ^ 32 ∧
      ∃ dvc, serverRun (fun _ => some openedChannel) (drdynvcWriteData 3 m) 3 = some dvc ∧
        dvc.queue = [] := by
  obtain ⟨m, hlen⟩ : ∃ m : List UInt8, m.length = 2 ^ 32 - 1 :=
    ⟨replicate (2 ^ 32 - 1) 0, length_replicate⟩
  have hm : m ≠ [] := by
    rintro rfl
    rw [length_nil] at hlen
    omega
  obtain ⟨fs, hfs, hmsg, -⟩ := drdynvcWriteData_sends 3 hm
  refine ⟨m, hm, by omega, ?_⟩
  -- all of its PDUs are for the channel
  have hfits := hmsg.fits (show m.length < 2 ^ 32 by omega)
  have hown : (drdynvcWriteData 3 m).filter (fun pdu => serverChannelId pdu = some 3) =
      [m].flatMap (drdynvcWriteData 3) := by
    rw [flatMap_singleton, filter_eq_self, hfs]
    intro pdu hpdu
    obtain ⟨f, hf, rfl⟩ := mem_map.mp hpdu
    exact decide_eq_true (pduChannelId_pdu (hfits f hf) fun rest =>
      (writeVariableUint_read (by decide) rest).1)
  have hopened : openedChannel.Idle [] := ⟨rfl, rfl, rfl⟩
  obtain ⟨dvc, hrun, hidle⟩ := serverRun_messages (by decide)
    (fun m' hm' => by rw [mem_singleton.mp hm']; exact ⟨hm, by omega⟩)
    (fun _ => some openedChannel) rfl hopened hown
  refine ⟨dvc, hrun, hidle.queue_eq.trans ?_⟩
  rw [flatMap_singleton, posted, if_pos (by rw [sizeofWtsChannelMessage]; omega)]
  rfl

/-! ## Both receivers -/

/-- A `DATA_FIRST` PDU that does not carry exactly the bytes it declares. -/
def Fragment.Open : Fragment → Prop
  | .first total bytes => bytes.length ≠ total
  | .data _ => True

/-- Both receivers on the PDUs of a channel: after each one they have delivered the same messages,
up to the first PDU that one of them refuses; the client closes the channel then. -/
def Alike (plugins : Plugins D) (channelId : ℕ) : Server → Client D → List Fragment → Prop
  | _, _, [] => True
  | vcm, drdynvc, f :: fs =>
    let server := wtsReadDrdynvcPdu vcm (f.pdu channelId)
    let client := drdynvcOrderRecv plugins drdynvc (f.pdu channelId)
    server.1 = true → (client.2 channelId).map (·.state) = some .running →
      (server.2 channelId).map (·.queue) = (client.2 channelId).map (·.received) ∧
        Alike plugins channelId server.2 client.2 fs

/-- What the server accepts is reassembled and all of it posted. -/
theorem PeerChannel.Holds.assemble_eq_some (h : dvc.Holds pending queue)
    (hopen : f.Open) (hf : f.Fits)
    (hacc : (wtsReadDrdynvcPduReadyGuarded f.body f.cmd f.sp dvc).1 = true) :
    ∃ pending' out, assemble pending f = some (pending', out) ∧ out.flatMap posted = out := by
  rcases f with ⟨total, bytes⟩ | bytes
  · refine ⟨_, _, if_pos (lt_of_le_of_ne (not_lt.mp fun hlong => ?_) hopen), rfl⟩
    have hread : wtsReadVariableUint (Fragment.first total bytes).body
        (Fragment.first total bytes).sp = some (total, bytes) := (writeVariableUint_read hf bytes).1
    unfold wtsReadDrdynvcPduReadyGuarded wtsReadDrdynvcDataFirst at hacc
    rw [hread] at hacc
    simp [Fragment.cmd, dataFirstPdu, createRequestPdu, h.opened, hlong] at hacc
  have hacc : (wtsReadDrdynvcData dvc bytes).1 = true := by
    simpa [wtsReadDrdynvcPduReadyGuarded, Fragment.cmd, dataFirstPdu, createRequestPdu, dataPdu,
      Fragment.body, h.opened] using hacc
  obtain ⟨-, -, hheld⟩ := h
  unfold wtsReadDrdynvcData at hacc
  rcases pending with _ | ⟨total, got⟩
  · rw [if_neg (by rw [hheld]; decide), wtsQueueReceiveData_eq] at hacc
    exact ⟨_, _, rfl, (flatMap_singleton _ _).trans (of_decide_eq_true hacc)⟩
  obtain ⟨rfl, rfl, hlt⟩ := hheld
  rw [if_pos (by omega)] at hacc
  simp only [length_append] at hacc
  split_ifs at hacc with hlong hlast
  · rw [take_of_length_le (by rw [length_append]; omega), wtsQueueReceiveData_eq] at hacc
    exact ⟨_, _, (if_neg (by omega)).trans (if_pos (by omega)),
      (flatMap_singleton _ _).trans (of_decide_eq_true hacc)⟩
  · exact ⟨_, _, if_pos (by omega), rfl⟩

/-- **Client and server reassemble alike** where no `DATA_FIRST` PDU is complete by itself and the
id is one that the server can queue for, whatever the PDUs declare and carry. -/
theorem receivers_alike (plugins : Plugins D) (channelId : ℕ) (hid : channelId ≤ 0xFFFF)
    (vcm : Server) (drdynvc : Client D) (dvc : PeerChannel) (channel : DvcmanChannel D)
    (hdvc : vcm channelId = some dvc) (hchannel : drdynvc channelId = some channel)
    (ms : List (List UInt8)) (hserver : dvc.Idle ms) (hclient : channel.Idle ms)
    (fs : List Fragment) (hfs : ∀ f ∈ fs, f.Fits ∧ f.Open) :
    Alike plugins channelId vcm drdynvc fs := by
  have hid : channelId < 2 ^ 32 := by omega
  have hrun : ∀ (fs : List Fragment) (vcm : Server) (drdynvc : Client D) (dvc : PeerChannel)
      (channel : DvcmanChannel D) (pending : Option (ℕ × List UInt8)) (ms : List (List UInt8)),
      (∀ f ∈ fs, f.Fits ∧ f.Open) → vcm channelId = some dvc → drdynvc channelId = some channel →
      dvc.Holds pending ms → channel.Holds pending ms → Alike plugins channelId vcm drdynvc fs := by
    intro fs
    induction fs with
    | nil => exact fun _ _ _ _ _ _ _ _ _ _ _ => trivial
    | cons f fs ih =>
    intro vcm drdynvc dvc channel pending ms hfs hdvc hchannel hs hc hacc hrunning
    obtain ⟨⟨hfits, hopen⟩, hfs⟩ := forall_mem_cons.mp hfs
    obtain ⟨hdvc', hstatus⟩ := wtsReadDrdynvcPdu_own hid vcm dvc f hfits hdvc
    have hchannel' := drdynvcOrderRecv_own hid plugins drdynvc channel f hfits hchannel
    obtain ⟨pending', out, hf, hposted⟩ := hs.assemble_eq_some hopen hfits (hstatus.symm.trans hacc)
    rw [hchannel'] at hrunning
    have hs' := hs.fragment hf
    have hc' := hc.fragment hf (.inr (Option.some.inj hrunning))
    rw [hposted] at hs'
    refine ⟨?_, ih _ _ _ _ _ _ hfs hdvc' hchannel' hs' hc'⟩
    rw [hdvc', hchannel']
    exact congrArg some (hs'.queue_eq.trans hc'.received_eq.symm)
  exact hrun fs vcm drdynvc dvc channel none ms hfs hdvc hchannel
    ⟨hserver.opened, hserver.queue_eq, hserver.total⟩
    ⟨hclient.running, hclient.received_eq, hclient.dvcData⟩

/-- A message in two fragments, and another one. -/
theorem receivers_alike_two : Alike acceptAll 3 (fun _ => some openedChannel)
    (fun _ => some runningChannel) [.first 3 [1], .data [2, 3], .data []] :=
  receivers_alike acceptAll 3 (by decide) _ _ openedChannel runningChannel rfl rfl []
    ⟨rfl, rfl, rfl⟩ ⟨rfl, rfl, rfl⟩ _ (by simp [Fragment.Fits, Fragment.Open])

/-- A `DATA_FIRST` PDU with all of its bytes is delivered by the client alone. -/
theorem complete_first_not_alike : ¬ Alike acceptAll 3 (fun _ => some openedChannel)
    (fun _ => some runningChannel) [.first 1 [7]] := fun h =>
  absurd (h (by decide) (by decide)).1 (by decide)

end WBFreeRDP.DynamicChannel

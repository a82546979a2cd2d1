/-
# Receiving a PDU

`peer_recv_pdu` and everything it calls: slow-path and fast-path input, the data PDUs of the
finalization, Confirm Active, the message channel with auto-detection, heartbeat, multitransport and
licensing, and static channel data.
-/
import WBFreeRDP.ServerConnect

namespace WBFreeRDP.Server

open Program

section Handlers

variable (env : Env)

/-! ## Input -/

def times (action : Serve Unit) : ℕ → Serve Unit
  | 0 => pure ()
  | n + 1 => do
      action
      times action n

def callInput (call : InputCall) : Serve Unit := do
  emit (.input call)
  requireCallback env (.input call)

/-- A callback for a kind of input that the server must have announced. -/
def callAnnounced (announced : Settings → Bool) (call : InputCall) : Serve Unit := do
  ensure ((← observe fun p => announced p.settings) = true)
  callInput env call

/-- Three numbers of two bytes, for the three kinds of mouse events. -/
def readPointer : Parser (ℕ × ℕ × ℕ) := do
  Parser.need 6
  let flags ← Parser.u16
  let x ← Parser.u16
  let y ← Parser.u16
  return (flags, x, y)

/-- `KBD_FLAGS_DOWN` is dropped from the flags of a released key. -/
def releaseFlags (flags : ℕ) : ℕ :=
  if flags &&& 0x8000 ≠ 0 then flags - (flags &&& 0x4000) else flags

/-- The two numbers of a slow-path keyboard event. -/
def readKey : Parser (ℕ × ℕ) := do
  Parser.need 6
  let flags ← Parser.u16
  let code ← Parser.u16
  Parser.skip 2
  return (releaseFlags flags, code)

/-- `input_recv_event`. -/
def inputRecvEvent : Serve Unit := do
  let messageType ← parse do
    Parser.need 6
    Parser.skip 4
    Parser.u16
  match messageType with
  | 0x0000 =>
      let flags ← parse do
        Parser.need 6
        Parser.skip 2
        Parser.u32
      callInput env (.synchronize flags)
  | 0x0004 =>
      let (flags, code) ← parse readKey
      callInput env (.keyboard flags (code % 256))
  | 0x0005 =>
      let (flags, code) ← parse readKey
      callInput env (.unicodeKeyboard flags code)
  | 0x8001 =>
      let (flags, x, y) ← parse readPointer
      callInput env (.mouse flags x y)
  | 0x8002 =>
      let (flags, x, y) ← parse readPointer
      callAnnounced env (·.hasExtendedMouseEvent) (.extendedMouse flags x y)
  | 0x8004 =>
      let (flags, x, y) ← parse readPointer
      callAnnounced env (·.hasRelativeMouseEvent) (.relMouse flags x y)
  | _ =>
      -- an unknown event is skipped without a look at what is left
      update fun p => { p with stream := p.stream.drop 6 }

/-- `input_recv`. -/
def inputRecv : Serve Unit := do
  let numberEvents ← parse do
    Parser.need 4
    let numberEvents ← Parser.u16
    Parser.skip 2
    Parser.need (numberEvents * 6)
    return numberEvents
  emit .inputPdu
  times (inputRecvEvent env) numberEvents

def fastpathKeyFlags (eventFlags : ℕ) : ℕ :=
  (if eventFlags &&& 1 ≠ 0 then 0x8000 else 0) + (if eventFlags &&& 2 ≠ 0 then 0x0100 else 0) +
    (if eventFlags &&& 4 ≠ 0 then 0x0200 else 0)

def fastpathRecvInputEvent : Serve Unit := do
  let eventHeader ← parse Parser.u8
  let eventFlags := eventHeader % 32
  match eventHeader / 32 with
  | 0 =>
      let code ← parse Parser.u8
      callInput env (.keyboard (fastpathKeyFlags eventFlags) code)
  | 1 =>
      let (flags, x, y) ← parse readPointer
      callInput env (.mouse flags x y)
  | 2 =>
      let (flags, x, y) ← parse readPointer
      callAnnounced env (·.hasExtendedMouseEvent) (.extendedMouse flags x y)
  | 3 => callInput env (.synchronize eventFlags)
  | 4 =>
      let code ← parse Parser.u16
      callInput env (.unicodeKeyboard (if eventFlags &&& 1 ≠ 0 then 0x8000 else 0) code)
  | 5 =>
      let (flags, x, y) ← parse readPointer
      callAnnounced env (·.hasRelativeMouseEvent) (.relMouse flags x y)
  | 6 =>
      let timestamp ← parse Parser.u32
      callAnnounced env (·.hasQoeEvent) (.qoe timestamp)
  | _ => pure ()

/-- `fastpath_read_header_rdp`: the encryption flags, the number of events and the length that is
left after `pos` bytes of the buffer. -/
def fastpathReadHeaderRdp (position : ℕ) : Parser (ℕ × ℕ × ℕ) := do
  let before ← (fun l => some (l.length, l) : Parser ℕ)
  let header ← Parser.u8
  let length ← perReadLength
  let after ← (fun l => some (l.length, l) : Parser ℕ)
  let pos := position + (before - after)
  Parser.check (pos ≤ length)
  return (header / 64, header / 4 % 16, length - pos)

/-- `fastpath_decrypt`. -/
def fastpathDecrypt (encryptionFlags length : ℕ) : Serve Unit :=
  -- FASTPATH_OUTPUT_ENCRYPTED, FASTPATH_OUTPUT_SECURE_CHECKSUM
  if encryptionFlags &&& 2 ≠ 0 then do
    let _length ← external fun n rdp =>
      env.decrypt n rdp length (if encryptionFlags &&& 1 ≠ 0 then 0x0800 else 0)
  else
    pure ()

/-- The number of events, from the header or from one more byte. -/
def fastpathNumberEvents (numberEvents : ℕ) : Serve ℕ :=
  if numberEvents = 0 then parse Parser.u8 else pure numberEvents

def fastpathRecvInputs (numberEvents : ℕ) : Serve Unit := do
  let count ← fastpathNumberEvents numberEvents
  emit .fastPathPdu
  times (fastpathRecvInputEvent env) count

def peerRecvFastpathPdu : Serve StateRun := do
  let position ← observe fun p => p.buffer.length - p.stream.length
  let (encryptionFlags, numberEvents, length) ← parse (fastpathReadHeaderRdp position)
  ensure (length ≠ 0)
  parse (Parser.need length)
  fastpathDecrypt env encryptionFlags length
  fastpathRecvInputs env numberEvents
  return .success

/-! ## Activation -/

def rdpRecvClientSynchronizePdu : Serve Unit := do
  parse rdpRecvSyncPdu
  emit .synchronize
  update (·.setFlag Finalize.csSynchronizePdu)

def rdpServerAcceptClientControlPdu : Serve Unit := do
  let pdu ← parse rdpRecvControlPdu
  if pdu.action = ctrlActionRequestControl then
    ensure ((← observe (·.isFlagSet Finalize.csControlCooperatePdu)) = true)
    ensure (pdu.grantId = 0 ∧ pdu.controlId = 0)
    emit .request
    update (·.setFlag Finalize.csControlRequestPdu)
  else if pdu.action = ctrlActionCooperate then
    ensure ((← observe (·.isFlagSet Finalize.csSynchronizePdu)) = true)
    ensure (pdu.grantId = 0 ∧ pdu.controlId = 0)
    emit .cooperate
    update (·.setFlag Finalize.csControlCooperatePdu)
  else
    fail

def rdpServerAcceptClientPersistentKeyListPdu : Serve Unit := do
  parse rdpRecvClientPersistentKeyListPdu
  emit .persistentKeyList
  update (·.setFlag Finalize.csPersistentKeyListPdu)

/-- `rdp_server_accept_client_font_list_pdu`: no flag and no state is looked at. -/
def rdpServerAcceptClientFontListPdu : Serve Unit := do
  parse rdpRecvClientFontListPdu
  emit .fontList
  update (·.setFlag Finalize.csFontListPdu)
  rdpServerTransitionToState .finalizationClientFontMap
  require env .sendFontMap
  rdpServerTransitionToState .active

def rdpServerSendSync : Serve Unit := do
  rdpServerTransitionToState .finalizationClientSync
  require env .sendSynchronize
  rdpServerTransitionToState .finalizationClientCooperate
  require env .sendCooperate
  update (·.resetFlags)
  rdpServerTransitionToState .finalizationSync

/-- A Confirm Active out of place is an error, unless a recorded session is replayed. -/
def expectConfirmActive : Serve Unit := do
  if (← observe (·.state)) = .capabilitiesExchangeConfirmActive then
    pure ()
  else
    ensure (env.transportDumpReplay = true)
    update (·.setFlag Finalize.deactivateReactivate)

def rdpServerAcceptConfirmActive (pduLength : ℕ) : Serve Unit := do
  expectConfirmActive env
  external fun n rdp => env.recvConfirmActive n rdp pduLength
  require env .clientCapabilities
  emit .confirmActive
  rdpServerSendSync env

def updateReadRefreshRect : Serve Unit := do
  parse do
    Parser.need 4
    let numberOfAreas ← Parser.u8
    Parser.skip 3
    Parser.skip (numberOfAreas * 8)
  if ← observe (·.settings.refreshRect) then
    let _void ← callback env .refreshRect
  else
    pure ()

def updateReadSuppressOutput : Serve Unit := do
  parse do
    Parser.need 4
    let allowDisplayUpdates ← Parser.u8
    Parser.skip 3
    if 0 < allowDisplayUpdates then Parser.skip 8
  if ← observe (·.settings.suppressOutput) then
    let _void ← callback env .suppressOutput
  else
    pure ()

/-- `peer_recv_data_pdu`. -/
def peerRecvDataPdu : Serve StateRun := do
  let header ← parse rdpReadShareDataHeader
  if header.type = dataPduTypeSynchronize then
    rdpRecvClientSynchronizePdu
    return .success
  else if header.type = dataPduTypeControl then
    rdpServerAcceptClientControlPdu
    return .success
  else if header.type = dataPduTypeInput then
    inputRecv env
    return .success
  else if header.type = dataPduTypeBitmapCachePersistentList then
    rdpServerAcceptClientPersistentKeyListPdu
    return .success
  else if header.type = dataPduTypeFontList then
    rdpServerAcceptClientFontListPdu env
    -- the state has changed: run again
    return .continue
  else if header.type = dataPduTypeShutdownRequest then
    let _sent ← ask env .sendDisconnectUltimatum
    return .quitSession
  else if header.type = dataPduTypeFrameAcknowledge then
    let _ackFrameId ← parse Parser.u32
    requireCallback env .surfaceFrameAcknowledge
    return .success
  else if header.type = dataPduTypeRefreshRect then
    updateReadRefreshRect env
    return .success
  else if header.type = dataPduTypeSuppressOutput then
    updateReadSuppressOutput env
    return .success
  else
    -- any other type is logged and ignored
    return .success

/-! ## The message channel -/

/-- `SEC_TRANSPORT_REQ`. -/
def secTransportReq : ℕ := 0x0002
/-- `SEC_TRANSPORT_RSP`. -/
def secTransportRsp : ℕ := 0x0004
/-- `SEC_LICENSE_PKT`. -/
def secLicensePkt : ℕ := 0x0080
/-- `SEC_LICENSE_ENCRYPT_CS`, which has the value of `SEC_LICENSE_ENCRYPT_SC`. -/
def secLicenseEncrypt : ℕ := 0x0200
/-- `SEC_AUTODETECT_REQ`. -/
def secAutodetectReq : ℕ := 0x1000
/-- `SEC_AUTODETECT_RSP`. -/
def secAutodetectRsp : ℕ := 0x2000
/-- `SEC_HEARTBEAT`. -/
def secHeartbeat : ℕ := 0x4000

def setAutodetect (state : AutodetectState) : Serve Unit :=
  update fun p => { p with autodetect := state }

/-- The header of an auto-detect message: the id of its type and the type of the message. -/
def readAutodetectHeader : Parser (ℕ × ℕ) := do
  Parser.need 6
  let _headerLength ← Parser.u8
  let headerTypeId ← Parser.u8
  let _sequenceNumber ← Parser.u16
  let messageType ← Parser.u16
  return (headerTypeId, messageType)

/-- The end of both auto-detect handlers: a failure is remembered in the state of the
auto-detection. -/
def autodetectFinish (success : AutodetectState) (body : Serve Unit) : Serve StateRun := do
  match ← attempt body with
  | .ok () =>
      setAutodetect success
      return .success
  | .error _ =>
      setAutodetect .fail
      fail

/-- The message after its header was accepted. -/
def autodetectMessage (received : Question) (messageType : ℕ) : Serve Unit := do
  requireCallback env received
  external fun n rdp => env.autodetectBody n rdp messageType
  requireCallback env .autodetectResult

def autodetectRecvRequestPacket : Serve StateRun := do
  let (headerTypeId, requestType) ← parse readAutodetectHeader
  autodetectFinish .request do
    ensure ((← observe (·.settings.networkAutoDetect)) = true)
    ensure (headerTypeId = 0)
    autodetectMessage env .requestReceived requestType

/-- `autodetect_recv_response_packet`: a response is refused without a change of the state if the
setting is off. -/
def autodetectRecvResponsePacket : Serve StateRun := do
  match ← attempt (parse readAutodetectHeader) with
  | .error _ =>
      setAutodetect .fail
      fail
  | .ok (headerTypeId, responseType) =>
      ensure ((← observe (·.settings.networkAutoDetect)) = true)
      -- RDP_BW_RESULTS_RESPONSE_TYPE_CONNECTTIME completes the detection
      autodetectFinish (if responseType = 0x0003 then .complete else .response) do
        ensure (headerTypeId = 1)
        autodetectMessage env .responseReceived responseType

def rdpRecvHeartbeatPacket : Serve StateRun := do
  parse (Parser.skip 4)
  requireCallback env .heartbeat
  return .success

/-- `multitransport_recv_response` with `multitransport_server_handle_response`: neither the id of
the request nor the state is looked at. -/
def multitransportRecvResponse : Serve StateRun := do
  parse (Parser.skip 8)
  emit .multitransportResponse
  rdpServerTransitionToState .capabilitiesExchangeDemandActive
  return .continue

def licenseEnsureState (state : LicenseState) : Serve Unit := do
  ensure ((← observe (·.license)) = state)

/-- The licence state after an error alert: `STATUS_VALID_CLIENT` completes the licensing, otherwise
the transition decides. -/
def alertedState (errorCode stateTransition : ℕ) (license : LicenseState) : LicenseState :=
  if errorCode = 7 then .completed
  else
    match stateTransition with
    | 1 => .aborted -- ST_TOTAL_ABORT
    | 2 => .completed -- ST_NO_TRANSITION
    | 3 => .configured -- ST_RESET_PHASE_TO_START
    | _ => license

def licenseReadErrorAlertPacket : Serve Unit := do
  let errorInfoType ← observe (·.errorInfoType)
  let alert ← parse (readErrorAlert errorInfoType)
  update fun p => { p with errorInfoType := alert.blobType }
  emit (.errorAlert alert.errorCode alert.stateTransition)
  update fun p => p.setLicense (alertedState alert.errorCode alert.stateTransition p.license)

/-- The messages of `license_server_recv`. -/
def licenseServerRecvMessage (msgType : ℕ) : Serve StateRun := do
  if msgType = 0x13 then
    -- NEW_LICENSE_REQUEST
    licenseEnsureState .request
    external fun n rdp => env.licenseBody n rdp msgType
    require env .sendErrorAlert
    require env .sendPlatformChallenge
    update (·.setLicense .platformChallenge)
    parse Parser.consumed
    return .success
  else if msgType = 0x12 then
    -- LICENSE_INFO
    licenseEnsureState .request
    external fun n rdp => env.licenseBody n rdp msgType
    require env .sendPlatformChallenge
    update (·.setLicense .platformChallenge)
    parse Parser.consumed
    return .success
  else if msgType = 0x15 then
    -- PLATFORM_CHALLENGE_RESPONSE; trailing bytes do not change the result
    licenseEnsureState .platformChallenge
    external fun n rdp => env.licenseBody n rdp msgType
    require env .sendNewOrUpgradeLicense
    emit .licenseIssued
    update (·.setLicense .completed)
    return .continue
  else if msgType = 0xFF then
    -- ERROR_ALERT
    licenseReadErrorAlertPacket
    parse Parser.consumed
    return .success
  else
    fail

/-- A client with `EXTENDED_ERROR_MSG_SUPPORTED` is told that a licence message failed. -/
def licenseTellClient (flags : ℕ) : Serve Bool :=
  if flags &&& 0x80 ≠ 0 then ask env .sendErrorAlert else pure true

/-- A licence message failed and the licensing ends. -/
def licenseAbort (flags : ℕ) : Serve StateRun := do
  let _sent ← licenseTellClient env flags
  update (·.setLicense .aborted)
  fail

def licenseServerRecv : Serve StateRun := do
  match ← attempt (parse licenseReadPreamble) with
  | .error () =>
      let flags ← observe fun p => preambleFlags p.stream
      licenseAbort env flags
  | .ok (msgType, flags) =>
      match ← attempt (licenseServerRecvMessage env msgType) with
      | .ok rc => return rc
      | .error () => licenseAbort env flags

def rdpRecvMessageChannelPdu (securityFlags : ℕ) : Serve StateRun :=
  if securityFlags &&& secAutodetectReq ≠ 0 then autodetectRecvRequestPacket env
  else if securityFlags &&& secAutodetectRsp ≠ 0 then autodetectRecvResponsePacket env
  else if securityFlags &&& secHeartbeat ≠ 0 then rdpRecvHeartbeatPacket env
  -- a server does not expect a multitransport request
  else if securityFlags &&& secTransportReq ≠ 0 then fail
  else if securityFlags &&& secTransportRsp ≠ 0 then multitransportRecvResponse
  else if securityFlags &&& secLicensePkt ≠ 0 then licenseServerRecv env
  else if securityFlags &&& secLicenseEncrypt ≠ 0 then licenseServerRecv env
  else pure .success

/-- After a success the whole packet must be consumed. -/
def consumedAfter (rc : StateRun) : Serve Unit :=
  if rc.isSuccess then parse Parser.consumed else pure ()

def rdpHandleMessageChannel (channelId length : ℕ) : Serve StateRun := do
  let mcs ← observe (·.mcs)
  ensure (mcs.messageChannelJoined = true)
  ensure (mcs.messageChannelId ≠ 0)
  ensure (channelId = mcs.messageChannelId ∨ channelId = mcsGlobalChannelId)
  let securityFlags ← parse (rdpReadSecurityHeader (some length))
  decryptIfEncrypted env length securityFlags
  let rc ← rdpRecvMessageChannelPdu env securityFlags
  consumedAfter rc
  return rc

/-! ## Packets -/

/-- `rdp_handle_optional_rdp_decryption`: the security flags. -/
def rdpHandleOptionalRdpDecryption (length : ℕ) : Serve ℕ := do
  if ← observe (·.settings.useRdpSecurityLayer) then
    let securityFlags ← parse (rdpReadSecurityHeader (some length))
    decryptIfEncrypted env length securityFlags
    return securityFlags
  else
    return 0

/-- `freerdp_channel_peer_process`, with a callback of the application for channel data. -/
def freerdpChannelPeerProcess (channelId : ℕ) : Serve Unit := do
  parse (Parser.skip 8)
  let known ← observe fun p => p.mcs.channels.any (·.channelId == channelId)
  ensure (env.virtualChannelRead = true → known = true)
  requireCallback env .channelData
  update fun p => { p with stream := [] }

/-- The share control PDUs of `peer_recv_tpkt_pdu`. -/
def peerRecvShareControlPdu : Serve StateRun := do
  let header ← parse rdpReadShareControlHeader
  if header.pduType = pduTypeData then
    peerRecvDataPdu env
  else if header.pduType = pduTypeConfirmActive then
    rdpServerAcceptConfirmActive env header.totalLength
    return .success
  else if header.pduType = pduTypeFlowResponse ∨ header.pduType = pduTypeFlowStop ∨
      header.pduType = pduTypeFlowTest then
    parse (Parser.skip header.remaining)
    return .success
  else
    fail

/-- `peer_recv_tpkt_pdu`. -/
def peerRecvTpktPdu : Serve StateRun := do
  let (length, channelId) ← rdpReadHeader env
  if ← observe (·.disconnect) then
    return .success
  else if (← observe (·.state)) ≤ .licensing then
    rdpHandleMessageChannel env channelId length
  else
    let securityFlags ← rdpHandleOptionalRdpDecryption env length
    let messageChannelId ← observe (·.mcs.messageChannelId)
    if channelId = mcsGlobalChannelId then
      let rc ← peerRecvShareControlPdu env
      parse Parser.consumed
      return rc
    else if 0 < messageChannelId ∧ channelId = messageChannelId then
      if ← observe (·.settings.useRdpSecurityLayer) then
        rdpRecvMessageChannelPdu env securityFlags
      else
        let flags ← parse (rdpReadSecurityHeader none)
        rdpRecvMessageChannelPdu env flags
    else
      freerdpChannelPeerProcess env channelId
      parse Parser.consumed
      return .success

/-- The two kinds of packets: a TPKT starts with the byte 3. -/
def peerRecvPacket : Serve StateRun := do
  if (← parse Parser.peek) = 3 then peerRecvTpktPdu env else peerRecvFastpathPdu env

/-- `peer_recv_pdu`.  Its status goes to the log. -/
def peerRecvPdu : Serve StateRun := do
  match ← attempt (peerRecvPacket env) with
  | .ok rc =>
      emit (.recvPdu rc)
      return rc
  | .error () =>
      emit (.recvPdu .failed)
      fail

end Handlers

end WBFreeRDP.Server

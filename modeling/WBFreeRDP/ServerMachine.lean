/-
# The state machine of the server

`peer_recv_callback_internal` handles the connection in its current state, `peer_recv_callback`
repeats it for one received buffer as long as the status asks for it.
-/
import WBFreeRDP.ServerReceive

namespace WBFreeRDP.Server

open Program

section Handlers

variable (env : Env)

/-! ## Auto-detection and licensing -/

def peerRecvHandleAutoDetect : Serve StateRun := do
  if ← observe (·.settings.networkAutoDetect) then
    if (← observe (·.state)) = .connectTimeAutoDetectRequest then
      update fun p =>
        { p with autodetect := env.autoDetectBegin p.calls p.toRdp, calls := p.calls + 1 }
      match ← observe (·.autodetect) with
      | .request =>
          rdpServerTransitionToState .connectTimeAutoDetectResponse
          return .success
      | .complete =>
          rdpServerTransitionToState .licensing
          return .continue
      | _ => fail
    else
      let ret ← peerRecvPdu env
      if ret.isSuccess then
        update fun p =>
          { p with autodetect := env.autoDetectProgress p.calls p.toRdp, calls := p.calls + 1 }
        match ← observe (·.autodetect) with
        | .request => return .success
        | .complete =>
            rdpServerTransitionToState .licensing
            return .continue
        | _ => return ret
      else
        return ret
  else
    rdpServerTransitionToState .licensing
    return .continue

def peerRecvHandleLicensing : Serve StateRun := do
  match ← observe (·.license) with
  | .initial =>
      if env.serverLicenseRequired then
        require env .licenseConfigure
        update (·.setLicense .configured)
        require env .sendLicenseRequest
        update (·.setLicense .request)
        return .success
      else
        update (·.setLicense .completed)
        require env .sendErrorAlert
        return .continue
  | .completed => return .continue
  | .aborted => fail
  | _ => peerRecvPdu env

/-- `CONNECTION_STATE_LICENSING`. -/
def handleLicensing : Serve StateRun := do
  let ret ← peerRecvHandleLicensing env
  if ret = .continue then
    rdpServerTransitionToState .multitransportBootstrappingRequest
    return .continue
  else
    return ret

/-- `CONNECTION_STATE_MULTITRANSPORT_BOOTSTRAPPING_REQUEST`: a request for reliable UDP
(`INITIATE_REQUEST_PROTOCOL_UDPFECR`) is sent if both sides support it. -/
def handleMultitransportRequest : Serve StateRun := do
  let settings ← observe (·.settings)
  if settings.supportMultitransport = true ∧ settings.multitransportFlags &&& 1 ≠ 0 then
    require env .sendMultitransportRequest
    rdpServerTransitionToState .multitransportBootstrappingResponse
    return .success
  else
    rdpServerTransitionToState .capabilitiesExchangeDemandActive
    return .continue

/-! ## Activation -/

/-- A monitor is set up if the client has announced none. -/
def ensureMonitor : Serve Unit := do
  if (← observe (·.settings.monitorCount)) = 0 then require env .setMonitor else pure ()

/-- The monitor layout is sent to a client that supports it. -/
def sendMonitorLayout : Serve Unit := do
  if ← observe (·.settings.supportMonitorLayoutPdu) then
    require env .adjustMonitorsLayout
    ensureMonitor env
    require env .convertMonitors
    require env .sendMonitorLayout
  else
    pure ()

/-- `CONNECTION_STATE_CAPABILITIES_EXCHANGE_MONITOR_LAYOUT`. -/
def handleMonitorLayout : Serve StateRun := do
  sendMonitorLayout env
  rdpServerTransitionToState .capabilitiesExchangeConfirmActive
  let stream ← observe (·.stream)
  return if stream.isEmpty then .success else .continue

/-- The states of the finalization that wait for a PDU: whatever `peer_recv_pdu` returns, only the
flag of the PDU decides.  Without it `peer_unexpected_client_message` takes the place of the
status. -/
def awaitFlag (flag : ℕ) (next : Serve Unit) : Serve StateRun := do
  let ret ← attempt (peerRecvPdu env)
  if ← observe (·.isFlagSet flag) then
    next
    match ret with
    | .ok rc => return rc
    | .error () => fail
  else
    return .success

/-- `CONNECTION_STATE_FINALIZATION_REQUEST_CONTROL`: the request is granted before the next
state. -/
def grantControl : Serve Unit := do
  require env .sendGranted
  rdpServerTransitionToState .finalizationPersistentKeyList

/-- `CONNECTION_STATE_FINALIZATION_PERSISTENT_KEY_LIST`. -/
def handlePersistentKeyList : Serve StateRun := do
  let enabled ← observe (·.settings.bitmapCachePersistEnabled)
  let reactivating ← observe (·.isFlagSet Finalize.deactivateReactivate)
  if enabled = true ∧ reactivating = false then
    awaitFlag env Finalize.csPersistentKeyListPdu (rdpServerTransitionToState .finalizationFontList)
  else
    rdpServerTransitionToState .finalizationFontList
    return .continue

/-- `CONNECTION_STATE_FINALIZATION_FONT_LIST`. -/
def handleFontList : Serve StateRun := do
  let ret ← peerRecvPdu env
  if ret.isSuccess then
    if ← observe (·.isFlagSet Finalize.csFontListPdu) then
      rdpServerTransitionToState .active
      return .continue
    else
      return .success
  else
    return ret

/-- PostConnect is called once in a connection. -/
def peerPostConnect : Serve Unit := do
  if ← observe (·.connected) then
    pure ()
  else
    emit .postConnect
    let connected ← callback env .postConnect
    update fun p => { p with connected := connected }

def rdpPeerHandleStateActive : Serve StateRun := do
  peerPostConnect env
  ensure ((← observe (·.connected)) = true)
  if ← observe (·.activated) then
    return .active
  else
    -- the callback itself may clear the flag again
    update fun p => { p with activated := true }
    emit .activate
    requireCallback env .activate
    return .success

/-- `CONNECTION_STATE_ACTIVE`. -/
def handleActive : Serve StateRun := do
  let ret ← rdpPeerHandleStateActive env
  if ret = .active then peerRecvPdu env else return ret

/-! ## The loop -/

/-- `CONNECTION_STATE_INITIAL`. -/
def handleInitial : Serve StateRun := do
  require env .enforceConsistency
  rdpServerTransitionToState .nego
  return .continue

/-- The switch of `peer_recv_callback_internal`. -/
def peerRecvState : Serve StateRun := do
  match ← observe (·.state) with
  | .initial => handleInitial env
  | .nego => handleNego env
  | .mcsCreateRequest =>
      rdpServerAcceptMcsConnectInitial env
      return .success
  | .mcsErectDomain =>
      rdpServerAcceptMcsErectDomainRequest
      return .success
  | .mcsAttachUser =>
      rdpServerAcceptMcsAttachUserRequest env
      return .success
  | .mcsChannelJoinRequest =>
      rdpServerAcceptMcsChannelJoinRequest env
      return .success
  | .rdpSecurityCommencement => handleSecurityCommencement env
  | .secureSettingsExchange => handleSecureSettings env
  | .connectTimeAutoDetectRequest => peerRecvHandleAutoDetect env
  | .connectTimeAutoDetectResponse => peerRecvHandleAutoDetect env
  | .licensing => handleLicensing env
  | .multitransportBootstrappingRequest => handleMultitransportRequest env
  | .multitransportBootstrappingResponse => peerRecvPdu env
  | .capabilitiesExchangeDemandActive => rdpPeerHandleStateDemandActive env
  | .capabilitiesExchangeMonitorLayout => handleMonitorLayout env
  | .capabilitiesExchangeConfirmActive => peerRecvPdu env
  | .finalizationSync =>
      awaitFlag env Finalize.csSynchronizePdu (rdpServerTransitionToState .finalizationCooperate)
  | .finalizationCooperate =>
      awaitFlag env Finalize.csControlCooperatePdu
        (rdpServerTransitionToState .finalizationRequestControl)
  | .finalizationRequestControl => awaitFlag env Finalize.csControlRequestPdu (grantControl env)
  | .finalizationPersistentKeyList => handlePersistentKeyList env
  | .finalizationFontList => handleFontList env
  | .active => handleActive env
  -- states that must not happen in the server state machine
  | _ => fail

def peerRecvCallbackInternal : Serve StateRun := do
  requireCallback env .reachedState
  peerRecvState env

/-- One iteration of the loop: the status and the peer after it. -/
def iterate (p : Peer) : StateRun × Peer :=
  let (ret, q) := peerRecvCallbackInternal env p
  (StateRun.ofResult ret, q)

/-- The peer as the next iteration finds it: `STATE_RUN_TRY_AGAIN` rewinds the stream. -/
def rerun (rc : StateRun) (p : Peer) : Peer :=
  if rc = .tryAgain then { p with stream := p.buffer } else p

/-- `peer_recv_callback`, with a bound on the number of iterations: the status and the peer at the
end of the loop, nothing if the bound was reached. -/
def peerRecvCallback : ℕ → Peer → Option (StateRun × Peer)
  | 0, _ => none
  | fuel + 1, p =>
      let (rc, q) := iterate env p
      if rc.isContinue then peerRecvCallback fuel (rerun rc q) else some (rc, q)

/-- A buffer arrives. -/
def Peer.receive (p : Peer) (buffer : List UInt8) : Peer :=
  { p with buffer := buffer, stream := buffer }

/-- A peer after `freerdp_peer_initialize`. -/
def Peer.new (settings : Settings) : Peer where
  state := .initial
  license := .initial
  finalizeScPdus := 0
  mcs := Mcs.new
  authenticated := false
  settings := settings
  autodetect := .initial
  errorInfoType := 4
  connected := false
  activated := false
  disconnect := false
  buffer := []
  stream := []
  calls := 0
  log := []

/-- **A run of the server**, up to its first failure: a peer and the status of the last iteration.
A buffer is received when the loop has ended, the loop goes on while the status asks for it, and
between two buffers the application may reactivate an active connection. -/
inductive Reaches : Peer → StateRun → Prop
  | start (settings : Settings) : Reaches (Peer.new settings) .success
  | receive {p : Peer} {rc : StateRun} (buffer : List UInt8) (h : Reaches p rc)
      (hidle : rc.isFailed = false ∧ rc.isContinue = false) :
      Reaches (iterate env (p.receive buffer)).2 (iterate env (p.receive buffer)).1
  | again {p : Peer} {rc : StateRun} (h : Reaches p rc) (hcontinue : rc.isContinue = true) :
      Reaches (iterate env (rerun rc p)).2 (iterate env (rerun rc p)).1
  | reactivate {p : Peer} {rc : StateRun} (h : Reaches p rc)
      (hidle : rc.isFailed = false ∧ rc.isContinue = false) (hactive : p.state = .active) :
      Reaches (rdpServerReactivate env p).2 rc

end Handlers

end WBFreeRDP.Server

/-
# A server peer

The record of one client connection on the server and what its handlers are built from (`peer.c`,
`connection.c`).
-/
import WBFreeRDP.StateProgram
import WBFreeRDP.RdpHeaders

namespace WBFreeRDP.Server

open Program

/-! ## The record of a connection -/

/-- The settings that the state machine reads. -/
structure Settings where
  rdstlsSecurity : Bool
  nlaSecurity : Bool
  tlsSecurity : Bool
  rdpSecurity : Bool
  useRdpSecurityLayer : Bool
  encryptionMethodFips : Bool
  supportSkipChannelJoin : Bool
  networkAutoDetect : Bool
  supportMultitransport : Bool
  multitransportFlags : ℕ
  supportMonitorLayoutPdu : Bool
  monitorCount : ℕ
  bitmapCachePersistEnabled : Bool
  refreshRect : Bool
  suppressOutput : Bool
  hasExtendedMouseEvent : Bool
  hasRelativeMouseEvent : Bool
  hasQoeEvent : Bool
  deriving DecidableEq, Repr

/-- How far a connection has come. -/
structure Progress where
  state : ConnectionState
  license : LicenseState
  finalizeScPdus : ℕ
  mcs : Mcs
  authenticated : Bool
  deriving DecidableEq, Repr

/-- The record of a connection (`rdpRdp` with `freerdp_peer`). -/
structure Rdp extends Progress where
  settings : Settings
  autodetect : AutodetectState
  errorInfoType : ℕ
  connected : Bool
  activated : Bool
  disconnect : Bool
  deriving DecidableEq, Repr

/-- A call of one of the callbacks in `rdpInput`. -/
inductive InputCall
  | synchronize (flags : ℕ)
  | keyboard (flags code : ℕ)
  | unicodeKeyboard (flags code : ℕ)
  | mouse (flags x y : ℕ)
  | extendedMouse (flags x y : ℕ)
  | relMouse (flags xDelta yDelta : ℕ)
  | qoe (timestamp : ℕ)
  deriving DecidableEq, Repr

/-- What is remembered of a run. -/
inductive Event
  /-- the connection state was set -/
  | entered (s : ConnectionState)
  /-- the negotiation ended with a protocol, for a request and the settings at that time -/
  | negoAccepted (requested selected : ℕ) (settings : Settings)
  /-- the Logon callback accepted -/
  | logon
  /-- a Connect Initial, Erect Domain or Attach User request was accepted -/
  | mcsConnect | erectDomain | attachUser
  /-- the keys were exchanged, or the RDP security layer is not in use -/
  | keysEstablished
  /-- the Client Info packet was accepted -/
  | clientInfo
  /-- a challenge response was accepted and a licence sent -/
  | licenseIssued
  /-- an error alert of the client was read -/
  | errorAlert (errorCode stateTransition : ℕ)
  /-- a multitransport response was read -/
  | multitransportResponse
  /-- Demand Active was sent -/
  | demandActive
  /-- the application reactivated the connection -/
  | reactivate
  /-- a PDU of the activation was accepted -/
  | confirmActive | synchronize | cooperate | request | persistentKeyList | fontList
  /-- an input PDU is processed, slow path or fast path -/
  | inputPdu | fastPathPdu
  /-- a callback for input was called -/
  | input (call : InputCall)
  /-- `peer_recv_pdu` returned -/
  | recvPdu (rc : StateRun)
  /-- the application was told that the connection is up -/
  | postConnect | activate
  deriving DecidableEq, Repr

/-- The server's side of a connection: the record, the received buffer and what is left of it, the
number of calls to the outside and the log, the newest entry first, each with the record at its
time. -/
structure Peer extends Rdp where
  buffer : List UInt8
  stream : List UInt8
  calls : ℕ
  log : List (Event × Rdp)

namespace Peer

def emit (p : Peer) (e : Event) : Peer := { p with log := (e, p.toRdp) :: p.log }

/-- `rdp_server_transition_to_state`.  From `CONNECTION_STATE_RDP_SECURITY_COMMENCEMENT` on, leaving
a state in which the server may not send graphics clears `activated`. -/
def enter (p : Peer) (s : ConnectionState) : Peer :=
  { p with
    state := s
    activated := p.activated &&
      (p.state.isActivePeerState || decide (p.state < ConnectionState.rdpSecurityCommencement))
        }.emit (.entered s)

def setFlag (p : Peer) (flag : ℕ) : Peer := { p with finalizeScPdus := p.finalizeScPdus ||| flag }

/-- `rdp_finalize_reset_flags` without clearing all. -/
def resetFlags (p : Peer) : Peer :=
  { p with finalizeScPdus := Finalize.resetFlags p.finalizeScPdus }

def isFlagSet (p : Peer) (flag : ℕ) : Bool := Finalize.isFlagSet p.finalizeScPdus flag

/-- `license_set_state`. -/
def setLicense (p : Peer) (license : LicenseState) : Peer := { p with license }

end Peer

/-! ## The outside -/

/-- What is asked of the application, the transport and the modules around the state machine. -/
inductive Question
  | reachedState | enforceConsistency
  | setBlockingMode | sendNegotiationResponse | transportAccept | copyIdentity | logon
  | applyToSettings | addChannels | updateEncryptionLevel | sendConnectResponse
  | sendAttachUserConfirm | sendChannelJoinConfirm
  | setErrorInfo | terminate
  | requestReceived | responseReceived | autodetectResult | heartbeat
  | licenseConfigure | sendLicenseRequest | sendErrorAlert | sendPlatformChallenge
  | sendNewOrUpgradeLicense
  | sendMultitransportRequest
  | capabilities | sendDemandActive
  | adjustMonitorsLayout | setMonitor | convertMonitors | sendMonitorLayout
  | clientCapabilities | sendSynchronize | sendCooperate | sendGranted | sendFontMap
  | sendDeactivateAll | sendDisconnectUltimatum
  | postConnect | activate
  | input (call : InputCall)
  | surfaceFrameAcknowledge | refreshRect | suppressOutput | channelData
  deriving DecidableEq, Repr

/-- An answer: success or not, the settings after the call, and whether a callback called
`rdp_server_reactivate`. -/
structure Answer where
  ok : Bool
  settings : Settings
  reactivate : Bool
  deriving DecidableEq, Repr

/-- What a Connect Initial brings: the ids given to the static channels and the message channel, and
the next free id. -/
structure ConnectInitial where
  channelIds : List ℕ
  messageChannelId : ℕ
  baseChannelId : ℕ
  deriving DecidableEq, Repr

/-- The outside of the state machine.  The number of a call is an argument of every answer, so that
a later call may be answered in another way than an earlier one. -/
structure Env where
  transportDumpReplay : Bool
  vmConnectMode : Bool
  serverLicenseRequired : Bool
  /-- the application has set `VirtualChannelRead` -/
  virtualChannelRead : Bool
  answer : ℕ → Question → Rdp → Answer
  /-- `OnConnectTimeAutoDetectBegin` -/
  autoDetectBegin : ℕ → Rdp → AutodetectState
  /-- `OnConnectTimeAutoDetectProgress` -/
  autoDetectProgress : ℕ → Rdp → AutodetectState
  /-- `rdp_decrypt`, from a length and security flags to the new length -/
  decrypt : ℕ → Rdp → ℕ → ℕ → Parser ℕ
  /-- `nego_read_request`: the requested protocols -/
  negoReadRequest : ℕ → Rdp → Parser ℕ
  /-- `mcs_recv_connect_initial` -/
  recvConnectInitial : ℕ → Rdp → Parser ConnectInitial
  /-- `rdp_update_client_random`, `security_establish_keys` and the creation of the ciphers -/
  establishKeys : ℕ → Rdp → List UInt8 → Bool
  /-- `rdp_read_info_packet` -/
  readInfoPacket : ℕ → Rdp → Parser Unit
  /-- the body of an auto-detect request or response after its header -/
  autodetectBody : ℕ → Rdp → ℕ → Parser Unit
  /-- the bodies of licence messages -/
  licenseBody : ℕ → Rdp → ℕ → Parser Unit
  /-- `rdp_recv_confirm_active` -/
  recvConfirmActive : ℕ → Rdp → ℕ → Parser Unit

/-! ## Handlers -/

/-- A handler of the server. -/
abbrev Serve (α : Type) : Type := Program Peer Unit α

/-- `STATE_RUN_FAILED`, or `FALSE` in a handler that has no other status. -/
def fail {α : Type} : Serve α := stop ()

/-- A parser runs on what is left of the buffer; a failure stops the handler. -/
def parse {α : Type} (f : Parser α) : Serve α := fun p =>
  match f p.stream with
  | some (a, rest) => (.ok a, { p with stream := rest })
  | none => (.error (), p)

/-- A parser of the outside runs on what is left of the buffer. -/
def external {α : Type} (f : ℕ → Rdp → Parser α) : Serve α := fun p =>
  match f p.calls p.toRdp p.stream with
  | some (a, rest) => (.ok a, { p with stream := rest, calls := p.calls + 1 })
  | none => (.error (), { p with calls := p.calls + 1 })

def ensure (c : Prop) [Decidable c] : Serve Unit := if c then pure () else fail

def emit (e : Event) : Serve Unit := update (·.emit e)

/-- `rdp_server_transition_to_state`: it never fails. -/
def rdpServerTransitionToState (s : ConnectionState) : Serve Unit := update (·.enter s)

section Handlers

variable (env : Env)

/-- The outside is asked. -/
def ask (q : Question) : Serve Bool := fun p =>
  let a := env.answer p.calls q p.toRdp
  (.ok a.ok, { p with settings := a.settings, calls := p.calls + 1 })

def require (q : Question) : Serve Unit := do
  if ← ask env q then pure () else fail

def rdpPeerHandleStateDemandActive : Serve StateRun := do
  require env .capabilities
  require env .sendDemandActive
  emit .demandActive
  rdpServerTransitionToState .capabilitiesExchangeMonitorLayout
  return .continue

def rdpServerReactivate : Serve Unit := do
  update fun p => { p with activated := false }
  require env .sendDeactivateAll
  emit .reactivate
  update (·.setFlag Finalize.deactivateReactivate)
  rdpServerTransitionToState .capabilitiesExchangeDemandActive
  let _rc ← rdpPeerHandleStateDemandActive env

/-- A callback that may run in the active state: there the application may reactivate the connection
from inside of it. -/
def callback (q : Question) : Serve Bool := do
  let reactivate ← observe fun p => (env.answer p.calls q p.toRdp).reactivate
  let ok ← ask env q
  let state ← observe (·.state)
  if reactivate = true ∧ state = .active then
    let _result ← attempt (rdpServerReactivate env)
  return ok

def requireCallback (q : Question) : Serve Unit := do
  if ← callback env q then pure () else fail

/-- `rdp_read_header`: the length and the channel of the user data.  A request to disconnect is a
success as well: the connection is aborted and the channel is 0. -/
def rdpReadHeader : Serve (ℕ × ℕ) := do
  match ← parse (readRdpHeader mcsSendDataRequest) with
  | .disconnectRequest length =>
      update fun p => { p with disconnect := true }
      return (length, 0)
  | .ultimatum length _reason =>
      require env .setErrorInfo
      update fun p => { p with disconnect := true }
      require env .terminate
      return (length, 0)
  | .data length channelId => return (length, channelId)

end Handlers

end WBFreeRDP.Server

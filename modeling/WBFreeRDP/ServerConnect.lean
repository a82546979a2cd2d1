/-
# Connecting: from the negotiation to the client info

The handlers of the states before the connect-time auto-detection (`connection.c`, `peer.c`): the
choice of a security protocol, logon, the MCS connection and the channel joins, the key exchange and
the client info packet.
-/
import WBFreeRDP.Server

namespace WBFreeRDP.Server

open Program

/-! ## Negotiation -/

/-- `PROTOCOL_RDP`. -/
def protocolRdp : ℕ := 0
/-- `PROTOCOL_SSL`. -/
def protocolSsl : ℕ := 1
/-- `PROTOCOL_HYBRID`. -/
def protocolHybrid : ℕ := 2
/-- `PROTOCOL_RDSTLS`. -/
def protocolRdstls : ℕ := 4

/-- The choice in `rdp_server_accept_nego`; none if the client and the server are not compatible. -/
def selectProtocol (settings : Settings) (requested : ℕ) : Option ℕ :=
  if settings.rdstlsSecurity && requested &&& protocolRdstls != 0 then some protocolRdstls
  else if settings.nlaSecurity && requested &&& protocolHybrid != 0 then some protocolHybrid
  else if settings.tlsSecurity && requested &&& protocolSsl != 0 then some protocolSsl
  else if settings.rdpSecurity && requested == protocolRdp then some protocolRdp
  else none

section Handlers

variable (env : Env)

/-- The transport accepts the protocol; behind a Hyper-V proxy the host has done so. -/
def transportAccept (selected : ℕ) : Serve Unit :=
  if env.vmConnectMode = true ∧ selected ≠ protocolRdp then pure ()
    else require env .transportAccept

/-- `rdp_server_accept_nego`: the selected protocol. -/
def rdpServerAcceptNego : Serve ℕ := do
  require env .setBlockingMode
  let requested ← external env.negoReadRequest
  let settings ← observe (·.settings)
  match selectProtocol settings requested with
  | none =>
      -- the failure is sent to the client, whether or not that succeeds
      let _sent ← ask env .sendNegotiationResponse
      fail
  | some selected =>
      require env .sendNegotiationResponse
      transportAccept env selected
      require env .setBlockingMode
      emit (.negoAccepted requested selected settings)
      return selected

/-- The settings after the negotiation: the selected protocol only. -/
def selectedSettings (selected : ℕ) (settings : Settings) : Settings :=
  { settings with
    rdstlsSecurity := selected &&& protocolRdstls != 0
    nlaSecurity := selected &&& protocolHybrid != 0
    tlsSecurity := selected &&& protocolSsl != 0
    rdpSecurity := selected == protocolRdp }

/-- With network level authentication the identity of the client is copied. -/
def copyIdentity (selected : ℕ) : Serve Bool :=
  if selected &&& protocolHybrid ≠ 0 then ask env .copyIdentity else pure true

def peerLogon : Serve Unit := do
  if ← ask env .logon then
    emit .logon
    update fun p => { p with authenticated := true }
  else
    pure ()

/-- `CONNECTION_STATE_NEGO`: the negotiation, then the logon. -/
def handleNego : Serve StateRun := do
  let selected ← rdpServerAcceptNego env
  update fun p =>
    { p with settings := selectedSettings selected p.settings, authenticated := false }
  let identity ← copyIdentity env selected
  ensure (identity = true)
  peerLogon env
  ensure ((← observe (·.authenticated)) = true)
  rdpServerTransitionToState .mcsCreateRequest
  return .success

/-! ## MCS -/

def rdpServerAcceptMcsConnectInitial : Serve Unit := do
  let connect ← external env.recvConnectInitial
  update fun p =>
    { p with
      mcs :=
        { p.mcs with
          channels := connect.channelIds.map fun channelId => ⟨channelId, false⟩
          messageChannelId := connect.messageChannelId
          baseChannelId := connect.baseChannelId } }
  require env .applyToSettings
  require env .addChannels
  emit .mcsConnect
  rdpServerTransitionToState .mcsCreateResponse
  require env .updateEncryptionLevel
  require env .sendConnectResponse
  rdpServerTransitionToState .mcsErectDomain

def rdpServerAcceptMcsErectDomainRequest : Serve Unit := do
  parse mcsRecvErectDomainRequest
  emit .erectDomain
  rdpServerTransitionToState .mcsAttachUser

/-- The channels as `rdp_server_skip_mcs_channel_join` leaves them. -/
def joinAll (mcs : Mcs) : Mcs :=
  { mcs with
    userChannelJoined := true
    globalChannelJoined := true
    messageChannelJoined := true
    channels := mcs.channels.map fun channel => { channel with joined := true } }

def rdpServerAcceptMcsAttachUserRequest : Serve Unit := do
  parse mcsRecvAttachUserRequest
  emit .attachUser
  rdpServerTransitionToState .mcsAttachUserConfirm
  -- `mcs_send_attach_user_confirm` takes the next free id for the user
  update fun p =>
    { p with
      mcs := { p.mcs with userId := p.mcs.baseChannelId, baseChannelId := p.mcs.baseChannelId + 1 }
        }
  require env .sendAttachUserConfirm
  if ← observe (·.settings.supportSkipChannelJoin) then
    update fun p => { p with mcs := joinAll p.mcs }
    rdpServerTransitionToState .rdpSecurityCommencement
  else
    rdpServerTransitionToState .mcsChannelJoinRequest

/-- The channels after a join request was confirmed. -/
def joinChannel (mcs : Mcs) (channelId : ℕ) : Mcs :=
  { mcs with
    userChannelJoined := mcs.userChannelJoined || channelId == mcs.userId
    globalChannelJoined := mcs.globalChannelJoined || channelId == mcsGlobalChannelId
    messageChannelJoined := mcs.messageChannelJoined || channelId == mcs.messageChannelId
    channels := mcs.channels.map fun channel =>
      { channel with joined := channel.joined || channel.channelId == channelId } }

def allJoined (mcs : Mcs) : Bool :=
  mcs.userChannelJoined && mcs.globalChannelJoined &&
    (mcs.messageChannelId == 0 || mcs.messageChannelJoined) && mcs.channels.all (·.joined)

/-- A join request of another user is an error, unless a recorded session is replayed. -/
def expectUser (userId : ℕ) : Serve Unit := do
  ensure ((← observe (·.mcs.userId)) = userId ∨ env.transportDumpReplay = true)
  update fun p => { p with mcs := { p.mcs with userId := userId } }

/-- `rdp_server_accept_mcs_channel_join_request`, with `mcs_recv_channel_join_request`. -/
def rdpServerAcceptMcsChannelJoinRequest : Serve Unit := do
  let (userId, channelId) ← parse mcsRecvChannelJoinRequest
  expectUser env userId
  rdpServerTransitionToState .mcsChannelJoinResponse
  require env .sendChannelJoinConfirm
  update fun p => { p with mcs := joinChannel p.mcs channelId }
  let mcs ← observe (·.mcs)
  rdpServerTransitionToState
    (if allJoined mcs then .rdpSecurityCommencement else .mcsChannelJoinRequest)

/-! ## Keys and client info -/

/-- `SEC_EXCHANGE_PKT`. -/
def secExchangePkt : ℕ := 0x0001
/-- `SEC_ENCRYPT`. -/
def secEncrypt : ℕ := 0x0008
/-- `SEC_INFO_PKT`. -/
def secInfoPkt : ℕ := 0x0040
def secRedirectionPkt : ℕ := 0x0400

/-- The end of the packet with the client random; with FIPS encryption it is not checked. -/
def clientRandomConsumed : Serve Unit := do
  if ← observe (·.settings.encryptionMethodFips) then pure () else parse Parser.consumed

/-- `rdp_server_establish_keys`; without the RDP security layer there are no keys. -/
def rdpServerEstablishKeys : Serve Unit := do
  if ← observe (·.settings.useRdpSecurityLayer) then
    let _header ← rdpReadHeader env
    let securityFlags ← parse (rdpReadSecurityHeader none)
    ensure (securityFlags &&& secExchangePkt ≠ 0)
    let randLength ← parse Parser.u32
    let cryptRandom ← parse (Parser.bytes randLength)
    external fun n rdp => Parser.check (env.establishKeys n rdp cryptRandom = true)
    clientRandomConsumed
  else
    pure ()

/-- `CONNECTION_STATE_RDP_SECURITY_COMMENCEMENT`. -/
def handleSecurityCommencement : Serve StateRun := do
  rdpServerEstablishKeys env
  emit .keysEstablished
  rdpServerTransitionToState .secureSettingsExchange
  let stream ← observe (·.stream)
  return if stream.isEmpty then .success else .continue

/-- `rdp_decrypt` for a packet with `SEC_ENCRYPT`. -/
def decryptIfEncrypted (length securityFlags : ℕ) : Serve Unit :=
  if securityFlags &&& secEncrypt ≠ 0 then do
    let _length ← external fun n rdp => env.decrypt n rdp (length - 4) securityFlags
  else
    pure ()

/-- With the RDP security layer the client info may be encrypted, but not redirected. -/
def clientInfoSecurity (length securityFlags : ℕ) : Serve Unit := do
  if ← observe (·.settings.useRdpSecurityLayer) then
    ensure (securityFlags &&& secRedirectionPkt = 0)
    decryptIfEncrypted env length securityFlags
  else
    pure ()

def rdpRecvClientInfo : Serve Unit := do
  let (length, _channelId) ← rdpReadHeader env
  let securityFlags ← parse (rdpReadSecurityHeader (some length))
  ensure (securityFlags &&& secInfoPkt ≠ 0)
  clientInfoSecurity env length securityFlags
  external env.readInfoPacket

/-- `CONNECTION_STATE_SECURE_SETTINGS_EXCHANGE`. -/
def handleSecureSettings : Serve StateRun := do
  rdpRecvClientInfo env
  emit .clientInfo
  rdpServerTransitionToState .connectTimeAutoDetectRequest
  return .continue

end Handlers

end WBFreeRDP.Server

/-
# What one iteration of the state machine can do

`peer_recv_callback_internal` of `peer.c`, as one of the moves of `Moves`.
-/
import WBFreeRDP.ServerSteps

namespace WBFreeRDP.Server

open Program

/-! ## Connecting -/

/-- A step of the connection before the auto-detection. -/
inductive ConnectStep : Peer → Peer → Prop
  | quiet {p q : Peer} (h : Quiet p q) : ConnectStep p q
  | initial {p : Peer} (hstate : p.state = .initial) : ConnectStep p (p.enter .nego)
  | negoAccepted {p : Peer} {requested selected : ℕ} {settings : Settings}
      (hstate : p.state = .nego) (hselected : selectProtocol settings requested = some selected) :
      ConnectStep p { p.emit (.negoAccepted requested selected settings)
        with authenticated := false }
  | logon {p : Peer} (hstate : p.state = .nego)
      (hnego : ∃ requested selected settings rdp,
        (Event.negoAccepted requested selected settings, rdp) ∈ p.log) :
      ConnectStep p { p.emit .logon with authenticated := true }
  | authenticated {p : Peer} (hstate : p.state = .nego) (hauth : p.authenticated = true) :
      ConnectStep p (p.enter .mcsCreateRequest)
  | connectInitial {p : Peer} (hstate : p.state = .mcsCreateRequest) (mcs : Mcs) :
      ConnectStep p { p with mcs := mcs }
  | connected {p : Peer} (hstate : p.state = .mcsCreateRequest) :
      ConnectStep p ((p.emit .mcsConnect).enter .mcsCreateResponse)
  | connectResponse {p : Peer} (hstate : p.state = .mcsCreateResponse) :
      ConnectStep p (p.enter .mcsErectDomain)
  | erectDomain {p : Peer} (hstate : p.state = .mcsErectDomain) :
      ConnectStep p ((p.emit .erectDomain).enter .mcsAttachUser)
  | attachUser {p : Peer} (hstate : p.state = .mcsAttachUser) :
      ConnectStep p ((p.emit .attachUser).enter .mcsAttachUserConfirm)
  | userId {p : Peer} (hstate : p.state = .mcsAttachUserConfirm) (mcs : Mcs) :
      ConnectStep p { p with mcs := mcs }
  | skipJoin {p : Peer} (hstate : p.state = .mcsAttachUserConfirm) :
      ConnectStep p ({ p with mcs := joinAll p.mcs }.enter .rdpSecurityCommencement)
  | startJoin {p : Peer} (hstate : p.state = .mcsAttachUserConfirm) :
      ConnectStep p (p.enter .mcsChannelJoinRequest)
  | joinRequest {p : Peer} (hstate : p.state = .mcsChannelJoinRequest) (mcs : Mcs) :
      ConnectStep p ({ p with mcs := mcs }.enter .mcsChannelJoinResponse)
  | join {p : Peer} (hstate : p.state = .mcsChannelJoinResponse) (mcs : Mcs) :
      ConnectStep p ({ p with mcs := mcs }.enter
        (if allJoined mcs then .rdpSecurityCommencement else .mcsChannelJoinRequest))
  | keys {p : Peer} (hstate : p.state = .rdpSecurityCommencement) :
      ConnectStep p ((p.emit .keysEstablished).enter .secureSettingsExchange)
  | clientInfo {p : Peer} (hstate : p.state = .secureSettingsExchange) :
      ConnectStep p ((p.emit .clientInfo).enter .connectTimeAutoDetectRequest)

def Connects : Peer → Peer → Prop := Relation.ReflTransGen ConnectStep

variable {p q : Peer}

theorem Connects.of_quiet (h : Quiet p q) : Connects p q := .single (.quiet h)

theorem Connects.trans (h : Connects p q) (h' : Connects q r) : Connects p r :=
  Relation.ReflTransGen.trans h h'

theorem Connects.step (h : Connects p q) (h' : ConnectStep q r) : Connects p r :=
  Relation.ReflTransGen.tail h h'

theorem Connects.quiet (h : Connects p q) (h' : Quiet q r) : Connects p r := h.step (.quiet h')

section Connecting

variable {α : Type} (env : Env)

theorem connects_bind {β : Type} {f : Serve α} {g : α → Serve β} (hf : Within Quiet f)
    (h : Connects p q)
    (hg : ∀ a t, Quiet q t → Connects p t → (g a).Gives t fun _ r => Connects p r) :
    (f >>= g).Gives q fun _ r => Connects p r := by
  apply hf.gives_bind
  · exact fun _ t ht => h.quiet ht
  · exact fun a t ht => hg a t ht (h.quiet ht)

theorem handleInitial_connects (hstate : p.state = .initial) :
    (handleInitial env).Gives p fun _ q => Connects p q := by
  apply connects_bind (quiet_require env _) .refl
  intro _ a hquiet ha
  apply gives_update_bind
  exact ha.step (.initial (hquiet.state_eq.trans hstate))

theorem quiet_transportAccept (selected) : Within Quiet (transportAccept env selected) :=
  within_ite (fun _ => within_pure ()) fun _ => quiet_require env _

/-- The negotiation ends with a selected protocol and an entry for it in the log. -/
theorem rdpServerAcceptNego_gives : (rdpServerAcceptNego env).Gives p fun r q => match r with
      | .ok selected => ∃ a requested settings, Quiet p a ∧
          selectProtocol settings requested = some selected ∧
          q = a.emit (.negoAccepted requested selected settings) | .error () => Quiet p q := by
  apply (quiet_require env _).gives_bind
  · exact fun _ _ h => h
  intro _ a ha
  apply quiet_external.gives_bind
  · exact fun _ _ h => ha.trans h
  intro requested b hb
  apply gives_observe_bind
  have hpb := ha.trans hb
  rcases hselected : selectProtocol b.settings requested with _ | selected
  · apply (quiet_ask env _).gives_bind
    all_goals exact fun _ _ h => hpb.trans h
  apply (quiet_require env _).gives_bind
  · exact fun _ _ h => hpb.trans h
  intro _ c hc
  apply (quiet_transportAccept env selected).gives_bind
  · exact fun _ _ h => (hpb.trans hc).trans h
  intro _ d hd
  apply (quiet_require env _).gives_bind
  · exact fun _ _ h => ((hpb.trans hc).trans hd).trans h
  intro _ e he
  exact ⟨e, requested, b.settings, ((hpb.trans hc).trans hd).trans he, hselected, rfl⟩

theorem quiet_copyIdentity (selected) : Within Quiet (copyIdentity env selected) :=
  within_ite (fun _ => quiet_ask env _) fun _ => within_pure true

theorem peerLogon_gives (hstate : p.state = .nego) (hnego : ∃ requested selected settings rdp,
      (.negoAccepted requested selected settings, rdp) ∈ p.log) :
    (peerLogon env).Gives p fun _ q => Connects p q ∧ q.state = .nego := by
  apply (quiet_ask env _).gives_bind
  · exact fun _ a ha => ⟨.of_quiet ha, ha.state_eq.trans hstate⟩
  intro ok a ha
  have ha_state : a.state = .nego := ha.state_eq.trans hstate
  rcases ok with _ | _
  · exact ⟨.of_quiet ha, ha_state⟩
  refine ⟨(Connects.of_quiet ha).step (.logon ha_state ?_), ha_state⟩
  obtain ⟨requested, selected, settings, rdp, hmem⟩ := hnego
  exact ⟨requested, selected, settings, rdp, ha.2 ▸ hmem⟩

theorem handleNego_connects (hstate : p.state = .nego) :
    (handleNego env).Gives p fun _ q => Connects p q := by
  apply gives_bind
  apply (rdpServerAcceptNego_gives env).mono
  rintro (u | selected) q hq
  · exact .of_quiet hq
  obtain ⟨a, requested, settings, ha, hselected, rfl⟩ := hq
  apply gives_update_bind
  have hnego : Connects p { a.emit (.negoAccepted requested selected settings) with
      authenticated := false } :=
    (Connects.of_quiet ha).step (.negoAccepted (ha.state_eq.trans hstate) hselected)
  refine connects_bind (quiet_copyIdentity env selected) (hnego.quiet ?_) ?_
  · exact .of_eq rfl rfl
  intro identity b hquiet hb
  apply connects_bind quiet_ensure hb
  intro _ c hquiet' hc
  have hquiet := hquiet.trans hquiet'
  have hc_state : c.state = .nego := hquiet.state_eq.trans (ha.state_eq.trans hstate)
  have hc_nego : ∃ requested selected settings rdp,
      (.negoAccepted requested selected settings, rdp) ∈ c.log := by
    refine ⟨requested, selected, settings, a.toRdp, ?_⟩
    rw [hquiet.2]
    exact List.mem_cons_self
  apply gives_bind
  apply (peerLogon_gives env hc_state hc_nego).mono
  rintro (u | u) d ⟨hd, hd_state⟩
  · exact hc.trans hd
  apply gives_observe_bind
  apply gives_ensure_bind (hc.trans hd)
  intro hauth
  apply gives_update_bind
  exact (hc.trans hd).step (.authenticated hd_state hauth)

theorem rdpServerAcceptMcsConnectInitial_connects (hstate : p.state = .mcsCreateRequest) :
    (rdpServerAcceptMcsConnectInitial env).Gives p fun _ q => Connects p q := by
  apply connects_bind quiet_external .refl
  intro connect a hquiet ha
  apply gives_update_bind
  have hmcs := ha.step (.connectInitial (hquiet.state_eq.trans hstate)
    { a.mcs with
      channels := connect.channelIds.map fun channelId => ⟨channelId, false⟩
      messageChannelId := connect.messageChannelId
      baseChannelId := connect.baseChannelId })
  apply connects_bind (quiet_require env _) hmcs
  intro _ b hquiet' hb
  apply connects_bind (quiet_require env _) hb
  intro _ c hquiet'' hc
  apply gives_update_bind
  apply gives_update_bind
  have hc_state : c.state = .mcsCreateRequest :=
    hquiet''.state_eq.trans (hquiet'.state_eq.trans (hquiet.state_eq.trans hstate))
  apply connects_bind (quiet_require env _) (hc.step (.connected hc_state))
  intro _ d hd_quiet hd
  apply connects_bind (quiet_require env _) hd
  intro _ e he_quiet he
  exact he.step (.connectResponse (he_quiet.state_eq.trans hd_quiet.state_eq))

theorem rdpServerAcceptMcsErectDomainRequest_connects (hstate : p.state = .mcsErectDomain) :
    rdpServerAcceptMcsErectDomainRequest.Gives p fun _ q => Connects p q := by
  apply connects_bind quiet_parse .refl
  intro _ a hquiet ha
  apply gives_update_bind
  exact ha.step (.erectDomain (hquiet.state_eq.trans hstate))

theorem rdpServerAcceptMcsAttachUserRequest_connects (hstate : p.state = .mcsAttachUser) :
    (rdpServerAcceptMcsAttachUserRequest env).Gives p fun _ q => Connects p q := by
  apply connects_bind quiet_parse .refl
  intro _ a hquiet ha
  apply gives_update_bind
  apply gives_update_bind
  apply gives_update_bind
  have hattach := ha.step (.attachUser (hquiet.state_eq.trans hstate))
  have huser := hattach.step (.userId rfl
    { a.mcs with userId := a.mcs.baseChannelId, baseChannelId := a.mcs.baseChannelId + 1 })
  apply connects_bind (quiet_require env _) huser
  intro _ b hb_quiet hb
  apply gives_observe_bind
  by_cases hskip : b.settings.supportSkipChannelJoin = true
  · rw [if_pos hskip]
    apply gives_update_bind
    exact hb.step (.skipJoin hb_quiet.state_eq)
  · rw [if_neg hskip]
    exact hb.step (.startJoin hb_quiet.state_eq)

theorem rdpServerAcceptMcsChannelJoinRequest_connects (hstate : p.state = .mcsChannelJoinRequest) :
    (rdpServerAcceptMcsChannelJoinRequest env).Gives p fun _ q => Connects p q := by
  apply connects_bind quiet_parse .refl
  rintro ⟨userId, channelId⟩ a hquiet ha
  apply gives_bind
  apply gives_observe_bind
  apply gives_ensure_bind ha
  intro _
  apply gives_update
  apply gives_update_bind
  have hrequest := ha.step
    (.joinRequest (hquiet.state_eq.trans hstate) { a.mcs with userId := userId })
  apply connects_bind (quiet_require env _) hrequest
  intro _ b hb_quiet hb
  apply gives_update_bind
  apply gives_observe_bind
  exact hb.step (.join hb_quiet.state_eq (joinChannel b.mcs channelId))

theorem quiet_rdpServerEstablishKeys : Within Quiet (rdpServerEstablishKeys env) := by
  apply within_bind within_observe
  intro layer
  apply within_ite
  swap
  · exact fun _ => within_pure ()
  intro _
  apply within_bind (quiet_rdpReadHeader env)
  intro _
  apply within_bind quiet_parse
  intro _
  apply within_bind quiet_ensure
  intro _
  apply within_bind quiet_parse
  intro _
  apply within_bind quiet_parse
  intro _
  apply within_bind quiet_external
  intro _
  apply within_bind within_observe
  exact fun _ => within_ite (fun _ => within_pure ()) fun _ => quiet_parse

theorem handleSecurityCommencement_connects (hstate : p.state = .rdpSecurityCommencement) :
    (handleSecurityCommencement env).Gives p fun _ q => Connects p q := by
  apply connects_bind (quiet_rdpServerEstablishKeys env) .refl
  intro _ a hquiet ha
  apply gives_update_bind
  apply gives_update_bind
  exact ha.step (.keys (hquiet.state_eq.trans hstate))

theorem quiet_rdpRecvClientInfo : Within Quiet (rdpRecvClientInfo env) := by
  apply within_bind (quiet_rdpReadHeader env)
  rintro ⟨length, channelId⟩
  apply within_bind quiet_parse
  intro securityFlags
  apply within_bind quiet_ensure
  intro _
  have hsecurity : Within Quiet (clientInfoSecurity env length securityFlags) := by
    apply within_bind within_observe
    intro layer
    apply within_ite
    · exact fun _ => within_bind quiet_ensure fun _ => quiet_decryptIfEncrypted env _
    · exact fun _ => within_pure ()
  apply within_bind hsecurity
  exact fun _ => quiet_external

theorem handleSecureSettings_connects (hstate : p.state = .secureSettingsExchange) :
    (handleSecureSettings env).Gives p fun _ q => Connects p q := by
  apply connects_bind (quiet_rdpRecvClientInfo env) .refl
  intro _ a hquiet ha
  apply gives_update_bind
  apply gives_update_bind
  exact ha.step (.clientInfo (hquiet.state_eq.trans hstate))

end Connecting

/-! ## The later states -/

/-- The flag that a state of the finalization waits for, and the next state.  The list of keys is
awaited only if its cache is enabled and the connection is not reactivated. -/
def awaited (p : Peer) : Option (ℕ × ConnectionState) :=
  match p.state with
  | .finalizationSync => some (Finalize.csSynchronizePdu, .finalizationCooperate)
  | .finalizationCooperate => some (Finalize.csControlCooperatePdu, .finalizationRequestControl)
  | .finalizationRequestControl =>
      some (Finalize.csControlRequestPdu, .finalizationPersistentKeyList)
  | .finalizationPersistentKeyList =>
      if p.settings.bitmapCachePersistEnabled = true ∧
        p.isFlagSet Finalize.deactivateReactivate = false
      then some (Finalize.csPersistentKeyListPdu, .finalizationFontList)
      else none
  | _ => none

/-- The application is told that the connection is up. -/
inductive Tell : Peer → Peer → Prop
  | acts {p q : Peer} (h : Acts False p q) : Tell p q
  | postConnect (p : Peer) : Tell p (p.emit .postConnect)
  | activate (p : Peer) : Tell p (p.emit .activate)

/-- **What the switch over the connection state can do**, with its status. -/
inductive Moves (env : Env) (p : Peer) : StateRun → Peer → Prop
  /-- nothing is done -/
  | quiet {rc : StateRun} {q : Peer} (h : Quiet p q) : Moves env p rc q
  /-- the connection is set up -/
  | connects {rc : StateRun} {q : Peer} (hstate : p.state < .connectTimeAutoDetectRequest)
      (h : Connects p q) : Moves env p rc q
  /-- the auto-detection starts or is skipped -/
  | autoDetect {rc : StateRun} {a : Peer} {s : ConnectionState}
      (hstate : p.state = .connectTimeAutoDetectRequest ∨ p.state = .connectTimeAutoDetectResponse)
      (h : Quiet p a) (hs : s = .connectTimeAutoDetectResponse ∨ s = .licensing) :
      Moves env p rc (a.enter s)
  /-- the auto-detection goes on -/
  | autoDetectRecv {rc rc' : StateRun} {a b q : Peer}
      (hstate : p.state = .connectTimeAutoDetectResponse) (h : Recv env p rc a) (h' : Quiet a b)
      (hq : q = b ∨ q = b.enter .licensing) (hrc : rc.isFailed = true → rc' = rc) :
      Moves env p rc' q
  /-- the licence request is sent -/
  | licenseRequest {rc : StateRun} {a b q : Peer} (hstate : p.state = .licensing)
      (hinitial : p.license = .initial) (hrequired : env.serverLicenseRequired = true)
      (h : Quiet p a)
      (h' : Quiet (a.setLicense .configured) b) (hq : q = b ∨ q = b.setLicense .request) :
      Moves env p rc q
  /-- no licence is needed -/
  | licenseValid {rc : StateRun} {a q : Peer} (hstate : p.state = .licensing)
      (hinitial : p.license = .initial) (hrequired : env.serverLicenseRequired = false)
      (h : Quiet (p.setLicense .completed) a)
      (hq : q = a ∨ q = a.enter .multitransportBootstrappingRequest) : Moves env p rc q
  /-- the licensing is completed -/
  | licenseCompleted {rc : StateRun} (hstate : p.state = .licensing)
      (hcompleted : p.license = .completed) :
      Moves env p rc (p.enter .multitransportBootstrappingRequest)
  /-- the licensing goes on -/
  | licenseRecv {rc : StateRun} {a q : Peer} (hstate : p.state = .licensing) (h : Recv env p rc a)
      (hq : q = a ∨ rc = .continue ∧ q = a.enter .multitransportBootstrappingRequest) :
      Moves env p rc q
  /-- the multitransport request is sent or skipped -/
  | multitransport {rc : StateRun} {a : Peer} {s : ConnectionState}
      (hstate : p.state = .multitransportBootstrappingRequest) (h : Quiet p a)
      (hs : s = .multitransportBootstrappingResponse ∨ s = .capabilitiesExchangeDemandActive) :
      Moves env p rc (a.enter s)
  /-- a PDU is received -/
  | recv {rc : StateRun} {q : Peer}
      (hstate : p.state = .multitransportBootstrappingResponse ∨
        p.state = .capabilitiesExchangeConfirmActive) (h : Recv env p rc q) : Moves env p rc q
  /-- Demand Active is sent -/
  | demand {rc : StateRun} {a : Peer} (hstate : p.state = .capabilitiesExchangeDemandActive)
      (h : Quiet p a) : Moves env p rc a.demand
  /-- the monitor layout is sent or skipped -/
  | monitorLayout {rc : StateRun} {a : Peer} (hstate : p.state = .capabilitiesExchangeMonitorLayout)
      (h : Quiet p a) : Moves env p rc (a.enter .capabilitiesExchangeConfirmActive)
  /-- a PDU of the finalization is awaited, and it has come -/
  | await {rc rc' : StateRun} {a b q : Peer} {flag : ℕ} {next : ConnectionState}
      (hawaited : awaited p = some (flag, next)) (h : Recv env p rc a)
      (hflag : a.isFlagSet flag = true)
      (h' : Quiet a b) (hq : q = b ∨ q = b.enter next) (hrc : rc' = rc ∨ rc' = .failed) :
      Moves env p rc' q
  /-- a PDU of the finalization is awaited, and it has not come -/
  | awaitMore {rc : StateRun} {q : Peer} {flag : ℕ} {next : ConnectionState}
      (hawaited : awaited p = some (flag, next)) (h : Recv env p rc q)
      (hflag : q.isFlagSet flag = false) : Moves env p .success q
  /-- no list of keys is awaited -/
  | skipKeys {rc : StateRun} (hstate : p.state = .finalizationPersistentKeyList) :
      Moves env p rc (p.enter .finalizationFontList)
  /-- the Font List is awaited -/
  | fontList {rc rc' : StateRun} {a q : Peer} (hstate : p.state = .finalizationFontList)
      (h : Recv env p rc a)
      (hq : q = a ∨ a.isFlagSet Finalize.csFontListPdu = true ∧ q = a.enter .active)
      (hrc : rc.isFailed = true → rc' = rc) : Moves env p rc' q
  /-- the application of an active connection is told -/
  | tell {rc : StateRun} {q : Peer} (hstate : p.state = .active)
      (h : Relation.ReflTransGen Tell p q) : Moves env p rc q
  /-- an active connection -/
  | active {rc : StateRun} {a q : Peer} (hstate : p.state = .active)
      (h : Relation.ReflTransGen Tell p a) (h' : Recv env a rc q) : Moves env p rc q

variable {next : ConnectionState}

theorem finalization_of_awaited (h : awaited p = some (flag, next)) :
    .finalizationSync ≤ p.state ∧ p.state ≤ .finalizationPersistentKeyList := by
  unfold awaited at h
  cases hstate : p.state <;> rw [hstate] at h <;> first | decide | cases h

/-- The state after one that waits is one of the finalization as well. -/
theorem finalization_of_next (h : awaited p = some (flag, next)) : .finalizationSync ≤ next := by
  unfold awaited at h
  split at h
  · cases h
    decide
  · cases h
    decide
  · cases h
    decide
  · split at h
    · cases h
      decide
    · cases h
  · cases h

section Moves

variable (env : Env)

/-- Every outcome of a handler is a move. -/
abbrev Plays (p : Peer) (f : Serve StateRun) : Prop :=
  f.Gives p fun r q => Moves env p (StateRun.ofResult r) q

theorem peerRecvHandleAutoDetect_moves
    (hstate : p.state = .connectTimeAutoDetectRequest ∨ p.state = .connectTimeAutoDetectResponse) :
    Plays env p (peerRecvHandleAutoDetect env) := by
  apply gives_observe_bind
  by_cases hdetect : p.settings.networkAutoDetect = true
  swap
  · rw [if_neg hdetect]
    exact .autoDetect hstate (.refl p) (.inr rfl)
  rw [if_pos hdetect]
  apply gives_observe_bind
  by_cases hrequest : p.state = .connectTimeAutoDetectRequest
  · rw [if_pos hrequest]
    apply gives_update_bind
    apply gives_observe_bind
    have hquiet : Quiet p
        { p with autodetect := env.autoDetectBegin p.calls p.toRdp, calls := p.calls + 1 } :=
      .of_eq rfl rfl
    split
    · exact .autoDetect hstate hquiet (.inl rfl)
    · exact .autoDetect hstate hquiet (.inr rfl)
    · exact .quiet hquiet
  rw [if_neg hrequest]
  have hresponse := hstate.resolve_left hrequest
  apply gives_bind
  apply (peerRecvPdu_gives env p).mono
  rintro (u | rc) a ha
  · exact .autoDetectRecv hresponse ha (.refl a) (.inl rfl) fun _ => rfl
  by_cases hsuccess : rc.isSuccess = true
  swap
  · simp only [if_neg hsuccess]
    exact .autoDetectRecv hresponse ha (.refl a) (.inl rfl) fun _ => rfl
  simp only [if_pos hsuccess]
  apply gives_update_bind
  apply gives_observe_bind
  have hrc : rc.isFailed = false := by
    cases rc <;> first | rfl | cases hsuccess
  have hquiet : Quiet a
      { a with autodetect := env.autoDetectProgress a.calls a.toRdp, calls := a.calls + 1 } :=
    .of_eq rfl rfl
  split
  · exact .autoDetectRecv hresponse ha hquiet (.inl rfl) (by simp [hrc])
  · exact .autoDetectRecv hresponse ha hquiet (.inr rfl) (by simp [hrc])
  · exact .autoDetectRecv hresponse ha hquiet (.inl rfl) (by simp [hrc])

theorem handleLicensing_moves (hstate : p.state = .licensing) :
    Plays env p (handleLicensing env) := by
  apply gives_bind
  apply gives_observe_bind
  match hlicense : p.license with
  | .initial =>
    by_cases hrequired : env.serverLicenseRequired = true
    · simp only [if_pos hrequired]
      apply (quiet_require env _).gives_bind
      · exact fun _ a ha => .quiet ha
      intro _ a ha
      apply gives_update_bind
      apply (quiet_require env _).gives_bind
      · exact fun _ b hb => .licenseRequest hstate hlicense hrequired ha hb (.inl rfl)
      intro _ b hb
      apply gives_update_bind
      exact .licenseRequest hstate hlicense hrequired ha hb (.inr rfl)
    · simp only [if_neg hrequired]
      have hrequired : env.serverLicenseRequired = false := by simpa using hrequired
      apply gives_update_bind
      apply (quiet_require env _).gives_bind
      · exact fun _ a ha => .licenseValid hstate hlicense hrequired ha (.inl rfl)
      intro _ a ha
      exact .licenseValid hstate hlicense hrequired ha (.inr rfl)
  | .completed => exact .licenseCompleted hstate hlicense
  | .aborted => exact .quiet (.refl p)
  | .configured | .request | .newRequest | .platformChallenge | .platformChallengeResponse =>
  apply (peerRecvPdu_gives env p).mono
  rintro (u | rc) a ha
  · exact .licenseRecv hstate ha (.inl rfl)
  by_cases hcontinue : rc = .continue
  · subst hcontinue
    exact .licenseRecv hstate ha (.inr ⟨rfl, rfl⟩)
  · simp only [if_neg hcontinue]
    exact .licenseRecv hstate ha (.inl rfl)

theorem handleMultitransportRequest_moves (hstate : p.state = .multitransportBootstrappingRequest) :
    Plays env p (handleMultitransportRequest env) := by
  apply gives_observe_bind
  by_cases hsupport : p.settings.supportMultitransport = true ∧
    p.settings.multitransportFlags &&& 1 ≠ 0
  · rw [if_pos hsupport]
    apply (quiet_require env _).gives_bind
    · exact fun _ a ha => .quiet ha
    · exact fun _ a ha => .multitransport hstate ha (.inl rfl)
  · rw [if_neg hsupport]
    exact .multitransport hstate (.refl p) (.inr rfl)

theorem quiet_sendMonitorLayout : Within Quiet (sendMonitorLayout env) := by
  apply within_bind within_observe
  intro supported
  apply within_ite
  · intro _
    apply within_bind (quiet_require env _)
    intro _
    apply within_bind
    · apply within_bind within_observe
      exact fun _ => within_ite (fun _ => quiet_require env _) fun _ => within_pure ()
    · exact fun _ => within_bind (quiet_require env _) fun _ => quiet_require env _
  · exact fun _ => within_pure ()

theorem handleMonitorLayout_moves (hstate : p.state = .capabilitiesExchangeMonitorLayout) :
    Plays env p (handleMonitorLayout env) := by
  apply (quiet_sendMonitorLayout env).gives_bind
  · exact fun _ a ha => .quiet ha
  intro _ a ha
  apply gives_update_bind
  apply gives_observe_bind
  exact .monitorLayout hstate ha

/-- What a state that waits for a PDU does, `next` being quiet up to the next state. -/
theorem awaitFlag_moves {next} (hawaited : awaited p = some (flag, state))
    (hnext : ∀ a, next.Gives a fun r q => (r = .error () ∧ Quiet a q) ∨
      ∃ b, Quiet a b ∧ q = b.enter state) :
    Plays env p (awaitFlag env flag next) := by
  apply gives_attempt_bind
  apply (peerRecvPdu_gives env p).mono
  intro ret a ha
  apply gives_observe_bind
  by_cases hflag : a.isFlagSet flag = true
  swap
  · rw [if_neg hflag]
    have hflag : a.isFlagSet flag = false := by simpa using hflag
    exact .awaitMore hawaited ha hflag
  rw [if_pos hflag]
  apply gives_bind
  apply (hnext a).mono
  rintro r q (⟨rfl, hq⟩ | ⟨b, hb, rfl⟩)
  · exact .await hawaited ha hflag hq (.inl rfl) (.inr rfl)
  cases r with
  | error u => exact .await hawaited ha hflag hb (.inr rfl) (.inr rfl)
  | ok u =>
  cases ret with
  | ok rc | error u => exact .await hawaited ha hflag hb (.inr rfl) (.inl rfl)

theorem transition_gives (a) : (rdpServerTransitionToState state).Gives a fun r q =>
      (r = .error () ∧ Quiet a q) ∨ ∃ b, Quiet a b ∧ q = b.enter state :=
  .inr ⟨a, .refl a, rfl⟩

theorem grantControl_gives (a) : (grantControl env).Gives a fun r q =>
    (r = .error () ∧ Quiet a q) ∨ ∃ b, Quiet a b ∧ q = b.enter .finalizationPersistentKeyList := by
  apply (quiet_require env _).gives_bind
  · exact fun _ b hb => .inl ⟨rfl, hb⟩
  · exact fun _ b hb => .inr ⟨b, hb, rfl⟩

theorem handlePersistentKeyList_moves (hstate : p.state = .finalizationPersistentKeyList) :
    Plays env p (handlePersistentKeyList env) := by
  apply gives_observe_bind
  apply gives_observe_bind
  split
  · rename_i hkeys
    refine awaitFlag_moves env ?_ transition_gives
    unfold awaited
    rw [hstate]
    exact if_pos hkeys
  · exact .skipKeys hstate

theorem handleFontList_moves (hstate : p.state = .finalizationFontList) :
    Plays env p (handleFontList env) := by
  apply gives_bind
  apply (peerRecvPdu_gives env p).mono
  rintro (u | rc) a ha
  · exact .fontList hstate ha (.inl rfl) fun _ => rfl
  by_cases hsuccess : rc.isSuccess = true
  · simp only [if_pos hsuccess]
    have hrc : rc.isFailed = false := by
      cases rc <;> first | rfl | cases hsuccess
    apply gives_observe_bind
    by_cases hflag : a.isFlagSet Finalize.csFontListPdu = true
    · rw [if_pos hflag]
      exact .fontList hstate ha (.inr ⟨hflag, rfl⟩) (by simp [hrc])
    · rw [if_neg hflag]
      exact .fontList hstate ha (.inl rfl) (by simp [hrc])
  · simp only [if_neg hsuccess]
    exact .fontList hstate ha (.inl rfl) fun _ => rfl

theorem tells_peerPostConnect : Within (Relation.ReflTransGen Tell) (peerPostConnect env) := by
  apply within_bind within_observe
  intro connected
  apply within_ite
  · exact fun _ => within_pure ()
  intro _
  apply within_bind (within_update fun p => .single (.postConnect p))
  intro _
  apply within_bind ((acts_callback env _).mono fun _ _ h => .single (.acts h))
  intro ok
  exact within_update fun p => .single (.acts (.of_quiet (.of_eq rfl rfl)))

theorem tells_rdpPeerHandleStateActive :
    Within (Relation.ReflTransGen Tell) (rdpPeerHandleStateActive env) := by
  apply within_bind (tells_peerPostConnect env)
  intro _
  apply within_bind within_observe
  intro connected
  apply within_bind
  · exact (acts_of_quiet quiet_ensure).mono fun _ _ h => .single (.acts h)
  intro _
  apply within_bind within_observe
  intro activated
  apply within_ite
  · exact fun _ => within_pure _
  intro _
  apply within_bind (within_update fun p => .single (.acts (.of_quiet (.of_eq rfl rfl))))
  intro _
  apply within_bind (within_update fun p => .single (.activate p))
  intro _
  apply within_bind
  · exact (acts_requireCallback env _).mono fun _ _ h => .single (.acts h)
  · exact fun _ => within_pure _

theorem handleActive_moves (hstate : p.state = .active) : Plays env p (handleActive env) := by
  apply (tells_rdpPeerHandleStateActive env).gives_bind
  · exact fun _ a ha => .tell hstate ha
  intro ret a ha
  by_cases hactive : ret = .active
  · rw [if_pos hactive]
    apply (peerRecvPdu_gives env a).mono
    exact fun r q hq => .active hstate ha hq
  · rw [if_neg hactive]
    exact .tell hstate ha

/-- **The switch over the connection state.** -/
theorem peerRecvState_moves (p : Peer) : Plays env p (peerRecvState env) := by
  apply gives_observe_bind
  -- up to the client info each state needs the one before
  have hconnects {f : Serve StateRun} (hf : f.Gives p fun _ q => Connects p q)
      (hstate : p.state < .connectTimeAutoDetectRequest) :
      Plays env p f :=
    hf.mono fun _ _ hq => .connects hstate hq
  have hreturns {f : Serve Unit} (hf : f.Gives p fun _ q => Connects p q)
      (hstate : p.state < .connectTimeAutoDetectRequest) :
      Plays env p (f >>= fun _ => pure .success) := by
    apply gives_bind
    apply hf.mono
    rintro (u | u) q hq
    all_goals exact .connects hstate hq
  match hstate : p.state with
  | .initial => exact hconnects (handleInitial_connects env hstate) (by rw [hstate]; decide)
  | .nego => exact hconnects (handleNego_connects env hstate) (by rw [hstate]; decide)
  | .mcsCreateRequest =>
    exact hreturns (rdpServerAcceptMcsConnectInitial_connects env hstate) (by rw [hstate]; decide)
  | .mcsErectDomain =>
    exact hreturns (rdpServerAcceptMcsErectDomainRequest_connects hstate) (by rw [hstate]; decide)
  | .mcsAttachUser =>
    exact hreturns (rdpServerAcceptMcsAttachUserRequest_connects env hstate)
      (by rw [hstate]; decide)
  | .mcsChannelJoinRequest =>
    exact hreturns (rdpServerAcceptMcsChannelJoinRequest_connects env hstate)
      (by rw [hstate]; decide)
  | .rdpSecurityCommencement =>
    exact hconnects (handleSecurityCommencement_connects env hstate) (by rw [hstate]; decide)
  | .secureSettingsExchange =>
    exact hconnects (handleSecureSettings_connects env hstate) (by rw [hstate]; decide)
  | .connectTimeAutoDetectRequest => exact peerRecvHandleAutoDetect_moves env (.inl hstate)
  | .connectTimeAutoDetectResponse => exact peerRecvHandleAutoDetect_moves env (.inr hstate)
  | .licensing => exact handleLicensing_moves env hstate
  | .multitransportBootstrappingRequest => exact handleMultitransportRequest_moves env hstate
  | .multitransportBootstrappingResponse =>
    exact (peerRecvPdu_gives env p).mono fun _ _ hq => .recv (.inl hstate) hq
  | .capabilitiesExchangeDemandActive =>
    apply (rdpPeerHandleStateDemandActive_gives env p).mono
    rintro r q (⟨-, hq⟩ | ⟨-, a, ha, rfl⟩)
    · exact .quiet hq
    · exact .demand hstate ha
  | .capabilitiesExchangeMonitorLayout => exact handleMonitorLayout_moves env hstate
  | .capabilitiesExchangeConfirmActive =>
    exact (peerRecvPdu_gives env p).mono fun _ _ hq => .recv (.inr hstate) hq
  | .finalizationSync => exact awaitFlag_moves env (by simp only [awaited, hstate]) transition_gives
  | .finalizationCooperate =>
    exact awaitFlag_moves env (by simp only [awaited, hstate]) transition_gives
  | .finalizationRequestControl =>
    exact awaitFlag_moves env (by simp only [awaited, hstate]) (grantControl_gives env)
  | .finalizationPersistentKeyList => exact handlePersistentKeyList_moves env hstate
  | .finalizationFontList => exact handleFontList_moves env hstate
  | .active => exact handleActive_moves env hstate
  | .mcsCreateResponse | .mcsAttachUserConfirm | .mcsChannelJoinResponse
  | .finalizationClientSync | .finalizationClientCooperate | .finalizationClientGrantedControl
  | .finalizationClientFontMap | .nla | .aad => exact .quiet (.refl p)

theorem iterate_run (p) :
    (∃ a, requireCallback env .reachedState p = (.error (), a) ∧ iterate env p = (.failed, a)) ∨
      ∃ a, requireCallback env .reachedState p = (.ok (), a) ∧
        iterate env p = (StateRun.ofResult (peerRecvState env a).1, (peerRecvState env a).2) := by
  unfold iterate peerRecvCallbackInternal
  rcases hcallback : requireCallback env .reachedState p with ⟨u | u, a⟩
  · rw [bind_run_error hcallback]
    exact .inl ⟨a, rfl, rfl⟩
  · rw [bind_run_ok hcallback]
    exact .inr ⟨a, rfl, rfl⟩

/-- **One iteration of `peer_recv_callback`**: ReachedState is called, then the state is handled. -/
theorem iterate_moves (p : Peer) : ∃ a, Acts False p a ∧
    (iterate env p = (.failed, a) ∨ Moves env a (iterate env p).1 (iterate env p).2) := by
  have hacts := (acts_requireCallback env .reachedState p :
    (requireCallback env .reachedState).Gives p fun _ a =>
    Acts False p a)
  rw [Gives] at hacts
  rcases iterate_run env p with ⟨a, hcallback, hrun⟩ | ⟨a, hcallback, hrun⟩
  · rw [hcallback] at hacts
    exact ⟨a, hacts, .inl hrun⟩
  rw [hcallback] at hacts
  rw [hrun]
  exact ⟨a, hacts, .inr (peerRecvState_moves env a)⟩

end Moves

end WBFreeRDP.Server

/-
# The handshake of the server

No state from the connect-time auto-detection on is entered before the negotiation, the logon, the
MCS connection, the channel joins, the key exchange and the client info.
-/
import WBFreeRDP.ServerRuns

namespace WBFreeRDP.Server

open Program EventLog List

/-- A protocol that the client requested and the settings enable. -/
inductive Offered (settings : Settings) (requested : ℕ) : ℕ → Prop
  | rdstls (h : settings.rdstlsSecurity = true) (h' : requested &&& protocolRdstls ≠ 0) :
      Offered settings requested protocolRdstls
  | hybrid (h : settings.nlaSecurity = true) (h' : requested &&& protocolHybrid ≠ 0) :
      Offered settings requested protocolHybrid
  | ssl (h : settings.tlsSecurity = true) (h' : requested &&& protocolSsl ≠ 0) :
      Offered settings requested protocolSsl
  | rdp (h : settings.rdpSecurity = true) (h' : requested = protocolRdp) :
      Offered settings requested protocolRdp

theorem offered_of_selectProtocol
    (h : selectProtocol settings requested = some selected) :
    Offered settings requested selected := by
  unfold selectProtocol at h
  split at h
  · rename_i hrdstls
    cases h
    obtain ⟨hsetting, hrequested⟩ := Bool.and_eq_true_iff.mp hrdstls
    exact .rdstls hsetting (by simpa using hrequested)
  split at h
  · rename_i hhybrid
    cases h
    obtain ⟨hsetting, hrequested⟩ := Bool.and_eq_true_iff.mp hhybrid
    exact .hybrid hsetting (by simpa using hrequested)
  split at h
  · rename_i hssl
    cases h
    obtain ⟨hsetting, hrequested⟩ := Bool.and_eq_true_iff.mp hssl
    exact .ssl hsetting (by simpa using hrequested)
  split at h
  · rename_i hrdp
    cases h
    obtain ⟨hsetting, hrequested⟩ := Bool.and_eq_true_iff.mp hrdp
    exact .rdp hsetting (by simpa using hrequested)
  · cases h

/-! ## Milestones -/

/-- The steps of the handshake. -/
inductive Milestone
  | negotiation | logon | mcsConnect | erectDomain | attachUser | keys | clientInfo
  deriving DecidableEq, Repr

/-- The step of the handshake that an event completes. -/
def Event.milestone : Event → Option Milestone
  | .negoAccepted _ _ _ => some .negotiation
  | .logon => some .logon
  | .mcsConnect => some .mcsConnect
  | .erectDomain => some .erectDomain
  | .attachUser => some .attachUser
  | .keysEstablished => some .keys
  | .clientInfo => some .clientInfo
  | _ => none

/-- The steps of the handshake in a log, the newest first. -/
def passed (log : Log) : List Milestone := log.filterMap fun entry => entry.1.milestone

/-- The steps that lie behind a state, the newest first. -/
def milestones : ConnectionState → List Milestone
  | .initial | .nego | .nla | .aad => []
  | .mcsCreateRequest => [.logon, .negotiation]
  | .mcsCreateResponse | .mcsErectDomain => [.mcsConnect, .logon, .negotiation]
  | .mcsAttachUser => [.erectDomain, .mcsConnect, .logon, .negotiation]
  | .mcsAttachUserConfirm | .mcsChannelJoinRequest | .mcsChannelJoinResponse
  | .rdpSecurityCommencement => [.attachUser, .erectDomain, .mcsConnect, .logon, .negotiation]
  | .secureSettingsExchange => [.keys, .attachUser, .erectDomain, .mcsConnect, .logon, .negotiation]
  | _ => [.clientInfo, .keys, .attachUser, .erectDomain, .mcsConnect, .logon, .negotiation]

variable {r s : ConnectionState}

theorem milestones_late (hs : .connectTimeAutoDetectRequest ≤ s) :
    milestones s = [.clientInfo, .keys, .attachUser, .erectDomain, .mcsConnect,
      .logon, .negotiation] := by
  cases s <;> first | rfl | exact absurd hs (by decide)

/-- How far a connection has come: the steps behind its state are in the log in their order, an
authenticated client has passed the logon, and the channels are joined before the keys are
exchanged. -/
structure Handshaken (log : Log) (progress : Progress) : Prop where
  passed : (milestones progress.state).Sublist (passed log)
  loggedOn : progress.authenticated = true →
      [Milestone.logon, .negotiation].Sublist (Server.passed log)
  authenticated : ConnectionState.mcsCreateRequest ≤ progress.state → progress.authenticated = true
  joined : ConnectionState.rdpSecurityCommencement ≤ progress.state → progress.mcs.AllJoined

variable {log : Log}

theorem Handshaken.cons (h : Handshaken log progress)
    (entry) : Handshaken (entry :: log) progress := by
  have hcons : (Server.passed log).Sublist (Server.passed (entry :: log)) :=
    List.Sublist.filterMap _ (sublist_cons_self _ _)
  exact ⟨h.passed.trans hcons, fun hauth => (h.loggedOn hauth).trans hcons,
    h.authenticated, h.joined⟩

/-- The handshake, and a protocol that both sides support in each negotiation. -/
def handshakeMonitor : Monitor where
  holds := Handshaken
  onEvent e _ _ :=
    match e with
    | .negoAccepted requested selected settings => Offered settings requested selected
    | _ => True
  stable _ h := h.cons _
  onRecvPdu _ _ _ := trivial

namespace HandshakeMonitor

variable {p q : Peer}

/-! ### The handshake -/

theorem enter_same (h : handshakeMonitor.Always p) (hstate : p.state = r)
    (hs : milestones s = milestones r) (hfrom : .mcsCreateRequest ≤ s → .mcsCreateRequest ≤ r)
    (hjoined : .rdpSecurityCommencement ≤ s → p.mcs.AllJoined) :
    handshakeMonitor.Always (p.enter s) := by
  subst hstate
  exact h.enter ⟨hs ▸ h.1.passed, h.1.loggedOn, fun hle => h.1.authenticated (hfrom hle), hjoined⟩
    fun _ _ => trivial

/-- A step of the handshake is completed and its state entered. -/
theorem complete (h : handshakeMonitor.Always p) (hstate : p.state = r)
    (he : e.milestone = some m) (hevent : ∀ rdp log, handshakeMonitor.onEvent e rdp log)
    (hs : milestones s = m :: milestones r) (hr : .mcsCreateRequest ≤ r)
    (hjoined : .rdpSecurityCommencement ≤ s → p.mcs.AllJoined) :
    handshakeMonitor.Always ((p.emit e).enter s) := by
  subst hstate
  have hemit : handshakeMonitor.Always (p.emit e) := by
    refine h.emit e ?_ (hevent _ _)
    rintro rfl
    cases he
  refine hemit.enter ⟨?_, hemit.1.loggedOn, fun _ => h.1.authenticated hr, hjoined⟩ fun _ _ =>
    trivial
  have hpassed : passed (p.emit e).log = m :: passed p.log := filterMap_cons_some he
  rw [hpassed]
  rw [hs]
  exact h.1.passed.cons_cons m

theorem set_mcs (h : handshakeMonitor.Always p) (mcs) (hstate : p.state = r)
    (hr : ¬.rdpSecurityCommencement ≤ r) : handshakeMonitor.Always { p with mcs := mcs } :=
  h.set rfl ⟨h.1.passed, h.1.loggedOn, h.1.authenticated, fun hle => absurd (hstate ▸ hle) hr⟩

theorem allJoined_joinAll (mcs) : (joinAll mcs).AllJoined := by
  refine ⟨rfl, rfl, .inr rfl, ?_⟩
  intro channel hmem
  obtain ⟨_, -, rfl⟩ := mem_map.mp hmem
  rfl

theorem allJoined_iff (mcs) : allJoined mcs = true ↔ mcs.AllJoined := by
  simp [allJoined, Mcs.AllJoined, and_assoc]

/-- **Each step of the connection.** -/
theorem connectStep (hstep : ConnectStep p q) (h : handshakeMonitor.Always p) :
    handshakeMonitor.Always q := by
  cases hstep with
  | quiet hquiet => exact h.quiet hquiet
  | initial hstate | connectResponse hstate | startJoin hstate =>
    exact enter_same h hstate rfl (by decide) nofun
  | @negoAccepted requested selected settings hstate hselected =>
    have hemit : handshakeMonitor.Always (p.emit (.negoAccepted requested selected settings)) :=
      h.emit _ (by simp) (offered_of_selectProtocol hselected)
    refine hemit.set rfl
      ⟨hemit.1.passed, fun hauth => (by cases hauth), fun hle => ?_, hemit.1.joined⟩
    have hle : .mcsCreateRequest ≤ p.state := hle
    rw [hstate] at hle
    exact absurd hle (by decide)
  | logon hstate hnego =>
    have hemit : handshakeMonitor.Always (p.emit .logon) := h.emit _ (by simp) trivial
    refine hemit.set rfl ⟨hemit.1.passed, fun _ => ?_, fun _ => rfl, hemit.1.joined⟩
    obtain ⟨requested, selected, settings, rdp, hmem⟩ := hnego
    have hnegotiation : .negotiation ∈ passed p.log := mem_filterMap.mpr ⟨_, hmem, rfl⟩
    exact (singleton_sublist.mpr hnegotiation).cons_cons .logon
  | authenticated hstate hauth =>
    exact h.enter ⟨h.1.loggedOn hauth, h.1.loggedOn, fun _ => hauth,
      fun hle => absurd hle (show ¬ConnectionState.rdpSecurityCommencement ≤ .mcsCreateRequest from
        by decide)⟩ fun _ _ => trivial
  | connectInitial hstate mcs | userId hstate mcs => exact set_mcs h mcs hstate (by decide)
  | connected hstate | erectDomain hstate | attachUser hstate =>
    exact complete h hstate rfl (fun _ _ => trivial) rfl (by decide) nofun
  | skipJoin hstate =>
    have hmcs := set_mcs h (joinAll p.mcs) hstate (by decide)
    exact enter_same hmcs hstate rfl (by decide) fun _ => allJoined_joinAll p.mcs
  | joinRequest hstate mcs =>
    have hmcs := set_mcs h mcs hstate (by decide)
    exact enter_same hmcs hstate rfl (by decide) nofun
  | join hstate mcs =>
    have hmcs := set_mcs h mcs hstate (by decide)
    by_cases hall : allJoined mcs = true
    · rw [if_pos hall]
      exact enter_same hmcs hstate rfl (by decide) fun _ => (allJoined_iff mcs).mp hall
    · rw [if_neg hall]
      exact enter_same hmcs hstate rfl (by decide) nofun
  | keys hstate | clientInfo hstate =>
  exact complete h hstate rfl (fun _ _ => trivial) rfl (by decide) fun _ =>
    h.1.joined (by rw [hstate]; decide)

theorem connects (hconnects : Connects p q) (h : handshakeMonitor.Always p) :
    handshakeMonitor.Always q := by
  induction hconnects with
  | refl => exact h
  | tail _ hstep ih => exact connectStep hstep ih

/-! ### After the handshake -/

/-- From the auto-detection on the handshake lies behind. -/
def Late (p : Peer) : Prop := ConnectionState.connectTimeAutoDetectRequest ≤ p.state

theorem handshaken_late (h : Handshaken log a)
    (ha : .connectTimeAutoDetectRequest ≤ a.state) (hb : .connectTimeAutoDetectRequest ≤ b.state)
    (hauth : b.authenticated = a.authenticated) (hmcs : b.mcs = a.mcs) : Handshaken log b := by
  constructor
  · rw [milestones_late hb, ← milestones_late ha]
    exact h.passed
  · rw [hauth]
    exact h.loggedOn
  · intro _
    rw [hauth]
    exact h.authenticated (Nat.le_trans (by decide) ha)
  · intro _
    rw [hmcs]
    exact h.joined (Nat.le_trans (by decide) ha)

def AlwaysLate (p : Peer) : Prop := handshakeMonitor.Always p ∧ Late p

theorem emit_late (h : AlwaysLate p) (he : e ≠ .reactivate)
    (hevent : ∀ rdp log, handshakeMonitor.onEvent e rdp log) : AlwaysLate (p.emit e) :=
  ⟨h.1.emit e he (hevent _ _), h.2⟩

theorem enter_late (h : AlwaysLate p)
    (hs : .connectTimeAutoDetectRequest ≤ s) : AlwaysLate (p.enter s) :=
  ⟨h.1.enter (handshaken_late h.1.1 h.2 hs rfl rfl) fun _ _ => trivial, hs⟩

theorem set_late (h : AlwaysLate p) (hlog : q.log = p.log) (hstate : q.state = p.state)
    (hauth : q.authenticated = p.authenticated) (hmcs : q.mcs = p.mcs) : AlwaysLate q := by
  have hlate : Late q := by
    rw [Late, hstate]
    exact h.2
  exact ⟨h.1.set hlog (handshaken_late h.1.1 h.2 hlate hauth hmcs), hlate⟩

theorem quiet_late (h : AlwaysLate p) (hquiet : Quiet p q) : AlwaysLate q := by
  refine ⟨h.1.quiet hquiet, ?_⟩
  rw [Late, hquiet.state_eq]
  exact h.2

/-- **Each step of a received PDU.** -/
theorem recvStep {replay : Prop} {sharing : Event → Prop} (hstep : RecvStep replay sharing p q)
    (h : AlwaysLate p) : AlwaysLate q := by
  cases hstep with
  | quiet hquiet => exact quiet_late h hquiet
  | deactivate _ =>
    have hdemand : ConnectionState.connectTimeAutoDetectRequest ≤
        .capabilitiesExchangeDemandActive := by
      decide
    refine ⟨h.1.deactivate ?_ trivial fun _ _ => trivial, hdemand⟩
    have hdeactivate : Handshaken p.log p.deactivate.toProgress :=
      handshaken_late h.1.1 h.2 hdemand rfl rfl
    exact hdeactivate.cons _
  | demand _ =>
    exact enter_late (emit_late h (e := .demandActive) (by simp) fun _ _ => trivial) (by decide)
  | inputPdu he =>
    rcases he with rfl | rfl
    all_goals exact emit_late h (by simp) fun _ _ => trivial
  | input _ call => exact emit_late h (by simp) fun _ _ => trivial
  | flag _ hpdu =>
    refine set_late (emit_late h ?_ fun _ _ => ?_) rfl rfl rfl rfl
    · rintro rfl
      cases hpdu
    · cases hpdu <;> trivial
  | listFonts _ =>
    have hfonts := emit_late h (e := .fontList) (by simp) fun _ _ => trivial
    have hflag : AlwaysLate ((p.emit .fontList).setFlag Finalize.csFontListPdu) :=
      set_late hfonts rfl rfl rfl rfl
    exact enter_late hflag (by decide)
  | activate _ | cooperate _ => exact enter_late h (by decide)
  | replayed _ _ | abort => exact set_late h rfl rfl rfl rfl
  | confirm _ _ =>
    exact enter_late (emit_late h (e := .confirmActive) (by simp) fun _ _ => trivial) (by decide)
  | confirmed _ =>
    have hreset : AlwaysLate p.resetFlags := set_late h rfl rfl rfl rfl
    exact enter_late hreset (by decide)
  | multitransport =>
    exact enter_late (emit_late h (e := .multitransportResponse) (by simp) fun _ _ => trivial)
      (by decide)
  | license hpdu =>
    cases hpdu with
    | challenge _ => exact set_late h rfl rfl rfl rfl
    | alert errorCode stateTransition =>
    exact set_late (emit_late h (e := .errorAlert errorCode stateTransition) (by simp)
      fun _ _ => trivial) rfl rfl rfl rfl
  | issue _ =>
    exact set_late (emit_late h (e := .licenseIssued) (by simp) fun _ _ => trivial) rfl rfl rfl rfl

theorem recv (hrecv : Recv env p rc q) (h : AlwaysLate p) : AlwaysLate q :=
  hrecv.invariant (fun _ _ => recvStep)
    (fun _ h => emit_late h (by simp) fun rdp log => handshakeMonitor.onRecvPdu rc rdp log) h

theorem acts_late (hacts : Acts False p q) (h : AlwaysLate p) : AlwaysLate q := by
  have hsteps : RecvSteps False (fun _ => False) p q := hacts.steps False.elim
  exact hsteps.invariant (fun _ _ => recvStep) h

theorem acts (hacts : Acts False p q) (h : handshakeMonitor.Always p) :
    handshakeMonitor.Always q := by
  by_cases hstate : p.state = .active
  · have hlate : Late p := by
      rw [Late, hstate]
      decide
    exact (acts_late hacts ⟨h, hlate⟩).1
  · obtain ⟨hprogress, new, hlog, hnew⟩ := hacts.inactive hstate
    have hnil : new = [] := eq_nil_iff_forall_not_mem.mpr fun e he => (hnew e he).2.1
    rw [hnil] at hlog
    exact h.quiet ⟨hprogress, hlog⟩

theorem tells (htells : Relation.ReflTransGen Tell p q) (h : AlwaysLate p) : AlwaysLate q :=
  tells_invariant (fun _ _ => acts_late) (fun _ h => emit_late h (by simp) fun _ _ => trivial)
    (fun _ h => emit_late h (by simp) fun _ _ => trivial) htells h

theorem enter_or (h : AlwaysLate p) (hq : q = p ∨ q = p.enter s)
    (hs : .connectTimeAutoDetectRequest ≤ s) : AlwaysLate q := by
  rcases hq with rfl | rfl
  · exact h
  · exact enter_late h hs

/-- **Each move of the state machine after the handshake.** -/
theorem moves_late (hmoves : Moves env p rc q) (h : AlwaysLate p) : AlwaysLate q := by
  cases hmoves with
  | quiet hquiet => exact quiet_late h hquiet
  | connects hstate _ => exact absurd h.2 (Nat.not_le_of_lt hstate)
  | autoDetect _ hquiet hs | multitransport _ hquiet hs =>
    exact enter_late (quiet_late h hquiet) (by rcases hs with rfl | rfl <;> decide)
  | autoDetectRecv _ hrecv hquiet hq _ =>
    exact enter_or (quiet_late (recv hrecv h) hquiet) hq (by decide)
  | @licenseRequest _ a b _ _ _ _ hquiet hquiet' hq =>
    have hconfigured : AlwaysLate (a.setLicense .configured) :=
      set_late (quiet_late h hquiet) rfl rfl rfl rfl
    have hb := quiet_late hconfigured hquiet'
    rcases hq with rfl | rfl
    · exact hb
    · exact set_late hb rfl rfl rfl rfl
  | licenseValid _ _ _ hquiet hq =>
    have hcompleted : AlwaysLate (p.setLicense .completed) := set_late h rfl rfl rfl rfl
    exact enter_or (quiet_late hcompleted hquiet) hq (by decide)
  | licenseCompleted _ _ | skipKeys _ => exact enter_late h (by decide)
  | licenseRecv _ hrecv hq | fontList _ hrecv hq _ =>
    exact enter_or (recv hrecv h) (hq.imp_right And.right) (by decide)
  | recv _ hrecv | awaitMore _ hrecv _ => exact recv hrecv h
  | demand _ hquiet =>
    have ha := emit_late (quiet_late h hquiet) (e := .demandActive) (by simp) fun _ _ => trivial
    exact enter_late ha (by decide)
  | monitorLayout _ hquiet => exact enter_late (quiet_late h hquiet) (by decide)
  | @await _ _ _ _ _ _ next hawaited hrecv _ hquiet hq _ =>
    refine enter_or (quiet_late (recv hrecv h) hquiet) hq ?_
    exact Nat.le_trans (show ConnectionState.connectTimeAutoDetectRequest ≤ .finalizationSync from
      by decide) (finalization_of_next hawaited)
  | tell _ htells => exact tells htells h
  | active _ htells hrecv => exact recv hrecv (tells htells h)

/-- Before the handshake is complete the state machine goes on with it or does nothing. -/
theorem connects_of_moves (hmoves : Moves env p rc q) (hlate : ¬Late p) : Connects p q := by
  have hearly {s : ConnectionState} (hstate : p.state = s)
      (hs : .connectTimeAutoDetectRequest ≤ s) : False := by
    apply hlate
    rw [Late, hstate]
    exact hs
  cases hmoves with
  | quiet hquiet => exact Connects.of_quiet hquiet
  | connects _ hconnects => exact hconnects
  | autoDetect hstate _ _ | recv hstate _ =>
    rcases hstate with hstate | hstate
    all_goals exact (hearly hstate (by decide)).elim
  | await hawaited _ _ _ _ _ | awaitMore hawaited _ _ =>
    exact (hlate (Nat.le_trans
      (show ConnectionState.connectTimeAutoDetectRequest ≤ .finalizationSync
      from by decide) (finalization_of_awaited hawaited).1)).elim
  | autoDetectRecv hstate _ _ _ _ | licenseRequest hstate _ _ _ _ _ | licenseValid hstate _ _ _ _
  | licenseCompleted hstate _ | licenseRecv hstate _ _ | multitransport hstate _ _
  | demand hstate _ | monitorLayout hstate _ | skipKeys hstate | fontList hstate _ _ _
  | tell hstate _ | active hstate _ _ => exact (hearly hstate (by decide)).elim

/-- **Each move of the state machine.** -/
theorem moves (hmoves : Moves env p rc q) (h : handshakeMonitor.Always p) :
    handshakeMonitor.Always q := by
  by_cases hlate : Late p
  · exact (moves_late hmoves ⟨h, hlate⟩).1
  · exact connects (connects_of_moves hmoves hlate) h

end HandshakeMonitor

/-- What lies behind a state from the auto-detection on: the steps of the handshake in their order,
up to `rdp_server_establish_keys` and the client info, an accepted logon, and the joined
channels. -/
structure Completed (log : Log) (progress : Progress) : Prop where
  passed : [Milestone.clientInfo, .keys, .attachUser, .erectDomain, .mcsConnect, .logon,
    .negotiation].Sublist (passed log)
  authenticated : progress.authenticated = true
  joined : progress.mcs.AllJoined

theorem Handshaken.completed (h : Handshaken log progress)
    (hstate : .connectTimeAutoDetectRequest ≤ progress.state) : Completed log progress := by
  constructor
  · rw [← milestones_late hstate]
    exact h.passed
  · exact h.authenticated (Nat.le_trans (by decide) hstate)
  · exact h.joined (Nat.le_trans (by decide) hstate)

/-- **The handshake is never skipped**: in every run, whenever the state is the connect-time
auto-detection or a later one, the negotiation, the logon, the MCS connection with erect-domain and
attach-user, the key exchange and the client info have been passed in this order, the client is
authenticated and all channels are joined.  Each negotiation selected a protocol that the client
requested and the settings enable.  This holds at the end of the run and at every entry of its
log. -/
theorem handshake_complete {env : Env} {p : Peer} {rc : StateRun} (h : Reaches env p rc) :
    (.connectTimeAutoDetectRequest ≤ p.state → Completed p.log p.toProgress) ∧
      (∀ e rdp earlier, (e, rdp) :: earlier <:+ p.log → .connectTimeAutoDetectRequest ≤ rdp.state →
        Completed earlier rdp.toProgress) ∧
      ∀ requested selected settings rdp, (.negoAccepted requested selected settings, rdp) ∈ p.log →
        Offered settings requested selected := by
  have halways : handshakeMonitor.Always p := by
    refine h.invariant ?_ (fun _ _ hquiet h => h.quiet hquiet) (fun _ _ => HandshakeMonitor.acts)
      fun _ _ _ => HandshakeMonitor.moves
    intro settings
    refine ⟨⟨nil_sublist _, ?_, ?_, ?_⟩, trivial⟩
    · intro hauth
      cases hauth
    · intro hstate
      exact absurd hstate (show ¬ConnectionState.mcsCreateRequest ≤ .initial from by decide)
    · intro hstate
      exact absurd hstate (show ¬ConnectionState.rdpSecurityCommencement ≤ .initial from by decide)
  refine ⟨halways.1.completed, ?_, ?_⟩
  · intro e rdp earlier hentry hstate
    exact (halways.2.of_suffix hentry).1.completed hstate
  intro requested selected settings rdp hmem
  obtain ⟨earlier, hentry⟩ := halways.2.of_mem hmem
  exact hentry.2.2

theorem plainRun_connect : (plainRun false []).map (fun r => r.2.state) =
    some .capabilitiesExchangeConfirmActive := by
  decide +kernel

theorem handshake_complete_connect : ∃ p rc, Reaches (.agreeing false) p rc ∧
    p.state = .capabilitiesExchangeConfirmActive ∧ Completed p.log p.toProgress := by
  obtain ⟨⟨rc, p⟩, hrun, hstate⟩ := Option.map_eq_some_iff.mp plainRun_connect
  exact ⟨p, rc, plainRun_reaches hrun, hstate,
    (handshake_complete (plainRun_reaches hrun)).1 (by rw [hstate]; decide)⟩

end WBFreeRDP.Server

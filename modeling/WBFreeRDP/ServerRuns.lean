/-
# Invariants of the runs of the server

A `Monitor` watches the log of a run: it has a property of the progress, given the log so far, and a
property of each event, given the log before it.  Both hold in every state of a run if every step
keeps them.
-/
import WBFreeRDP.EventLog
import WBFreeRDP.ServerMoves

namespace WBFreeRDP.Server

open Program EventLog List

/-! ## Monitors -/

/-- The log of a run, the newest entry first. -/
abbrev Log : Type := List (Event × Rdp)

/-- The events of the connection up to the client info. -/
def Event.isConnecting : Event → Bool
  | .entered _ | .negoAccepted _ _ _ | .logon | .mcsConnect | .erectDomain | .attachUser
  | .keysEstablished | .clientInfo => true
  | _ => false

/-- Properties of a log: `holds` of the progress at any time, `onEvent` of each event.  Only a
reactivation may take back what was reached. -/
structure Monitor where
  holds : Log → Progress → Prop
  onEvent : Event → Rdp → Log → Prop
  stable : ∀ {e rdp log progress}, e ≠ .reactivate → holds log progress →
    holds ((e, rdp) :: log) progress
  onRecvPdu : ∀ rc rdp log, onEvent (.recvPdu rc) rdp log

namespace Monitor

variable (m : Monitor)

/-- The properties held at every entry of the log. -/
def Kept : Log → Prop :=
  Recorded fun e rdp earlier => m.holds earlier rdp.toProgress ∧ m.onEvent e rdp earlier

/-- The properties hold and held at any time before. -/
def Always (p : Peer) : Prop := m.holds p.log p.toProgress ∧ m.Kept p.log

variable {m} {p q : Peer}

theorem Always.quiet (h : m.Always p) (hquiet : Quiet p q) : m.Always q := by
  rw [Always, hquiet.1, hquiet.2]
  exact h

theorem Always.emit (h : m.Always p) (e) (he : e ≠ .reactivate)
    (hevent : m.onEvent e p.toRdp p.log) : m.Always (p.emit e) :=
  ⟨m.stable he h.1, ⟨h.1, hevent⟩, h.2⟩

theorem Always.recvPdu (h : m.Always p) (rc) : m.Always (p.emit (.recvPdu rc)) :=
  h.emit _ (by simp) (m.onRecvPdu rc p.toRdp p.log)

theorem Always.set (h : m.Always p) (hlog : q.log = p.log)
    (hholds : m.holds p.log q.toProgress) : m.Always q := by
  rw [Always, hlog]
  exact ⟨hholds, h.2⟩

theorem Always.enter (h : m.Always p) (hholds : m.holds p.log { p.toProgress with state := s })
    (hevent : ∀ rdp : Rdp, rdp.toProgress = { p.toProgress with state := s } →
      m.onEvent (.entered s) rdp p.log) : m.Always (p.enter s) :=
  ⟨m.stable (by simp) hholds, ⟨hholds, hevent _ rfl⟩, h.2⟩

/-- A reactivation takes back what was reached and goes to Demand Active. -/
theorem Always.deactivate (h : m.Always p)
    (hholds : m.holds ((.reactivate, p.toRdp) :: p.log) p.deactivate.toProgress)
    (hevent : m.onEvent .reactivate p.toRdp p.log)
    (hentered : ∀ rdp log, m.onEvent (.entered .capabilitiesExchangeDemandActive) rdp log) :
    m.Always p.deactivate :=
  ⟨m.stable (by simp) hholds, ⟨hholds, hentered _ _⟩, ⟨h.1, hevent⟩, h.2⟩

/-- A property that the connection up to the client info cannot break. -/
def Early (m : Monitor) : Prop :=
  (∀ {log a b}, m.holds log a → b.state ≤ ConnectionState.connectTimeAutoDetectRequest →
    b.license = a.license → b.finalizeScPdus = a.finalizeScPdus → m.holds log b) ∧
  ∀ {e : Event} {rdp log}, e.isConnecting = true → m.onEvent e rdp log

theorem Always.connect (h : m.Always p) (hm : m.Early)
    (he : e.isConnecting = true) (hs : s ≤ .connectTimeAutoDetectRequest) :
    m.Always ((p.emit e).enter s) := by
  have hemit : m.Always (p.emit e) := h.emit e (by rintro rfl; cases he) (hm.2 he)
  exact hemit.enter (hm.1 hemit.1 hs rfl rfl) fun _ _ => hm.2 rfl

theorem Always.connectEnter (h : m.Always p) (hm : m.Early) (mcs)
    (hs : s ≤ .connectTimeAutoDetectRequest) : m.Always ({ p with mcs := mcs }.enter s) := by
  have hholds : m.holds p.log { p.toProgress with mcs := mcs, state := s } := hm.1 h.1 hs rfl rfl
  exact ⟨m.stable (by simp) hholds, ⟨hholds, hm.2 rfl⟩, h.2⟩

/-- **The steps of the connection keep such a property.** -/
theorem Always.connectStep (h : m.Always p) (hm : m.Early) (hstep : ConnectStep p q) :
    m.Always q := by
  cases hstep with
  | quiet hquiet => exact h.quiet hquiet
  | initial _ | authenticated _ _ | connectResponse _ | startJoin _ =>
    exact h.connectEnter hm p.mcs (by decide)
  | @negoAccepted requested selected settings hstate _ =>
    have hemit : m.Always (p.emit (.negoAccepted requested selected settings)) :=
      h.emit _ (by simp) (hm.2 rfl)
    have hearly : p.state ≤ .connectTimeAutoDetectRequest := by
      rw [hstate]
      decide
    exact hemit.set rfl (hm.1 hemit.1 hearly rfl rfl)
  | logon hstate _ =>
    have hearly : p.state ≤ .connectTimeAutoDetectRequest := by
      rw [hstate]
      decide
    have hemit : m.Always (p.emit .logon) := h.emit _ (by simp) (hm.2 rfl)
    exact hemit.set rfl (hm.1 hemit.1 hearly rfl rfl)
  | connectInitial hstate mcs | userId hstate mcs =>
    have hearly : p.state ≤ .connectTimeAutoDetectRequest := by
      rw [hstate]
      decide
    exact h.set rfl (hm.1 h.1 hearly rfl rfl)
  | connected _ | erectDomain _ | attachUser _ | keys _ | clientInfo _ =>
    exact h.connect hm rfl (by decide)
  | skipJoin _ => exact h.connectEnter hm _ (by decide)
  | joinRequest _ mcs => exact h.connectEnter hm mcs (by decide)
  | join _ mcs => exact h.connectEnter hm mcs (by split <;> decide)

theorem Always.connects (h : m.Always p) (hm : m.Early) (hsteps : Connects p q) : m.Always q := by
  induction hsteps with
  | refl => exact h
  | tail _ hstep ih => exact ih.connectStep hm hstep

end Monitor

/-! ## The steps of a received PDU -/

/-- A step of `peer_recv_pdu`, `replay` for the replay of a recorded session, `sharing` for the PDUs
of the activation that can be read. -/
inductive RecvStep (replay : Prop) (sharing : Event → Prop) (p : Peer) : Peer → Prop
  | quiet {q : Peer} (h : Quiet p q) : RecvStep replay sharing p q
  | deactivate (hstate : p.state = .active) : RecvStep replay sharing p p.deactivate
  | demand (hstate : p.state = .capabilitiesExchangeDemandActive) :
      RecvStep replay sharing p p.demand
  | inputPdu {e : Event} (he : e = .inputPdu ∨ e = .fastPathPdu) :
      RecvStep replay sharing p (p.emit e)
  | input (hpdu : Happened .inputPdu p.log ∨ Happened .fastPathPdu p.log) (call : InputCall) :
      RecvStep replay sharing p (p.emit (.input call))
  | flag {e : Event} {flag : ℕ} (hsharing : sharing e) (hpdu : FlagPdu p e flag) :
      RecvStep replay sharing p ((p.emit e).setFlag flag)
  | listFonts (hsharing : sharing .fontList) : RecvStep replay sharing p p.listFonts
  | activate (hstate : p.state = .finalizationClientFontMap) :
      RecvStep replay sharing p (p.enter .active)
  | replayed (hsharing : sharing .confirmActive) (hreplay : replay) :
      RecvStep replay sharing p (p.setFlag Finalize.deactivateReactivate)
  | confirm (hsharing : sharing .confirmActive)
      (hstate : p.state = .capabilitiesExchangeConfirmActive ∨ replay) :
      RecvStep replay sharing p p.confirm
  | cooperate (hstate : p.state = .finalizationClientSync) :
      RecvStep replay sharing p (p.enter .finalizationClientCooperate)
  | confirmed (hstate : p.state = .finalizationClientCooperate) :
      RecvStep replay sharing p (p.resetFlags.enter .finalizationSync)
  | multitransport :
      RecvStep replay sharing p
        ((p.emit .multitransportResponse).enter .capabilitiesExchangeDemandActive)
  | license {q : Peer} (hpdu : LicensePdu p q) : RecvStep replay sharing p q
  | issue (hlicense : p.license = .platformChallenge) :
      RecvStep replay sharing p ((p.emit .licenseIssued).setLicense .completed)
  | abort : RecvStep replay sharing p (p.setLicense .aborted)

/-- Steps of `peer_recv_pdu`. -/
def RecvSteps (replay : Prop) (sharing : Event → Prop) : Peer → Peer → Prop :=
  Relation.ReflTransGen (RecvStep replay sharing)

variable {rc : StateRun} {I : Peer → Prop} {env : Env}

section RecvSteps

variable {replay : Prop} {sharing : Event → Prop} {p q r : Peer}

theorem RecvSteps.of_quiet (h : Quiet p q) : RecvSteps replay sharing p q := .single (.quiet h)

section

variable (h : RecvSteps replay sharing p q)
include h

theorem RecvSteps.step (h' : RecvStep replay sharing q r) : RecvSteps replay sharing p r :=
  Relation.ReflTransGen.tail h h'

theorem RecvSteps.quiet (h' : Quiet q r) : RecvSteps replay sharing p r := h.step (.quiet h')

theorem RecvSteps.trans (h' : RecvSteps replay sharing q r) : RecvSteps replay sharing p r :=
  Relation.ReflTransGen.trans h h'

end

theorem Quiet.suffix (h : Quiet p q) : p.log <:+ q.log := h.2 ▸ suffix_rfl

theorem RecvStep.suffix (h : RecvStep replay sharing p q) : p.log <:+ q.log := by
  have hone (entry : Event × Rdp) : p.log <:+ entry :: p.log := suffix_cons _ _
  have htwo (first second : Event × Rdp) : p.log <:+ second :: first :: p.log :=
    (suffix_cons _ _).trans (suffix_cons _ _)
  cases h with
  | quiet h => exact h.suffix
  | deactivate _ | demand _ | listFonts _ | confirm _ _ | multitransport => exact htwo _ _
  | inputPdu _ | input _ _ | flag _ _ | activate _ | cooperate _ | confirmed _
      | issue _ => exact hone _
  | replayed _ _ | abort => exact suffix_rfl
  | license hpdu =>
  cases hpdu with
  | challenge _ => exact suffix_rfl
  | alert _ _ => exact hone _

theorem RecvSteps.suffix (h : RecvSteps replay sharing p q) : p.log <:+ q.log := by
  induction h with
  | refl => exact suffix_rfl
  | tail _ hstep ih => exact ih.trans hstep.suffix

theorem Reactivated.steps (h : Reactivated p q) (hstate : p.state = .active) :
    RecvSteps replay sharing p q := by
  cases h with
  | refused h => exact .of_quiet h
  | deactivated h h' =>
    exact ((RecvSteps.of_quiet h).step (.deactivate (h.state_eq.trans hstate))).quiet h'
  | demanded h h' =>
  exact (((RecvSteps.of_quiet h).step (.deactivate (h.state_eq.trans hstate))).quiet h').step
    (.demand h'.state_eq)

theorem Acts.steps (h : Acts inputs p q)
    (hpdu : inputs → Happened .inputPdu p.log ∨ Happened .fastPathPdu p.log) :
    RecvSteps replay sharing p q := by
  induction h with
  | refl => exact .refl
  | @tail a b _ hstep ih =>
  cases hstep with
  | quiet hquiet => exact ih.quiet hquiet
  | reactivate hactive hre => exact ih.trans (hre.steps hactive)
  | input hin call =>
  have hpdu : Happened .inputPdu a.log ∨ Happened .fastPathPdu a.log :=
    (hpdu hin).imp (·.of_suffix ih.suffix) (·.of_suffix ih.suffix)
  exact ih.step (.input hpdu call)

theorem Confirmable.steps (h : Confirmable replay p a) (hsharing : sharing .confirmActive) :
    RecvSteps replay sharing p a.confirm := by
  cases h with
  | expected h hstate => exact (RecvSteps.of_quiet h).step (.confirm hsharing (.inl hstate))
  | replayed hreplay h h' =>
  exact (((RecvSteps.of_quiet h).step (.replayed hsharing hreplay)).quiet h').step
    (.confirm hsharing (.inr hreplay))

/-- **`peer_recv_pdu` takes these steps only.** -/
theorem Received.steps (h : Received replay sharing p rc q) : RecvSteps replay sharing p q := by
  cases h with
  | acts h _ => exact h.steps False.elim
  | @input _ a _ e h he h' _ =>
    have hpdu : Happened .inputPdu (a.emit e).log ∨ Happened .fastPathPdu (a.emit e).log := by
      rcases he with rfl | rfl
      · exact .inl happened_cons_self
      · exact .inr happened_cons_self
    exact ((RecvSteps.of_quiet h).step (.inputPdu he)).trans (h'.steps fun _ => hpdu)
  | flag hs h hpdu h' _ => exact ((RecvSteps.of_quiet h).step (.flag hs hpdu)).quiet h'
  | fontMap hs h h' => exact ((RecvSteps.of_quiet h).step (.listFonts hs)).quiet h'
  | fontList hs h h' hactive _ =>
    exact ((((RecvSteps.of_quiet h).step (.listFonts hs)).quiet h').step
      (.activate h'.state_eq)).quiet hactive
  | replayed hs hreplay h h' => exact ((RecvSteps.of_quiet h).step (.replayed hs hreplay)).quiet h'
  | confirmSync hs h h' => exact (h.steps hs).quiet h'
  | confirmCooperate hs h h' hcooperate =>
    exact (((h.steps hs).quiet h').step (.cooperate h'.state_eq)).quiet hcooperate
  | confirmed hs h h' hcooperate hsync _ =>
    exact (((((h.steps hs).quiet h').step (.cooperate h'.state_eq)).quiet hcooperate).step
      (.confirmed hcooperate.state_eq)).quiet hsync
  | multitransport h h' _ => exact ((RecvSteps.of_quiet h).step .multitransport).quiet h'
  | license h hpdu h' _ => exact ((RecvSteps.of_quiet h).step (.license hpdu)).quiet h'
  | issue h hchallenge h' _ => exact ((RecvSteps.of_quiet h).step (.issue hchallenge)).quiet h'
  | aborted h hpdu h' haborted =>
  rcases hpdu with rfl | hpdu
  · exact (((RecvSteps.of_quiet h).quiet h').step .abort).quiet haborted
  · exact ((((RecvSteps.of_quiet h).step (.license hpdu)).quiet h').step .abort).quiet haborted

theorem RecvSteps.invariant (hstep : ∀ a b, RecvStep replay sharing a b → I a → I b)
    (h : RecvSteps replay sharing p q) (hp : I p) : I q := by
  induction h with
  | refl => exact hp
  | tail _ hlast ih => exact hstep _ _ hlast ih

/-- What every step and the entry of the status keep is kept by `peer_recv_pdu`. -/
theorem Recv.invariant
    (hstep : ∀ a b, RecvStep (env.transportDumpReplay = true) (Holds env p) a b → I a → I b)
    (hrecvPdu : ∀ a, I a → I (a.emit (.recvPdu rc))) (h : Recv env p rc q) (hp : I p) : I q := by
  obtain ⟨a, hreceived, rfl⟩ := h
  exact hrecvPdu a (hreceived.steps.invariant hstep hp)

theorem Recv.suffix (h : Recv env p rc q) : p.log <:+ q.log := by
  obtain ⟨a, hreceived, rfl⟩ := h
  exact hreceived.steps.suffix.trans (suffix_cons _ _)

theorem tells_invariant (hacts : ∀ a b, Acts False a b → I a → I b)
    (hpostConnect : ∀ a, I a → I (a.emit .postConnect))
    (hactivate : ∀ a, I a → I (a.emit .activate))
    (h : Relation.ReflTransGen Tell p q) (hp : I p) : I q := by
  induction h with
  | refl => exact hp
  | tail _ htell ih =>
  cases htell with
  | acts h => exact hacts _ _ h ih
  | postConnect => exact hpostConnect _ ih
  | activate => exact hactivate _ ih

end RecvSteps

/-! ## Runs -/

/-- **The rule for runs**: what the steps of callbacks and the moves of the state machine keep holds
in every run. -/
theorem Reaches.invariant (hstart : ∀ settings, I (Peer.new settings))
    (hquiet : ∀ p q, Quiet p q → I p → I q) (hacts : ∀ p q, Acts False p q → I p → I q)
    (hmoves : ∀ p rc q, Moves env p rc q → I p → I q) (h : Reaches env p rc) : I p := by
  have hiterate (p : Peer) (hp : I p) : I (iterate env p).2 := by
    obtain ⟨a, ha, heq | hmove⟩ := iterate_moves env p
    · rw [heq]
      exact hacts p a ha hp
    · exact hmoves a _ _ hmove (hacts p a ha hp)
  induction h with
  | start settings => exact hstart settings
  | @receive p rc buffer _ _ ih => exact hiterate _ (hquiet p _ (.of_eq rfl rfl) ih)
  | @again p rc _ _ ih =>
    apply hiterate
    unfold rerun
    split
    · exact hquiet p _ (.of_eq rfl rfl) ih
    · exact ih
  | @reactivate p rc _ _ hactive ih =>
    exact hacts _ _ (.single (.reactivate hactive (rdpServerReactivate_reactivated env p))) ih

/-! ### Runs for given buffers -/

/-- The buffers of a client, one after the other, up to the first failure. -/
def peerRecvAll (env : Env) (fuel : ℕ) :
    StateRun → Peer → List (List UInt8) → Option (StateRun × Peer)
  | rc, p, [] => some (rc, p)
  | rc, p, buffer :: buffers =>
      if rc.isFailed then none
      else do
        let (rc, p) ← peerRecvCallback env fuel (p.receive buffer)
        peerRecvAll env fuel rc p buffers

theorem Reaches.callback (h : Reaches env (iterate env p).2 (iterate env p).1)
    (hcallback : peerRecvCallback env fuel p = some (rc, q)) :
    Reaches env q rc ∧ rc.isContinue = false := by
  induction fuel generalizing p with
  | zero => cases hcallback
  | succ fuel ih =>
  rw [peerRecvCallback] at hcallback
  by_cases hcontinue : (iterate env p).1.isContinue = true
  · simp only [if_pos hcontinue] at hcallback
    exact ih (h.again hcontinue) hcallback
  simp only [if_neg hcontinue, Option.some.injEq] at hcallback
  cases hcallback
  exact ⟨h, by simpa using hcontinue⟩

variable {buffers : List (List UInt8)}

/-- What the buffers of a client lead to is reached in a run. -/
theorem Reaches.all (h : Reaches env p rc) (hidle : rc.isContinue = false)
    (hall : peerRecvAll env fuel rc p buffers = some (rc', q)) : Reaches env q rc' := by
  induction buffers generalizing p rc with
  | nil =>
    cases hall
    exact h
  | cons buffer buffers ih =>
  rw [peerRecvAll] at hall
  by_cases hfailed : rc.isFailed = true
  · simp [if_pos hfailed] at hall
  simp only [if_neg hfailed] at hall
  obtain ⟨⟨rc1, p1⟩, hcallback, hrest⟩ := Option.bind_eq_some_iff.mp hall
  have hfirst := h.receive buffer ⟨by simpa using hfailed, hidle⟩
  obtain ⟨hreaches, hidle⟩ := hfirst.callback hcallback
  exact ih hreaches hidle hrest

/-! ### A plain client and an application that agrees -/

/-- An application that agrees to everything, with or without the need of a licence. -/
def Env.agreeing (serverLicenseRequired : Bool) : Env where
  transportDumpReplay := false
  vmConnectMode := false
  serverLicenseRequired := serverLicenseRequired
  virtualChannelRead := false
  answer _ _ rdp := ⟨true, rdp.settings, false⟩
  autoDetectBegin _ _ := .complete
  autoDetectProgress _ _ := .complete
  decrypt _ _ length _ := pure length
  negoReadRequest _ _ _ := some (protocolSsl, [])
  recvConnectInitial _ _ _ := some (⟨[], 1004, 1005⟩, [])
  establishKeys _ _ _ := true
  readInfoPacket _ _ _ := some ((), [])
  autodetectBody _ _ _ _ := some ((), [])
  licenseBody _ _ _ _ := some ((), [])
  recvConfirmActive _ _ _ _ := some ((), [])

/-- A server for TLS, without auto-detection and multitransport. -/
def Settings.tls : Settings where
  rdstlsSecurity := false
  nlaSecurity := false
  tlsSecurity := true
  rdpSecurity := false
  useRdpSecurityLayer := false
  encryptionMethodFips := false
  supportSkipChannelJoin := true
  networkAutoDetect := false
  supportMultitransport := false
  multitransportFlags := 0
  supportMonitorLayoutPdu := false
  monitorCount := 1
  bitmapCachePersistEnabled := false
  refreshRect := false
  suppressOutput := false
  hasExtendedMouseEvent := false
  hasRelativeMouseEvent := false
  hasQoeEvent := false

namespace Client

/-- Data on a channel, by the lower byte of its id. -/
def sendData (channel : UInt8) (data : List UInt8) : List UInt8 :=
  [3, 0, 0, .ofNat (14 + data.length), 2, 0xF0, 0x80, 0x64, 0, 7, 3, channel, 0x70,
    .ofNat data.length] ++ data

/-- The buffers up to the client info: a connection request for TLS, Connect Initial, Erect Domain,
Attach User and the client info.  The contents of the first two and the last are read by the
outside. -/
def connect : List (List UInt8) :=
  [[3, 0, 0, 19, 14, 0xE0, 0, 0, 0, 0, 0, 1, 0, 8, 0, 1, 0, 0, 0],
    [3, 0, 0, 9, 2, 0xF0, 0x80, 0x7F, 0x65],
    [3, 0, 0, 12, 2, 0xF0, 0x80, 0x04, 1, 0, 1, 0],
    [3, 0, 0, 8, 2, 0xF0, 0x80, 0x28],
    sendData 0xEB [0x40, 0, 0, 0]]

/-- Confirm Active; the outside reads its body. -/
def confirmActive : List UInt8 := sendData 0xEB [6, 0, 0x13, 0, 0, 0]

def fastPathKey : List UInt8 := [4, 4, 0, 0x1E]

end Client

/-- A run of the plain client with an application that agrees. -/
def plainRun (serverLicenseRequired : Bool) (buffers : List (List UInt8)) :
    Option (StateRun × Peer) :=
  peerRecvAll (.agreeing serverLicenseRequired) 16 .success (Peer.new .tls)
    (Client.connect ++ buffers)

theorem plainRun_reaches (h : plainRun serverLicenseRequired buffers = some (rc, p)) :
    Reaches (.agreeing serverLicenseRequired) p rc := (Reaches.start .tls).all rfl h

end WBFreeRDP.Server

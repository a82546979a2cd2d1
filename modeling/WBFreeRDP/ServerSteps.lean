/-
# The handlers of a received PDU

Each handler below `peer_recv_pdu` does one of the things in `Received`.
-/
import WBFreeRDP.ServerRelations

namespace WBFreeRDP.Server

open Program

/-! ## Handlers -/

theorem failed_ne_continue : StateRun.failed ≠ .continue := by decide

theorem success_ne_continue : StateRun.success ≠ .continue := by decide

/-- The status of a handler, `status` for its results. -/
def statusOf {α : Type} (status : α → StateRun) : Except Unit α → StateRun
  | .ok a => status a
  | .error _ => .failed

/-- Whatever the peer, the handler `f` does one of the things in `Received`. -/
def Receives (replay : Prop) (sharing : Event → Prop) {α : Type} (status : α → StateRun)
    (f : Serve α) : Prop :=
  ∀ p, f.Gives p fun r q => Received replay sharing p (statusOf status r) q

variable {c : Prop}

section Receives

variable {replay : Prop} {sharing : Event → Prop} {α β : Type}

/-- Quiet steps may go before. -/
theorem Receives.bind {f : Serve α} (hf : Within Quiet f)
    (hg : ∀ a, Receives replay sharing status (g a)) :
    Receives replay sharing status (f >>= g) := by
  intro p
  apply hf.gives_bind
  · exact fun _ q h => .acts (.of_quiet h) failed_ne_continue
  · exact fun a t h => (hg a t).mono fun _ _ => .of_quiet_left h

theorem Receives.ite [Decidable c] (hf : c → Receives replay sharing status f)
    (hg : ¬c → Receives replay sharing status g) :
    Receives replay sharing status (if c then f else g) := by
  by_cases h : c
  · rw [if_pos h]
    exact hf h
  · rw [if_neg h]
    exact hg h

/-- Quiet steps may follow. -/
theorem Receives.check (hf : Receives replay sharing id f) {g : StateRun → Serve Unit}
    (hg : ∀ rc, Within Quiet (g rc)) :
    Receives replay sharing id (do let rc ← f; g rc; return rc) := by
  intro p
  apply gives_bind
  apply (hf p).mono
  intro r q hrec
  cases r with
  | ok rc =>
    apply (hg rc).gives_bind
    · exact fun _ t h => hrec.of_quiet_right h (.inr rfl)
    · exact fun _ t h => hrec.of_quiet_right h (.inl rfl)
  | error u => exact hrec

theorem Receives.return (hf : Receives replay sharing (fun _ => rc) f) :
    Receives replay sharing id (do f; return rc) := by
  intro p
  apply gives_bind
  apply (hf p).mono
  intro r q hrec
  cases r with
  | ok u => exact hrec
  | error u => exact hrec

theorem receives_fail : Receives replay sharing status fail :=
  fun _ => .acts .refl failed_ne_continue

/-- Callbacks and answers alone are received. -/
theorem receives_of_acts {f : Serve β} (hf : Within (Acts False) f)
    (hstatus : ∀ b, status b ≠ .continue) : Receives replay sharing status f := by
  intro p
  apply (hf p).mono
  intro r q h
  cases r with
  | ok b => exact .acts h (hstatus b)
  | error u => exact .acts h failed_ne_continue

end Receives

/-! ### Input -/

section Input

variable {replay : Prop} {sharing : Event → Prop} (env : Env)

theorem acts_callInput (call) : Within (Acts True) (callInput env call) := by
  apply within_bind (within_update fun p => .single (.input trivial call))
  exact fun _ => acts_requireCallback env _

theorem acts_callAnnounced (announced) : Within (Acts True) (callAnnounced env announced call) := by
  apply within_bind within_observe
  intro _
  apply acts_bind quiet_ensure
  exact fun _ => acts_callInput env call

theorem acts_times (hf : Within (Acts True) f) (n) : Within (Acts True) (times f n) := by
  induction n with
  | zero => exact within_pure ()
  | succ n ih => exact within_bind hf fun _ => ih

theorem acts_inputRecvEvent : Within (Acts True) (inputRecvEvent env) := by
  apply acts_bind quiet_parse
  intro messageType
  split
  iterate 4 exact acts_bind quiet_parse fun _ => acts_callInput env _
  iterate 2 exact acts_bind quiet_parse fun _ => acts_callAnnounced env _
  · exact within_update fun p => .of_quiet (.of_eq rfl rfl)

theorem acts_fastpathRecvInputEvent : Within (Acts True) (fastpathRecvInputEvent env) := by
  apply acts_bind quiet_parse
  intro eventHeader
  split
  iterate 2 exact acts_bind quiet_parse fun _ => acts_callInput env _
  · exact acts_bind quiet_parse fun _ => acts_callAnnounced env _
  · exact acts_callInput env _
  · exact acts_bind quiet_parse fun _ => acts_callInput env _
  iterate 2 exact acts_bind quiet_parse fun _ => acts_callAnnounced env _
  · exact within_pure ()

/-- Input events are received one after the other. -/
theorem receives_times (he : e = .inputPdu ∨ e = .fastPathPdu) (hf : Within (Acts True) f) (n) :
    Receives replay sharing (fun _ => .success) (do emit e; times f n) := by
  intro p
  apply gives_update_bind
  apply (acts_times hf n _).mono
  intro r q h
  cases r with
  | ok u => exact .input (.refl p) he h success_ne_continue
  | error u => exact .input (.refl p) he h failed_ne_continue

theorem receives_inputRecv : Receives replay sharing (fun _ => .success) (inputRecv env) := by
  apply Receives.bind quiet_parse
  exact fun n => receives_times (.inl rfl) (acts_inputRecvEvent env) n

theorem receives_fastpathRecvInputs (numberEvents) :
    Receives replay sharing (fun _ => .success) (fastpathRecvInputs env numberEvents) := by
  have hcount : Within Quiet (fastpathNumberEvents numberEvents) :=
    within_ite (fun _ => quiet_parse) fun _ => within_pure _
  apply Receives.bind hcount
  exact fun count => receives_times (.inr rfl) (acts_fastpathRecvInputEvent env) count

theorem receives_peerRecvFastpathPdu : Receives replay sharing id (peerRecvFastpathPdu env) := by
  apply Receives.bind within_observe
  intro position
  apply Receives.bind quiet_parse
  rintro ⟨encryptionFlags, numberEvents, length⟩
  apply Receives.bind quiet_ensure
  intro _
  apply Receives.bind quiet_parse
  intro _
  have hdecrypt : Within Quiet (fastpathDecrypt env encryptionFlags length) := by
    apply within_ite
    · exact fun _ => within_bind quiet_external fun _ => within_pure ()
    · exact fun _ => within_pure ()
  apply Receives.bind hdecrypt
  exact fun _ => (receives_fastpathRecvInputs env numberEvents).return

end Input

/-! ### Activation -/

variable {p a : Peer}

section Activation

variable {replay : Prop} {sharing : Event → Prop} (env : Env)

/-- A parser fails and leaves the peer, or takes the front of the stream. -/
theorem gives_parse_bind {α β : Type} {f} {g : α → Serve β} {Q} (hfail : Q (.error ()) p)
    (h : ∀ a rest, f p.stream = some (a, rest) → (g a).Gives { p with stream := rest } Q) :
    (parse f >>= g).Gives p Q := by
  apply gives_bind
  unfold Gives parse
  cases hread : f p.stream with
  | none => exact hfail
  | some result => exact h result.1 result.2 hread

variable {β : Type}

/-- A check fails and leaves the peer, or holds from then on. -/
theorem gives_ensure_bind [Decidable c]
    {Q : Except Unit β → Peer → Prop} (hfail : Q (.error ()) p) (h : c → (f ()).Gives p Q) :
    (ensure c >>= f).Gives p Q := by
  by_cases hc : c
  · simp only [ensure, if_pos hc]
    exact h hc
  · simp only [ensure, if_neg hc]
    exact hfail

theorem gives_ensure_bind' [Decidable c] (hc : c) (h : (f ()).Gives p Q) :
    (ensure c >>= f).Gives p Q := by
  simp only [ensure, if_pos hc]
  exact h

theorem ensure_bind_run [Decidable c] (hc : c) (f : Unit → Serve β) (p) :
    (ensure c >>= f) p = f () p := by
  simp only [ensure, if_pos hc]
  rfl

/-- The body of a data PDU of a type is the PDU of the activation that an event stands for, and its
handler accepts it. -/
inductive CarriesBody (p : Peer) (type : ℕ) : Event → Prop
  | synchronize {rest : List UInt8} (htype : type = dataPduTypeSynchronize)
      (hbody : rdpRecvSyncPdu p.stream = some ((), rest)) : CarriesBody p type .synchronize
  | cooperate {pdu : ControlPdu} {rest : List UInt8} (htype : type = dataPduTypeControl)
      (hbody : rdpRecvControlPdu p.stream = some (pdu, rest))
      (haction : pdu.action = ctrlActionCooperate)
      (hflag : p.isFlagSet Finalize.csSynchronizePdu = true)
      (hids : pdu.grantId = 0 ∧ pdu.controlId = 0) : CarriesBody p type .cooperate
  | request {pdu : ControlPdu} {rest : List UInt8} (htype : type = dataPduTypeControl)
      (hbody : rdpRecvControlPdu p.stream = some (pdu, rest))
      (haction : pdu.action = ctrlActionRequestControl)
      (hflag : p.isFlagSet Finalize.csControlCooperatePdu = true)
      (hids : pdu.grantId = 0 ∧ pdu.controlId = 0) : CarriesBody p type .request
  | persistentKeyList {rest : List UInt8} (htype : type = dataPduTypeBitmapCachePersistentList)
      (hbody : rdpRecvClientPersistentKeyListPdu p.stream = some ((), rest)) :
      CarriesBody p type .persistentKeyList
  | fontList {rest : List UInt8} (htype : type = dataPduTypeFontList)
      (hbody : rdpRecvClientFontListPdu p.stream = some ((), rest)) : CarriesBody p type .fontList

/-- What is left of the buffer is a data PDU of the activation that its handler accepts. -/
def Carries (p : Peer) (e : Event) : Prop :=
  ∃ header rest, rdpReadShareDataHeader p.stream = some (header, rest) ∧
    CarriesBody { p with stream := rest } header.type e

/-- A PDU of the activation sets its flag. -/
theorem received_flag (hsharing : sharing e) (hpdu : FlagPdu p e flag) :
    (do emit e; update (·.setFlag flag) : Serve Unit).Gives { p with stream := rest } fun r q =>
      Received replay sharing p (statusOf (fun _ => .success) r) q := by
  refine .flag hsharing (.of_eq rfl rfl) ?_ (.refl _) success_ne_continue
  cases hpdu with
  | synchronize => exact .synchronize
  | cooperate h => exact .cooperate h
  | request h => exact .request h
  | persistentKeyList => exact .persistentKeyList

theorem received_failed (p) {α : Type} {status : α → StateRun} :
    Received replay sharing p (statusOf status (.error ())) p := .acts .refl failed_ne_continue

theorem rdpRecvClientSynchronizePdu_gives (p) : rdpRecvClientSynchronizePdu.Gives p fun r q =>
      Received replay (CarriesBody p dataPduTypeSynchronize) p
        (statusOf (fun _ => .success) r) q := by
  apply gives_parse_bind (received_failed p)
  exact fun _ rest hbody => received_flag (.synchronize rfl hbody) .synchronize

theorem rdpServerAcceptClientPersistentKeyListPdu_gives (p) :
    rdpServerAcceptClientPersistentKeyListPdu.Gives p fun r q =>
      Received replay (CarriesBody p dataPduTypeBitmapCachePersistentList) p
        (statusOf (fun _ => .success) r) q := by
  apply gives_parse_bind (received_failed p)
  exact fun _ rest hbody => received_flag (.persistentKeyList rfl hbody) .persistentKeyList

theorem rdpServerAcceptClientControlPdu_gives (p) :
    rdpServerAcceptClientControlPdu.Gives p fun r q =>
      Received replay (CarriesBody p dataPduTypeControl) p (statusOf (fun _ => .success) r) q := by
  apply gives_parse_bind (received_failed p)
  intro pdu rest hbody
  have hfail : Received replay (CarriesBody p dataPduTypeControl) p
      (statusOf (fun _ : Unit => .success) (.error ())) { p with stream := rest } :=
    .acts (.of_quiet (.of_eq rfl rfl)) failed_ne_continue
  by_cases hrequest : pdu.action = ctrlActionRequestControl
  · rw [if_pos hrequest]
    apply gives_observe_bind
    apply gives_ensure_bind hfail
    intro hflag
    apply gives_ensure_bind hfail
    exact fun hids => received_flag (.request rfl hbody hrequest hflag hids) (.request hflag)
  rw [if_neg hrequest]
  by_cases hcooperate : pdu.action = ctrlActionCooperate
  · rw [if_pos hcooperate]
    apply gives_observe_bind
    apply gives_ensure_bind hfail
    intro hflag
    apply gives_ensure_bind hfail
    exact fun hids => received_flag (.cooperate rfl hbody hcooperate hflag hids) (.cooperate hflag)
  · rw [if_neg hcooperate]
    exact hfail

theorem rdpServerAcceptClientFontListPdu_gives (p) :
    (rdpServerAcceptClientFontListPdu env).Gives p fun r q =>
      Received replay (CarriesBody p dataPduTypeFontList) p
        (statusOf (fun _ => .continue) r) q := by
  apply gives_parse_bind (received_failed p)
  intro _ rest hbody
  apply gives_update_bind
  apply gives_update_bind
  apply gives_update_bind
  have hsharing : CarriesBody p dataPduTypeFontList .fontList := .fontList rfl hbody
  have hquiet : Quiet p { p with stream := rest } := .of_eq rfl rfl
  apply (quiet_require env _).gives_bind
  · exact fun _ q h => .fontMap hsharing hquiet h
  · exact fun _ q h => .fontList hsharing hquiet h (.refl _) (.inl rfl)

/-- The checks before a Confirm Active. -/
theorem confirmable_gives (p) : (expectConfirmActive env).Gives p fun r q =>
      match r with
      | .ok () => Confirmable (env.transportDumpReplay = true) p q
      | .error () => q = p := by
  apply gives_observe_bind
  by_cases hstate : p.state = .capabilitiesExchangeConfirmActive
  · rw [if_pos hstate]
    exact .expected (.refl p) hstate
  rw [if_neg hstate]
  apply gives_ensure_bind rfl
  exact fun hreplay => .replayed hreplay (.refl p) (.refl _)

theorem Confirmable.of_quiet_right (h : Confirmable replay p a) (hb : Quiet a b) :
    Confirmable replay p b := by
  rcases h with ⟨h, hstate⟩ | ⟨hreplay, h, h'⟩
  · exact .expected (h.trans hb) (hb.state_eq.trans hstate)
  · exact .replayed hreplay h (h'.trans hb)

/-- A Confirm Active may fail after it was accepted. -/
theorem Confirmable.failed (h : Confirmable replay p a) (hsharing : sharing .confirmActive) :
    Received replay sharing p .failed a := by
  rcases h with ⟨h, -⟩ | ⟨hreplay, h, h'⟩
  · exact .acts (.of_quiet h) failed_ne_continue
  · exact .replayed hsharing hreplay h h'

theorem rdpServerSendSync_gives (h : Confirmable replay p a) (hsharing : sharing .confirmActive) :
    (rdpServerSendSync env).Gives (a.emit .confirmActive) fun r q =>
      Received replay sharing p (statusOf (fun _ => .success) r) q := by
  apply gives_update_bind
  apply (quiet_require env _).gives_bind
  · exact fun _ q hq => .confirmSync hsharing h hq
  intro _ b hb
  apply gives_update_bind
  apply (quiet_require env _).gives_bind
  · exact fun _ q hq => .confirmCooperate hsharing h hb hq
  · intro _ c hc
    exact .confirmed hsharing h hb hc (.refl _) success_ne_continue

/-- A Confirm Active is received. -/
theorem receives_rdpServerAcceptConfirmActive (hsharing : sharing .confirmActive) (pduLength) :
    Receives (env.transportDumpReplay = true) sharing (fun _ => .success)
      (rdpServerAcceptConfirmActive env pduLength) := by
  intro p
  apply gives_bind
  apply (confirmable_gives env p).mono
  rintro (u | u) a ha
  · subst ha
    exact .acts .refl failed_ne_continue
  apply quiet_external.gives_bind
  · exact fun _ b hb => (ha.of_quiet_right hb).failed hsharing
  intro _ b hb
  have hpb := ha.of_quiet_right hb
  apply (quiet_require env _).gives_bind
  · exact fun _ c hc => (hpb.of_quiet_right hc).failed hsharing
  intro _ c hc
  apply gives_update_bind
  exact rdpServerSendSync_gives env (hpb.of_quiet_right hc) hsharing

theorem acts_callIf (flag : Peer → Bool) (c) : Within (Acts False)
    (observe flag >>= fun on => if on then callback env c >>= fun _ => pure () else pure ()) :=
  within_bind within_observe fun _ => within_ite
    (fun _ => within_bind (acts_callback env _) fun _ => within_pure ()) fun _ => within_pure ()

theorem acts_updateReadRefreshRect : Within (Acts False) (updateReadRefreshRect env) :=
  acts_bind quiet_parse fun _ => acts_callIf env _ _

theorem acts_updateReadSuppressOutput : Within (Acts False) (updateReadSuppressOutput env) :=
  acts_bind quiet_parse fun _ => acts_callIf env _ _

theorem received_return
    (h : f.Gives p fun r q => Received replay sharing p (statusOf (fun _ => rc) r) q) :
    (do f; return rc : Serve StateRun).Gives p fun r q =>
      Received replay sharing p (statusOf id r) q := by
  apply gives_bind
  apply h.mono
  rintro (u | u) q hq
  · exact hq
  · exact hq

/-- A data PDU is received as the one that it carries. -/
theorem peerRecvDataPdu_gives (p) : (peerRecvDataPdu env).Gives p fun r q =>
    Received replay (Carries p) p (statusOf id r) q := by
  apply gives_parse_bind (received_failed p)
  intro header rest hheader
  refine Gives.mono (Q := fun r q => Received replay
    (CarriesBody { p with stream := rest } header.type) { p with stream := rest }
      (statusOf id r) q) ?_ ?_
  · generalize { p with stream := rest } = a
    -- one case for each type of data PDU
    by_cases hsynchronize : header.type = dataPduTypeSynchronize
    · rw [hsynchronize]
      exact received_return (rdpRecvClientSynchronizePdu_gives a)
    rw [if_neg hsynchronize]
    by_cases hcontrol : header.type = dataPduTypeControl
    · rw [hcontrol]
      exact received_return (rdpServerAcceptClientControlPdu_gives a)
    rw [if_neg hcontrol]
    by_cases hinput : header.type = dataPduTypeInput
    · rw [if_pos hinput]
      exact received_return (receives_inputRecv env a)
    rw [if_neg hinput]
    by_cases hkeys : header.type = dataPduTypeBitmapCachePersistentList
    · rw [hkeys]
      exact received_return (rdpServerAcceptClientPersistentKeyListPdu_gives a)
    rw [if_neg hkeys]
    by_cases hfonts : header.type = dataPduTypeFontList
    · rw [hfonts]
      exact received_return (rdpServerAcceptClientFontListPdu_gives env a)
    rw [if_neg hfonts]
    by_cases hshutdown : header.type = dataPduTypeShutdownRequest
    · rw [if_pos hshutdown]
      refine Receives.bind (quiet_ask env _) (fun _ p => ?_) a
      exact .acts .refl (show StateRun.quitSession ≠ .continue from by decide)
    rw [if_neg hshutdown]
    by_cases hacknowledge : header.type = dataPduTypeFrameAcknowledge
    · rw [if_pos hacknowledge]
      refine Receives.bind quiet_parse (fun _ => ?_) a
      exact (receives_of_acts (acts_requireCallback env _) fun _ => success_ne_continue).return
    rw [if_neg hacknowledge]
    by_cases hrefresh : header.type = dataPduTypeRefreshRect
    · rw [if_pos hrefresh]
      exact (receives_of_acts (acts_updateReadRefreshRect env) fun _ => success_ne_continue).return
        a
    rw [if_neg hrefresh]
    by_cases hsuppress : header.type = dataPduTypeSuppressOutput
    · rw [if_pos hsuppress]
      exact (receives_of_acts (acts_updateReadSuppressOutput env) fun _ =>
        success_ne_continue).return a
    rw [if_neg hsuppress]
    exact .acts .refl success_ne_continue
  · intro r q h
    have hcarries : Received replay (Carries p) { p with stream := rest } (statusOf id r) q :=
      h.mono fun e he => ⟨header, rest, hheader, he⟩
    have hquiet : Quiet p { p with stream := rest } := .of_eq rfl rfl
    exact hcarries.of_quiet_left hquiet

end Activation

/-! ### The message channel -/

section MessageChannel

variable {replay : Prop} {sharing : Event → Prop} (env : Env)

theorem quiet_setAutodetect : Within Quiet (setAutodetect state) :=
  within_update fun _ => .of_eq rfl rfl

theorem acts_autodetectMessage (received) :
    Within (Acts False) (autodetectMessage env received messageType) := by
  apply within_bind (acts_requireCallback env _)
  intro _
  apply acts_bind quiet_external
  exact fun _ => acts_requireCallback env _

/-- The end of an auto-detection is received. -/
theorem receives_autodetectFinish (success)
    (hbody : Within (Acts False) body) :
    Receives replay sharing id (autodetectFinish success body) := by
  intro p
  apply gives_attempt_bind
  apply (hbody p).mono
  intro r q hq
  cases r with
  | ok u =>
    apply gives_update_bind
    exact .acts (hq.trans (.of_quiet (.of_eq rfl rfl))) success_ne_continue
  | error u =>
  apply gives_update_bind
  exact .acts (hq.trans (.of_quiet (.of_eq rfl rfl))) failed_ne_continue

theorem receives_autodetectRecvRequestPacket :
    Receives replay sharing id (autodetectRecvRequestPacket env) := by
  apply Receives.bind quiet_parse
  rintro ⟨headerTypeId, requestType⟩
  apply receives_autodetectFinish
  apply within_bind within_observe
  intro _
  apply acts_bind quiet_ensure
  intro _
  apply acts_bind quiet_ensure
  exact fun _ => acts_autodetectMessage env _

theorem receives_autodetectRecvResponsePacket :
    Receives replay sharing id (autodetectRecvResponsePacket env) := by
  apply Receives.bind (within_attempt quiet_parse)
  rintro (u | ⟨headerTypeId, responseType⟩)
  · apply Receives.bind quiet_setAutodetect
    exact fun _ => receives_fail
  apply Receives.bind within_observe
  intro _
  apply Receives.bind quiet_ensure
  intro _
  apply receives_autodetectFinish
  apply acts_bind quiet_ensure
  exact fun _ => acts_autodetectMessage env _

theorem receives_rdpRecvHeartbeatPacket :
    Receives replay sharing id (rdpRecvHeartbeatPacket env) := by
  apply Receives.bind quiet_parse
  intro _
  exact (receives_of_acts (acts_requireCallback env _) fun _ => success_ne_continue).return

theorem receives_multitransportRecvResponse :
    Receives replay sharing id multitransportRecvResponse := by
  apply Receives.bind quiet_parse
  exact fun _ p => .multitransport (.refl p) (.refl _) (.inl rfl)

/-- A licence message fails, before or after it was accepted. -/
def LicenseFails (p q : Peer) : Prop := ∃ a b, Quiet p a ∧ (b = a ∨ LicensePdu a b) ∧ Quiet b q

theorem LicenseFails.of_quiet (h : Quiet p q) : LicenseFails p q :=
  ⟨p, p, .refl p, .inl rfl, h⟩

/-- What a licence message does, with a failure still to be handled. -/
def LicenseReceived (replay : Prop) (sharing : Event → Prop) (p : Peer) (r : Except Unit StateRun)
    (q : Peer) : Prop :=
  match r with
  | .ok rc => Received replay sharing p rc q
  | .error () => LicenseFails p q

/-- A licence message is refused in another licence state. -/
theorem licenseEnsureState_bind {Q : Except Unit β → Peer → Prop} (hfail : Q (.error ()) p)
    (h : p.license = state → (f ()).Gives p Q) : (licenseEnsureState state >>= f).Gives p Q := by
  apply gives_bind
  apply gives_observe_bind
  by_cases hstate : p.license = state
  · simp only [ensure, if_pos hstate]
    exact h hstate
  · simp only [ensure, if_neg hstate]
    exact hfail

/-- A request for a licence or an offered licence is answered with a challenge. -/
theorem challenge_gives (h : Quiet p a) (hlicense : p.license = .request) :
    (do update (·.setLicense .platformChallenge); parse Parser.consumed; return .success :
      Serve StateRun).Gives a (LicenseReceived replay sharing p) := by
  have hpdu : LicensePdu a (a.setLicense .platformChallenge) :=
    .challenge (h.license_eq.trans hlicense)
  apply gives_update_bind
  apply quiet_parse.gives_bind
  · exact fun _ q hq => ⟨a, _, h, .inr hpdu, hq⟩
  · exact fun _ q hq => .license h hpdu hq success_ne_continue

/-- A licence message that is read in its state, and answered. -/
theorem licenseMessage_gives
    (h : ∀ a, Quiet p a → p.license = state → f.Gives a (LicenseReceived replay sharing p)) :
    (do licenseEnsureState state; external body; require env call; f).Gives p
      (LicenseReceived replay sharing p) := by
  have hfail : ∀ q, Quiet p q → LicenseReceived replay sharing p (.error ()) q :=
    fun q hq => .of_quiet hq
  apply licenseEnsureState_bind (hfail p (.refl p))
  intro hlicense
  apply quiet_external.gives_bind
  · exact fun _ q hq => hfail q hq
  intro _ a ha
  apply (quiet_require env _).gives_bind
  · exact fun _ q hq => hfail q (ha.trans hq)
  exact fun _ b hb => h b (ha.trans hb) hlicense

/-- Every kind of licence message. -/
theorem licenseServerRecvMessage_gives (msgType p) :
    (licenseServerRecvMessage env msgType).Gives p (LicenseReceived replay sharing p) := by
  have hfail : ∀ q, Quiet p q → LicenseReceived replay sharing p (.error ()) q :=
    fun q hq => .of_quiet hq
  unfold licenseServerRecvMessage
  by_cases hnew : msgType = 0x13
  · rw [if_pos hnew]
    refine licenseMessage_gives env fun a ha hlicense => ?_
    apply (quiet_require env _).gives_bind
    · exact fun _ q hq => hfail q (ha.trans hq)
    exact fun _ b hb => challenge_gives (ha.trans hb) hlicense
  rw [if_neg hnew]
  by_cases hinfo : msgType = 0x12
  · rw [if_pos hinfo]
    exact licenseMessage_gives env fun a ha hlicense => challenge_gives ha hlicense
  rw [if_neg hinfo]
  by_cases hresponse : msgType = 0x15
  · rw [if_pos hresponse]
    refine licenseMessage_gives env fun a ha hlicense => ?_
    exact .issue ha (ha.license_eq.trans hlicense) (.refl _) (.inl rfl)
  rw [if_neg hresponse]
  by_cases halert : msgType = 0xFF
  swap
  · rw [if_neg halert]
    exact hfail p (.refl p)
  rw [if_pos halert]
  apply gives_bind
  apply gives_observe_bind
  apply quiet_parse.gives_bind
  · exact fun _ q hq => hfail q hq
  intro alert a ha
  apply gives_update_bind
  have hb : Quiet p { a with errorInfoType := alert.blobType } := ha.trans (.of_eq rfl rfl)
  apply gives_update_bind
  apply gives_update
  apply quiet_parse.gives_bind
  · exact fun _ q hq => ⟨_, _, hb, .inr (.alert _ _), hq⟩
  · exact fun _ q hq => .license hb (.alert _ _) hq success_ne_continue

/-- A licence message that fails is answered and aborts. -/
theorem licenseAbort_gives (h : LicenseFails p q) (flags) :
    (licenseAbort env flags).Gives q fun r t => Received replay sharing p (statusOf id r) t := by
  obtain ⟨a, b, ha, hpdu, hb⟩ := h
  have htell : Within Quiet (licenseTellClient env flags) :=
    within_ite (fun _ => quiet_ask env _) fun _ => within_pure true
  apply htell.gives_bind
  · intro _ t ht
    rcases hpdu with rfl | hpdu
    · exact .acts (.of_quiet ((ha.trans hb).trans ht)) failed_ne_continue
    · exact .license ha hpdu (hb.trans ht) failed_ne_continue
  · intro _ t ht
    exact .aborted ha hpdu (hb.trans ht) (.refl _)

theorem receives_licenseServerRecv : Receives replay sharing id (licenseServerRecv env) := by
  apply Receives.bind (within_attempt quiet_parse)
  rintro (u | ⟨msgType, flags⟩)
  · intro p
    apply gives_observe_bind
    exact licenseAbort_gives env (.of_quiet (.refl p)) _
  intro p
  apply gives_attempt_bind
  apply (licenseServerRecvMessage_gives env msgType p).mono
  rintro (u | rc) q hq
  · exact licenseAbort_gives env hq flags
  · exact hq

/-- What comes on the message channel is received. -/
theorem receives_rdpRecvMessageChannelPdu (securityFlags) :
    Receives replay sharing id (rdpRecvMessageChannelPdu env securityFlags) := by
  apply Receives.ite
  · exact fun _ => receives_autodetectRecvRequestPacket env
  intro _
  apply Receives.ite
  · exact fun _ => receives_autodetectRecvResponsePacket env
  intro _
  apply Receives.ite
  · exact fun _ => receives_rdpRecvHeartbeatPacket env
  intro _
  apply Receives.ite
  · exact fun _ => receives_fail
  intro _
  apply Receives.ite
  · exact fun _ => receives_multitransportRecvResponse
  intro _
  apply Receives.ite
  · exact fun _ => receives_licenseServerRecv env
  intro _
  apply Receives.ite
  · exact fun _ => receives_licenseServerRecv env
  exact fun _ p => .acts .refl success_ne_continue

theorem receives_rdpHandleMessageChannel (channelId length) :
    Receives replay sharing id (rdpHandleMessageChannel env channelId length) := by
  apply Receives.bind within_observe
  intro mcs
  apply Receives.bind quiet_ensure
  intro _
  apply Receives.bind quiet_ensure
  intro _
  apply Receives.bind quiet_ensure
  intro _
  apply Receives.bind quiet_parse
  intro securityFlags
  apply Receives.bind (quiet_decryptIfEncrypted env _)
  intro _
  apply (receives_rdpRecvMessageChannelPdu env securityFlags).check
  exact fun rc => within_ite (fun _ => quiet_parse) fun _ => within_pure ()

end MessageChannel

/-! ### Packets -/

section Packets

variable {sharing : Event → Prop} (env : Env)

theorem acts_freerdpChannelPeerProcess (channelId) :
    Within (Acts False) (freerdpChannelPeerProcess env channelId) := by
  apply acts_bind quiet_parse
  intro _
  apply within_bind within_observe
  intro known
  apply acts_bind quiet_ensure
  intro _
  apply within_bind (acts_requireCallback env _)
  exact fun _ => within_update fun _ => .of_quiet (.of_eq rfl rfl)

/-- The headers of a packet on the global channel up to the share control header, read in a state in
which share control PDUs are read. -/
def openShareControl : Serve ShareControl := do
  ensure ((← parse Parser.peek) = 3)
  let (length, channelId) ← rdpReadHeader env
  ensure ((← observe (·.disconnect)) = false)
  ensure (¬(← observe (·.state)) ≤ .licensing)
  let _securityFlags ← rdpHandleOptionalRdpDecryption env length
  ensure (channelId = mcsGlobalChannelId)
  parse rdpReadShareControlHeader

theorem quiet_openShareControl : Within Quiet (openShareControl env) := by
  apply within_bind quiet_parse
  intro version
  apply within_bind quiet_ensure
  intro _
  apply within_bind (quiet_rdpReadHeader env)
  rintro ⟨length, channelId⟩
  apply within_bind within_observe
  intro disconnect
  apply within_bind quiet_ensure
  intro _
  apply within_bind within_observe
  intro state
  apply within_bind quiet_ensure
  intro _
  apply within_bind (quiet_rdpHandleOptionalRdpDecryption env length)
  intro securityFlags
  apply within_bind quiet_ensure
  exact fun _ => quiet_parse

/-- The buffer holds a PDU of the activation: a Confirm Active, or a data PDU that its handler
accepts. -/
def Holds (p : Peer) (e : Event) : Prop :=
  ∃ header a, openShareControl env p = (.ok header, a) ∧
  (header.pduType = pduTypeData ∧ Carries a e ∨
      header.pduType = pduTypeConfirmActive ∧ e = .confirmActive)

/-- A share control PDU is received as the one that it holds. -/
theorem peerRecvShareControlPdu_gives
    (hopen : ∀ header a, parse rdpReadShareControlHeader p = (.ok header, a) →
      (header.pduType = pduTypeData → ∀ e, Carries a e → sharing e) ∧
        (header.pduType = pduTypeConfirmActive → sharing .confirmActive)) :
    (peerRecvShareControlPdu env).Gives p fun r q =>
      Received (env.transportDumpReplay = true) sharing p (statusOf id r) q := by
  apply gives_parse_bind (received_failed p)
  intro header rest hheader
  have hparse : parse rdpReadShareControlHeader p = (.ok header, { p with stream := rest }) := by
    unfold parse
    rw [hheader]
  obtain ⟨hdata, hconfirm⟩ := hopen header _ hparse
  have hquiet : Quiet p { p with stream := rest } := .of_eq rfl rfl
  by_cases htype : header.pduType = pduTypeData
  · rw [if_pos htype]
    apply (peerRecvDataPdu_gives env _).mono
    exact fun r q h => (h.mono (hdata htype)).of_quiet_left hquiet
  rw [if_neg htype]
  by_cases htype' : header.pduType = pduTypeConfirmActive
  · rw [if_pos htype']
    apply ((receives_rdpServerAcceptConfirmActive env (hconfirm htype') _).return _).mono
    exact fun r q h => h.of_quiet_left hquiet
  rw [if_neg htype']
  have hflow : Receives (env.transportDumpReplay = true) sharing id
      (if header.pduType = pduTypeFlowResponse ∨ header.pduType = pduTypeFlowStop ∨
          header.pduType = pduTypeFlowTest then do
        parse (Parser.skip header.remaining)
        return .success
      else fail : Serve StateRun) := by
    apply Receives.ite
    · intro _
      apply Receives.bind quiet_parse
      exact fun _ p => .acts .refl success_ne_continue
    · exact fun _ => receives_fail
  apply (hflow _).mono
  exact fun r q h => h.of_quiet_left hquiet

/-- PDUs of the message channel and of the others are received. -/
theorem receives_channels (channelId messageChannelId securityFlags) :
    Receives (env.transportDumpReplay = true) sharing id
      (if 0 < messageChannelId ∧ channelId = messageChannelId then do
        if ← observe (·.settings.useRdpSecurityLayer) then
          rdpRecvMessageChannelPdu env securityFlags
        else
          let flags ← parse (rdpReadSecurityHeader none)
          rdpRecvMessageChannelPdu env flags
      else do
        freerdpChannelPeerProcess env channelId
        parse Parser.consumed
        return .success : Serve StateRun) := by
  apply Receives.ite
  · intro _
    apply Receives.bind within_observe
    intro layer
    apply Receives.ite
    · exact fun _ => receives_rdpRecvMessageChannelPdu env _
    intro _
    apply Receives.bind quiet_parse
    exact fun flags => receives_rdpRecvMessageChannelPdu env flags
  · intro _ p
    apply (acts_freerdpChannelPeerProcess env channelId).gives_bind
    · exact fun _ q hq => .acts hq failed_ne_continue
    intro _ q hq
    apply quiet_parse.gives_bind
    · exact fun _ t ht => .acts (hq.trans (.of_quiet ht)) failed_ne_continue
    · exact fun _ t ht => .acts (hq.trans (.of_quiet ht)) success_ne_continue

/-- **A packet does one of the things in `Received`**, with the PDU of the activation that it
holds. -/
theorem peerRecvPacket_gives (p : Peer) : (peerRecvPacket env).Gives p fun r q =>
    Received (env.transportDumpReplay = true) (Holds env p) p (statusOf id r) q := by
  have hfail {a : Peer} (h : Quiet p a) :
      Received (env.transportDumpReplay = true) (Holds env p) p .failed a :=
    .acts (.of_quiet h) failed_ne_continue
  -- the packet is read along with the headers that `openShareControl` reads
  have hopen : ∀ header a, openShareControl env p = (.ok header, a) →
      (header.pduType = pduTypeData → ∀ e, Carries a e → Holds env p e) ∧
        (header.pduType = pduTypeConfirmActive → Holds env p .confirmActive) := by
    intro header a h
    constructor
    · exact fun htype e he => ⟨header, a, h, .inl ⟨htype, he⟩⟩
    · exact fun htype => ⟨header, a, h, .inr ⟨htype, rfl⟩⟩
  apply quiet_parse.gives_bind_common hopen
  · exact fun _ _ => hfail
  intro version a hpa hopen
  by_cases hversion : version = 3
  swap
  · rw [if_neg hversion]
    apply (receives_peerRecvFastpathPdu env a).mono
    exact fun _ _ h => h.of_quiet_left hpa
  rw [if_pos hversion]
  apply (quiet_rdpReadHeader env).gives_bind_common fun header u h =>
    hopen header u ((ensure_bind_run hversion _ a).trans h)
  · exact fun _ _ h => hfail (hpa.trans h)
  rintro ⟨length, channelId⟩ b hab hopen
  have hpb := hpa.trans hab
  apply gives_observe_bind
  by_cases hdisconnect : b.disconnect = true
  · rw [if_pos hdisconnect]
    exact .acts (.of_quiet hpb) success_ne_continue
  rw [if_neg hdisconnect]
  apply gives_observe_bind
  by_cases hstate : b.state ≤ .licensing
  · rw [if_pos hstate]
    apply (receives_rdpHandleMessageChannel env channelId length b).mono
    exact fun _ _ h => h.of_quiet_left hpb
  rw [if_neg hstate]
  have hconnected : b.disconnect = false := by simpa using hdisconnect
  apply (quiet_rdpHandleOptionalRdpDecryption env length).gives_bind_common fun header u h =>
    hopen header u ((ensure_bind_run hconnected _ b).trans ((ensure_bind_run hstate _ b).trans h))
  · exact fun _ _ h => hfail (hpb.trans h)
  intro securityFlags c hbc hopen
  have hpc := hpb.trans hbc
  apply gives_observe_bind
  by_cases hglobal : channelId = mcsGlobalChannelId
  swap
  · rw [if_neg hglobal]
    apply (receives_channels env channelId c.mcs.messageChannelId securityFlags c).mono
    exact fun _ _ h => h.of_quiet_left hpc
  rw [if_pos hglobal]
  have hopen := fun header u h => hopen header u ((ensure_bind_run hglobal _ c).trans h)
  apply gives_bind
  apply (peerRecvShareControlPdu_gives env hopen).mono
  rintro (u | rc) d hd
  · exact hd.of_quiet_left hpc
  apply quiet_parse.gives_bind
  · exact fun _ t ht => (hd.of_quiet_left hpc).of_quiet_right ht (.inr rfl)
  · exact fun _ t ht => (hd.of_quiet_left hpc).of_quiet_right ht (.inl rfl)

/-- What `peer_recv_pdu` does: what the packet does, then an entry with the status. -/
def Recv (p : Peer) (rc : StateRun) (q : Peer) : Prop :=
  ∃ a, Received (env.transportDumpReplay = true) (Holds env p) p rc a ∧ q = a.emit (.recvPdu rc)

/-- **`peer_recv_pdu` does one of the things in `Received`**, and its status goes to the log. -/
theorem peerRecvPdu_gives (p : Peer) :
    (peerRecvPdu env).Gives p fun r q => Recv env p (StateRun.ofResult r) q := by
  apply gives_attempt_bind
  apply (peerRecvPacket_gives env p).mono
  rintro (u | rc) a ha
  · exact ⟨a, ha, rfl⟩
  · exact ⟨a, ha, rfl⟩

/-- A PDU of the activation is only held behind licensing. -/
theorem Holds.state (h : Holds env p e) : ¬p.state ≤ .licensing := by
  obtain ⟨header, a, hopen, -⟩ := h
  intro hstate
  have hfails : (openShareControl env).Gives p fun r _ => r = .error () := by
    apply quiet_parse.gives_bind
    · exact fun _ _ _ => rfl
    intro version b hb
    apply quiet_ensure.gives_bind
    · exact fun _ _ _ => rfl
    intro _ c hc
    apply (quiet_rdpReadHeader env).gives_bind
    · exact fun _ _ _ => rfl
    rintro ⟨length, channelId⟩ d hd
    apply gives_observe_bind
    apply quiet_ensure.gives_bind
    · exact fun _ _ _ => rfl
    intro _ f hf
    have hquiet : Quiet p f := ((hb.trans hc).trans hd).trans hf
    apply gives_observe_bind
    apply gives_ensure_bind rfl
    intro hlate
    rw [hquiet.state_eq] at hlate
    exact absurd hstate hlate
  rw [Gives, hopen] at hfails
  cases hfails

end Packets

end WBFreeRDP.Server

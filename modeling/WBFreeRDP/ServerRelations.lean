/-
# What one received PDU can do

Every handler below `peer_recv_pdu` changes the progress of the connection in one of a few ways.
-/
import WBFreeRDP.ServerMachine

namespace WBFreeRDP.Server

open Program

/-! ## Nothing happens -/

/-- Neither the progress nor the log changes. -/
def Quiet (p q : Peer) : Prop := q.toProgress = p.toProgress ∧ q.log = p.log

variable {p q : Peer}

theorem Quiet.of_eq (hprogress : q.toProgress = p.toProgress) (hlog : q.log = p.log) : Quiet p q :=
  ⟨hprogress, hlog⟩

instance : Std.Refl Quiet := ⟨fun _ => .of_eq rfl rfl⟩

theorem Quiet.refl (p) : Quiet p p := .of_eq rfl rfl

theorem Quiet.trans (h : Quiet p q) (h' : Quiet q r) : Quiet p r := ⟨h'.1.trans h.1, h'.2.trans h.2⟩

instance : IsTrans Peer Quiet := ⟨fun _ _ _ => Quiet.trans⟩

theorem Quiet.state_eq (h : Quiet p q) : q.state = p.state := congrArg (·.state) h.1

theorem Quiet.license_eq (h : Quiet p q) : q.license = p.license := congrArg (·.license) h.1

theorem Quiet.flags_eq (h : Quiet p q) : q.finalizeScPdus = p.finalizeScPdus :=
  congrArg (·.finalizeScPdus) h.1

/-! ### Handlers that only read or ask -/

section Quiet

variable {α : Type} (env : Env)

theorem quiet_parse : Within Quiet (parse f) := by
  intro p
  unfold Gives parse
  cases f p.stream with
  | none => exact .refl p
  | some r => exact .of_eq rfl rfl

theorem quiet_external : Within Quiet (external f) := by
  intro p
  unfold Gives external
  cases f p.calls p.toRdp p.stream with
  | none | some r => exact .of_eq rfl rfl

theorem quiet_ensure [Decidable c] : Within Quiet (ensure c) :=
  within_ite (fun _ => within_pure ()) fun _ => within_stop

theorem quiet_ask (q) : Within Quiet (ask env q) := fun _ => .of_eq rfl rfl

theorem quiet_require (q) : Within Quiet (require env q) := by
  apply within_bind (quiet_ask env q)
  intro ok
  exact within_ite (fun _ => within_pure ()) fun _ => within_stop

theorem require_gives (q p) :
    (require env q).Gives p fun r t => Quiet p t ∧ (r = .ok () ∨ r = .error ()) := by
  apply gives_bind
  refine (?_ : (ask env q).Gives p fun r t => Quiet p t ∧ ∃ ok, r = .ok ok).mono ?_
  · exact ⟨quiet_ask env q p, _, rfl⟩
  rintro r t ⟨hquiet, ok, rfl⟩
  cases ok with
  | true => exact ⟨hquiet, .inl rfl⟩
  | false => exact ⟨hquiet, .inr rfl⟩

theorem quiet_rdpReadHeader : Within Quiet (rdpReadHeader env) := by
  apply within_bind quiet_parse
  intro header
  cases header with
  | disconnectRequest length =>
    apply within_bind (within_update fun p => .of_eq rfl rfl)
    exact fun _ => within_pure _
  | ultimatum length reason =>
    apply within_bind (quiet_require env _)
    intro _
    apply within_bind (within_update fun p => .of_eq rfl rfl)
    intro _
    apply within_bind (quiet_require env _)
    exact fun _ => within_pure _
  | data length channelId => exact within_pure _

theorem quiet_decryptIfEncrypted (length) :
    Within Quiet (decryptIfEncrypted env length securityFlags) := by
  apply within_ite
  · exact fun _ => within_bind quiet_external fun _ => within_pure ()
  · exact fun _ => within_pure ()

theorem quiet_rdpHandleOptionalRdpDecryption (length) :
    Within Quiet (rdpHandleOptionalRdpDecryption env length) := by
  apply within_bind within_observe
  intro layer
  apply within_ite
  · intro _
    apply within_bind quiet_parse
    intro flags
    exact within_bind (quiet_decryptIfEncrypted env _) fun _ => within_pure _
  · exact fun _ => within_pure _

end Quiet

/-! ## What happens inside of callbacks -/

/-- A reactivation takes effect: the connection goes back to Demand Active. -/
def Peer.deactivate (p : Peer) : Peer :=
  ((p.emit .reactivate).setFlag Finalize.deactivateReactivate).enter
    .capabilitiesExchangeDemandActive

def Peer.demand (p : Peer) : Peer := (p.emit .demandActive).enter .capabilitiesExchangeMonitorLayout

/-- How far a reactivation comes. -/
inductive Reactivated : Peer → Peer → Prop
  | refused {p q : Peer} (h : Quiet p q) : Reactivated p q
  | deactivated {p a q : Peer} (h : Quiet p a) (h' : Quiet a.deactivate q) : Reactivated p q
  | demanded {p a b : Peer} (h : Quiet p a) (h' : Quiet a.deactivate b) : Reactivated p b.demand

/-- `rdp_peer_handle_state_demand_active` sends Demand Active and waits for the monitor layout, or
fails. -/
theorem rdpPeerHandleStateDemandActive_gives (env p) :
    (rdpPeerHandleStateDemandActive env).Gives p fun r q =>
      (r = .error () ∧ Quiet p q) ∨ (r = .ok .continue ∧ ∃ a, Quiet p a ∧ q = a.demand) := by
  apply gives_bind
  apply (require_gives env .capabilities p).mono
  rintro r a ⟨hpa, rfl | rfl⟩
  · apply gives_bind
    apply (require_gives env .sendDemandActive a).mono
    rintro r b ⟨hab, rfl | rfl⟩
    · exact .inr ⟨rfl, b, hpa.trans hab, rfl⟩
    · exact .inl ⟨rfl, hpa.trans hab⟩
  · exact .inl ⟨rfl, hpa⟩

theorem rdpServerReactivate_reactivated (env) : Within Reactivated (rdpServerReactivate env) := by
  intro p
  apply gives_update_bind
  have hp : Quiet p { p with activated := false } := .of_eq rfl rfl
  apply (quiet_require env .sendDeactivateAll).gives_bind
  · exact fun _ a ha => .refused (hp.trans ha)
  intro _ a ha
  apply gives_update_bind
  apply gives_update_bind
  apply gives_update_bind
  apply gives_bind
  apply (rdpPeerHandleStateDemandActive_gives env a.deactivate).mono
  rintro r q (⟨rfl, hq⟩ | ⟨rfl, b, hb, rfl⟩)
  · exact .deactivated (hp.trans ha) hq
  · exact .demanded (hp.trans ha) hb

/-- A step inside of callbacks.  Only an active connection is reactivated. -/
inductive Act (inputs : Prop) : Peer → Peer → Prop
  | quiet {p q : Peer} (h : Quiet p q) : Act inputs p q
  | reactivate {p q : Peer} (hactive : p.state = .active) (h : Reactivated p q) : Act inputs p q
  | input {p : Peer} (h : inputs) (call : InputCall) : Act inputs p (p.emit (.input call))

/-- Steps inside of callbacks, with or without callbacks for input. -/
def Acts (inputs : Prop) : Peer → Peer → Prop := Relation.ReflTransGen (Act inputs)

instance {inputs : Prop} : Std.Refl (Acts inputs) := ⟨fun _ => .refl⟩

instance {inputs : Prop} : IsTrans Peer (Acts inputs) := ⟨fun _ _ _ => Relation.ReflTransGen.trans⟩

variable {inputs : Prop}

theorem Acts.of_quiet (h : Quiet p q) : Acts inputs p q := .single (.quiet h)

theorem Acts.trans (h : Acts inputs p q) (h' : Acts inputs q r) : Acts inputs p r :=
  Relation.ReflTransGen.trans h h'

/-- **Outside of the active state callbacks change nothing**: the log has at most calls for input in
addition. -/
theorem Acts.inactive (h : Acts inputs p q) (hstate : p.state ≠ .active) :
    q.toProgress = p.toProgress ∧ ∃ new, q.log = new ++ p.log ∧
      ∀ e ∈ new, e.2.toProgress = p.toProgress ∧ inputs ∧ ∃ call, e.1 = .input call := by
  -- induction on the steps: the state stays as it is, so that no step is a reactivation
  induction h with
  | refl => exact ⟨rfl, [], rfl, fun _ h => absurd h List.not_mem_nil⟩
  | @tail a b _ hstep ih =>
  obtain ⟨hprogress, new, hlog, hnew⟩ := ih
  have hinactive : a.state ≠ .active := by
    rw [show a.state = p.state from congrArg (·.state) hprogress]
    exact hstate
  cases hstep with
  | quiet hquiet => exact ⟨hquiet.1.trans hprogress, new, hquiet.2.trans hlog, hnew⟩
  | reactivate hactive _ => exact absurd hactive hinactive
  | input hin call =>
  refine ⟨hprogress, (.input call, a.toRdp) :: new, by rw [Peer.emit, hlog]; rfl, ?_⟩
  intro e he
  rcases List.mem_cons.mp he with rfl | he
  · exact ⟨hprogress, hin, call, rfl⟩
  · exact hnew e he

section Callbacks

variable (env : Env)

theorem acts_of_quiet {α : Type} {f : Serve α} (h : Within Quiet f) : Within (Acts inputs) f :=
  h.mono fun _ _ => Acts.of_quiet

theorem acts_bind {α β : Type} {f : Serve α} {g : α → Serve β} (hf : Within Quiet f)
    (hg : ∀ a, Within (Acts inputs) (g a)) : Within (Acts inputs) (f >>= g) :=
  within_bind (acts_of_quiet hf) hg

theorem acts_callback (q) : Within (Acts inputs) (callback env q) := by
  intro p
  apply gives_observe_bind
  apply (quiet_ask env q).gives_bind
  · exact fun _ _ h => .of_quiet h
  intro ok a ha
  apply gives_observe_bind
  -- the state of the callback decides whether the application may reactivate
  by_cases hre : (env.answer p.calls q p.toRdp).reactivate = true ∧ a.state = .active
  · rw [if_pos hre]
    apply gives_attempt_bind
    apply (rdpServerReactivate_reactivated env a).mono
    intro _ b hb
    exact (Acts.of_quiet ha).trans (.single (.reactivate hre.2 hb))
  · rw [if_neg hre]
    exact .of_quiet ha

theorem acts_requireCallback (q) : Within (Acts inputs) (requireCallback env q) := by
  apply within_bind (acts_callback env q)
  intro ok
  exact within_ite (fun _ => within_pure ()) fun _ => within_stop

end Callbacks

/-! ## What a received PDU does -/

/-- A PDU of the finalization that is only remembered, with the flag for it. -/
inductive FlagPdu (p : Peer) : Event → ℕ → Prop
  | synchronize : FlagPdu p .synchronize Finalize.csSynchronizePdu
  | cooperate (h : p.isFlagSet Finalize.csSynchronizePdu = true) :
      FlagPdu p .cooperate Finalize.csControlCooperatePdu
  | request (h : p.isFlagSet Finalize.csControlCooperatePdu = true) :
      FlagPdu p .request Finalize.csControlRequestPdu
  | persistentKeyList : FlagPdu p .persistentKeyList Finalize.csPersistentKeyListPdu

/-- A licence message that is accepted, other than the response to the challenge. -/
inductive LicensePdu (p : Peer) : Peer → Prop
  | challenge (h : p.license = .request) : LicensePdu p (p.setLicense .platformChallenge)
  | alert (errorCode stateTransition : ℕ) :
      LicensePdu p ((p.emit (.errorAlert errorCode stateTransition)).setLicense
        (alertedState errorCode stateTransition p.license))

/-- A Confirm Active may be processed: it is expected, or a recorded session is replayed. -/
inductive Confirmable (replay : Prop) (p : Peer) : Peer → Prop
  | expected {a : Peer} (h : Quiet p a) (hstate : a.state = .capabilitiesExchangeConfirmActive) :
      Confirmable replay p a
  | replayed {a b : Peer} (hreplay : replay) (h : Quiet p a)
      (h' : Quiet (a.setFlag Finalize.deactivateReactivate) b) : Confirmable replay p b

/-- A Confirm Active was accepted; the answer starts. -/
def Peer.confirm (p : Peer) : Peer := (p.emit .confirmActive).enter .finalizationClientSync

/-- A Font List was accepted; the answer starts. -/
def Peer.listFonts (p : Peer) : Peer :=
  ((p.emit .fontList).setFlag Finalize.csFontListPdu).enter .finalizationClientFontMap

/-- **What `peer_recv_pdu` can do** with its status, `replay` for the replay of a recorded session,
`sharing` for the PDUs of the activation that can be read. -/
inductive Received (replay : Prop) (sharing : Event → Prop) (p : Peer) : StateRun → Peer → Prop
  /-- the progress stays, apart from reactivations inside of callbacks -/
  | acts {rc : StateRun} {q : Peer} (h : Acts False p q) (hrc : rc ≠ .continue) :
      Received replay sharing p rc q
  /-- input reaches the application -/
  | input {rc : StateRun} {a q : Peer} {e : Event} (h : Quiet p a)
      (he : e = .inputPdu ∨ e = .fastPathPdu) (h' : Acts True (a.emit e) q) (hrc : rc ≠ .continue) :
      Received replay sharing p rc q
  /-- a PDU of the finalization is remembered -/
  | flag {rc : StateRun} {a q : Peer} {e : Event} {flag : ℕ} (hsharing : sharing e) (h : Quiet p a)
      (hpdu : FlagPdu a e flag) (h' : Quiet ((a.emit e).setFlag flag) q) (hrc : rc ≠ .continue) :
      Received replay sharing p rc q
  /-- the Font Map that answers a Font List could not be sent -/
  | fontMap {a q : Peer} (hsharing : sharing .fontList) (h : Quiet p a) (h' : Quiet a.listFonts q) :
      Received replay sharing p .failed q
  /-- a Font List activates the connection -/
  | fontList {rc : StateRun} {a b q : Peer} (hsharing : sharing .fontList) (h : Quiet p a)
      (h' : Quiet a.listFonts b) (hactive : Quiet (b.enter .active) q)
      (hrc : rc = .continue ∨ rc = .failed) : Received replay sharing p rc q
  /-- a Confirm Active out of place in a replay fails later on -/
  | replayed {a q : Peer} (hsharing : sharing .confirmActive) (hreplay : replay) (h : Quiet p a)
      (h' : Quiet (a.setFlag Finalize.deactivateReactivate) q) : Received replay sharing p .failed q
  /-- a Confirm Active is accepted, but Synchronize could not be sent -/
  | confirmSync {a q : Peer} (hsharing : sharing .confirmActive) (h : Confirmable replay p a)
      (h' : Quiet a.confirm q) : Received replay sharing p .failed q
  /-- a Confirm Active is accepted, but Cooperate could not be sent -/
  | confirmCooperate {a b q : Peer} (hsharing : sharing .confirmActive) (h : Confirmable replay p a)
      (h' : Quiet a.confirm b)
      (hcooperate : Quiet (b.enter .finalizationClientCooperate) q) :
      Received replay sharing p .failed q
  /-- a Confirm Active is accepted and answered -/
  | confirmed {rc : StateRun} {a b c q : Peer} (hsharing : sharing .confirmActive)
      (h : Confirmable replay p a) (h' : Quiet a.confirm b)
      (hcooperate : Quiet (b.enter .finalizationClientCooperate) c)
      (hsync : Quiet (c.resetFlags.enter .finalizationSync) q) (hrc : rc ≠ .continue) :
      Received replay sharing p rc q
  /-- a multitransport response moves on to Demand Active -/
  | multitransport {rc : StateRun} {a q : Peer} (h : Quiet p a)
      (h' : Quiet ((a.emit .multitransportResponse).enter .capabilitiesExchangeDemandActive) q)
      (hrc : rc = .continue ∨ rc = .failed) : Received replay sharing p rc q
  /-- a licence message is accepted -/
  | license {rc : StateRun} {a b q : Peer} (h : Quiet p a) (hpdu : LicensePdu a b) (h' : Quiet b q)
      (hrc : rc ≠ .continue) : Received replay sharing p rc q
  /-- a licence is issued -/
  | issue {rc : StateRun} {a q : Peer} (h : Quiet p a) (hchallenge : a.license = .platformChallenge)
      (h' : Quiet ((a.emit .licenseIssued).setLicense .completed) q)
      (hrc : rc = .continue ∨ rc = .failed) : Received replay sharing p rc q
  /-- a licence message fails -/
  | aborted {a b c q : Peer} (h : Quiet p a) (hpdu : b = a ∨ LicensePdu a b) (h' : Quiet b c)
      (haborted : Quiet (c.setLicense .aborted) q) : Received replay sharing p .failed q

variable {replay : Prop} {sharing : Event → Prop}

theorem Received.mono
    (hsharing : ∀ e, sharing e → sharing' e) (hrec : Received replay sharing p rc q) :
    Received replay sharing' p rc q := by
  cases hrec with
  | acts h hrc => exact .acts h hrc
  | input h he hacts hrc => exact .input h he hacts hrc
  | flag hs h hpdu hq hrc => exact .flag (hsharing _ hs) h hpdu hq hrc
  | fontMap hs h hq => exact .fontMap (hsharing _ hs) h hq
  | fontList hs h hb hactive hrc => exact .fontList (hsharing _ hs) h hb hactive hrc
  | replayed hs hreplay h hq => exact .replayed (hsharing _ hs) hreplay h hq
  | confirmSync hs h hq => exact .confirmSync (hsharing _ hs) h hq
  | confirmCooperate hs h hb hq => exact .confirmCooperate (hsharing _ hs) h hb hq
  | confirmed hs h hb hc hq hrc => exact .confirmed (hsharing _ hs) h hb hc hq hrc
  | multitransport h hq hrc => exact .multitransport h hq hrc
  | license h hpdu hq hrc => exact .license h hpdu hq hrc
  | issue h hchallenge hq hrc => exact .issue h hchallenge hq hrc
  | aborted h hpdu hb hq => exact .aborted h hpdu hb hq

theorem Received.of_quiet_left (h : Quiet p a)
    (hrec : Received replay sharing a rc q) : Received replay sharing p rc q := by
  have hconfirmable : ∀ b, Confirmable replay a b → Confirmable replay p b := by
    rintro b (⟨hab, hstate⟩ | ⟨hreplay, hab, hb⟩)
    · exact .expected (h.trans hab) hstate
    · exact .replayed hreplay (h.trans hab) hb
  cases hrec with
  | acts h' hrc => exact .acts ((Acts.of_quiet h).trans h') hrc
  | input h' he hacts hrc => exact .input (h.trans h') he hacts hrc
  | flag hsharing h' hpdu hq hrc => exact .flag hsharing (h.trans h') hpdu hq hrc
  | fontMap hsharing h' hq => exact .fontMap hsharing (h.trans h') hq
  | fontList hsharing h' hb hactive hrc => exact .fontList hsharing (h.trans h') hb hactive hrc
  | replayed hsharing hreplay h' hq => exact .replayed hsharing hreplay (h.trans h') hq
  | confirmSync hsharing h' hq => exact .confirmSync hsharing (hconfirmable _ h') hq
  | confirmCooperate hsharing h' hb hq => exact .confirmCooperate hsharing (hconfirmable _ h') hb hq
  | confirmed hsharing h' hb hc hq hrc => exact .confirmed hsharing (hconfirmable _ h') hb hc hq hrc
  | multitransport h' hq hrc => exact .multitransport (h.trans h') hq hrc
  | license h' hpdu hq hrc => exact .license (h.trans h') hpdu hq hrc
  | issue h' hchallenge hq hrc => exact .issue (h.trans h') hchallenge hq hrc
  | aborted h' hpdu hb hq => exact .aborted (h.trans h') hpdu hb hq

/-- What is read last changes nothing but, where it fails, the status. -/
theorem Received.of_quiet_right
    (hrec : Received replay sharing p rc q) (h : Quiet q r) (hrc' : rc' = rc ∨ rc' = .failed) :
    Received replay sharing p rc' r := by
  have hne : rc ≠ .continue → rc' ≠ .continue := by
    rintro hrc rfl
    rcases hrc' with h | h
    · exact hrc h.symm
    · cases h
  have hor : (rc = .continue ∨ rc = .failed) → rc' = .continue ∨ rc' = .failed := by
    rintro (rfl | rfl)
    · exact hrc'
    · exact .inr (hrc'.elim id id)
  have hfailed : rc = .failed → rc' = .failed := fun h => hrc'.elim (fun h' => h'.trans h) id
  cases hrec with
  | acts h' hrc => exact .acts (h'.trans (.of_quiet h)) (hne hrc)
  | input h' he hacts hrc => exact .input h' he (hacts.trans (.of_quiet h)) (hne hrc)
  | flag hsharing h' hpdu hq hrc => exact .flag hsharing h' hpdu (hq.trans h) (hne hrc)
  | fontMap hsharing h' hq => exact hfailed rfl ▸ .fontMap hsharing h' (hq.trans h)
  | fontList hsharing h' hb hactive hrc =>
      exact .fontList hsharing h' hb (hactive.trans h) (hor hrc)
  | replayed hsharing hreplay h' hq =>
      exact hfailed rfl ▸ .replayed hsharing hreplay h' (hq.trans h)
  | confirmSync hsharing h' hq => exact hfailed rfl ▸ .confirmSync hsharing h' (hq.trans h)
  | confirmCooperate hsharing h' hb hq =>
      exact hfailed rfl ▸ .confirmCooperate hsharing h' hb (hq.trans h)
  | confirmed hsharing h' hb hc hq hrc => exact .confirmed hsharing h' hb hc (hq.trans h) (hne hrc)
  | multitransport h' hq hrc => exact .multitransport h' (hq.trans h) (hor hrc)
  | license h' hpdu hq hrc => exact .license h' hpdu (hq.trans h) (hne hrc)
  | issue h' hchallenge hq hrc => exact .issue h' hchallenge (hq.trans h) (hor hrc)
  | aborted h' hpdu hb hq => exact hfailed rfl ▸ .aborted h' hpdu hb (hq.trans h)

end WBFreeRDP.Server

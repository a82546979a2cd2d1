/-
# Licensing of the server

A server that requires licences leaves `CONNECTION_STATE_LICENSING` after it has issued one, unless
the client says otherwise: a multitransport response goes on to Demand Active in every state, and an
error alert with `STATUS_VALID_CLIENT` or `ST_NO_TRANSITION` completes the licensing.
-/
import WBFreeRDP.ServerRuns

namespace WBFreeRDP.Server

open Program EventLog List

/-- The messages that skip the licensing: a multitransport response, and an error alert that
completes it. -/
def Event.skipsLicensing : Event → Bool
  | .multitransportResponse => true
  | .errorAlert errorCode stateTransition => errorCode == 7 || stateTransition == 2
  | _ => false

/-- No message skips the licensing in a state up to it. -/
def LicensingInPlace (log : Log) : Prop :=
  ∀ entry ∈ log, entry.2.state ≤ .licensing → entry.1.skipsLicensing = false

instance (log : Log) : Decidable (LicensingInPlace log) := List.decidableBAll _ log

theorem LicensingInPlace.of_suffix (h : LicensingInPlace log)
    (hsuffix : earlier <:+ log) : LicensingInPlace earlier :=
      fun entry hmem => h entry (hsuffix.mem hmem)

/-- A challenge response was accepted in `LICENSE_STATE_PLATFORM_CHALLENGE` and a licence sent. -/
def Issued (log : Log) : Prop :=
  ∃ rdp, (.licenseIssued, rdp) ∈ log ∧ rdp.license = .platformChallenge

theorem Issued.of_suffix (h : Issued earlier) (hsuffix : earlier <:+ log) : Issued log := by
  obtain ⟨rdp, hmem, hlicense⟩ := h
  exact ⟨rdp, hsuffix.mem hmem, hlicense⟩

/-- The connection is past licensing, or the licensing is completed. -/
def PastLicensing (progress : Progress) : Prop :=
  ConnectionState.licensing < progress.state ∨ progress.license = .completed

def licensingMonitor : Monitor where
  holds log progress := LicensingInPlace log → PastLicensing progress → Issued log
  onEvent _ _ _ := True
  stable := by
    intro e rdp log progress _ h hplace hpast
    have hsuffix : log <:+ (e, rdp) :: log := suffix_cons _ _
    exact (h (hplace.of_suffix hsuffix) hpast).of_suffix hsuffix
  onRecvPdu _ _ _ := trivial

namespace LicensingMonitor

variable {p q : Peer}

section

variable (h : licensingMonitor.Always p)
include h

theorem emit (he : e ≠ .reactivate) : licensingMonitor.Always (p.emit e) := h.emit e he trivial

/-- A state is entered: past licensing only after a licence was issued. -/
theorem enter (hissued : .licensing < s → LicensingInPlace p.log → Issued p.log) :
    licensingMonitor.Always (p.enter s) := by
  refine h.enter (fun hplace hpast => ?_) fun _ _ => trivial
  rcases hpast with hstate | hcompleted
  · exact hissued hstate hplace
  · exact h.1 hplace (.inr hcompleted)

theorem enter_early (hs : ¬.licensing < s) : licensingMonitor.Always (p.enter s) :=
  enter h fun hstate => absurd hstate hs

theorem enter_late (hstate : p.state = r) (hr : .licensing < r) :
    licensingMonitor.Always (p.enter s) :=
  enter h fun _ hplace => h.1 hplace (.inl (hstate ▸ hr))

/-- Any part of the progress but the state and the licence is set. -/
theorem set_progress (hlog : q.log = p.log) (hstate : q.state = p.state)
    (hlicense : q.license = p.license) : licensingMonitor.Always q := by
  apply h.set hlog
  intro hplace hpast
  rw [PastLicensing, hstate, hlicense] at hpast
  exact h.1 hplace hpast

theorem setLicense (hlicense : license ≠ .completed) :
    licensingMonitor.Always (p.setLicense license) := by
  refine h.set (q := p.setLicense license) rfl ?_
  rintro hplace (hstate | hcompleted)
  · exact h.1 hplace (.inl hstate)
  · exact absurd hcompleted hlicense

theorem licensePdu (hpdu : LicensePdu p q) : licensingMonitor.Always q := by
  rcases hpdu with _ | ⟨errorCode, stateTransition⟩
  · exact setLicense h (by decide)
  have hemit : licensingMonitor.Always (p.emit (.errorAlert errorCode stateTransition)) :=
    emit h (by simp)
  refine hemit.set (q := (p.emit (.errorAlert errorCode stateTransition)).setLicense _) rfl ?_
  intro hplace hpast
  by_cases hstate : p.state ≤ .licensing
  swap
  · exact hemit.1 hplace (.inl (Nat.lt_of_not_le hstate))
  have hkeeps : (Event.errorAlert errorCode stateTransition).skipsLicensing = false :=
    hplace _ mem_cons_self hstate
  obtain ⟨hcode, htransition⟩ : errorCode ≠ 7 ∧ stateTransition ≠ 2 := by
    simpa [Event.skipsLicensing] using hkeeps
  refine hemit.1 hplace (hpast.imp_right fun hcompleted => ?_)
  -- only what was completed before the alert is completed after it
  unfold alertedState at hcompleted
  rw [if_neg hcode] at hcompleted
  split at hcompleted
  · cases hcompleted
  · exact absurd rfl htransition
  · cases hcompleted
  · exact hcompleted

end

/-- **Each step of a received PDU**, where share control PDUs are read after a licence was
issued. -/
theorem recvStep {replay : Prop} {sharing : Event → Prop} (hstep : RecvStep replay sharing p q)
    (hsharing : ∀ e, sharing e → LicensingInPlace p.log → Issued p.log)
    (h : licensingMonitor.Always p) : licensingMonitor.Always q := by
  cases hstep with
  | quiet hquiet => exact h.quiet hquiet
  | deactivate hstate =>
    refine h.deactivate (fun hplace _ => ?_) trivial fun _ _ => trivial
    have hsuffix : p.log <:+ (.reactivate, p.toRdp) :: p.log := suffix_cons _ _
    have hlate : PastLicensing p.toProgress := .inl (by rw [hstate]; decide)
    exact (h.1 (hplace.of_suffix hsuffix) hlate).of_suffix hsuffix
  | demand hstate => exact enter_late (emit h (e := .demandActive) (by simp)) hstate (by decide)
  | inputPdu he =>
    rcases he with rfl | rfl
    all_goals exact emit h (by simp)
  | input _ call => exact emit h (by simp)
  | flag _ hpdu =>
    refine set_progress (emit h ?_) rfl rfl rfl
    rintro rfl
    cases hpdu
  | listFonts hs =>
    have hflag : licensingMonitor.Always ((p.emit .fontList).setFlag Finalize.csFontListPdu) :=
      set_progress (emit h (e := .fontList) (by simp)) rfl rfl rfl
    have hsuffix : p.log <:+ (.fontList, p.toRdp) :: p.log := suffix_cons _ _
    exact enter hflag fun _ hplace => (hsharing _ hs (hplace.of_suffix hsuffix)).of_suffix hsuffix
  | activate hstate | cooperate hstate => exact enter_late h hstate (by decide)
  | replayed _ _ => exact set_progress h rfl rfl rfl
  | confirm hs _ =>
    have hsuffix : p.log <:+ (.confirmActive, p.toRdp) :: p.log := suffix_cons _ _
    exact enter (emit h (e := .confirmActive) (by simp)) fun _ hplace =>
      (hsharing _ hs (hplace.of_suffix hsuffix)).of_suffix hsuffix
  | confirmed hstate =>
    have hreset : licensingMonitor.Always p.resetFlags := set_progress h rfl rfl rfl
    exact enter_late hreset hstate (by decide)
  | multitransport =>
    have hemit : licensingMonitor.Always (p.emit .multitransportResponse) := emit h (by simp)
    refine enter hemit fun _ hplace => hemit.1 hplace (.inl ?_)
    refine Nat.lt_of_not_le fun hstate => ?_
    have hkeeps : Event.multitransportResponse.skipsLicensing = false :=
      hplace _ mem_cons_self hstate
    cases hkeeps
  | license hpdu => exact licensePdu h hpdu
  | issue hlicense =>
    have hemit : licensingMonitor.Always (p.emit .licenseIssued) := emit h (by simp)
    exact hemit.set rfl fun _ _ => ⟨p.toRdp, mem_cons_self, hlicense⟩
  | abort => exact setLicense h (by decide)

/-- Share control PDUs are read after licensing, and by then a licence was issued. -/
theorem recv (hrecv : Recv env p rc q) (h : licensingMonitor.Always p) :
    licensingMonitor.Always q := by
  have hsharing (e : Event) (hs : Holds env p e) (hplace : LicensingInPlace p.log) : Issued p.log :=
    h.1 hplace (.inl (Nat.lt_of_not_le hs.state))
  have hsteps : licensingMonitor.Always q ∧ p.log <:+ q.log := by
    refine hrecv.invariant (I := fun a => licensingMonitor.Always a ∧ p.log <:+ a.log) ?_ ?_
      ⟨h, suffix_rfl⟩
    · rintro a b hstep ⟨ha, hsuffix⟩
      refine ⟨recvStep hstep (fun e hs hplace => ?_) ha, hsuffix.trans hstep.suffix⟩
      exact (hsharing e hs (hplace.of_suffix hsuffix)).of_suffix hsuffix
    · rintro a ⟨ha, hsuffix⟩
      exact ⟨ha.recvPdu rc, hsuffix.trans (suffix_cons _ _)⟩
  exact hsteps.1

theorem acts (hacts : Acts False p q) (h : licensingMonitor.Always p) :
    licensingMonitor.Always q := by
  have hsteps : RecvSteps False (fun _ => False) p q := hacts.steps False.elim
  exact hsteps.invariant (fun _ _ hstep => recvStep hstep fun _ hs => hs.elim) h

theorem tells (htells : Relation.ReflTransGen Tell p q) (h : licensingMonitor.Always p) :
    licensingMonitor.Always q :=
  tells_invariant (fun _ _ => acts) (fun _ h => emit h (by simp))
    (fun _ h => emit h (by simp)) htells h

/-- The connection up to the client info does not reach the licensing. -/
theorem early : licensingMonitor.Early := by
  constructor
  · intro log a b h hstate hlicense _ hplace hpast
    rcases hpast with hlate | hcompleted
    · have hlt : ConnectionState.licensing < .connectTimeAutoDetectRequest :=
        Nat.lt_of_lt_of_le hlate hstate
      exact absurd hlt (by decide)
    · exact h hplace (.inr (hlicense ▸ hcompleted))
  · exact fun _ => trivial

/-- After a message that asks the loop to go on the connection is past licensing. -/
theorem past_of_continue (hrecv : Recv env p .continue q) : PastLicensing q.toProgress := by
  obtain ⟨a, hreceived, rfl⟩ := hrecv
  generalize hrc : StateRun.continue = rc at hreceived
  have hstate {b : Peer} (h : Quiet b a) (hb : .licensing < b.state) :
      PastLicensing a.toProgress := .inl (by rw [h.1]; exact hb)
  cases hreceived with
  | acts _ h | input _ _ _ h | flag _ _ _ _ h | confirmed _ _ _ _ _ h | license _ _ _ h =>
    exact absurd hrc.symm h
  | fontMap | replayed | confirmSync | confirmCooperate | aborted => cases hrc
  | @fontList _ _ b _ _ _ _ hactive _ =>
    exact hstate hactive (show ConnectionState.licensing < .active from by decide)
  | multitransport _ h' _ =>
    exact hstate h' (show ConnectionState.licensing <
      .capabilitiesExchangeDemandActive from by decide)
  | issue _ _ h' _ => exact .inr h'.license_eq

/-- **Each move of the state machine** of a server that requires licences. -/
theorem moves (hrequired : env.serverLicenseRequired = true)
    (hmoves : Moves env p rc q) (h : licensingMonitor.Always p) : licensingMonitor.Always q := by
  cases hmoves with
  | quiet hquiet => exact h.quiet hquiet
  | connects _ hsteps => exact h.connects early hsteps
  | autoDetect _ hquiet hs =>
      exact enter_early (h.quiet hquiet) (by rcases hs with rfl | rfl <;> decide)
  | autoDetectRecv _ hrecv hquiet hq _ =>
    have hb := (recv hrecv h).quiet hquiet
    rcases hq with rfl | rfl
    · exact hb
    · exact enter_early hb (by decide)
  | licenseRequest _ _ _ hquiet hquiet' hq =>
    have hb := (setLicense (h.quiet hquiet) (by decide)).quiet hquiet'
    rcases hq with rfl | rfl
    · exact hb
    · exact setLicense hb (by decide)
  | licenseValid _ _ hnot _ _ =>
    rw [hrequired] at hnot
    cases hnot
  | licenseCompleted _ hcompleted => exact enter h fun _ hplace => h.1 hplace (.inr hcompleted)
  | licenseRecv _ hrecv hq =>
    have ha := recv hrecv h
    rcases hq with rfl | ⟨rfl, rfl⟩
    · exact ha
    · exact enter ha fun _ hplace => ha.1 hplace (past_of_continue hrecv)
  | multitransport hstate hquiet _ | monitorLayout hstate hquiet =>
    exact enter_late (h.quiet hquiet) (hquiet.state_eq.trans hstate) (by decide)
  | recv _ hrecv | awaitMore _ hrecv _ => exact recv hrecv h
  | demand hstate hquiet =>
    have ha := emit (h.quiet hquiet) (e := .demandActive) (by simp)
    exact enter_late ha (hquiet.state_eq.trans hstate) (by decide)
  | await hawaited hrecv _ hquiet hq _ =>
    have hb := (recv hrecv h).quiet hquiet
    rcases hq with rfl | rfl
    · exact hb
    refine enter hb fun _ hplace => ?_
    have hsuffix := hrecv.suffix.trans hquiet.suffix
    have hlate : .licensing < p.state :=
      Nat.lt_of_lt_of_le (by decide) (finalization_of_awaited hawaited).1
    exact (h.1 (hplace.of_suffix hsuffix) (.inl hlate)).of_suffix hsuffix
  | skipKeys hstate => exact enter_late h hstate (by decide)
  | fontList hstate hrecv hq _ =>
    have ha := recv hrecv h
    rcases hq with rfl | ⟨-, rfl⟩
    · exact ha
    refine enter ha fun _ hplace => ?_
    have hlate : .licensing < p.state := by
      rw [hstate]
      decide
    exact (h.1 (hplace.of_suffix hrecv.suffix) (.inl hlate)).of_suffix hrecv.suffix
  | tell _ htells => exact tells htells h
  | active _ htells hrecv => exact recv hrecv (tells htells h)

end LicensingMonitor

/-- **A server that requires licences is not talked past licensing**, as long as the client sends up
to licensing no multitransport response and no error alert that completes the licensing: in every
run a licence was issued for an accepted challenge response before a state after licensing is
entered or the licence state is completed.  This holds at the end of the run and at every entry of
its log. -/
theorem licensed_past_licensing {env : Env} (hrequired : env.serverLicenseRequired = true)
    {p : Peer} {rc : StateRun} (h : Reaches env p rc) (hplace : LicensingInPlace p.log) :
    (PastLicensing p.toProgress → Issued p.log) ∧
      ∀ e rdp earlier, (e, rdp) :: earlier <:+ p.log → PastLicensing rdp.toProgress →
      Issued earlier := by
  have halways : licensingMonitor.Always p := by
    refine h.invariant ?_ (fun _ _ hquiet h => h.quiet hquiet) (fun _ _ => LicensingMonitor.acts)
      fun _ _ _ => LicensingMonitor.moves hrequired
    intro settings
    refine ⟨?_, trivial⟩
    rintro - (hstate | hcompleted)
    · exact absurd hstate (show ¬ConnectionState.licensing < .initial from by decide)
    · cases hcompleted
  constructor
  · exact halways.1 hplace
  intro e rdp earlier hentry hpast
  have hsuffix : earlier <:+ p.log := (suffix_cons _ _).trans hentry
  exact (halways.2.of_suffix hentry).1 (hplace.of_suffix hsuffix) hpast

namespace Client

/-- A licence message of a type on the message channel. -/
def licensePdu (msgType : UInt8) (body : List UInt8) : List UInt8 :=
  sendData 0xEC ([0x80, 0, 0, 0, msgType, 3, .ofNat (4 + body.length), 0] ++ body)

/-- An error alert with `STATUS_VALID_CLIENT` and `ST_NO_TRANSITION`. -/
def validClient : List UInt8 := licensePdu 0xFF [7, 0, 0, 0, 2, 0, 0, 0, 4, 0, 0, 0]

end Client

theorem plainRun_license :
    (plainRun true [Client.licensePdu 0x13 [], Client.licensePdu 0x15 []]).map
      (fun r => (decide (LicensingInPlace r.2.log), r.2.state)) =
        some (true, .capabilitiesExchangeConfirmActive) := by
  decide +kernel

theorem licensed_past_licensing_challenge : ∃ p rc, Reaches (.agreeing true) p rc ∧
    LicensingInPlace p.log ∧ p.state = .capabilitiesExchangeConfirmActive ∧ Issued p.log := by
  obtain ⟨⟨rc, p⟩, hrun, hresult⟩ := Option.map_eq_some_iff.mp plainRun_license
  obtain ⟨hplace, hstate⟩ := Prod.mk.inj hresult
  have hplace : LicensingInPlace p.log := of_decide_eq_true hplace
  have hpast : PastLicensing p.toProgress := .inl (by rw [hstate]; decide)
  exact ⟨p, rc, plainRun_reaches hrun, hplace, hstate,
    (licensed_past_licensing rfl (plainRun_reaches hrun) hplace).1 hpast⟩

theorem plainRun_validClient : (plainRun true [Client.validClient, Client.confirmActive]).map
    (fun r => ((r.2.log.map Prod.fst).contains .licenseIssued, r.2.state)) =
      some (false, .finalizationSync) := by
  decide +kernel

/-- **A client talks itself past licensing**: the server requires licences and has sent its request;
the client answers with an error alert `STATUS_VALID_CLIENT`, and is let on to Confirm Active and
the finalization, though no licence was issued. -/
theorem licensing_skipped_by_alert :
    ∃ env p rc, env.serverLicenseRequired = true ∧ Reaches env p rc ∧
    PastLicensing p.toProgress ∧ ¬Issued p.log := by
  obtain ⟨⟨rc, p⟩, hrun, hresult⟩ := Option.map_eq_some_iff.mp plainRun_validClient
  obtain ⟨hissued, hstate⟩ := Prod.mk.inj hresult
  refine ⟨_, p, rc, rfl, plainRun_reaches hrun, .inl (by rw [hstate]; decide), ?_⟩
  rintro ⟨rdp, hmem, -⟩
  have hnotMem : .licenseIssued ∉ p.log.map Prod.fst := by
    simpa [contains_eq_mem] using hissued
  exact hnotMem (mem_map_of_mem hmem)

end WBFreeRDP.Server

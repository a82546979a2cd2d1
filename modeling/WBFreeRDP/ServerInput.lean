/-
# Input before the activation

Input reaches the application through slow-path and fast-path PDUs.  The fast path is read in every
state in which a PDU is received, a Font List makes the connection active in every such state.
-/
import WBFreeRDP.ServerRuns

namespace WBFreeRDP.Server

open Program EventLog List

/-- PDUs with input and Font Lists come in a state of the finalization or later. -/
def InputInPlace (log : Log) : Prop :=
  ∀ entry ∈ log, entry.1 = .inputPdu ∨ entry.1 = .fastPathPdu ∨ entry.1 = .fontList →
    ConnectionState.finalizationSync ≤ entry.2.state

instance (log : Log) : Decidable (InputInPlace log) := List.decidableBAll _ log

theorem InputInPlace.of_suffix (h : InputInPlace log) (hsuffix : earlier <:+ log) :
    InputInPlace earlier := fun entry hmem => h entry (hsuffix.mem hmem)

/-- From the finalization on a Confirm Active was accepted, and so it was before each call for
input. -/
def inputMonitor : Monitor where
  holds log progress := InputInPlace log → ConnectionState.finalizationSync ≤ progress.state →
    Happened .confirmActive log
  onEvent e _ earlier :=
    match e with
    | .input _ => InputInPlace earlier → Happened .confirmActive earlier
    | _ => True
  stable := by
    intro e rdp log progress _ h hplace hstate
    exact (h (hplace.of_suffix (suffix_cons _ _)) hstate).cons _
  onRecvPdu _ _ _ := trivial

namespace InputMonitor

variable {p q : Peer}

section

variable (h : inputMonitor.Always p)
include h

theorem enter_early (hs : ¬.finalizationSync ≤ s) : inputMonitor.Always (p.enter s) :=
  h.enter (fun _ hstate => absurd hstate hs) fun _ _ => trivial

theorem enter_late (s)
    (hconfirmed : InputInPlace p.log → Happened .confirmActive p.log) :
    inputMonitor.Always (p.enter s) :=
  h.enter (fun hplace _ => hconfirmed hplace) fun _ _ => trivial

theorem set_progress (hlog : q.log = p.log) (hstate : q.state = p.state) :
    inputMonitor.Always q := by
  apply h.set hlog
  intro hplace hfinal
  rw [hstate] at hfinal
  exact h.1 hplace hfinal

/-- The call for input follows a PDU with input, and that one came in place. -/
theorem confirmed_of_pdu (he : e = .inputPdu ∨ e = .fastPathPdu)
    (hpdu : Happened e p.log) (hplace : InputInPlace p.log) : Happened .confirmActive p.log := by
  obtain ⟨rdp, hmem⟩ := hpdu
  obtain ⟨earlier, hsuffix, hholds, -⟩ := h.2.of_mem hmem
  have hsuffix : earlier <:+ p.log := (suffix_cons _ _).trans hsuffix
  have hstate := hplace _ hmem (he.elim .inl fun he => .inr (.inl he))
  exact (hholds (hplace.of_suffix hsuffix) hstate).of_suffix hsuffix

theorem licensePdu (hpdu : LicensePdu p q) : inputMonitor.Always q := by
  cases hpdu with
  | challenge _ => exact set_progress h rfl rfl
  | alert errorCode stateTransition =>
    exact set_progress (h.emit (.errorAlert errorCode stateTransition) (by simp) trivial) rfl rfl

end

/-- **Each step of a received PDU.** -/
theorem recvStep {replay : Prop} {sharing : Event → Prop} (hstep : RecvStep replay sharing p q)
    (h : inputMonitor.Always p) : inputMonitor.Always q := by
  cases hstep with
  | quiet hquiet => exact h.quiet hquiet
  | deactivate _ =>
    have hearly : ¬ConnectionState.finalizationSync ≤ .capabilitiesExchangeDemandActive := by decide
    exact h.deactivate (fun _ hstate => absurd hstate hearly) trivial fun _ _ => trivial
  | demand _ => exact enter_early (h.emit .demandActive (by simp) trivial) (by decide)
  | inputPdu he =>
    rcases he with rfl | rfl
    · exact h.emit .inputPdu (by simp) trivial
    · exact h.emit .fastPathPdu (by simp) trivial
  | input hpdu call =>
    apply h.emit (.input call) (by simp)
    intro hplace
    rcases hpdu with hpdu | hpdu
    · exact confirmed_of_pdu h (.inl rfl) hpdu hplace
    · exact confirmed_of_pdu h (.inr rfl) hpdu hplace
  | flag _ hpdu =>
    refine set_progress (h.emit _ ?_ ?_) rfl rfl
    · rintro rfl
      cases hpdu
    · cases hpdu <;> trivial
  | listFonts _ =>
    have hfonts : inputMonitor.Always (p.emit .fontList) := h.emit _ (by simp) trivial
    have hflag : inputMonitor.Always ((p.emit .fontList).setFlag Finalize.csFontListPdu) :=
      set_progress hfonts rfl rfl
    refine enter_late hflag _ fun hplace => ?_
    have hstate : .finalizationSync ≤ p.state := hplace _ mem_cons_self (.inr (.inr rfl))
    exact (h.1 (hplace.of_suffix (suffix_cons _ _)) hstate).cons _
  | activate hstate | cooperate hstate =>
    refine enter_late h _ fun hplace => h.1 hplace ?_
    rw [hstate]
    decide
  | replayed _ _ | abort => exact set_progress h rfl rfl
  | confirm _ _ =>
    exact enter_late (h.emit .confirmActive (by simp) trivial) _ fun _ => happened_cons_self
  | confirmed hstate =>
    have hreset : inputMonitor.Always p.resetFlags := set_progress h rfl rfl
    refine enter_late hreset _ fun hplace => h.1 hplace ?_
    rw [hstate]
    decide
  | multitransport =>
      exact enter_early (h.emit .multitransportResponse (by simp) trivial) (by decide)
  | license hpdu => exact licensePdu h hpdu
  | issue _ => exact set_progress (h.emit .licenseIssued (by simp) trivial) rfl rfl

theorem recv (hrecv : Recv env p rc q) (h : inputMonitor.Always p) : inputMonitor.Always q :=
  hrecv.invariant (fun _ _ => recvStep) (fun _ h => h.recvPdu rc) h

theorem acts (hacts : Acts False p q) (h : inputMonitor.Always p) : inputMonitor.Always q := by
  have hsteps : RecvSteps False (fun _ => False) p q := hacts.steps False.elim
  exact hsteps.invariant (fun _ _ => recvStep) h

/-- The connection up to the client info does not reach the finalization. -/
theorem early : inputMonitor.Early := by
  constructor
  · intro log a b _ hstate _ _ _ hfinal
    have hle : ConnectionState.finalizationSync ≤ .connectTimeAutoDetectRequest :=
      Nat.le_trans hfinal hstate
    exact absurd hle (by decide)
  · intro e rdp log he
    cases e <;> first | exact trivial | cases he

/-- In a state that waits for a PDU of the finalization a Confirm Active was accepted. -/
theorem confirmed_after {a : Peer} (h : inputMonitor.Always p)
    (hstate : .finalizationSync ≤ p.state) (hsuffix : p.log <:+ a.log)
    (hplace : InputInPlace a.log) : Happened .confirmActive a.log :=
  (h.1 (hplace.of_suffix hsuffix) hstate).of_suffix hsuffix

theorem tells (htells : Relation.ReflTransGen Tell p q) (h : inputMonitor.Always p) :
    inputMonitor.Always q :=
  tells_invariant (fun _ _ => acts) (fun _ h => h.emit .postConnect (by simp) trivial)
    (fun _ h => h.emit .activate (by simp) trivial) htells h

/-- **Each move of the state machine.** -/
theorem moves {env : Env} (hmoves : Moves env p rc q) (h : inputMonitor.Always p) :
    inputMonitor.Always q := by
  cases hmoves with
  | quiet hquiet => exact h.quiet hquiet
  | connects _ hsteps => exact h.connects early hsteps
  | autoDetect _ hquiet hs | multitransport _ hquiet hs =>
    exact enter_early (h.quiet hquiet) (by rcases hs with rfl | rfl <;> decide)
  | autoDetectRecv _ hrecv hquiet hq _ =>
    have hb := (recv hrecv h).quiet hquiet
    rcases hq with rfl | rfl
    · exact hb
    · exact enter_early hb (by decide)
  | @licenseRequest _ a b _ _ _ _ hquiet hquiet' hq =>
    have hconfigured : inputMonitor.Always (a.setLicense .configured) :=
      set_progress (h.quiet hquiet) rfl rfl
    have hb := hconfigured.quiet hquiet'
    rcases hq with rfl | rfl
    · exact hb
    · exact set_progress hb rfl rfl
  | licenseValid _ _ _ hquiet hq =>
    have hcompleted : inputMonitor.Always (p.setLicense .completed) := set_progress h rfl rfl
    have ha := hcompleted.quiet hquiet
    rcases hq with rfl | rfl
    · exact ha
    · exact enter_early ha (by decide)
  | licenseCompleted _ _ => exact enter_early h (by decide)
  | licenseRecv _ hrecv hq =>
    rcases hq with rfl | ⟨-, rfl⟩
    · exact recv hrecv h
    · exact enter_early (recv hrecv h) (by decide)
  | recv _ hrecv | awaitMore _ hrecv _ => exact recv hrecv h
  | demand _ hquiet =>
      exact enter_early ((h.quiet hquiet).emit .demandActive (by simp) trivial) (by decide)
  | monitorLayout _ hquiet => exact enter_early (h.quiet hquiet) (by decide)
  | await hawaited hrecv _ hquiet hq _ =>
    have hb := (recv hrecv h).quiet hquiet
    rcases hq with rfl | rfl
    · exact hb
    · have hfinal := (finalization_of_awaited hawaited).1
      exact enter_late hb _ (confirmed_after h hfinal (hrecv.suffix.trans hquiet.suffix))
  | skipKeys hstate =>
    refine enter_late h _ fun hplace => h.1 hplace ?_
    rw [hstate]
    decide
  | fontList hstate hrecv hq _ =>
    have ha := recv hrecv h
    rcases hq with rfl | ⟨-, rfl⟩
    · exact ha
    have hfinal : .finalizationSync ≤ p.state := by
      rw [hstate]
      decide
    exact enter_late ha _ (confirmed_after h hfinal hrecv.suffix)
  | tell _ htells => exact tells htells h
  | active _ htells hrecv => exact recv hrecv (tells htells h)

end InputMonitor

/-- **No input before the activation**, as long as PDUs with input and Font Lists come in a state of
the finalization or later: in every run of the server, before each call of a callback for input a
Confirm Active was accepted. -/
theorem input_called_after_confirm {env : Env} {p : Peer} {rc : StateRun} (h : Reaches env p rc)
    (hplace : InputInPlace p.log) {call : InputCall} {rdp : Rdp} {earlier : Log}
    (hcall : (.input call, rdp) :: earlier <:+ p.log) : Happened .confirmActive earlier := by
  have halways : inputMonitor.Always p := by
    refine h.invariant ?_ (fun _ _ hquiet h => h.quiet hquiet) (fun _ _ => InputMonitor.acts)
      fun _ _ _ => InputMonitor.moves
    intro settings
    have hearly : ¬ConnectionState.finalizationSync ≤ .initial := by decide
    exact ⟨fun _ hstate => absurd hstate hearly, trivial⟩
  have hsuffix : earlier <:+ p.log := (suffix_cons _ _).trans hcall
  exact (halways.2.of_suffix hcall).2 (hplace.of_suffix hsuffix)

theorem plainRun_confirm_key : (plainRun false [Client.confirmActive, Client.fastPathKey]).map
    (fun r => ((r.2.log.map Prod.fst).take 2, decide (InputInPlace r.2.log))) =
      some ([.recvPdu .success, .input (.keyboard 0 0x1E)], true) := by
  decide +kernel

theorem second_suffix {log : Log} (h : (log.map Prod.fst).take 2 = [e', e]) :
    ∃ rdp earlier, (e, rdp) :: earlier <:+ log := by
  have hsuffix : e :: (log.map Prod.fst).drop 2 <:+ log.map Prod.fst := by
    nth_rewrite 2 [← take_append_drop 2 (log.map Prod.fst)]
    rw [h]
    exact suffix_cons _ _
  obtain ⟨rdp, earlier, hearlier, -⟩ := exists_suffix_of_map hsuffix
  exact ⟨rdp, earlier, hearlier⟩

theorem input_called_after_confirm_key : ∃ p rc call rdp earlier, Reaches (.agreeing false) p rc ∧
    InputInPlace p.log ∧ (.input call, rdp) :: earlier <:+ p.log ∧
    Happened .confirmActive earlier := by
  obtain ⟨⟨rc, p⟩, hrun, hevents⟩ := Option.map_eq_some_iff.mp plainRun_confirm_key
  obtain ⟨htake, hplace⟩ := Prod.mk.inj hevents
  have hplace : InputInPlace p.log := of_decide_eq_true hplace
  obtain ⟨rdp, earlier, hearlier⟩ := second_suffix htake
  exact ⟨p, rc, _, rdp, earlier, plainRun_reaches hrun, hplace, hearlier,
    input_called_after_confirm (plainRun_reaches hrun) hplace hearlier⟩

/-- The events of the run in which a key is pressed before Confirm Active, and the newest of
them. -/
theorem plainRun_key : (plainRun false [Client.fastPathKey]).map
    (fun r => ((r.2.log.map Prod.fst).take 2, (r.2.log.map Prod.fst).contains .confirmActive)) =
      some ([.recvPdu .success, .input (.keyboard 0 0x1E)], false) := by
  decide +kernel

/-- **Input reaches the application before the activation**: a client that goes on to Confirm Active
and sends a key there in a fast-path PDU has its key delivered, though no Confirm Active was
accepted. -/
theorem input_reachable_before_activation : ∃ env p rc call rdp earlier, Reaches env p rc ∧
    (.input call, rdp) :: earlier <:+ p.log ∧ ¬Happened .confirmActive earlier := by
  obtain ⟨⟨rc, p⟩, hrun, hevents⟩ := Option.map_eq_some_iff.mp plainRun_key
  obtain ⟨htake, hconfirm⟩ := Prod.mk.inj hevents
  obtain ⟨rdp, earlier, hearlier⟩ := second_suffix htake
  refine ⟨_, p, rc, _, rdp, earlier, plainRun_reaches hrun, hearlier, ?_⟩
  intro hhappened
  have hmem := happened_iff_mem_map.mp (hhappened.of_suffix ((suffix_cons _ _).trans hearlier))
  have hnotMem : .confirmActive ∉ p.log.map Prod.fst := by
    simpa [contains_eq_mem] using hconfirm
  exact hnotMem hmem

end WBFreeRDP.Server

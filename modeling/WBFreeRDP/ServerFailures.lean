/-
# Rejected PDUs

`peer_recv_callback` is asked to fail whenever `peer_recv_pdu` rejects what it reads.  The states of
the finalization that wait for a PDU look at the flag of that PDU instead of the status.
-/
import WBFreeRDP.ServerRuns

namespace WBFreeRDP.Server

open Program EventLog List

/-! ## The statuses in a log -/

/-- The status of `peer_recv_pdu` that an event stands for. -/
def Event.recvStatus : Event → Option StateRun
  | .recvPdu rc => some rc
  | _ => none

/-- The statuses that `peer_recv_pdu` has returned, the newest first. -/
def recvStatuses (log : Log) : List StateRun := log.filterMap fun entry => entry.1.recvStatus

/-- Two peers have the same statuses in their logs. -/
def SameStatuses (p q : Peer) : Prop := recvStatuses q.log = recvStatuses p.log

theorem SameStatuses.trans (h : SameStatuses p q) (h' : SameStatuses q r) :
    SameStatuses p r := Eq.trans h' h

variable {e : Event}

theorem sameStatuses_emit (p) (he : e.recvStatus = none) : SameStatuses p (p.emit e) :=
  filterMap_cons_none he

theorem sameStatuses_enter (p s) : SameStatuses p (p.enter s) :=
  filterMap_cons_none rfl

theorem sameStatuses_emit_enter (p) (he : e.recvStatus = none) (s) :
    SameStatuses p ((p.emit e).enter s) :=
  (sameStatuses_emit p he).trans (sameStatuses_enter _ s)

theorem Quiet.sameStatuses (h : Quiet p q) : SameStatuses p q := by
  rw [SameStatuses, h.2]

variable {replay : Prop} {sharing : Event → Prop} {a : Peer}

theorem LicensePdu.sameStatuses (h : LicensePdu p q) : SameStatuses p q := by
  cases h with
  | challenge _ => rfl
  | alert errorCode stateTransition => exact sameStatuses_emit p (e := .errorAlert _ _) rfl

theorem RecvStep.sameStatuses (h : RecvStep replay sharing p q) : SameStatuses p q := by
  cases h with
  | quiet h => exact h.sameStatuses
  | deactivate _ =>
    exact sameStatuses_emit_enter p (e := .reactivate) rfl .capabilitiesExchangeDemandActive
  | demand _ | confirm _ _ | multitransport => exact sameStatuses_emit_enter p rfl _
  | inputPdu he =>
    rcases he with rfl | rfl
    all_goals exact sameStatuses_emit p rfl
  | input _ call => exact sameStatuses_emit p rfl
  | flag _ hpdu =>
    cases hpdu with
    | synchronize => exact sameStatuses_emit p (e := .synchronize) rfl
    | cooperate _ => exact sameStatuses_emit p (e := .cooperate) rfl
    | request _ => exact sameStatuses_emit p (e := .request) rfl
    | persistentKeyList => exact sameStatuses_emit p (e := .persistentKeyList) rfl
  | listFonts _ => exact sameStatuses_emit_enter p (e := .fontList) rfl .finalizationClientFontMap
  | activate _ | cooperate _ => exact sameStatuses_enter p _
  | confirmed _ => exact sameStatuses_enter p.resetFlags _
  | replayed _ _ | abort => rfl
  | license hpdu => exact hpdu.sameStatuses
  | issue _ => exact sameStatuses_emit p (e := .licenseIssued) rfl

theorem RecvSteps.sameStatuses (h : RecvSteps replay sharing p q) : SameStatuses p q := by
  induction h with
  | refl => rfl
  | tail _ hstep ih => exact ih.trans hstep.sameStatuses

theorem Acts.sameStatuses (h : Acts False p q) : SameStatuses p q := by
  have hsteps : RecvSteps False (fun _ => False) p q := h.steps False.elim
  exact hsteps.sameStatuses

theorem ConnectStep.sameStatuses (h : ConnectStep p q) : SameStatuses p q := by
  cases h with
  | quiet h => exact h.sameStatuses
  | initial _ | authenticated _ _ | connectResponse _ | startJoin _ => exact sameStatuses_enter p _
  | negoAccepted _ _ => exact sameStatuses_emit p (e := .negoAccepted _ _ _) rfl
  | logon _ _ => exact sameStatuses_emit p (e := .logon) rfl
  | connectInitial _ _ | userId _ _ => rfl
  | connected _ | erectDomain _ | attachUser _ | keys _ | clientInfo _ =>
    exact sameStatuses_emit_enter p rfl _
  | skipJoin _ | joinRequest _ _ | join _ _ => exact sameStatuses_enter { p with mcs := _ } _

theorem Connects.sameStatuses (h : Connects p q) : SameStatuses p q := by
  induction h with
  | refl => rfl
  | tail _ hstep ih => exact ih.trans hstep.sameStatuses

theorem sameStatuses_of_tells (h : Relation.ReflTransGen Tell p q) : SameStatuses p q := by
  induction h with
  | refl => rfl
  | tail _ htell ih =>
  apply ih.trans
  cases htell with
  | acts h => exact h.sameStatuses
  | postConnect | activate => exact sameStatuses_emit _ rfl

theorem Recv.statuses (h : Recv env p rc a)
    (hsame : SameStatuses a q) : recvStatuses q.log = rc :: recvStatuses p.log := by
  obtain ⟨b, hreceived, rfl⟩ := h
  rw [hsame, ← hreceived.steps.sameStatuses]
  exact filterMap_cons_some rfl

/-- **An iteration adds at most one status**, and a failed one is its own, unless a PDU is
awaited. -/
theorem Moves.statuses (h : Moves env p rc q) :
    SameStatuses p q ∨ ∃ rc', recvStatuses q.log = rc' :: recvStatuses p.log ∧
      (rc'.isFailed = true → rc.isFailed = true ∨ rc = .success ∧ (awaited p).isSome = true) := by
  -- the next state may be entered after what was done
  have henter {b : Peer} {s : ConnectionState} (hq : q = b ∨ q = b.enter s) : SameStatuses b q := by
    rcases hq with rfl | rfl
    · rfl
    · exact sameStatuses_enter _ _
  cases h with
  | quiet h | connects _ h => exact .inl h.sameStatuses
  | autoDetect _ h _ | multitransport _ h _ | monitorLayout _ h =>
    exact .inl (h.sameStatuses.trans (sameStatuses_enter _ _))
  | autoDetectRecv _ h h' hq hrc =>
    exact .inr ⟨_, h.statuses (h'.sameStatuses.trans (henter hq)),
      fun hfailed => .inl (hrc hfailed ▸ hfailed)⟩
  | licenseRequest _ _ _ h h' hq =>
    have hb := h.sameStatuses.trans h'.sameStatuses
    rcases hq with rfl | rfl
    · exact .inl hb
    · exact .inl hb
  | licenseValid _ _ _ h hq => exact .inl (h.sameStatuses.trans (henter hq))
  | licenseCompleted _ _ | skipKeys _ => exact .inl (sameStatuses_enter _ _)
  | licenseRecv _ h hq => exact .inr ⟨_, h.statuses (henter (hq.imp_right And.right)), .inl⟩
  | recv _ h => exact .inr ⟨_, h.statuses rfl, .inl⟩
  | demand _ h => exact .inl (h.sameStatuses.trans (sameStatuses_emit_enter _ rfl _))
  | await _ h _ h' hq hrc =>
    refine .inr ⟨_, h.statuses (h'.sameStatuses.trans (henter hq)), fun hfailed => .inl ?_⟩
    rcases hrc with rfl | rfl
    · exact hfailed
    · rfl
  | awaitMore hawaited h hflag =>
      exact .inr ⟨_, h.statuses rfl, fun _ => .inr ⟨rfl, hawaited ▸ rfl⟩⟩
  | fontList _ h hq hrc =>
    exact .inr ⟨_, h.statuses (henter (hq.imp_right And.right)),
      fun hfailed => .inl (hrc hfailed ▸ hfailed)⟩
  | tell _ h => exact .inl (sameStatuses_of_tells h)
  | active _ h h' =>
  refine .inr ⟨_, ?_, .inl⟩
  rw [← sameStatuses_of_tells h]
  exact h'.statuses rfl

/-! ## The flag of an awaited PDU -/

/-- The flag that a PDU of the finalization sets. -/
def Event.flag : Event → ℕ
  | .synchronize => Finalize.csSynchronizePdu
  | .cooperate => Finalize.csControlCooperatePdu
  | .request => Finalize.csControlRequestPdu
  | .persistentKeyList => Finalize.csPersistentKeyListPdu
  | .fontList => Finalize.csFontListPdu
  | _ => 0

theorem bit_of_awaited {next} (h : awaited p = some (flag, next)) :
    ∃ i, flag = 2 ^ i ∧ 4 ≤ i ∧ i ≤ 7 := by
  have hbits {i : ℕ} {s : ConnectionState} (h : some (2 ^ i, s) = some (flag, next))
    (hi : 4 ≤ i ∧ i ≤ 7) :
      ∃ i, flag = 2 ^ i ∧ 4 ≤ i ∧ i ≤ 7 := ⟨i, (Prod.mk.inj (Option.some.inj h)).1.symm, hi⟩
  unfold awaited at h
  split at h
  · exact hbits (i := 4) h (by decide)
  · exact hbits (i := 5) h (by decide)
  · exact hbits (i := 6) h (by decide)
  · split at h
    · exact hbits (i := 7) h (by decide)
    · cases h
  · cases h

section Flags

variable {env : Env} {p q : Peer} {i : ℕ}

theorem Quiet.isFlagSet_eq (h : Quiet p q) (flag) : q.isFlagSet flag = p.isFlagSet flag := by
  rw [Peer.isFlagSet, h.flags_eq, Peer.isFlagSet]

theorem isFlagSet_setFlag (p : Peer) (j i) :
    (p.setFlag (2 ^ j)).isFlagSet (2 ^ i) = (p.isFlagSet (2 ^ i) || decide (j = i)) :=
  Finalize.isFlagSet_lor p.finalizeScPdus j i

theorem FlagPdu.bit (h : FlagPdu p e flag) : e.flag = flag ∧ ∃ j, flag = 2 ^ j := by
  cases h with
  | synchronize => exact ⟨rfl, 4, rfl⟩
  | cooperate _ => exact ⟨rfl, 5, rfl⟩
  | request _ => exact ⟨rfl, 6, rfl⟩
  | persistentKeyList => exact ⟨rfl, 7, rfl⟩

theorem Acts.isFlagSet_eq (h : Acts inputs p q) (hstate : p.state ≠ .active) (flag) :
    q.isFlagSet flag = p.isFlagSet flag := by
  obtain ⟨hprogress, -⟩ := h.inactive hstate
  rw [Peer.isFlagSet, show q.finalizeScPdus = p.finalizeScPdus from
    congrArg (·.finalizeScPdus) hprogress, Peer.isFlagSet]

theorem Confirmable.isFlagSet_eq (h : Confirmable replay p q) (hi : i ≤ 7) :
    q.isFlagSet (2 ^ i) = p.isFlagSet (2 ^ i) := by
  cases h with
  | expected h _ => exact h.isFlagSet_eq _
  | @replayed a _ _ h h' =>
  have hbit : decide (9 = i) = false := by simp; omega
  rw [h'.isFlagSet_eq]
  exact (isFlagSet_setFlag a 9 i).trans (by rw [hbit, Bool.or_false, h.isFlagSet_eq])

theorem LicensePdu.isFlagSet_eq (h : LicensePdu p q) (flag) :
    q.isFlagSet flag = p.isFlagSet flag := by
  cases h with
  | challenge _ => rfl
  | alert _ _ => rfl

/-- **What a received PDU does to a flag of the finalization**: it leaves it, or it is the PDU of
the flag, or it is a Confirm Active that is answered. -/
theorem Received.isFlagSet
    (h : Received replay sharing p rc q) (hstate : p.state ≠ .active) (hi : i ≤ 7) :
    q.isFlagSet (2 ^ i) = p.isFlagSet (2 ^ i) ∨
      (q.isFlagSet (2 ^ i) = true ∧ ∃ e, e.flag = 2 ^ i ∧ sharing e) ∨
      (q.isFlagSet (2 ^ i) = false ∧ sharing .confirmActive) := by
  have hset {a : Peer} {j : ℕ} (hj : 7 < j) (h : a.finalizeScPdus = p.finalizeScPdus) :
      (a.setFlag (2 ^ j)).isFlagSet (2 ^ i) = p.isFlagSet (2 ^ i) := by
    have hbit : decide (j = i) = false := by simp; omega
    rw [isFlagSet_setFlag, hbit, Bool.or_false, Peer.isFlagSet, h, Peer.isFlagSet]
  cases h with
  | acts h _ => exact .inl (h.isFlagSet_eq hstate _)
  | @input _ a _ e h _ h' _ =>
    have ha : (a.emit e).state ≠ .active := by
      rw [show (a.emit e).state = p.state from h.state_eq]
      exact hstate
    exact .inl ((h'.isFlagSet_eq ha _).trans (h.isFlagSet_eq _))
  | @flag _ a _ e _ hs h hpdu h' _ =>
    obtain ⟨hflag, j, rfl⟩ := hpdu.bit
    have hq : q.isFlagSet (2 ^ i) = (p.isFlagSet (2 ^ i) || decide (j = i)) := by
      rw [h'.isFlagSet_eq, isFlagSet_setFlag, ← h.isFlagSet_eq]
      rfl
    by_cases hij : j = i
    · subst hij
      exact .inr (.inl ⟨by rw [hq, decide_eq_true rfl, Bool.or_true], e, hflag, hs⟩)
    · exact .inl (by rw [hq, decide_eq_false hij, Bool.or_false])
  | @fontMap a _ hs h h' =>
      exact .inl ((h'.isFlagSet_eq _).trans (hset (j := 8) (by decide) h.flags_eq))
  | fontList hs h h' hactive _ =>
    exact .inl ((hactive.isFlagSet_eq _).trans ((h'.isFlagSet_eq _).trans
      (hset (j := 8) (by decide) h.flags_eq)))
  | replayed _ _ h h' =>
      exact .inl ((h'.isFlagSet_eq _).trans (hset (j := 9) (by decide) h.flags_eq))
  | confirmSync _ h h' => exact .inl ((h'.isFlagSet_eq _).trans (h.isFlagSet_eq hi))
  | confirmCooperate _ h h' hcooperate =>
    exact .inl ((hcooperate.isFlagSet_eq _).trans ((h'.isFlagSet_eq _).trans (h.isFlagSet_eq hi)))
  | @confirmed _ a b c _ hs h h' hcooperate hsync _ =>
    refine .inr (.inr ⟨?_, hs⟩)
    rw [hsync.isFlagSet_eq]
    exact Finalize.isFlagSet_resetFlags _ _ (by omega)
  | multitransport h h' _ | issue h _ h' _ =>
      exact .inl ((h'.isFlagSet_eq _).trans (h.isFlagSet_eq _))
  | license h hpdu h' _ =>
    exact .inl ((h'.isFlagSet_eq _).trans ((hpdu.isFlagSet_eq _).trans (h.isFlagSet_eq _)))
  | aborted h hpdu h' haborted =>
  have hq := (haborted.isFlagSet_eq (2 ^ i)).trans (h'.isFlagSet_eq (2 ^ i))
  rcases hpdu with rfl | hpdu
  · exact .inl (hq.trans (h.isFlagSet_eq _))
  · exact .inl (hq.trans ((hpdu.isFlagSet_eq _).trans (h.isFlagSet_eq _)))

/-- A condition was checked in a handler that has come to its end. -/
theorem of_ensure_bind_run {β : Type} {c} [Decidable c] {f} {r : β}
    (h : (ensure c >>= f) a = (.ok r, b)) : c ∧ f () a = (.ok r, b) := by
  by_cases hc : c
  · rw [ensure_bind_run hc] at h
    exact ⟨hc, h⟩
  · rw [ensure, if_neg hc] at h
    cases h

variable {Q : Except Unit StateRun → Peer → Prop} {header : ShareControl}

/-- A packet whose share control header can be read is handled as a share control PDU. -/
theorem peerRecvPacket_gives_open (h : openShareControl env p = (.ok header, a))
    (hbody : ∀ b, parse rdpReadShareControlHeader b = (.ok header, a) → (do
        let rc ← peerRecvShareControlPdu env
        parse Parser.consumed
        return rc : Serve StateRun).Gives b Q) : (peerRecvPacket env).Gives p Q := by
  obtain ⟨version, p1, hversion, h1⟩ := exists_of_bind_run_ok h
  obtain ⟨htpkt, h2⟩ := of_ensure_bind_run h1
  obtain ⟨⟨length, channelId⟩, p2, hheader, h3⟩ := exists_of_bind_run_ok h2
  obtain ⟨hconnected, h4⟩ := of_ensure_bind_run (a := p2) h3
  obtain ⟨hstate, h5⟩ := of_ensure_bind_run (a := p2) h4
  obtain ⟨securityFlags, p3, hdecrypt, h₆⟩ := exists_of_bind_run_ok h5
  obtain ⟨hglobal, h₇⟩ := of_ensure_bind_run h₆
  have hdisconnect : p2.disconnect = false := hconnected
  apply gives_bind_run hversion
  rw [if_pos htpkt]
  apply gives_bind_run hheader
  apply gives_observe_bind
  rw [if_neg (by rw [hdisconnect]; decide)]
  apply gives_observe_bind
  rw [if_neg hstate]
  apply gives_bind_run hdecrypt
  apply gives_observe_bind
  rw [if_pos hglobal]
  exact hbody p3 h₇

/-- The buffer holds a Confirm Active that is accepted and answered: the flags are cleared. -/
def Resets (env : Env) (p : Peer) : Prop :=
  ∃ header a, openShareControl env p = (.ok header, a) ∧ header.pduType = pduTypeConfirmActive ∧
    (rdpServerAcceptConfirmActive env header.totalLength a).1 = .ok ()

/-- A Confirm Active that is answered clears the flags, any other one leaves them. -/
theorem rdpServerAcceptConfirmActive_flags (pduLength) (hi : i ≤ 7) (a) :
    (rdpServerAcceptConfirmActive env pduLength).Gives a fun r q =>
      q.isFlagSet (2 ^ i) = (if r = .ok () then false else a.isFlagSet (2 ^ i)) := by
  have hfail {b : Peer} (h : b.isFlagSet (2 ^ i) = a.isFlagSet (2 ^ i)) (u : Unit) :
      b.isFlagSet (2 ^ i) = if (.error u : Except Unit Unit) = .ok () then false
        else a.isFlagSet (2 ^ i) := h.trans (if_neg (by simp)).symm
  apply gives_bind
  apply (confirmable_gives env a).mono
  rintro (u | u) b hb
  · exact hfail (congrArg (·.isFlagSet (2 ^ i)) hb) u
  have hb := Confirmable.isFlagSet_eq hb hi
  apply quiet_external.gives_bind
  · exact fun u c hc => hfail ((hc.isFlagSet_eq _).trans hb) u
  intro _ c hc
  have hc := (hc.isFlagSet_eq _).trans hb
  apply (quiet_require env _).gives_bind
  · exact fun u d hd => hfail ((hd.isFlagSet_eq _).trans hc) u
  intro _ d hd
  have hd := (hd.isFlagSet_eq _).trans hc
  apply gives_update_bind
  apply gives_update_bind
  apply (quiet_require env _).gives_bind
  · exact fun u f hf => hfail ((hf.isFlagSet_eq _).trans hd) u
  intro _ f hf
  have hf := (hf.isFlagSet_eq _).trans hd
  apply gives_update_bind
  apply (quiet_require env _).gives_bind
  · exact fun u g hg => hfail ((hg.isFlagSet_eq _).trans hf) u
  intro _ g _
  apply gives_update_bind
  apply gives_update
  exact Finalize.isFlagSet_resetFlags g.finalizeScPdus i (by omega)

/-- What follows the body of a share control PDU leaves the flags. -/
theorem gives_consumed (h : f.Gives p fun _ q => q.isFlagSet (2 ^ i) = b) : (do
      let rc ← f
      parse Parser.consumed
      return rc : Serve StateRun).Gives p fun _ q => q.isFlagSet (2 ^ i) = b := by
  apply gives_bind
  apply h.mono
  rintro (u | rc) a ha
  · exact ha
  apply quiet_parse.gives_bind
  all_goals exact fun _ t ht => (ht.isFlagSet_eq _).trans ha

theorem peerRecvPacket_confirm (hi : i ≤ 7)
    (h : openShareControl env p = (.ok header, a)) (htype : header.pduType = pduTypeConfirmActive) :
    (peerRecvPacket env).Gives p fun _ q => q.isFlagSet (2 ^ i) =
      (if (rdpServerAcceptConfirmActive env header.totalLength a).1 = .ok () then false
        else a.isFlagSet (2 ^ i)) := by
  apply peerRecvPacket_gives_open h
  intro b hb
  apply gives_consumed
  apply gives_bind_run hb
  rw [if_neg (by rw [htype]; decide), if_pos htype]
  apply gives_bind
  have haccept := @rdpServerAcceptConfirmActive_flags env i header.totalLength hi a
  rw [Gives] at haccept ⊢
  generalize rdpServerAcceptConfirmActive env header.totalLength a = result at haccept ⊢
  obtain ⟨u | u, c⟩ := result
  · exact haccept
  · exact haccept

theorem parse_run {α : Type} {f} {a : α}
    (h : f p.stream = some (a, rest)) : parse f p = (.ok a, { p with stream := rest }) := by
  unfold parse
  rw [h]

theorem isFlagSet_setFlag_self {p : Peer} (j) : (p.setFlag (2 ^ j)).isFlagSet (2 ^ j) = true := by
  rw [isFlagSet_setFlag, decide_eq_true rfl, Bool.or_true]

theorem peerRecvDataPdu_sets (h : Carries p e) (hflag : e.flag = 2 ^ i) (hi : i ≤ 7) :
    (peerRecvDataPdu env).Gives p fun _ q => q.isFlagSet (2 ^ i) = true := by
  obtain ⟨header, rest, hheader, hbody⟩ := h
  apply gives_bind_run (parse_run hheader)
  rw [← hflag]
  cases hbody with
  | synchronize htype hbody =>
    rw [if_pos htype]
    apply gives_bind
    apply gives_bind_run (parse_run hbody)
    exact isFlagSet_setFlag_self 4
  | cooperate htype hbody haction hset hids =>
    rw [if_neg (by rw [htype]; decide), if_pos htype]
    apply gives_bind
    apply gives_bind_run (parse_run hbody)
    rw [if_neg (by rw [haction]; decide), if_pos haction]
    apply gives_observe_bind
    apply gives_ensure_bind' hset
    apply gives_ensure_bind' hids
    exact isFlagSet_setFlag_self 5
  | request htype hbody haction hset hids =>
    rw [if_neg (by rw [htype]; decide), if_pos htype]
    apply gives_bind
    apply gives_bind_run (parse_run hbody)
    rw [if_pos haction]
    apply gives_observe_bind
    apply gives_ensure_bind' hset
    apply gives_ensure_bind' hids
    exact isFlagSet_setFlag_self 6
  | persistentKeyList htype hbody =>
    rw [if_neg (by rw [htype]; decide), if_neg (by rw [htype]; decide),
      if_neg (by rw [htype]; decide), if_pos htype]
    apply gives_bind
    apply gives_bind_run (parse_run hbody)
    exact isFlagSet_setFlag_self 7
  | fontList htype hbody =>
  have hbit : (2 : ℕ) ^ 8 = 2 ^ i := hflag
  have := Nat.pow_right_injective (le_refl 2) hbit
  omega

/-- **The flag of an awaited PDU after `peer_recv_pdu`**: it was set before and the buffer does not
clear the flags, or the buffer holds the PDU. -/
theorem peerRecvPdu_flag (hstate : p.state ≠ .active) (hi : i ≤ 7) :
    (peerRecvPdu env p).2.isFlagSet (2 ^ i) = true ↔
      (p.isFlagSet (2 ^ i) = true ∧ ¬Resets env p) ∨ ∃ e, e.flag = 2 ^ i ∧ Holds env p e := by
  have hpdu : (peerRecvPdu env p).2.isFlagSet (2 ^ i) =
      (peerRecvPacket env p).2.isFlagSet (2 ^ i) := by
    have hgives : (peerRecvPdu env).Gives p fun _ q =>
        q.isFlagSet (2 ^ i) = (peerRecvPacket env p).2.isFlagSet (2 ^ i) := by
      apply gives_attempt_bind
      rw [Gives]
      rcases peerRecvPacket env p with ⟨u | rc, a⟩
      · rfl
      · rfl
    exact hgives
  rw [hpdu]
  have hreceived := (peerRecvPacket_gives env p).isFlagSet hstate hi
  have hopen {header : ShareControl} {a : Peer} (h : openShareControl env p = (.ok header, a)) :
      a.isFlagSet (2 ^ i) = p.isFlagSet (2 ^ i) := by
    have hquiet := quiet_openShareControl env p
    rw [Gives, h] at hquiet
    exact hquiet.isFlagSet_eq _
  constructor
  · intro hset
    rcases hreceived with hsame | ⟨-, he⟩ | ⟨hclear, -⟩
    · refine .inl ⟨hsame ▸ hset, ?_⟩
      rintro ⟨header, a, h, htype, haccept⟩
      have hconfirm := peerRecvPacket_confirm hi h htype
      rw [Gives, if_pos haccept, hset] at hconfirm
      cases hconfirm
    · exact .inr he
    · rw [hclear] at hset
      cases hset
  rintro (⟨hset, hresets⟩ | ⟨e, hflag, header, a, h, hcarries⟩)
  · rcases hreceived with hsame | ⟨hset', -⟩ | ⟨-, header, a, h, hconfirm⟩
    · rw [hsame]
      exact hset
    · exact hset'
    rcases hconfirm with ⟨-, _, _, -, hbody⟩ | ⟨htype, -⟩
    · cases hbody
    have hconfirm := peerRecvPacket_confirm hi h htype
    have haccept : ¬(rdpServerAcceptConfirmActive env header.totalLength a).1 = .ok () :=
      fun haccept => hresets ⟨header, a, h, htype, haccept⟩
    rw [if_neg haccept, hopen h, hset] at hconfirm
    exact hconfirm
  · rcases hcarries with ⟨htype, hcarries⟩ | ⟨-, rfl⟩
    · have hgives : (peerRecvPacket env).Gives p fun _ q => q.isFlagSet (2 ^ i) = true := by
        apply peerRecvPacket_gives_open h
        intro b hb
        apply gives_consumed
        apply gives_bind_run hb
        rw [if_pos htype]
        exact peerRecvDataPdu_sets hcarries hflag hi
      exact hgives
    · exact absurd hflag (Nat.two_pow_pos i).ne

end Flags

/-! ## The callback -/

/-- The peer at the start of the last iteration of `peer_recv_callback`. -/
def lastStart (env : Env) : ℕ → Peer → Peer
  | 0, p => p
  | fuel + 1, p =>
      let (rc, q) := iterate env p
      if rc.isContinue then lastStart env fuel (rerun rc q) else p

/-- No PDU is awaited, or the flag of the awaited PDU is set and the buffer does not clear the
flags, or the buffer holds the awaited PDU. -/
def Heeds (env : Env) (p : Peer) : Prop :=
  ∀ flag next, awaited p = some (flag, next) →
    (p.isFlagSet flag = true ∧ ¬Resets env p) ∨ ∃ e, e.flag = flag ∧ Holds env p e

/-- A rejected PDU is not overlooked in an iteration from a peer: this is so after ReachedState was
called. -/
def Harmless (env : Env) (p : Peer) : Prop := Heeds env (requireCallback env .reachedState p).2

section Callback

variable {env : Env} {p q : Peer} {rc : StateRun}

/-- The states that wait for a PDU receive one and look at its flag. -/
theorem peerRecvState_gives_await {next} (h : awaited p = some (flag, next))
    (hQ : ∀ f, Within SameStatuses f → (awaitFlag env flag f).Gives p Q) :
    (peerRecvState env).Gives p Q := by
  have htransition (s : ConnectionState) : Within SameStatuses (rdpServerTransitionToState s) :=
    fun a => sameStatuses_enter a s
  have hgrant : Within SameStatuses (grantControl env) := by
    intro a
    apply (quiet_require env _).gives_bind
    · exact fun _ b hb => hb.sameStatuses
    · exact fun _ b hb => hb.sameStatuses.trans (htransition _ b)
  apply gives_observe_bind
  unfold awaited at h
  split at h
  iterate 2
    · rename_i hstate
      rw [hstate]
      cases h
      exact hQ _ (htransition _)
  · rename_i hstate
    rw [hstate]
    cases h
    exact hQ _ hgrant
  · rename_i hstate
    rw [hstate]
    split at h
    · rename_i hkeys
      cases h
      apply gives_observe_bind
      apply gives_observe_bind
      rw [if_pos hkeys]
      exact hQ _ (htransition _)
    · cases h
  · cases h

/-- A state that waits adds the status of `peer_recv_pdu`; after a failed one it fails exactly if
the flag is set. -/
theorem awaitFlag_gives (flag) (hf : Within SameStatuses f) :
    (awaitFlag env flag f).Gives p fun r q =>
      recvStatuses q.log = StateRun.ofResult (peerRecvPdu env p).1 :: recvStatuses p.log ∧
      ((StateRun.ofResult (peerRecvPdu env p).1).isFailed = true →
        ((StateRun.ofResult r).isFailed = true ↔ (peerRecvPdu env p).2.isFlagSet flag = true)) := by
  have hrecv := peerRecvPdu_gives env p
  apply gives_attempt_bind
  rw [Gives] at hrecv ⊢
  generalize peerRecvPdu env p = result at hrecv ⊢
  obtain ⟨ret, a⟩ := result
  apply gives_observe_bind
  by_cases hflag : a.isFlagSet flag = true
  swap
  · rw [if_neg hflag]
    have hsuccess : ¬StateRun.success.isFailed = true := by decide
    exact ⟨hrecv.statuses rfl, fun _ => iff_of_false hsuccess hflag⟩
  rw [if_pos hflag]
  apply gives_bind
  have hsame := hf a
  rw [Gives] at hsame ⊢
  generalize f a = next at hsame ⊢
  obtain ⟨u | u, b⟩ := next
  · exact ⟨hrecv.statuses hsame, fun _ => iff_of_true rfl hflag⟩
  cases ret with
  | ok rc => exact ⟨hrecv.statuses hsame, fun hfailed => iff_of_true hfailed hflag⟩
  | error u => exact ⟨hrecv.statuses hsame, fun _ => iff_of_true rfl hflag⟩

/-- **After a rejected PDU an iteration fails exactly if it starts from a harmless peer.** -/
theorem iterate_failed_iff
    (hstatus : recvStatuses (iterate env p).2.log = rc' :: recvStatuses p.log)
    (hfailed : rc'.isFailed = true) : (iterate env p).1.isFailed = true ↔ Harmless env p := by
  have hacts := (acts_requireCallback env .reachedState p :
    (requireCallback env .reachedState).Gives p fun _ a => Acts False p a)
  rw [Gives] at hacts
  unfold Harmless
  rcases iterate_run env p with ⟨a, hcallback, hrun⟩ | ⟨a, hcallback, hrun⟩
  · -- ReachedState was refused and nothing is received
    rw [hcallback] at hacts
    rw [hrun, show recvStatuses a.log = _ from hacts.sameStatuses] at hstatus
    exact absurd hstatus.symm (cons_ne_self _ _)
  rw [hcallback] at hacts ⊢
  rw [hrun, ← show recvStatuses a.log = _ from hacts.sameStatuses] at hstatus
  rw [hrun]
  rcases hawaited : awaited a with _ | pair
  · -- the status is that of the rejected PDU
    have hheeds : Heeds env a := by
      intro flag next h
      rw [hawaited] at h
      cases h
    refine iff_of_true ?_ hheeds
    rcases (peerRecvState_moves env a).statuses with hsame | ⟨rc, hrc, hfails⟩
    · rw [show recvStatuses _ = _ from hsame] at hstatus
      exact absurd hstatus.symm (cons_ne_self _ _)
    obtain ⟨rfl, -⟩ := List.cons.inj (hrc.symm.trans hstatus)
    rcases hfails hfailed with hfails | ⟨-, hsome⟩
    · exact hfails
    · rw [hawaited] at hsome
      cases hsome
  obtain ⟨flag, next⟩ := pair
  obtain ⟨hrecv, hiff⟩ := @peerRecvState_gives_await env _ _ _ _ hawaited fun f hf =>
    awaitFlag_gives flag hf
  obtain ⟨heq, -⟩ := List.cons.inj (hrecv.symm.trans hstatus)
  rw [heq] at hiff
  have hstate : a.state ≠ .active := by
    intro hstate
    obtain ⟨-, hle⟩ := finalization_of_awaited hawaited
    rw [hstate] at hle
    exact absurd hle (by decide)
  obtain ⟨i, rfl, -, hi⟩ := bit_of_awaited hawaited
  rw [hiff hfailed, peerRecvPdu_flag hstate hi]
  constructor
  · intro h flag next heq
    obtain ⟨rfl, -⟩ := Prod.mk.inj (Option.some.inj (hawaited.symm.trans heq))
    exact h
  · exact fun h => h _ _ hawaited

theorem log_rerun (rc p) : (rerun rc p).log = p.log := by
  unfold rerun
  split
  · rfl
  · rfl

/-- An iteration adds at most one status, and after a failed one it does not go on. -/
theorem iterate_statuses (p) :
    ∃ new, recvStatuses (iterate env p).2.log = new ++ recvStatuses p.log ∧
    (new = [] ∨ ∃ rc', new = [rc'] ∧
      (rc'.isFailed = true → (iterate env p).1.isContinue = false)) := by
  obtain ⟨a, hacts, heq | hmoves⟩ := iterate_moves env p
  · rw [heq]
    exact ⟨[], hacts.sameStatuses, .inl rfl⟩
  rw [← show recvStatuses a.log = recvStatuses p.log from hacts.sameStatuses]
  rcases hmoves.statuses with hsame | ⟨rc', hrc', hfails⟩
  · exact ⟨[], hsame, .inl rfl⟩
  refine ⟨[rc'], hrc', .inr ⟨rc', rfl, fun hfailed => ?_⟩⟩
  rcases hfails hfailed with hfails | ⟨hsuccess, -⟩
  · generalize (iterate env p).1 = rc at hfails ⊢
    cases rc <;> first | rfl | cases hfails
  · rw [hsuccess]
    rfl

theorem peerRecvCallback_statuses (h : peerRecvCallback env fuel p = some (rc, q)) :
    ∃ new, recvStatuses q.log = new ++ recvStatuses p.log := by
  induction fuel generalizing p with
  | zero => cases h
  | succ fuel ih =>
  obtain ⟨first, hfirst, -⟩ := @iterate_statuses env p
  rw [peerRecvCallback] at h
  by_cases hcontinue : (iterate env p).1.isContinue = true
  · simp only [if_pos hcontinue] at h
    obtain ⟨new, hnew⟩ := ih h
    rw [log_rerun, hfirst, ← append_assoc] at hnew
    exact ⟨_, hnew⟩
  · simp only [if_neg hcontinue] at h
    cases h
    exact ⟨first, hfirst⟩

/-- **After a rejected PDU the callback fails exactly if its last iteration starts from a harmless
peer**, for every state of the connection and every buffer. -/
theorem peerRecvCallback_failed_iff {fuel : ℕ} {new : List StateRun}
    (h : peerRecvCallback env fuel p = some (rc, q))
    (hnew : recvStatuses q.log = new ++ recvStatuses p.log)
    (hfailed : ∃ rc' ∈ new, rc'.isFailed = true) :
    rc.isFailed = true ↔ Harmless env (lastStart env fuel p) := by
  -- induction on the iterations: the failed status is that of the last one
  induction fuel generalizing p new with
  | zero => cases h
  | succ fuel ih =>
  obtain ⟨first, hfirst, honly⟩ := @iterate_statuses env p
  rw [peerRecvCallback] at h
  rw [lastStart]
  by_cases hcontinue : (iterate env p).1.isContinue = true
  · simp only [if_pos hcontinue] at h ⊢
    obtain ⟨later, hlater⟩ := peerRecvCallback_statuses h
    refine ih h hlater ?_
    have hsplit : new = later ++ first := by
      rw [log_rerun, hfirst, hnew, ← append_assoc] at hlater
      exact append_cancel_right hlater
    obtain ⟨rc', hmem, hrc'⟩ := hfailed
    rw [hsplit] at hmem
    rcases mem_append.mp hmem with hmem | hmem
    · exact ⟨rc', hmem, hrc'⟩
    rcases honly with rfl | ⟨rc'', rfl, hstops⟩
    · exact absurd hmem not_mem_nil
    rw [mem_singleton.mp hmem] at hrc'
    rw [hstops hrc'] at hcontinue
    cases hcontinue
  · simp only [if_neg hcontinue] at h ⊢
    cases h
    have hsame : new = first := append_cancel_right (hnew.symm.trans hfirst)
    obtain ⟨rc', hmem, hrc'⟩ := hfailed
    rw [hsame] at hmem
    rcases honly with rfl | ⟨rc'', rfl, -⟩
    · exact absurd hmem not_mem_nil
    · rw [mem_singleton.mp hmem] at hrc'
      exact iterate_failed_iff hfirst hrc'

end Callback

/-- A whole TPKT with the header of X.224 data and no MCS PDU behind it. -/
def emptyData : List UInt8 := [3, 0, 0, 7, 2, 0xF0, 0x80]

/-- A broken packet after the buffers of a plain client: the status of the callback and the statuses
before and after it. -/
def brokenPacket (buffers : List (List UInt8)) :
    Option (StateRun × List StateRun × List StateRun) := do
  let (_, p) ← plainRun false buffers
  let (rc, q) ← peerRecvCallback (.agreeing false) 16 (p.receive emptyData)
  return (rc, recvStatuses q.log, recvStatuses p.log)

theorem exists_of_brokenPacket {after before}
    (h : brokenPacket buffers = some (rc, after, before)) :
    ∃ p q rc₀, Reaches (.agreeing false) p rc₀ ∧
      peerRecvCallback (.agreeing false) 16 (p.receive emptyData) = some (rc, q) ∧
      recvStatuses q.log = after ∧ recvStatuses p.log = before := by
  obtain ⟨⟨rc₀, p⟩, hplain, h⟩ := Option.bind_eq_some_iff.mp h
  obtain ⟨⟨rc1, q⟩, hcallback, h⟩ := Option.bind_eq_some_iff.mp h
  obtain ⟨rfl, hstatuses⟩ := Prod.mk.inj (Option.some.inj h)
  cases hstatuses
  exact ⟨p, q, rc₀, plainRun_reaches hplain, hcallback, rfl, rfl⟩

/-- In the state that waits for Confirm Active a broken packet ends the session. -/
theorem peerRecvCallback_failed_iff_confirmActive : ∃ p q,
    peerRecvCallback (.agreeing false) 16 p = some (.failed, q) ∧
      recvStatuses q.log = [.failed] ++ recvStatuses p.log ∧
      Harmless (.agreeing false) (lastStart (.agreeing false) 16 p) := by
  have hrun : brokenPacket [] = some (.failed, [.failed], []) := by decide +kernel
  obtain ⟨p, q, -, -, hcallback, hafter, hbefore⟩ := exists_of_brokenPacket hrun
  have hnew : recvStatuses q.log = [.failed] ++ recvStatuses (p.receive emptyData).log := by
    rw [hafter, show recvStatuses (p.receive emptyData).log = _ from hbefore]
    rfl
  exact ⟨_, q, hcallback, hnew,
    (peerRecvCallback_failed_iff hcallback hnew ⟨.failed, mem_singleton_self _, rfl⟩).mp rfl⟩

/-- **A rejected PDU is overlooked**: a client that has sent Confirm Active sends a broken packet in
place of the Synchronize PDU; `peer_recv_pdu` fails, and `peer_recv_callback` succeeds. -/
theorem rejected_pdu_overlooked : ∃ env fuel p rc₀ buffer q, Reaches env p rc₀ ∧
    peerRecvCallback env fuel (p.receive buffer) = some (.success, q) ∧
    recvStatuses q.log = .failed :: recvStatuses p.log := by
  have hrun : brokenPacket [Client.confirmActive] =
      some (.success, [.failed, .success], [.success]) := by
    decide +kernel
  obtain ⟨p, q, rc₀, hreaches, hcallback, hafter, hbefore⟩ := exists_of_brokenPacket hrun
  exact ⟨_, _, p, rc₀, _, q, hreaches, hcallback, by rw [hafter, hbefore]⟩

end WBFreeRDP.Server

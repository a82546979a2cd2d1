/-
# The states of a connection

The client and the server of one connection walk through the same list of states.
-/
import Mathlib.Data.Nat.Bitwise
import Mathlib.Data.List.Basic

namespace WBFreeRDP

open Nat

/-- `CONNECTION_STATE`. -/
inductive ConnectionState
  | initial | nego | nla | aad
  | mcsCreateRequest | mcsCreateResponse | mcsErectDomain
  | mcsAttachUser | mcsAttachUserConfirm
  | mcsChannelJoinRequest | mcsChannelJoinResponse
  | rdpSecurityCommencement | secureSettingsExchange
  | connectTimeAutoDetectRequest | connectTimeAutoDetectResponse
  | licensing
  | multitransportBootstrappingRequest | multitransportBootstrappingResponse
  | capabilitiesExchangeDemandActive | capabilitiesExchangeMonitorLayout
  | capabilitiesExchangeConfirmActive
  | finalizationSync | finalizationCooperate | finalizationRequestControl
  | finalizationPersistentKeyList | finalizationFontList
  | finalizationClientSync | finalizationClientCooperate
  | finalizationClientGrantedControl | finalizationClientFontMap
  | active
  deriving DecidableEq, Repr

namespace ConnectionState

def index (s : ConnectionState) : ℕ := s.ctorIdx

/-- The states are compared by their place in the enumeration. -/
instance : LE ConnectionState := ⟨fun s t => s.index ≤ t.index⟩

instance : LT ConnectionState := ⟨fun s t => s.index < t.index⟩

instance (s t : ConnectionState) : Decidable (s ≤ t) :=
  inferInstanceAs (Decidable (s.index ≤ t.index))

instance (s t : ConnectionState) : Decidable (s < t) :=
  inferInstanceAs (Decidable (s.index < t.index))

/-- `rdp_is_active_peer_state`: the server may send graphics. -/
def isActivePeerState : ConnectionState → Bool
  | finalizationClientSync | finalizationClientCooperate
  | finalizationClientGrantedControl | finalizationClientFontMap | active => true
  | _ => false

end ConnectionState

/-- `state_run_t`. -/
inductive StateRun
  | active | redirect | success | failed | quitSession | tryAgain | continue
  deriving DecidableEq, Repr

namespace StateRun

/-- `state_run_failed`. -/
def isFailed : StateRun → Bool
  | failed | quitSession => true
  | _ => false

/-- `state_run_success`: `STATE_RUN_CONTINUE` or a value that is not negative. -/
def isSuccess : StateRun → Bool
  | .continue | active | redirect | success => true
  | _ => false

/-- `state_run_continue`: the loop runs the state machine again. -/
def isContinue : StateRun → Bool
  | tryAgain | .continue | active => true
  | _ => false

/-- The status of a handler: it ended with one, or it stopped with `STATE_RUN_FAILED`. -/
def ofResult : Except Unit StateRun → StateRun
  | .ok rc => rc
  | .error () => failed

@[simp] theorem ofResult_ok (rc) : ofResult (.ok rc) = rc := rfl

@[simp] theorem ofResult_error (u) : ofResult (.error u) = failed := rfl

end StateRun

/-- `LICENSE_STATE`. -/
inductive LicenseState
  | initial | configured | request | newRequest | platformChallenge | platformChallengeResponse
  | completed | aborted
  deriving DecidableEq, Repr

/-- `FREERDP_AUTODETECT_STATE`. -/
inductive AutodetectState
  | initial | request | response | complete | fail
  deriving DecidableEq, Repr

/-! ## The received PDUs of the finalization -/

namespace Finalize

def csSynchronizePdu : ℕ := 2 ^ 4
def csControlCooperatePdu : ℕ := 2 ^ 5
def csControlRequestPdu : ℕ := 2 ^ 6
def csPersistentKeyListPdu : ℕ := 2 ^ 7
def csFontListPdu : ℕ := 2 ^ 8
def deactivateReactivate : ℕ := 2 ^ 9

def isFlagSet (flags flag : ℕ) : Bool := flags &&& flag == flag

/-- `rdp_finalize_reset_flags` without clearing all: only the reactivation is remembered. -/
def resetFlags (flags : ℕ) : ℕ := flags &&& deactivateReactivate

theorem isFlagSet_two_pow (flags i) : isFlagSet flags (2 ^ i) = flags.testBit i := by
  unfold isFlagSet
  rw [and_two_pow]
  cases flags.testBit i
  · simp [(Nat.two_pow_pos i).ne]
  · simp

/-- A flag is set after it was set, and setting one leaves the others. -/
theorem isFlagSet_lor (flags i j) :
    isFlagSet (flags ||| 2 ^ i) (2 ^ j) = (isFlagSet flags (2 ^ j) || decide (i = j)) := by
  simp only [isFlagSet_two_pow, testBit_or, testBit_two_pow]

theorem isFlagSet_resetFlags (flags i) (hi : i ≠ 9) :
    isFlagSet (resetFlags flags) (2 ^ i) = false := by
  rw [isFlagSet_two_pow, resetFlags, deactivateReactivate, testBit_and, testBit_two_pow]
  simp [hi.symm]

end Finalize

/-! ## Channels -/

/-- `rdpMcsChannel`, without its name and its options. -/
structure McsChannel where
  channelId : ℕ
  joined : Bool
  deriving DecidableEq, Repr

/-- `rdpMcs`, as far as the state machines read it. -/
structure Mcs where
  userId : ℕ
  baseChannelId : ℕ
  messageChannelId : ℕ
  userChannelJoined : Bool
  globalChannelJoined : Bool
  messageChannelJoined : Bool
  channels : List McsChannel
  deriving DecidableEq, Repr

def mcsGlobalChannelId : ℕ := 1003

/-- `MCS_BASE_CHANNEL_ID`. -/
def mcsBaseChannelId : ℕ := 1001

/-- `mcs_new`: no channel is known and none is joined. -/
def Mcs.new : Mcs where
  userId := 0
  baseChannelId := mcsGlobalChannelId + 1
  messageChannelId := 0
  userChannelJoined := false
  globalChannelJoined := false
  messageChannelJoined := false
  channels := []

/-- The user channel, the global channel, the message channel if there is one and every static
channel are joined. -/
def Mcs.AllJoined (mcs : Mcs) : Prop :=
  mcs.userChannelJoined = true ∧ mcs.globalChannelJoined = true ∧
    (mcs.messageChannelId = 0 ∨ mcs.messageChannelJoined = true) ∧
      ∀ channel ∈ mcs.channels, channel.joined = true

end WBFreeRDP

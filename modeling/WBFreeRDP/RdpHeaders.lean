/-
# The headers around a PDU

What the client and the server read in front of a message, from `tpkt.c`, `tpdu.c`, `per.c`, `mcs.c`
and `rdp.c`.  A `Parser` reads from the front of the bytes that are left; it fails where the code
finds too few bytes or a value that it refuses.
-/
import Mathlib.Control.Monad.Basic
import WBFreeRDP.ByteOrder
import WBFreeRDP.ConnectionState

namespace WBFreeRDP

/-- A parser reads from the bytes that are left in the stream. -/
abbrev Parser (α : Type) : Type := StateT (List UInt8) Option α

namespace Parser

def u8 : Parser ℕ := readLE 1
def u16 : Parser ℕ := readLE 2
def u32 : Parser ℕ := readLE 4
def u16be : Parser ℕ := readBE 2

/-- `Stream_CheckAndLogRequiredLength`. -/
def need (n : ℕ) : Parser Unit := fun l => if l.length < n then none else some ((), l)

/-- `Stream_SafeSeek`. -/
def skip (n : ℕ) : Parser Unit := fun l => if l.length < n then none else some ((), l.drop n)

/-- The next `n` bytes. -/
def bytes (n : ℕ) : Parser (List UInt8) := fun l =>
  if l.length < n then none else some (l.take n, l.drop n)

/-- `Stream_Peek_UINT8`. -/
def peek : Parser ℕ := fun l => (readLE 1 l).map fun (b, _) => (b, l)

/-- A value is refused. -/
def check (c : Prop) [Decidable c] : Parser Unit := fun l => if c then some ((), l) else none

/-- `tpkt_ensure_stream_consumed`: nothing may be left. -/
def consumed : Parser Unit := fun l => if l.isEmpty then some ((), l) else none

end Parser

open WBFreeRDP.Parser

/-! ## TPKT, X.224 and PER -/

/-- `tpkt_read_header`: the length of the packet, 0 if the first byte is not that of a TPKT. -/
def tpktReadHeader : Parser ℕ := do
  let version ← peek
  if version = 3 then
    need 4
    skip 2
    let len ← u16be
    check (7 ≤ len)
    need (len - 4)
    return len
  else
    return 0

/-- `X224_TPDU_DATA`. -/
def x224TpduData : ℕ := 0xF0

def x224TpduDisconnectRequest : ℕ := 0x80

/-- `tpdu_read_header`: the code of the TPDU. -/
def tpduReadHeader (tpktLength : ℕ) : Parser ℕ := do
  need 3
  let li ← u8
  let code ← u8
  check (li + 4 ≤ tpktLength)
  if code = x224TpduData then skip 1 else skip 5
  return code

/-- `per_read_length`. -/
def perReadLength : Parser ℕ := do
  let byte ← u8
  if 0x80 ≤ byte then
    let low ← u8
    return (byte - 0x80) * 256 + low
  else
    return byte

/-- `per_read_integer16`. -/
def perReadInteger16 (min : ℕ) : Parser ℕ := do
  let integer ← u16be
  check (integer ≤ 0xFFFF - min)
  return integer + min

/-- `per_read_integer`: at most two bytes. -/
def perReadInteger : Parser ℕ := do
  let length ← perReadLength
  need length
  match length with
  | 0 => return 0
  | 1 => u8
  | 2 => u16be
  | _ => failure

/-! ## MCS -/

/-- `DomainMCSPDU_ErectDomainRequest`. -/
def mcsErectDomainRequest : ℕ := 1
/-- `DomainMCSPDU_DisconnectProviderUltimatum`. -/
def mcsDisconnectProviderUltimatum : ℕ := 8
/-- `DomainMCSPDU_AttachUserRequest`. -/
def mcsAttachUserRequest : ℕ := 10
/-- `DomainMCSPDU_ChannelJoinRequest`. -/
def mcsChannelJoinRequest : ℕ := 14
/-- `DomainMCSPDU_SendDataRequest`. -/
def mcsSendDataRequest : ℕ := 25

def mcsReadDomainMcspduHeader (domainMcspdu : ℕ) : Parser Unit := do
  let length ← tpktReadHeader
  let code ← tpduReadHeader length
  check (code = x224TpduData)
  let choice ← u8
  check (choice / 4 = domainMcspdu)

def mcsRecvErectDomainRequest : Parser Unit := do
  mcsReadDomainMcspduHeader mcsErectDomainRequest
  let _subHeight ← perReadInteger
  let _subInterval ← perReadInteger
  consumed

def mcsRecvAttachUserRequest : Parser Unit := do
  mcsReadDomainMcspduHeader mcsAttachUserRequest
  consumed

/-- `mcs_recv_channel_join_request`: the id of the user and of the channel. -/
def mcsRecvChannelJoinRequest : Parser (ℕ × ℕ) := do
  mcsReadDomainMcspduHeader mcsChannelJoinRequest
  let userId ← perReadInteger16 mcsBaseChannelId
  let channelId ← perReadInteger16 0
  consumed
  return (userId, channelId)

/-- What `rdp_read_header` finds. -/
inductive RdpHeader
  /-- the X.224 layer asks to disconnect -/
  | disconnectRequest (tpktLength : ℕ)
  /-- the MCS layer disconnects, for a reason -/
  | ultimatum (tpktLength reason : ℕ)
  /-- user data of a length on a channel -/
  | data (length channelId : ℕ)
  deriving DecidableEq, Repr

/-- The parsing part of `rdp_read_header`, for the MCS PDU that the role expects. -/
def readRdpHeader (mcspdu : ℕ) : Parser RdpHeader := do
  let length ← tpktReadHeader
  let code ← tpduReadHeader length
  if code ≠ x224TpduData then
    check (code = x224TpduDisconnectRequest)
    return .disconnectRequest length
  else
    let choice ← u8
    let domainMcspdu := choice / 4
    check (domainMcspdu = mcspdu ∨ domainMcspdu = mcsDisconnectProviderUltimatum)
    check (8 ≤ length)
    need (length - 8)
    if domainMcspdu = mcsDisconnectProviderUltimatum then
      -- the reason takes the last bit of the choice and the first bit of the next byte
      let b2 ← u8
      return .ultimatum length (choice % 2 * 2 + b2 / 128)
    else
      need 5
      let _initiator ← perReadInteger16 mcsBaseChannelId
      let channelId ← perReadInteger16 0
      let _dataPriority ← u8
      let userData ← perReadLength
      need userData
      return .data userData channelId

/-! ## Security and share headers -/

/-- `rdp_read_security_header`: the flags; the length of the packet is checked where it is known. -/
def rdpReadSecurityHeader (length : Option ℕ) : Parser ℕ := do
  check (∀ n ∈ length, 4 ≤ n)
  need 4
  let flags ← u16
  let _flagsHi ← u16
  return flags

/-- The share control header of a PDU. -/
structure ShareControl where
  totalLength : ℕ
  remaining : ℕ
  pduType : ℕ
  pduSource : ℕ
  deriving DecidableEq, Repr

def pduTypeConfirmActive : ℕ := 0x3
/-- `PDU_TYPE_DATA`. -/
def pduTypeData : ℕ := 0x7
/-- `PDU_TYPE_FLOW_TEST`. -/
def pduTypeFlowTest : ℕ := 0x41
def pduTypeFlowResponse : ℕ := 0x42
/-- `PDU_TYPE_FLOW_STOP`. -/
def pduTypeFlowStop : ℕ := 0x43

/-- `rdp_read_share_control_header`, with `rdp_read_flow_control_pdu` for the length `0x8000`. -/
def rdpReadShareControlHeader : Parser ShareControl := do
  let len ← u16
  if len = 0x8000 then
    need 6
    let pduType ← u8
    skip 3
    let _pduSource ← u16
    return ⟨8, 0, pduType, 0⟩
  else
    check (4 ≤ len)
    let tmp ← u16
    if 5 < len then
      let pduSource ← u16
      need (len - 6)
      return ⟨len, len - 6, tmp % 16, pduSource⟩
    else
      need (len - 4)
      return ⟨len, len - 4, tmp % 16, 0⟩

/-- The share data header of a PDU. -/
structure ShareData where
  shareId : ℕ
  uncompressedLength : ℕ
  type : ℕ
  compressedType : ℕ
  compressedLength : ℕ
  deriving DecidableEq, Repr

def rdpReadShareDataHeader : Parser ShareData := do
  need 12
  let shareId ← u32
  skip 2
  let uncompressedLength ← u16
  let type ← u8
  let compressedType ← u8
  let compressedLength ← u16
  return ⟨shareId, uncompressedLength, type, compressedType, compressedLength⟩

def dataPduTypeControl : ℕ := 0x14
def dataPduTypeInput : ℕ := 0x1C
def dataPduTypeSynchronize : ℕ := 0x1F
def dataPduTypeRefreshRect : ℕ := 0x21
def dataPduTypeSuppressOutput : ℕ := 0x23
def dataPduTypeShutdownRequest : ℕ := 0x24
def dataPduTypeFontList : ℕ := 0x27
def dataPduTypeBitmapCachePersistentList : ℕ := 0x2B
def dataPduTypeFrameAcknowledge : ℕ := 0x38

/-! ## The PDUs of the finalization -/

/-- `rdp_recv_sync_pdu`: the message type must be `SYNCMSGTYPE_SYNC`. -/
def rdpRecvSyncPdu : Parser Unit := do
  need 4
  let msgType ← u16
  check (msgType = 1)
  let _targetUser ← u16

/-- A control PDU. -/
structure ControlPdu where
  action : ℕ
  grantId : ℕ
  controlId : ℕ
  deriving DecidableEq, Repr

def ctrlActionRequestControl : ℕ := 1
def ctrlActionCooperate : ℕ := 4

def rdpRecvControlPdu : Parser ControlPdu := do
  need 8
  let action ← u16
  let grantId ← u16
  let controlId ← u32
  return ⟨action, grantId, controlId⟩

def rdpRecvClientFontListPdu : Parser Unit := skip 8

/-- The sum of `n` numbers of two bytes. -/
def sumU16 : ℕ → Parser ℕ
  | 0 => return 0
  | n + 1 => do
      let cache ← u16
      let rest ← sumU16 n
      return cache + rest

def rdpRecvClientPersistentKeyListPdu : Parser Unit := do
  need 21
  let count ← sumU16 5
  let total ← sumU16 5
  check (total ≤ 262144)
  let flags ← u8
  -- only PERSIST_FIRST_PDU and PERSIST_LAST_PDU may be set
  check (flags < 4)
  skip 3
  skip (count * 8)

/-! ## Licensing -/

/-- `license_read_preamble`: the type of the message and its flags. -/
def licenseReadPreamble : Parser (ℕ × ℕ) := do
  need 4
  let msgType ← u8
  let flags ← u8
  let msgSize ← u16
  check (4 ≤ msgSize)
  need (msgSize - 4)
  return (msgType, flags)

/-- The flags of a preamble, known from its four bytes on even if it is refused. -/
def preambleFlags (l : List UInt8) : ℕ := if 4 ≤ l.length then (l.getD 1 0).toNat else 0

/-- An `ERROR_ALERT`: the error code, the state transition and the type of the blob after them. -/
structure ErrorAlert where
  errorCode : ℕ
  stateTransition : ℕ
  blobType : ℕ
  deriving DecidableEq, Repr

/-- The reading part of `license_read_error_alert_packet`.  `license_read_binary_blob` accepts an
empty blob unless the blob it reads into has the type `BB_ANY_BLOB` already; an empty one keeps its
type. -/
def readErrorAlert (errorInfoType : ℕ) : Parser ErrorAlert := do
  need 8
  let errorCode ← u32
  let stateTransition ← u32
  let blobType ← u16
  let length ← u16
  check (length ≠ 0 ∨ errorInfoType ≠ 0)
  skip length
  return ⟨errorCode, stateTransition, if length = 0 then errorInfoType else blobType⟩

end WBFreeRDP

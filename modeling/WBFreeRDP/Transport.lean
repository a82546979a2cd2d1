/-
# Reading PDUs from the transport

The receive side of `transport.c`: `BIO_read` on a non-blocking front BIO, the two layers of
byte reading over it, the length parsers of the header formats and
`transport_default_read_pdu`.
-/
import WBFreeRDP.Stream

namespace WBFreeRDP.Transport

/-! ## The front BIO -/

/-- What one call of `BIO_read` meets: up to `n` bytes are ready, the read would block, it
fails for good, or the application has asked to disconnect meanwhile. -/
inductive BioAnswer where
  | ready (n : ℕ)
  | retry
  | closed
  | shallDisconnect
  deriving DecidableEq, Repr

/-- The front BIO: the bytes sent by the peer and not read yet, the answer every call of
`BIO_read` will meet, and the number of calls made so far. -/
structure Bio where
  pending : List UInt8
  answers : ℕ → BioAnswer
  calls : ℕ

/-- `BIO_read(bio, data, r)`: at most `r` of the pending bytes, at most as many as are ready.
No byte at all is a retry. -/
def Bio.read (bio : Bio) (r : ℕ) : BioAnswer × List UInt8 × Bio :=
  let bio' := { bio with calls := bio.calls + 1 }
  match bio.answers bio.calls with
  | .ready n =>
    let data := bio.pending.take (min n r)
    if data = [] then (.retry, [], bio')
    else (.ready data.length, data, { bio' with pending := bio.pending.drop data.length })
  | answer => (answer, [], bio')

/-! ## Byte readers -/

/-- The loop of `transport_read_layer`; `data` holds the bytes read so far, so that `read` is
its length.  Every successful read makes progress, so `bytes` rounds are enough. -/
def transportReadLayerLoop (bytes : ℕ) : ℕ → List UInt8 → Bio → ℤ × List UInt8 × Bio
  | 0, data, bio => (data.length, data, bio)
  | fuel + 1, data, bio =>
    if data.length < bytes then
      let tr := bytes - data.length
      let r := if tr > intMax then intMax else tr
      match bio.read r with
      | (.shallDisconnect, _, bio') => (-1, data, bio')
      | (.closed, _, bio') => (-1, data, bio')
      -- non blocking will survive a partial read
      | (.retry, _, bio') => (data.length, data, bio')
      | (.ready _, more, bio') => transportReadLayerLoop bytes fuel (data ++ more) bio'
    else (data.length, data, bio)

/-- `transport_read_layer` on a non-blocking transport: the status and the bytes stored. -/
def transportReadLayer (bytes : ℕ) (bio : Bio) : ℤ × List UInt8 × Bio :=
  if bytes > ssizeMax then (-1, [], bio)
  else transportReadLayerLoop bytes bytes [] bio

/-- `transport_read_layer_bytes`: `1` when all of `toRead` has been read, `0` when only a part
was available; the stream advances by what was read. -/
def transportReadLayerBytes (s : WStream) (toRead : ℕ) (bio : Bio) : ℤ × WStream × Bio :=
  if toRead > ssizeMax then (0, s, bio)
  else
    let (status, data, bio') := transportReadLayer toRead bio
    if status ≤ 0 then (status, s, bio')
    else (if status = toRead then 1 else 0, s.append data, bio')

/-! ## Length parsers -/

def uint16BE (hi lo : UInt8) : ℕ := hi.toNat * 256 + lo.toNat

/-- `Stream_Get_UINT16`, little endian. -/
def uint16LE (lo hi : UInt8) : ℕ := hi.toNat * 256 + lo.toNat

/-- `parse_nla_mode_pdu`: the length of a `TSRequest` from its DER header. -/
def parseNlaModePdu : List UInt8 → ℤ
  | [] => 0
  | typeEncoding :: s =>
    if typeEncoding = 0x30 then
      match s with
      | [] => 0
      | lengthEncoding :: s =>
        if lengthEncoding &&& 0x80 ≠ 0 then
          if lengthEncoding &&& ~~~0x80 = 1 then
            match s with
            | [] => 0
            | length :: _ => length.toNat + 3
          else if lengthEncoding &&& ~~~0x80 = 2 then
            match s with
            | hi :: lo :: _ => uint16BE hi lo + 4
            | _ => 0
          else -1
        else lengthEncoding.toNat + 2
    else 0

/-- `parse_default_mode_pdu`: the length of a TPKT or a fast-path packet. -/
def parseDefaultModePdu : List UInt8 → ℤ
  | [] => 0
  | version :: s =>
    if version = 0x03 then
      match s with
      | _ :: hi :: lo :: _ =>
        let pduLength := uint16BE hi lo
        if pduLength < 7 ∨ pduLength > 0xFFFF then -1 else pduLength
      | _ => 0
    else
      match s with
      | [] => 0
      | length1 :: s =>
        if length1 &&& 0x80 ≠ 0 then
          match s with
          | [] => 0
          | length2 :: _ =>
            let pduLength := (length1 &&& 0x7F).toNat <<< 8 ||| length2.toNat
            if pduLength < 3 ∨ pduLength > 0x8000 then -1 else pduLength
        else
          let pduLength := length1.toNat
          if pduLength < 3 ∨ pduLength > 0x8000 then -1 else pduLength

/-- Read a 16-bit length and skip that many bytes; `none` when either is not there yet. -/
def rdstlsSkipField : List UInt8 → Option (ℕ × List UInt8)
  | lo :: hi :: s =>
    let length := uint16LE lo hi
    if s.length < length then none else some (length, s.drop length)
  | _ => none

/-- `rdstls_parse_pdu_data_type`: the length of an authentication request, of which `pos` bytes
come before the data. -/
def rdstlsParsePduDataType (dataType pos : ℕ) (s : List UInt8) : ℤ :=
  let total := pos + s.length
  match dataType with
  | 1 =>
    match rdstlsSkipField s with
    | none => 0
    | some (_, s) =>
      match rdstlsSkipField s with
      | none => 0
      | some (_, s) =>
        match rdstlsSkipField s with
        | none => 0
        | some (_, s) =>
          match s with
          | lo :: hi :: s =>
            let passwordLength := uint16LE lo hi
            if passwordLength = 0 then -1 else total - s.length + passwordLength
          | _ => 0
  | 2 | 3 =>
    match s with
    | _ :: _ :: _ :: _ :: lo :: hi :: s =>
      let length := uint16LE lo hi
      if length = 0 then -1 else total - s.length + length
    | _ => 0
  | _ => -1

/-- `rdstls_are_some_versions_supported` for a single version: exactly one bit is set, and it is
one of the known versions. -/
def rdstlsVersionSupported (version : ℕ) : Bool :=
  ((List.range 16).filter version.testBit).length = 1 && version &&& 3 ≠ 0

/-- `rdstls_parse_pdu`: the length of an RDSTLS message. -/
def rdstlsParsePdu : List UInt8 → ℤ
  | v0 :: v1 :: s =>
    if ¬ rdstlsVersionSupported (uint16LE v0 v1) then -1
    else
      match s with
      | t0 :: t1 :: s =>
        match uint16LE t0 t1 with
        | 1 => 8
        | 2 =>
          match s with
          | d0 :: d1 :: s => rdstlsParsePduDataType (uint16LE d0 d1) 6 s
          | _ => 0
        | 4 => 10
        | _ => -1
      | _ => 0
  | _ => 0

/-- The modes of a transport that decide how a PDU is cut. -/
structure Mode where
  nlaMode : Bool
  rdstlsMode : Bool
  aadMode : Bool
  earlyUserAuth : Bool
  deriving DecidableEq, Repr

/-- The length parser `transport_parse_pdu` selects. -/
def Mode.parse (m : Mode) : List UInt8 → ℤ :=
  if m.nlaMode then parseNlaModePdu
  else if m.rdstlsMode then rdstlsParsePdu
  else parseDefaultModePdu

/-- `transport_parse_pdu`: seal the stream and parse the length from the bytes received; the
second component is `incomplete`. -/
def transportParsePdu (m : Mode) (s : WStream) : ℤ × Bool × WStream :=
  let s := s.sealLength
  let pduLength := m.parse (s.buffer.take s.length)
  if pduLength ≤ 0 then (pduLength, true, s)
  else if s.length > pduLength.toNat then (-1, true, s)
  else (pduLength, s.length < pduLength.toNat, s)

/-! ## One call of `transport_read_pdu` -/

/-- Leave `transport_default_read_pdu` with a complete PDU: seal the length, go back to the
start and return the length. -/
def finishPdu (s : WStream) (bio : Bio) : ℤ × WStream × Bio :=
  let s := s.sealLength.resetPosition
  if s.length > 2 ^ 31 - 1 then (-1, s, bio) else (s.length, s, bio)

/-- The AAD branch: one byte at a time up to and including the terminating zero byte.  A round
that goes on has taken a byte from the BIO. -/
def readAadPdu : ℕ → WStream → Bio → ℤ × WStream × Bio
  | 0, s, bio => (0, s, bio)
  | fuel + 1, s, bio =>
    match transportReadLayer 1 bio with
    | (1, [c], bio) =>
      match s.ensureRemainingCapacity 1 with
      | none => (-1, s, bio)
      | some s => if c ≠ 0 then readAadPdu fuel (s.append [c]) bio else finishPdu (s.append [c]) bio
    | (rc, _, bio) => (if rc = 0 then 0 else -1, s, bio)

/-- The early-user-authorization branch: four bytes. -/
def readEarlyUserAuthPdu (s : WStream) (bio : Bio) : ℤ × WStream × Bio :=
  match s.ensureCapacity 4 with
  | none => (-1, s, bio)
  | some s =>
    let (rc, s, bio) := transportReadLayerBytes s 4 bio
    if rc ≠ 1 then (if rc = 0 then 0 else -1, s, bio) else finishPdu s bio

/-- Read the rest of a PDU whose length is known. -/
def readRest (s : WStream) (pduLength : ℕ) (bio : Bio) : ℤ × WStream × Bio :=
  match s.ensureCapacity pduLength with
  | none => (-1, s, bio)
  | some s =>
    if s.position > pduLength then (-1, s, bio)
    else if s.position < pduLength then
      let (status, s, bio) := transportReadLayerBytes s (pduLength - s.position) bio
      if status ≠ 1 then (status, s, bio) else finishPdu s bio
    else finishPdu s bio

/-- The default branch: parse the length, reading one more byte as long as it is not known,
then read the rest.  A round that goes on has taken a byte from the BIO. -/
def readDefaultPdu (m : Mode) : ℕ → WStream → Bio → ℤ × WStream × Bio
  | 0, s, bio => (0, s, bio)
  | fuel + 1, s, bio =>
    let (status, incomplete, s) := transportParsePdu m s
    if status = 0 ∧ incomplete then
      match s.ensureRemainingCapacity 1 with
      | none => (-1, s, bio)
      | some s =>
        let (rc, s, bio) := transportReadLayerBytes s 1 bio
        if rc ≠ 1 then (rc, s, bio) else readDefaultPdu m fuel s bio
    else if status < 0 then (-1, s, bio)
    else readRest s status.toNat bio

/-- `transport_read_pdu` with the default handler: the status and the receive stream after the
call. -/
def transportReadPdu (m : Mode) (s : WStream) (bio : Bio) : ℤ × WStream × Bio :=
  if m.aadMode then readAadPdu (bio.pending.length + 1) s bio
  else if m.earlyUserAuth then readEarlyUserAuthPdu s bio
  else readDefaultPdu m (bio.pending.length + 1) s bio

/-- What the caller sees of one call: the status and, when it is positive, the sealed bytes. -/
def observe (status : ℤ) (s : WStream) : ℤ × List UInt8 :=
  (status, if status > 0 then s.buffer.take s.length else [])

/-- Up to `n` calls of `transport_read_pdu` on one receive stream, up to the first error. -/
def readPdus (m : Mode) : ℕ → WStream → Bio → List (ℤ × List UInt8) × WStream × Bio
  | 0, s, bio => ([], s, bio)
  | n + 1, s, bio =>
    let (status, s', bio') := transportReadPdu m s bio
    if status < 0 then ([observe status s'], s', bio')
    else
      let (seen, s'', bio'') := readPdus m n s' bio'
      (observe status s' :: seen, s'', bio'')

end WBFreeRDP.Transport

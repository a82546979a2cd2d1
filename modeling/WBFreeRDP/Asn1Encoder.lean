/-
# The ASN.1 encoder

The encoder of `winpr/libwinpr/utils/asn1/asn1.c`.  It writes into one growing block of memory, the
pool, and keeps a table of chunks of it.  A container reserves a chunk for its header when it is
opened; the header is written at the end of the reserved space when the container is closed and its
length is known.
-/
import WBFreeRDP.History
import WBFreeRDP.Tlv

namespace WBFreeRDP.Asn1

open History (Memory)
open Tlv (Element Builder)

/-! ## Tables -/

/-- A table with some slots, of which the first `free` are in use. -/
structure Table (α : Type*) where
  slots : List α
  free : ℕ

namespace Table

variable {α : Type*}

/-- The slots in use. -/
def used (t : Table α) : List α := t.slots.take t.free

def Full (t : Table α) : Prop := t.free = t.slots.length

instance (t : Table α) : Decidable t.Full := inferInstanceAs (Decidable (_ = _))

def put (t : Table α) (a : α) : Table α := ⟨t.slots.set t.free a, t.free + 1⟩

def replace (t : Table α) (i : ℕ) (a : α) : Table α := { t with slots := t.slots.set i a }

end Table

/-! ## The encoder -/

/-- `Asn1Chunk`: a piece of the pool. -/
structure Chunk where
  poolOffset : ℕ
  capacity : ℕ
  used : ℕ
  deriving DecidableEq, Repr

/-- `ContainerType`. -/
inductive ContainerType where
  | seq
  | set
  | app
  | contextOnly
  | octetString
  deriving DecidableEq, Repr

/-- `WinPrAsn1EncContainer`. -/
structure Container where
  headerChunkId : ℕ
  contextual : Bool
  tag : UInt8
  containerType : ContainerType
  deriving DecidableEq, Repr

/-- `WinPrAsn1Encoder`.  Growing the pool keeps its bytes, so that it is a memory without an end and
the position in it.  `staticChunks` tells that the chunks are still those inside the structure. -/
structure Encoder where
  pool : Memory UInt8
  position : ℕ
  chunks : Table Chunk
  staticChunks : Bool
  containers : Table Container

/-- `MAX_STATIC_ITEMS`. -/
def maxStaticItems : ℕ := 50

/-- `WinPrAsn1Encoder_New`.  The capacity for containers is that of no container yet. -/
def Encoder.new : Encoder :=
  ⟨History.fill 0, 0, ⟨List.replicate maxStaticItems ⟨0, 0, 0⟩, 0⟩, true, ⟨[], 0⟩⟩

/-- `WinPrAsn1Encoder_Reset`.  The pool goes on where it was. -/
def Encoder.reset (enc : Encoder) : Encoder :=
  { enc with
    containers := { enc.containers with free := 0 }
    chunks := ⟨List.replicate enc.chunks.slots.length ⟨0, 0, 0⟩, 0⟩ }

/-- What new memory holds before it is written. -/
structure Heap where
  chunk : ℕ → Chunk
  container : ℕ → Container

variable (heap : Heap)

/-- The last chunk, when it is no reservation and can be expanded. -/
def Encoder.expandable (enc : Encoder) : Option (ℕ × Chunk) :=
  let lastChunk := if enc.chunks.free ≠ 0 then enc.chunks.free - 1 else 0
  match enc.chunks.slots[lastChunk]? with
  | some ret => if ret.capacity ≠ 0 ∧ ret.capacity = ret.used then some (lastChunk, ret) else none
  | none => none

/-- The resize of the chunks.  The slots behind those copied from the structure are not cleared. -/
def Encoder.growChunks (enc : Encoder) : Encoder :=
  if enc.chunks.Full then
    { enc with
      chunks := { enc.chunks with
        slots := enc.chunks.slots ++
          if enc.staticChunks then (List.range 10).map heap.chunk
          else List.replicate 10 ⟨0, 0, 0⟩ }
      staticChunks := false }
  else enc

/-- `asn1enc_get_free_chunk`: the index of the chunk, which is in use at once if `commit`. -/
def getFreeChunk (enc : Encoder) (chunkSz : ℕ) (commit : Bool) : Option (ℕ × Encoder) :=
  if chunkSz = 0 then none
  else
    match if commit then enc.expandable else none with
    | some (lastChunk, ret) =>
      some (lastChunk, { enc with
          position := enc.position + chunkSz
          chunks := enc.chunks.replace lastChunk
            { ret with capacity := ret.capacity + chunkSz, used := ret.used + chunkSz } })
    | none =>
      let enc := enc.growChunks heap
      some (enc.chunks.free, { enc with
          position := enc.position + chunkSz
          chunks := enc.chunks.put ⟨enc.position, chunkSz, if commit then chunkSz else 0⟩ })

/-- `asn1enc_get_free_container`: the resize. -/
def Encoder.growContainers (enc : Encoder) : Encoder :=
  if enc.containers.Full then
    { enc with
      containers := { enc.containers with
        slots := enc.containers.slots ++ (List.range 10).map heap.container } }
  else enc

def getAsn1Container (enc : Encoder) (ctype : ContainerType) (tag : UInt8) (contextual : Bool)
    (maxLen : ℕ) : Option Encoder := do
  let (chunkId, enc) ← getFreeChunk heap enc maxLen false
  let enc := enc.growContainers heap
  return { enc with containers := enc.containers.put ⟨chunkId, contextual, tag, ctype⟩ }

def lenBytes (len : ℕ) : ℕ :=
  if len < 128 then 1
  else if len < 2 ^ 8 then 2
  else if len < 2 ^ 16 then 3
  else if len < 2 ^ 24 then 4
  else 5

/-- `asn1WriteLen`: the bytes written, or a failed assertion. -/
def asn1WriteLen (len : ℕ) : Option (List UInt8) :=
  if len < 128 then some [UInt8.ofNat len]
  else if len < 2 ^ 8 then some [0x81, UInt8.ofNat len]
  else if len < 2 ^ 16 then some (0x82 :: beBytes 2 len)
  else if len < 2 ^ 24 then some (0x83 :: beBytes 3 len)
  else if len ≤ 2 ^ 32 - 1 then some (0x84 :: beBytes 4 len)
  else none

/-- The byte in front of the content of a container, if it has its own. -/
def Container.containerByte (c : Container) : Option UInt8 :=
  match c.containerType with
  | .seq => some 0x30
  | .set => some 0x31
  | .octetString => some 0x04
  | .app => some (0x60 ||| c.tag)
  | .contextOnly => none

def header (tag : UInt8) (len : ℕ) : Option (List UInt8) :=
  (asn1WriteLen len).map fun octets => tag :: octets

/-- The size of a container's own byte and length, around `innerLen` bytes. -/
def Container.innerHeaderBytes (c : Container) (innerLen : ℕ) : ℕ :=
  if c.containerByte.isSome then 1 + lenBytes innerLen else 0

def Container.outerHeaderBytes (c : Container) (innerLen : ℕ) : ℕ :=
  if c.contextual then
    1 + lenBytes (c.innerHeaderBytes innerLen + innerLen) + c.innerHeaderBytes innerLen
  else c.innerHeaderBytes innerLen

/-- The header of a container around `innerLen` bytes. -/
def Container.headers (c : Container) (innerLen : ℕ) : Option (List UInt8) := do
  let outer ←
    if c.contextual then header (0xA0 ||| c.tag) (c.innerHeaderBytes innerLen + innerLen)
    else some []
  let inner ← match c.containerByte with
    | some containerByte => header containerByte innerLen
    | none => some []
  return outer ++ inner

/-- Bytes written through a stream of `len` bytes over the pool at `dest`. -/
def Encoder.store (enc : Encoder) (dest len : ℕ) (data : List UInt8) : Option Encoder :=
  if data.length > len then none else some { enc with pool := History.write enc.pool dest data }

def endContainer (enc : Encoder) : Option (ℕ × Encoder) := do
  if enc.containers.free = 0 then none
  let container ← enc.containers.slots[enc.containers.free - 1]?
  let innerLen := (((enc.chunks.slots.take enc.chunks.free).drop (container.headerChunkId + 1)).map
    Chunk.used).sum
  let outerHeaderBytes := container.outerHeaderBytes innerLen
  let chunk ← enc.chunks.slots[container.headerChunkId]?
  -- the header goes to the end of the reserved space
  let unused := chunk.capacity - outerHeaderBytes
  let poolOffset := chunk.poolOffset + unused
  let bytes ← container.headers innerLen
  let enc ← enc.store poolOffset outerHeaderBytes bytes
  return (outerHeaderBytes + innerLen, { enc with
      chunks := enc.chunks.replace container.headerChunkId
        ⟨poolOffset, outerHeaderBytes, outerHeaderBytes⟩
      containers := { enc.containers with free := enc.containers.free - 1 } })

/-- `asn1_getWriteStream` and what is written to the stream: the data goes to the end of the
chunk. -/
def getWriteStream (enc : Encoder) (len : ℕ) (data : List UInt8) : Option (ℕ × Encoder) := do
  let (id, enc) ← getFreeChunk heap enc len true
  let chunk ← enc.chunks.slots[id]?
  let enc ← enc.store (chunk.poolOffset + chunk.capacity - len) len data
  return (len, enc)

/-! ## The calls -/

def assertValidTag (tagId : UInt8) : Option Unit := if tagId < 64 then some () else none

def encContextualRawContent (enc : Encoder) (tagId : UInt8) (c : List UInt8) :
    Option (ℕ × Encoder) := do
  assertValidTag tagId
  let h ← header (0xA0 ||| tagId) c.length
  getWriteStream heap enc (1 + lenBytes c.length + c.length) (h ++ c)

def asn1IntegerLen (value : Int32) : ℕ :=
  if value ≤ 127 ∧ value ≥ -128 then 2
  else if value ≤ 32767 ∧ value ≥ -32768 then 3
  else 5

/-- The low `w` bytes of an integer, the high byte first. -/
def integerBytes (w : ℕ) (value : Int32) : List UInt8 := beBytes w (value.toInt % 256 ^ w).toNat

def integerLike (value : Int32) : List UInt8 :=
  if asn1IntegerLen value = 2 then 1 :: integerBytes 1 value
  else if asn1IntegerLen value = 3 then 2 :: integerBytes 2 value
  else 4 :: integerBytes 4 value

def encIntegerLike (enc : Encoder) (b : UInt8) (value : Int32) : Option (ℕ × Encoder) :=
  getWriteStream heap enc (1 + asn1IntegerLen value) (b :: integerLike value)

def encContextualIntegerLike (enc : Encoder) (tag tagId : UInt8) (value : Int32) :
    Option (ℕ × Encoder) := do
  assertValidTag tagId
  let len := asn1IntegerLen value
  let h ← header (0xA0 ||| tagId) (1 + len)
  getWriteStream heap enc (1 + lenBytes (1 + len) + (1 + len)) (h ++ tag :: integerLike value)

/-- `WinPrAsn1EncBoolean`. -/
def encBoolean (enc : Encoder) (b : Bool) : Option (ℕ × Encoder) :=
  getWriteStream heap enc 3 [0x01, 1, if b then 0xff else 0]

def encContextualBoolean (enc : Encoder) (tagId : UInt8) (b : Bool) : Option (ℕ × Encoder) := do
  assertValidTag tagId
  getWriteStream heap enc 5 [0xA0 ||| tagId, 3, 0x01, 1, if b then 0xff else 0]

def encMemoryChunk (enc : Encoder) (wireType : UInt8) (mchunk : List UInt8) :
    Option (ℕ × Encoder) := do
  let h ← header wireType mchunk.length
  getWriteStream heap enc (1 + lenBytes mchunk.length + mchunk.length) (h ++ mchunk)

def encContextualMemoryChunk (enc : Encoder) (wireType tagId : UInt8) (mchunk : List UInt8) :
    Option (ℕ × Encoder) := do
  assertValidTag tagId
  let len := 1 + lenBytes mchunk.length + mchunk.length
  let h ← header (0xA0 ||| tagId) len
  let h' ← header wireType mchunk.length
  getWriteStream heap enc (1 + lenBytes len + len) (h ++ (h' ++ mchunk))

def cString (s : List UInt8) : List UInt8 := s.takeWhile (· ≠ 0)

/-- The calls that write. -/
inductive Op where
  | appContainer (tagId : UInt8)
  | seqContainer
  | setContainer
  | contextualSeqContainer (tagId : UInt8)
  | contextualSetContainer (tagId : UInt8)
  | contextualContainer (tagId : UInt8)
  | octetStringContainer
  | contextualOctetStringContainer (tagId : UInt8)
  | endContainer
  | rawContent (c : List UInt8)
  | contextualRawContent (tagId : UInt8) (c : List UInt8)
  | integer (value : Int32)
  | contextualInteger (tagId : UInt8) (value : Int32)
  | enumerated (value : Int32)
  | contextualEnumerated (tagId : UInt8) (value : Int32)
  | boolean (b : Bool)
  | contextualBoolean (tagId : UInt8) (b : Bool)
  | oid (chunk : List UInt8)
  | contextualOID (tagId : UInt8) (chunk : List UInt8)
  | octetString (octets : List UInt8)
  | contextualOctetString (tagId : UInt8) (octets : List UInt8)
  | ia5String (ia5 : List UInt8)
  | contextualIA5String (tagId : UInt8) (ia5 : List UInt8)
  | generalString (str : List UInt8)
  deriving DecidableEq, Repr

/-- A container that is opened returns `TRUE`. -/
def opened (enc : Option Encoder) : Option (ℕ × Encoder) := enc.map fun enc => (1, enc)

/-- A call: what it returns and the encoder behind it; nothing when an assertion fails. -/
def Op.run (op : Op) (enc : Encoder) : Option (ℕ × Encoder) :=
  match op with
  | .appContainer tagId => do
    assertValidTag tagId
    opened (getAsn1Container heap enc .app tagId false 6)
  | .seqContainer => opened (getAsn1Container heap enc .seq 0 false 6)
  | .setContainer => opened (getAsn1Container heap enc .set 0 false 6)
  | .contextualSeqContainer tagId => opened (getAsn1Container heap enc .seq tagId true (6 + 6))
  | .contextualSetContainer tagId => opened (getAsn1Container heap enc .set tagId true (6 + 6))
  | .contextualContainer tagId => opened (getAsn1Container heap enc .contextOnly tagId true 6)
  | .octetStringContainer => opened (getAsn1Container heap enc .octetString 0 false 6)
  | .contextualOctetStringContainer tagId =>
    opened (getAsn1Container heap enc .octetString tagId true (6 + 6))
  | .endContainer => Asn1.endContainer enc
  | .rawContent c => getWriteStream heap enc c.length c
  | .contextualRawContent tagId c => encContextualRawContent heap enc tagId c
  | .integer value => encIntegerLike heap enc 0x02 value
  | .contextualInteger tagId value => encContextualIntegerLike heap enc 0x02 tagId value
  | .enumerated value => encIntegerLike heap enc 0x0A value
  | .contextualEnumerated tagId value => encContextualIntegerLike heap enc 0x0A tagId value
  | .boolean b => encBoolean heap enc b
  | .contextualBoolean tagId b => encContextualBoolean heap enc tagId b
  | .oid chunk => encMemoryChunk heap enc 0x06 chunk
  | .contextualOID tagId chunk => encContextualMemoryChunk heap enc 0x06 tagId chunk
  | .octetString octets => encMemoryChunk heap enc 0x04 octets
  | .contextualOctetString tagId octets => encContextualMemoryChunk heap enc 0x04 tagId octets
  | .ia5String ia5 => encMemoryChunk heap enc 0x16 (cString ia5)
  | .contextualIA5String tagId ia5 => encContextualMemoryChunk heap enc 0x16 tagId (cString ia5)
  | .generalString str => encMemoryChunk heap enc 0x1B (cString str)

/-- Calls one after the other, with what they return. -/
def Encoder.run : List Op → Encoder → Option (List ℕ × Encoder)
  | [], enc => some ([], enc)
  | op :: ops, enc => do
    let (result, enc) ← op.run heap enc
    let (results, enc) ← Encoder.run ops enc
    return (result :: results, enc)

/-- The bytes of a chunk. -/
def Chunk.bytes (pool : Memory UInt8) (c : Chunk) : List UInt8 :=
  History.read pool c.poolOffset c.used

def Encoder.streamSize (enc : Encoder) : Option ℕ :=
  if enc.containers.free ≠ 0 then none
  else some ((enc.chunks.slots.take enc.chunks.free).map Chunk.used).sum

/-- `WinPrAsn1EncToStream` to a stream that holds `s`. -/
def Encoder.toStream (enc : Encoder) (s : List UInt8) : Option (List UInt8) := do
  let _ ← enc.streamSize
  return (enc.chunks.slots.take enc.chunks.free).foldl (fun s c => s ++ c.bytes enc.pool) s

/-! ## What the calls mean -/

/-- The tag of an application or a context-specific type: the class, the bit of constructed types,
the number. -/
def appTag (tagId : UInt8) : UInt8 := 0x40 + 0x20 + tagId
def contextTag (tagId : UInt8) : UInt8 := 0x80 + 0x20 + tagId

/-- The bytes of an integer: two's complement in one, two or four octets. -/
def integerContent (value : Int32) : List UInt8 :=
  if -2 ^ 7 ≤ value.toInt ∧ value.toInt < 2 ^ 7 then integerBytes 1 value
  else if -2 ^ 15 ≤ value.toInt ∧ value.toInt < 2 ^ 15 then integerBytes 2 value
  else integerBytes 4 value

/-- What a call does to the tree under construction. -/
inductive Action where
  | enter (tags : List UInt8)
  | leave
  | add (t : Element)

def inContext (tagId : UInt8) (t : Element) : Action := .add (.node (contextTag tagId) [t])

/-- The meaning of a call. -/
def Op.action : Op → Action
  | .appContainer tagId => .enter [appTag tagId]
  | .seqContainer => .enter [0x30]
  | .setContainer => .enter [0x31]
  | .contextualSeqContainer tagId => .enter [contextTag tagId, 0x30]
  | .contextualSetContainer tagId => .enter [contextTag tagId, 0x31]
  | .contextualContainer tagId => .enter [contextTag tagId]
  | .octetStringContainer => .enter [0x04]
  | .contextualOctetStringContainer tagId => .enter [contextTag tagId, 0x04]
  | .endContainer => .leave
  | .rawContent c => .add (.raw c)
  | .contextualRawContent tagId c => inContext tagId (.raw c)
  | .integer value => .add (.value 0x02 (integerContent value))
  | .contextualInteger tagId value => inContext tagId (.value 0x02 (integerContent value))
  | .enumerated value => .add (.value 0x0A (integerContent value))
  | .contextualEnumerated tagId value => inContext tagId (.value 0x0A (integerContent value))
  | .boolean b => .add (.value 0x01 [if b then 0xff else 0])
  | .contextualBoolean tagId b => inContext tagId (.value 0x01 [if b then 0xff else 0])
  | .oid chunk => .add (.value 0x06 chunk)
  | .contextualOID tagId chunk => inContext tagId (.value 0x06 chunk)
  | .octetString octets => .add (.value 0x04 octets)
  | .contextualOctetString tagId octets => inContext tagId (.value 0x04 octets)
  | .ia5String ia5 => .add (.value 0x16 (cString ia5))
  | .contextualIA5String tagId ia5 => inContext tagId (.value 0x16 (cString ia5))
  | .generalString str => .add (.value 0x1B (cString str))

/-- An action on trees under construction, and what the call is to return: the size of what it
encoded. -/
def Action.run (a : Action) (b : Builder) : Option (ℕ × Builder) :=
  match a with
  | .enter tags => some (1, b.openContainer tags)
  | .leave => b.endContainer
  | .add t => some (t.encode.length, b.add [t])

/-- The trees that calls construct, and what the calls are to return.  It is defined when every
container that is closed was opened. -/
def build : List Op → Builder → Option (List ℕ × Builder)
  | [], b => some ([], b)
  | op :: ops, b => do
    let (result, b) ← op.action.run b
    let (results, b) ← build ops b
    return (result :: results, b)

/-- The tag id of a call. -/
def Op.tagId : Op → UInt8
  | .appContainer tagId | .contextualSeqContainer tagId | .contextualSetContainer tagId
  | .contextualContainer tagId | .contextualOctetStringContainer tagId
  | .contextualRawContent tagId _ | .contextualInteger tagId _ | .contextualEnumerated tagId _
  | .contextualBoolean tagId _ | .contextualOID tagId _ | .contextualOctetString tagId _
  | .contextualIA5String tagId _ => tagId
  | _ => 0

/-- Tag ids are at most 30, and raw content is not empty. -/
def Op.Ok (op : Op) : Prop := op.tagId ≤ 30 ∧ op ≠ .rawContent []

instance (op : Op) : Decidable op.Ok := inferInstanceAs (Decidable (_ ∧ _))

end WBFreeRDP.Asn1

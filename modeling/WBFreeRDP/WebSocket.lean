/-
# The gateway WebSocket reader

`websocket_context_read` of `gateway/websocket.c`: a resumable state machine that takes the frames
of the gateway apart, byte by byte in the headers, and copies the payload of binary messages to the
caller's buffer.
-/
import WBFreeRDP.Transport
import WBFreeRDP.ByteOrder

namespace WBFreeRDP.WebSocket

open WBFreeRDP.Transport List Nat

/-! ## The reader -/

/-- `WEBSOCKET_STATE`. -/
inductive State where
  | opcodeAndFin
  | lengthAndMasking
  | shortLength
  | longLength
  | maskingKey
  | payload
  deriving DecidableEq, Repr

/-- `websocket_context`; `response` is what `responseStreamBuffer` holds up to its position. -/
structure Context where
  payloadLength : ℕ
  masking : Bool
  closeSent : Bool
  opcode : UInt8
  fragmentOriginalOpcode : UInt8
  lengthAndMaskPosition : ℕ
  state : State
  response : List UInt8
  deriving DecidableEq, Repr

def Context.new : Context := ⟨0, false, false, 0, 0, 0, .opcodeAndFin, []⟩

def responseSizeLimit : ℕ := 64 * 1024 * 1024

def continuationOpcode : UInt8 := 0x0
def binaryOpcode : UInt8 := 0x2
def closeOpcode : UInt8 := 0x8
def pingOpcode : UInt8 := 0x9
def pongOpcode : UInt8 := 0xa

/-- The result of `BIO_read`: the number of bytes read, or a negative value. -/
def bioRead (bio : Bio) (r : ℕ) : ℤ × List UInt8 × Bio :=
  match bio.read r with
  | (.ready n, data, bio') => (n, data, bio')
  | (_, _, bio') => (-1, [], bio')

/-- `websocket_read_data`: the status, the bytes stored in the buffer of `size` bytes, the context
and the BIO. -/
def readData (bio : Bio) (size : ℕ) (ctx : Context) : ℤ × List UInt8 × Context × Bio :=
  if ctx.payloadLength = 0 then (0, [], { ctx with state := .opcodeAndFin }, bio)
  else
    let rlen := if ctx.payloadLength < size then ctx.payloadLength else size
    if rlen > intMax then (-1, [], ctx, bio)
    else
      let (status, data, bio') := bioRead bio rlen
      if status ≤ 0 ∨ status.toNat > ctx.payloadLength then (status, data, ctx, bio')
      else
        let left := ctx.payloadLength - status.toNat
        (status, data, { ctx with
            payloadLength := left
            state := if left = 0 then .opcodeAndFin else ctx.state }, bio')

/-- `websocket_read_wstream`.  The response stream is grown first, so that it has room for the rest
of the frame. -/
def readWstream (bio : Bio) (ctx : Context) : ℤ × Context × Bio :=
  if ctx.payloadLength = 0 then (0, { ctx with state := .opcodeAndFin }, bio)
  else
    let (status, data, ctx', bio') := readData bio ctx.payloadLength ctx
    if status < 0 then (status, ctx', bio')
    else (status, { ctx' with response := ctx'.response ++ data }, bio')

/-- The opcode a payload is handled by: a continuation frame takes that of its message. -/
def Context.effectiveOpcode (ctx : Context) : UInt8 :=
  if ctx.opcode &&& 0xf = continuationOpcode then ctx.fragmentOriginalOpcode &&& 0xf
  else ctx.opcode &&& 0xf

/-- `websocket_reply_pong`: nothing to send back is answered by a close frame without a stream,
where an assertion fails unless a close frame was sent before.  What the replies write to the peer
is not part of the model. -/
def replyPong (ctx : Context) : Option Context :=
  if ctx.response ≠ [] then some ctx
  else if ctx.closeSent then some ctx else none

/-- `websocket_handle_payload`: the status, the bytes stored in the caller's buffer, the context and
the BIO. -/
def handlePayload (bio : Bio) (size : ℕ) (ctx : Context) :
    Option (ℤ × List UInt8 × Context × Bio) :=
  if ctx.effectiveOpcode = binaryOpcode then some (readData bio size ctx)
  else
    let (status, ctx', bio') := readWstream bio ctx
    if status < 0 then some (status, [], ctx', bio')
    else if ctx.effectiveOpcode = pingOpcode then
      if ctx'.payloadLength = 0 then
        match replyPong ctx' with
        | none => none
        | some ctx'' => some (0, [], { ctx'' with response := [] }, bio')
      else some (0, [], ctx', bio')
    else if ctx.effectiveOpcode = closeOpcode then
      if ctx'.payloadLength = 0 then
        some (0, [], { ctx' with closeSent := true, response := [] }, bio')
      else some (0, [], ctx', bio')
    -- the payload of a pong or of an unknown frame is dropped
    else some (0, [], { ctx' with response := [] }, bio')

/-- What a round of the loop ends in: an assertion fails, the call fails whatever was read before,
the call returns what was read before or this status, the buffer is full, or the loop goes on. -/
inductive Round where
  | abort
  | fail (ctx : Context) (bio : Bio)
  | stop (status : ℤ) (ctx : Context) (bio : Bio)
  | full (data : List UInt8) (ctx : Context) (bio : Bio)
  | go (data : List UInt8) (ctx : Context) (bio : Bio)

def readByte (ctx : Context) (bio : Bio) (next : UInt8 → Context) : Round :=
  match bioRead bio 1 with
  | (_, b :: _, bio') => .go [] (next b) bio'
  | (status, [], bio') => .stop status ctx bio'

def Context.setOpcode (ctx : Context) (b : UInt8) : Context :=
  { ctx with
    opcode := b
    fragmentOriginalOpcode :=
      if b &&& 0xf ≠ continuationOpcode ∧ b &&& 0xf < 0x08 then b else ctx.fragmentOriginalOpcode
    state := .lengthAndMasking }

def afterLength (masking : Bool) : State := if masking then .maskingKey else .payload

def Context.setLength (ctx : Context) (b : UInt8) : Context :=
  let masking := b &&& 0x80 == 0x80
  let len := b &&& 0x7f
  { ctx with
    masking := masking
    lengthAndMaskPosition := 0
    payloadLength := if len < 126 then len.toNat else 0
    state :=
      if len < 126 then afterLength masking
      else if len = 126 then .shortLength else .longLength }

/-- The loop over the bytes of a longer length, `left` of which are missing: the status of the
`BIO_read` that found nothing, if there was one. -/
def lengthLoop : ℕ → Context → Bio → Option ℤ × Context × Bio
  | 0, ctx, bio => (none, ctx, bio)
  | left + 1, ctx, bio =>
    match bioRead bio 1 with
    | (_, b :: _, bio') =>
      lengthLoop left
        { ctx with
          payloadLength := ctx.payloadLength <<< 8 ||| b.toNat
          lengthAndMaskPosition := ctx.lengthAndMaskPosition + 1 } bio'
    | (status, [], bio') => (some status, ctx, bio')

/-- A round in `WebsocketStateShortLength` or `WebsocketStateLongLength`. -/
def Context.roundLength (ctx : Context) (bio : Bio) : Round :=
  let lenLength := if ctx.state = .shortLength then 2 else 8
  match lengthLoop (lenLength - ctx.lengthAndMaskPosition) ctx bio with
  | (some status, ctx', bio') => .stop status ctx' bio'
  | (none, ctx', bio') =>
    if ctx'.payloadLength > responseSizeLimit then .fail ctx' bio'
    else .go [] { ctx' with state := afterLength ctx'.masking } bio'

/-- A round in `WebSocketStatePayload`, with `size` bytes left in the buffer. -/
def Context.roundPayload (ctx : Context) (bio : Bio) (size : ℕ) : Round :=
  match handlePayload bio size ctx with
  | none => .abort
  | some (status, data, ctx', bio') =>
    if status < 0 then .stop status ctx' bio'
    else if status.toNat ≥ size then .full data ctx' bio'
    else .go data ctx' bio'

/-- A round of the loop of `websocket_context_read`. -/
def Context.round (ctx : Context) (bio : Bio) (size : ℕ) : Round :=
  match ctx.state with
  | .opcodeAndFin => readByte ctx bio ctx.setOpcode
  | .lengthAndMasking => readByte ctx bio ctx.setLength
  | .shortLength => ctx.roundLength bio
  | .longLength => ctx.roundLength bio
  | .maskingKey => .fail ctx bio
  | .payload => ctx.roundPayload bio size

/-- `WINPR_ASSERTING_INT_CAST(int, n)`. -/
def assertingIntCast (n : ℕ) : Option ℤ := if n > intMax then none else some n

/-- The loop of `websocket_context_read` with `size` bytes left in the buffer and `buffer` before
them: the value returned and what the buffer holds; `none` when an assertion fails. -/
def contextReadLoop : ℕ → Context → Bio → ℕ → List UInt8 → Option (ℤ × List UInt8 × Context × Bio)
  | 0, _, _, _, _ => none
  | fuel + 1, ctx, bio, size, buffer =>
    match ctx.round bio size with
    | .abort => none
    | .fail ctx' bio' => some (-1, buffer, ctx', bio')
    | .stop status ctx' bio' =>
      if buffer.length > 0 then
        (assertingIntCast buffer.length).map fun n => (n, buffer, ctx', bio')
      else some (status, buffer, ctx', bio')
    | .full data ctx' bio' =>
      (assertingIntCast (buffer ++ data).length).map fun n => (n, buffer ++ data, ctx', bio')
    | .go data ctx' bio' => contextReadLoop fuel ctx' bio' (size - data.length) (buffer ++ data)

/-- `websocket_context_read`.  A round takes a byte, or leaves an empty frame. -/
def contextRead (ctx : Context) (bio : Bio) (size : ℕ) : Option (ℤ × List UInt8 × Context × Bio) :=
  contextReadLoop (2 * bio.pending.length + 2) ctx bio size []

/-- One call: the size of its buffer, its result, and what it left in the buffer. -/
structure Call where
  size : ℕ
  result : ℤ
  buffer : List UInt8
  deriving DecidableEq, Repr

def Call.returned (c : Call) : List UInt8 := c.buffer.take c.result.toNat

/-- Calls with buffers of these sizes, one after the other. -/
def calls : List ℕ → Context → Bio → Option (List Call × Context × Bio)
  | [], ctx, bio => some ([], ctx, bio)
  | size :: sizes, ctx, bio =>
    match contextRead ctx bio size with
    | none => none
    | some (result, buffer, ctx', bio') =>
      match calls sizes ctx' bio' with
      | none => none
      | some (cs, ctx'', bio'') => some (⟨size, result, buffer⟩ :: cs, ctx'', bio'')

/-! ## Frames on the wire -/

/-- The number of bytes of the longer length that this second byte of a frame announces. -/
def lengthSize (b : UInt8) : ℕ := if b &&& 0x7f < 126 then 0 else if b &&& 0x7f = 126 then 2 else 8

/-- The header of a frame up to its length. -/
structure Header where
  first : UInt8
  lengthAndMask : UInt8
  lengths : List UInt8
  lengths_length : lengths.length = lengthSize lengthAndMask

def Header.bytes (h : Header) : List UInt8 := h.first :: h.lengthAndMask :: h.lengths

/-- The length of the payload that the header announces. -/
def Header.payloadLength (h : Header) : ℕ :=
  if h.lengthAndMask &&& 0x7f < 126 then (h.lengthAndMask &&& 0x7f).toNat else beNat h.lengths

/-- The mask bit is clear and the length within the limit. -/
def Header.Good (h : Header) : Prop :=
  h.lengthAndMask &&& 0x80 ≠ 0x80 ∧ h.payloadLength ≤ responseSizeLimit

instance (h : Header) : Decidable h.Good := inferInstanceAs (Decidable (_ ∧ _))

/-- An unmasked frame with its payload: binary, continuation, or a ping or pong that is not empty.
The upper half of its first byte, where the FIN bit is, is arbitrary. -/
structure Frame extends Header where
  payload : List UInt8
  payload_length : payload.length = toHeader.payloadLength
  good : toHeader.Good
  opcode_mem : first &&& 0xf ∈ [continuationOpcode, binaryOpcode, pingOpcode, pongOpcode]
  control_ne : first &&& 0xf = pingOpcode ∨ first &&& 0xf = pongOpcode → payload ≠ []

def Frame.bytes (f : Frame) : List UInt8 := f.toHeader.bytes ++ f.payload

/-- The part of a binary message that the frame carries. -/
def Frame.binary (f : Frame) : List UInt8 :=
  if f.first &&& 0xf = binaryOpcode ∨ f.first &&& 0xf = continuationOpcode then f.payload else []

/-- Whether a binary message was started, behind this frame. -/
def Frame.starts (f : Frame) (started : Bool) : Bool := started || f.first &&& 0xf == binaryOpcode

/-- Continuation frames continue a binary message that was started before them. -/
def Continues : Bool → List Frame → Prop
  | _, [] => True
  | started, f :: fs =>
    (f.first &&& 0xf = continuationOpcode → started = true) ∧ Continues (f.starts started) fs

/-- `Wire bad started bytes deliver`: the bytes are frames with the binary payload `deliver`.  They
end there if `bad = none`, and go on with a bad header and `rest` behind it if `bad = some rest`. -/
inductive Wire (bad : Option (List UInt8)) : Bool → List UInt8 → List UInt8 → Prop
  | nil (started : Bool) : bad = none → Wire bad started [] []
  | bad (started : Bool) (h : Header) (rest : List UInt8) : ¬ h.Good → bad = some rest →
      Wire bad started (h.bytes ++ rest) []
  | frame (started : Bool) (f : Frame) (rest deliver : List UInt8) :
      (f.first &&& 0xf = continuationOpcode → started = true) →
      Wire bad (f.starts started) rest deliver →
      Wire bad started (f.bytes ++ rest) (f.binary ++ deliver)

/-- `Follows bad h started rest deliver`: what comes behind the header `h`, its payload first.  A
message was started before or by it if `started`. -/
inductive Follows (bad : Option (List UInt8)) (h : Header) (started : Bool) :
    List UInt8 → List UInt8 → Prop
  | bad (rest : List UInt8) : ¬ h.Good → bad = some rest → Follows bad h started rest []
  | frame (f : Frame) (rest deliver : List UInt8) : f.toHeader = h →
      (f.first &&& 0xf = continuationOpcode ∨ f.first &&& 0xf = binaryOpcode → started = true) →
      Wire bad started rest deliver →
      Follows bad h started (f.payload ++ rest) (f.binary ++ deliver)

/-- The context remembers a binary message once one was started. -/
def Context.Started (ctx : Context) (started : Bool) : Prop :=
  started = true → ctx.fragmentOriginalOpcode &&& 0xf = binaryOpcode

/-- The state in which the bytes of a longer length are read. -/
def lengthState (b : UInt8) : State := if b &&& 0x7f = 126 then .shortLength else .longLength

/-- **What a reader that stopped anywhere has before it.**  `pending` is the rest of the stream and
`deliver` the rest of the binary payload. -/
inductive Awaits (bad : Option (List UInt8)) (ctx : Context) : List UInt8 → List UInt8 → Prop
  | opcode (started : Bool) (pending deliver : List UInt8) : ctx.state = .opcodeAndFin →
      ctx.Started started → Wire bad started pending deliver → Awaits bad ctx pending deliver
  | length (h : Header) (started : Bool) (rest deliver : List UInt8) :
      ctx.state = .lengthAndMasking → ctx.opcode = h.first → ctx.Started started →
      Follows bad h started rest deliver →
      Awaits bad ctx (h.lengthAndMask :: (h.lengths ++ rest)) deliver
  | lengths (h : Header) (started : Bool) (read left rest deliver : List UInt8) :
      ctx.state = lengthState h.lengthAndMask → ctx.opcode = h.first → ctx.Started started →
      Follows bad h started rest deliver →
      ¬ h.lengthAndMask &&& 0x7f < 126 → h.lengths = read ++ left → left ≠ [] →
      ctx.masking = (h.lengthAndMask &&& 0x80 == 0x80) →
      ctx.lengthAndMaskPosition = read.length → ctx.payloadLength = beNat read →
      Awaits bad ctx (left ++ rest) deliver
  | payload (started : Bool) (payload rest deliver : List UInt8) : ctx.state = .payload →
      ctx.Started started → Wire bad started rest deliver →
      ctx.payloadLength = payload.length → payload.length ≤ responseSizeLimit →
      (ctx.effectiveOpcode ≠ binaryOpcode → payload ≠ []) →
      Awaits bad ctx (payload ++ rest)
        ((if ctx.effectiveOpcode = binaryOpcode then payload else []) ++ deliver)

/-- The reader has met a bad header: every further round fails. -/
def Context.Failed (ctx : Context) : Prop :=
  ctx.state = .maskingKey ∨ (ctx.state = .shortLength ∧ 2 ≤ ctx.lengthAndMaskPosition ∨
      ctx.state = .longLength ∧ 8 ≤ ctx.lengthAndMaskPosition) ∧
    ctx.payloadLength > responseSizeLimit

/-! ## Single reads -/

/-- **`BIO_read`.**  It blocks, or takes some of the pending bytes. -/
theorem bioRead_spec (bio : Bio) (r : ℕ) :
    (∃ bio', bioRead bio r = (-1, [], bio') ∧ bio'.pending = bio.pending) ∨
    (∃ data bio', bioRead bio r = (data.length, data, bio') ∧
      bio.pending = data ++ bio'.pending ∧ data ≠ [] ∧ data.length ≤ r) := by
  unfold bioRead Bio.read
  rcases h : bio.answers bio.calls with n | _ | _ | _
  · by_cases hd : bio.pending.take (min n r) = []
    · exact .inl ⟨{ bio with calls := bio.calls + 1 }, by simp only [if_pos hd], rfl⟩
    refine .inr ⟨bio.pending.take (min n r), { bio with
        pending := bio.pending.drop (bio.pending.take (min n r)).length
        calls := bio.calls + 1 }, by simp only [if_neg hd], ?_, hd, ?_⟩
    · exact (prefix_iff_eq_append.mp <| take_prefix _ _).symm
    · rw [length_take]
      omega
  all_goals exact .inl ⟨_, rfl, rfl⟩

theorem bioRead_one (bio) : (∃ bio', bioRead bio 1 = (-1, [], bio') ∧ bio'.pending = bio.pending) ∨
    (∃ b bio', bioRead bio 1 = (1, [b], bio') ∧ bio.pending = b :: bio'.pending) := by
  rcases bioRead_spec bio 1 with hb | ⟨data, bio', hread, hp, hne, hle⟩
  · exact .inl hb
  obtain ⟨b, rfl⟩ := length_eq_one_iff.mp
    (le_antisymm hle (length_pos_of_ne_nil hne))
  exact .inr ⟨b, bio', hread, hp⟩

theorem beNat_concat_or (l b) : beNat (l ++ [b]) = beNat l <<< 8 ||| b.toNat := by
  rw [beNat_concat, ← shiftLeft_add_eq_or_of_lt b.toNat_lt, shiftLeft_eq]

/-- **The loop over the bytes of a longer length.**  It blocks with some of them missing, or has
read them all. -/
theorem lengthLoop_spec (read left rest : List UInt8) (ctx : Context) (bio : Bio)
    (hp : bio.pending = left ++ rest) (hlen : ctx.payloadLength = beNat read) :
    (∃ l1 l2 bio', left = l1 ++ l2 ∧ l2 ≠ [] ∧ bio'.pending = l2 ++ rest ∧
      lengthLoop left.length ctx bio = (some (-1), { ctx with
          payloadLength := beNat (read ++ l1)
          lengthAndMaskPosition := ctx.lengthAndMaskPosition + l1.length }, bio')) ∨
    (∃ bio', bio'.pending = rest ∧ lengthLoop left.length ctx bio = (none, { ctx with
          payloadLength := beNat (read ++ left)
          lengthAndMaskPosition := ctx.lengthAndMaskPosition + left.length }, bio')) := by
  induction left generalizing read ctx bio with
  | nil =>
    refine .inr ⟨bio, hp, ?_⟩
    rw [append_nil, ← hlen]
    rfl
  | cons b left ih =>
  rw [length_cons, lengthLoop]
  rcases bioRead_one bio with ⟨bio', hread, hpend⟩ | ⟨b', bio', hread, hpend⟩
  · rw [hread]
    refine .inl ⟨[], b :: left, bio', rfl, by simp, hpend.trans hp, ?_⟩
    rw [append_nil, ← hlen]
    rfl
  rw [hread]
  rw [hpend, cons_append, List.cons.injEq] at hp
  obtain ⟨rfl, hp⟩ := hp
  have hnext := ih (read ++ [b'])
    { ctx with
      payloadLength := ctx.payloadLength <<< 8 ||| b'.toNat
      lengthAndMaskPosition := ctx.lengthAndMaskPosition + 1 } bio' hp
    (by rw [beNat_concat_or, ← hlen])
  simp only [append_assoc, add_assoc] at hnext
  rcases hnext with ⟨l1, l2, bio'', rfl, hne, hp', hloop⟩ | ⟨bio'', hp', hloop⟩
  · refine .inl ⟨b' :: l1, l2, bio'', rfl, hne, hp', ?_⟩
    rw [length_cons, add_comm l1.length 1]
    exact hloop
  · refine .inr ⟨bio'', hp', ?_⟩
    rw [add_comm left.length 1]
    exact hloop

/-- **`websocket_read_data`.**  With `payload` left of the frame it leaves an empty frame, blocks,
or takes a piece of the payload. -/
theorem readData_spec (bio : Bio) (size : ℕ) (ctx : Context) (payload rest : List UInt8)
    (hp : bio.pending = payload ++ rest) (hlen : ctx.payloadLength = payload.length)
    (hlimit : payload.length ≤ responseSizeLimit) :
    (payload = [] ∧ readData bio size ctx = (0, [], { ctx with state := .opcodeAndFin }, bio)) ∨
    (payload ≠ [] ∧ ∃ bio', readData bio size ctx = (-1, [], ctx, bio') ∧
      bio'.pending = bio.pending) ∨
    (∃ data left bio', readData bio size ctx = (data.length, data, { ctx with
          payloadLength := left.length
          state := if left.length = 0 then .opcodeAndFin else ctx.state }, bio') ∧
      payload = data ++ left ∧ bio'.pending = left ++ rest ∧ data ≠ [] ∧ data.length ≤ size) := by
  rw [readData]
  by_cases h0 : payload = []
  · exact .inl ⟨h0, if_pos (by rw [hlen, h0]; rfl)⟩
  have hpos : 0 < payload.length := length_pos_of_ne_nil h0
  set rlen := if ctx.payloadLength < size then ctx.payloadLength else size with hr
  have hrle : rlen ≤ payload.length ∧ rlen ≤ size := by
    rw [hr]
    split <;> omega
  have hint : ¬ rlen > intMax := by
    have h1 : responseSizeLimit ≤ intMax := by decide
    omega
  rw [if_neg (by omega)]
  simp only [if_neg hint]
  rcases bioRead_spec bio rlen with ⟨bio', hread, hp'⟩ | ⟨data, bio', hread, hp', hne, hle⟩
  · refine .inr (.inl ⟨h0, bio', ?_, hp'⟩)
    rw [hread]
    rfl
  -- the piece ends within the payload
  obtain ⟨left, rfl⟩ : data <+: payload := by
    refine prefix_of_prefix_length_le ?_ (prefix_append payload rest)
      (hle.trans hrle.1)
    rw [← hp, hp']
    exact prefix_append _ _
  have hdata : 0 < data.length := length_pos_of_ne_nil hne
  have hleft : ctx.payloadLength - data.length = left.length := by
    rw [hlen, length_append]
    omega
  refine .inr (.inr ⟨data, left, bio', ?_, rfl, ?_, hne, hle.trans hrle.2⟩)
  · rw [hread]
    simp only [Int.toNat_natCast, hleft]
    rw [if_neg (by omega)]
  · rw [hp', append_assoc, append_cancel_left_eq] at hp
    exact hp

/-! ## One round -/

/-- The reader goes on behind a header, or has met a bad one. -/
def Next (bad : Option (List UInt8)) (ctx : Context) (pending deliver : List UInt8) : Prop :=
  Awaits bad ctx pending deliver ∨ ctx.Failed ∧ deliver = [] ∧ bad = some pending

def work (ctx : Context) (bio : Bio) : ℕ :=
  2 * bio.pending.length + if ctx.state = .payload then 1 else 0

/-- What a round may do with `size` bytes left in the buffer and `deliver` to come. -/
def RoundOk (bad : Option (List UInt8)) (before size : ℕ) (deliver : List UInt8) : Round → Prop
  | .abort => False
  | .fail ctx bio => ctx.Failed ∧ deliver = [] ∧ bad = some bio.pending
  | .stop status ctx bio => status = -1 ∧ Awaits bad ctx bio.pending deliver
  | .full data ctx bio =>
      data.length = size ∧ ∃ d, deliver = data ++ d ∧ Awaits bad ctx bio.pending d
  | .go data ctx bio => data.length < size ∧
      (∃ d, deliver = data ++ d ∧ Next bad ctx bio.pending d) ∧ work ctx bio < before

variable {ctx : Context} {bio : Bio}

theorem work_lt (h : bio'.pending.length < bio.pending.length) : work ctx' bio' < work ctx bio := by
  unfold work
  split <;> split <;> omega

variable {bad : Option (List UInt8)} {size : ℕ} {deliver rest : List UInt8}

theorem readByte_ok {next} (hsize : 0 < size)
    (hp : bio.pending = b :: rest) (hstop : Awaits bad ctx (b :: rest) deliver)
    (hgo : Next bad (next b) rest deliver) :
    RoundOk bad (work ctx bio) size deliver (readByte ctx bio next) := by
  unfold readByte
  rcases bioRead_one bio with ⟨bio', hread, hpend⟩ | ⟨b', bio', hread, hpend⟩
  · rw [hread]
    refine ⟨rfl, ?_⟩
    rw [hpend, hp]
    exact hstop
  · rw [hread]
    rw [hpend] at hp
    obtain ⟨rfl, rfl⟩ := hp
    exact ⟨hsize, ⟨deliver, rfl, hgo⟩, work_lt (by rw [hpend]; exact lt_succ_self _)⟩

variable {started : Bool}

/-- The first byte of a frame tells the message it belongs to. -/
theorem setOpcode_started (hs : ctx.Started started) (f : Frame) :
    (ctx.setOpcode f.first).Started (f.starts started) := by
  intro h
  show (if f.first &&& 0xf ≠ continuationOpcode ∧ f.first &&& 0xf < 0x08 then f.first
    else ctx.fragmentOriginalOpcode) &&& 0xf = binaryOpcode
  by_cases hb : f.first &&& 0xf = binaryOpcode
  · rw [if_pos (by rw [hb]; decide), hb]
  rw [Frame.starts, beq_false_of_ne hb, Bool.or_false] at h
  have hkind := f.opcode_mem
  simp only [mem_cons, not_mem_nil, or_false, hb, false_or] at hkind
  rw [if_neg (by rcases hkind with h | h | h <;> rw [h] <;> decide), hs h]

/-- The payload of a frame is handled as binary data when it belongs to a binary message. -/
theorem effectiveOpcode_frame (hs : ctx.Started started) (f : Frame) (hop : ctx.opcode = f.first)
    (hf : f.first &&& 0xf = continuationOpcode ∨ f.first &&& 0xf = binaryOpcode → started = true) :
    ctx.effectiveOpcode = binaryOpcode ↔
      f.first &&& 0xf = binaryOpcode ∨ f.first &&& 0xf = continuationOpcode := by
  rw [Context.effectiveOpcode, hop]
  by_cases hc : f.first &&& 0xf = continuationOpcode
  · rw [if_pos hc]
    exact iff_of_true (hs (hf (.inl hc))) (.inr hc)
  · simp [hc]

variable {h : Header}

/-- **Behind the length.**  A frame's payload is next; a masked header has failed. -/
theorem Follows.next (hfol : Follows bad h started rest deliver)
    (hop : ctx.opcode = h.first) (hs : ctx.Started started)
    (hmask : ctx.state = afterLength (h.lengthAndMask &&& 0x80 == 0x80))
    (hlen : ctx.payloadLength = h.payloadLength) (hlimit : h.payloadLength ≤ responseSizeLimit) :
    Next bad ctx rest deliver := by
  rcases hfol with ⟨rest, hbad, hrest⟩ | ⟨f, rest, deliver, hf, hcont, hwire⟩
  · -- the length is within the limit, so the mask bit is set
    have hm : h.lengthAndMask &&& 0x80 = 0x80 := by
      by_contra hne
      exact hbad ⟨hne, hlimit⟩
    refine .inr ⟨.inl ?_, rfl, hrest⟩
    rw [hmask, hm]
    rfl
  subst hf
  have hdata := effectiveOpcode_frame hs f hop hcont
  have hawait : Awaits bad ctx (f.payload ++ rest)
      ((if ctx.effectiveOpcode = binaryOpcode then f.payload else []) ++ deliver) := by
    refine .payload started f.payload rest deliver ?_ hs hwire (hlen.trans f.payload_length.symm)
      (by rw [f.payload_length]; exact hlimit) ?_
    · rw [hmask, beq_false_of_ne f.good.1]
      rfl
    intro hne
    have hkind := f.opcode_mem
    rw [Ne, hdata, not_or] at hne
    simp only [mem_cons, not_mem_nil, or_false, hne.1, hne.2, false_or] at hkind
    exact f.control_ne hkind
  refine .inl ?_
  rw [Frame.binary]
  simpa only [hdata] using hawait

theorem round_opcode (hsize : 0 < size) (hstate : ctx.state = .opcodeAndFin)
    (hs : ctx.Started started) (hwire : Wire bad started bio.pending deliver) :
    RoundOk bad (work ctx bio) size deliver (readByte ctx bio ctx.setOpcode) := by
  have hawait := Awaits.opcode started bio.pending deliver hstate hs hwire
  generalize hp : bio.pending = pending at hwire hawait
  cases hwire with
  | nil _ hbad =>
    -- there is nothing to read, so that the read blocks
    unfold readByte
    rcases bioRead_one bio with ⟨bio', hread, hpend⟩ | ⟨b', bio', hread, hpend⟩
    · rw [hread]
      refine ⟨rfl, ?_⟩
      rw [hpend, hp]
      exact hawait
    · rw [hpend] at hp
      cases hp
  | bad _ h rest hbad hrest =>
    refine readByte_ok hsize hp hawait (.inl ?_)
    exact .length h false rest [] rfl rfl (nofun) (.bad rest hbad hrest)
  | frame _ f rest deliver hcont hwire =>
  refine readByte_ok hsize (hp.trans (append_assoc _ _ _))
    (by rwa [Frame.bytes, append_assoc] at hawait) (.inl ?_)
  refine .length f.toHeader (f.starts started) (f.payload ++ rest) (f.binary ++ deliver) rfl rfl
    (setOpcode_started hs f) (.frame f rest deliver rfl ?_ hwire)
  rintro (hc | hb)
  · rw [Frame.starts, hcont hc, Bool.true_or]
  · rw [Frame.starts, hb, beq_self_eq_true, Bool.or_true]

theorem round_length (hsize : 0 < size)
    (hstate : ctx.state = .lengthAndMasking) (hop : ctx.opcode = h.first)
    (hs : ctx.Started started) (hfol : Follows bad h started rest deliver)
    (hp : bio.pending = h.lengthAndMask :: (h.lengths ++ rest)) :
    RoundOk bad (work ctx bio) size deliver (readByte ctx bio ctx.setLength) := by
  refine readByte_ok hsize hp (.length h started rest deliver hstate hop hs hfol) ?_
  have hsz := h.lengths_length
  by_cases hb : h.lengthAndMask &&& 0x7f < 126
  · -- a length of seven bits is the whole header
    rw [lengthSize, if_pos hb, length_eq_zero_iff] at hsz
    rw [hsz]
    have hlen : h.payloadLength = (h.lengthAndMask &&& 0x7f).toNat := if_pos hb
    refine hfol.next hop hs (if_pos hb) ?_ ?_
    · rw [hlen]
      exact if_pos hb
    rw [hlen]
    have hlt : (h.lengthAndMask &&& 0x7f).toNat < 126 := UInt8.lt_iff_toNat_lt.mp hb
    exact (hlt.trans (by decide)).le
  · refine .inl (.lengths h started [] h.lengths rest deliver (if_neg hb) hop hs hfol hb rfl ?_ rfl
      rfl (if_neg hb))
    rw [lengthSize, if_neg hb] at hsz
    intro h0
    rw [h0] at hsz
    split at hsz <;> cases hsz

theorem round_lengths {read left} (hsize : 0 < size)
    (hstate : ctx.state = lengthState h.lengthAndMask) (hop : ctx.opcode = h.first)
    (hs : ctx.Started started) (hfol : Follows bad h started rest deliver)
    (hb : ¬ h.lengthAndMask &&& 0x7f < 126) (hsplit : h.lengths = read ++ left) (hne : left ≠ [])
    (hmask : ctx.masking = (h.lengthAndMask &&& 0x80 == 0x80))
    (hpos : ctx.lengthAndMaskPosition = read.length) (hlen : ctx.payloadLength = beNat read)
    (hp : bio.pending = left ++ rest) :
    RoundOk bad (work ctx bio) size deliver (ctx.roundLength bio) := by
  have hfull : (if ctx.state = .shortLength then 2 else 8) = read.length + left.length := by
    rw [← length_append, ← hsplit, h.lengths_length, lengthSize, if_neg hb, hstate, lengthState]
    by_cases h126 : h.lengthAndMask &&& 0x7f = 126
    · rw [if_pos h126, if_pos h126, if_pos rfl]
    · rw [if_neg h126, if_neg h126, if_neg (by decide)]
  have hleft : (if ctx.state = .shortLength then 2 else 8) - ctx.lengthAndMaskPosition =
      left.length := by
    rw [hfull, hpos, Nat.add_sub_cancel_left]
  rw [Context.roundLength]
  simp only [hleft]
  rcases lengthLoop_spec read left rest ctx bio hp hlen with
    ⟨l1, l2, bio', rfl, hne', hp', hloop⟩ | ⟨bio', hp', hloop⟩
  · rw [hloop]
    refine ⟨rfl, ?_⟩
    rw [hp']
    refine .lengths h started (read ++ l1) l2 rest deliver hstate hop hs hfol hb
      (by rw [hsplit, append_assoc]) hne' hmask ?_ rfl
    rw [length_append, hpos]
  rw [hloop, ← hsplit]
  have hpay : h.payloadLength = beNat h.lengths := if_neg hb
  by_cases hlimit : beNat h.lengths > responseSizeLimit
  · -- the length is too long: only a bad header has it
    simp only [if_pos hlimit]
    refine ⟨.inr ⟨?_, hlimit⟩, ?_⟩
    · show ctx.state = .shortLength ∧ 2 ≤ ctx.lengthAndMaskPosition + left.length ∨
        ctx.state = .longLength ∧ 8 ≤ ctx.lengthAndMaskPosition + left.length
      rw [hpos, ← hfull, hstate, lengthState]
      by_cases h126 : h.lengthAndMask &&& 0x7f = 126
      · rw [if_pos h126]
        decide
      · rw [if_neg h126]
        decide
    · rw [hp']
      cases hfol with
      | bad rest _ hrest => exact ⟨rfl, hrest⟩
      | frame f rest deliver hf _ _ =>
      subst hf
      exact absurd f.good.2 (by rw [hpay]; exact not_le.mpr hlimit)
  · simp only [if_neg hlimit]
    refine ⟨hsize, ⟨deliver, rfl, ?_⟩, work_lt ?_⟩
    · rw [hp']
      exact hfol.next hop hs (by rw [← hmask]) hpay.symm (by rw [hpay]; exact not_lt.mp hlimit)
    rw [hp, hp', length_append]
    have := length_pos_of_ne_nil hne
    omega

/-- The context after a piece of a payload, of which `left` bytes are left. -/
structure Context.AfterPiece (ctx : Context) (left : ℕ) (ctx' : Context) : Prop where
  opcode : ctx'.opcode = ctx.opcode
  fragmentOriginalOpcode : ctx'.fragmentOriginalOpcode = ctx.fragmentOriginalOpcode
  payloadLength : ctx'.payloadLength = left
  state : ctx'.state = if left = 0 then .opcodeAndFin else .payload

theorem Context.AfterPiece.awaits (h : ctx.AfterPiece left.length ctx')
    (hs : ctx.Started started) (hwire : Wire bad started rest deliver)
    (hlimit : left.length ≤ responseSizeLimit) : Awaits bad ctx' (left ++ rest)
      ((if ctx.effectiveOpcode = binaryOpcode then left else []) ++ deliver) := by
  have hs' : ctx'.Started started := by
    rw [Context.Started, h.fragmentOriginalOpcode]
    exact hs
  by_cases h0 : left = []
  · subst h0
    rw [ite_self]
    exact .opcode started rest deliver h.state hs' hwire
  have heff : ctx'.effectiveOpcode = ctx.effectiveOpcode := by
    rw [Context.effectiveOpcode, h.opcode, h.fragmentOriginalOpcode, Context.effectiveOpcode]
  rw [← heff]
  exact .payload started left rest deliver
    (h.state.trans (if_neg (mt length_eq_zero_iff.mp h0))) hs' hwire h.payloadLength hlimit
    (fun _ => h0)

/-- **The payload of other frames** is taken from the wire and not given to the caller. -/
theorem handlePayload_control (bio : Bio) (size : ℕ) (ctx : Context) (payload rest : List UInt8)
    (heff : ctx.effectiveOpcode ≠ binaryOpcode) (hstate : ctx.state = .payload)
    (hp : bio.pending = payload ++ rest) (hlen : ctx.payloadLength = payload.length)
    (hlimit : payload.length ≤ responseSizeLimit) (hne : payload ≠ []) :
    (∃ bio', handlePayload bio size ctx = some (-1, [], ctx, bio') ∧ bio'.pending = bio.pending) ∨
    (∃ data left ctx' bio', handlePayload bio size ctx = some (0, [], ctx', bio') ∧
      payload = data ++ left ∧ data ≠ [] ∧ bio'.pending = left ++ rest ∧
      ctx.AfterPiece left.length ctx') := by
  have hpos : ctx.payloadLength ≠ 0 := by
    rw [hlen]
    exact mt length_eq_zero_iff.mp hne
  rw [handlePayload, if_neg heff, readWstream, if_neg hpos]
  rcases readData_spec bio ctx.payloadLength ctx payload rest hp hlen hlimit with
    ⟨h0, _⟩ | ⟨_, bio', hread, hp'⟩ | ⟨data, left, bio', hread, hsplit, hp', hdata, _⟩
  · exact absurd h0 hne
  · refine .inl ⟨bio', ?_, hp'⟩
    rw [hread]
    rfl
  refine .inr ⟨data, left, ?_⟩
  have hnat : ¬ (data.length : ℤ) < 0 := Int.not_lt.mpr (Int.natCast_nonneg _)
  rw [hread]
  simp only [if_neg hnat]
  have hafter : ∀ response closeSent, ctx.AfterPiece left.length
      { ctx with
        payloadLength := left.length
        state := if left.length = 0 then .opcodeAndFin else ctx.state
        response := response
        closeSent := closeSent } := by
    intro response closeSent
    exact ⟨rfl, rfl, rfl, by rw [hstate]⟩
  by_cases hping : ctx.effectiveOpcode = pingOpcode
  · rw [if_pos hping]
    by_cases h0 : left.length = 0
    · -- there is something to send back, namely `data`
      have hresp : ctx.response ++ data ≠ [] := by
        intro h
        exact hdata (append_eq_nil_iff.mp h).2
      simp only [if_pos h0, replyPong, if_pos hresp]
      refine ⟨_, bio', rfl, hsplit, hdata, hp', ?_⟩
      simpa only [if_pos h0] using hafter [] ctx.closeSent
    · simp only [if_neg h0]
      refine ⟨_, bio', rfl, hsplit, hdata, hp', ?_⟩
      simpa only [if_neg h0] using hafter (ctx.response ++ data) ctx.closeSent
  rw [if_neg hping]
  by_cases hclose : ctx.effectiveOpcode = closeOpcode
  · rw [if_pos hclose]
    by_cases h0 : left.length = 0
    · simp only [if_pos h0]
      refine ⟨_, bio', rfl, hsplit, hdata, hp', ?_⟩
      simpa only [if_pos h0] using hafter [] true
    · simp only [if_neg h0]
      refine ⟨_, bio', rfl, hsplit, hdata, hp', ?_⟩
      simpa only [if_neg h0] using hafter (ctx.response ++ data) ctx.closeSent
  · rw [if_neg hclose]
    exact ⟨_, bio', rfl, hsplit, hdata, hp', hafter [] ctx.closeSent⟩

theorem round_payload (hsize : 0 < size) (hstate : ctx.state = .payload) (hs : ctx.Started started)
    (hwire : Wire bad started rest deliver) (hlen : ctx.payloadLength = payload.length)
    (hlimit : payload.length ≤ responseSizeLimit)
    (hne : ctx.effectiveOpcode ≠ binaryOpcode → payload ≠ [])
    (hp : bio.pending = payload ++ rest) :
    RoundOk bad (work ctx bio) size
      ((if ctx.effectiveOpcode = binaryOpcode then payload else []) ++ deliver)
      (ctx.roundPayload bio size) := by
  have hawait : Awaits bad ctx (payload ++ rest)
      ((if ctx.effectiveOpcode = binaryOpcode then payload else []) ++ deliver) :=
    .payload started payload rest deliver hstate hs hwire hlen hlimit hne
  have hshorter : ∀ {data left : List UInt8} {bio' : Bio}, payload = data ++ left → data ≠ [] →
      bio'.pending = left ++ rest → bio'.pending.length < bio.pending.length := by
    intro data left bio' hsplit hdata hp'
    have := length_pos_of_ne_nil hdata
    rw [hp, hp', hsplit]
    simp only [length_append]
    omega
  have hleft : ∀ {data left : List UInt8}, payload = data ++ left →
      left.length ≤ responseSizeLimit := by
    intro data left hsplit
    rw [hsplit, length_append] at hlimit
    omega
  rw [Context.roundPayload]
  by_cases heff : ctx.effectiveOpcode = binaryOpcode
  · simp only [handlePayload, if_pos heff] at hawait ⊢
    rcases readData_spec bio size ctx payload rest hp hlen hlimit with
      ⟨rfl, hread⟩ | ⟨_, bio', hread, hp'⟩ | ⟨data, left, bio', hread, hsplit, hp', hdata, hle⟩
    · -- an empty frame is left without a read
      rw [hread]
      simp only [Int.toNat_zero, not_le.mpr hsize]
      refine ⟨hsize, ⟨deliver, rfl, .inl ?_⟩, ?_⟩
      · rw [hp]
        exact .opcode started rest deliver rfl hs hwire
      · simp only [work, hstate, reduceCtorEq, if_true, if_false]
        omega
    · rw [hread]
      refine ⟨rfl, ?_⟩
      rw [hp', hp]
      exact hawait
    have hnat : ¬ (data.length : ℤ) < 0 := Int.not_lt.mpr (Int.natCast_nonneg _)
    have hafter : ctx.AfterPiece left.length { ctx with
        payloadLength := left.length
        state := if left.length = 0 then .opcodeAndFin else ctx.state } :=
      ⟨rfl, rfl, rfl, by rw [hstate]⟩
    have hpiece := hafter.awaits hs hwire (hleft hsplit)
    rw [if_pos heff, ← hp'] at hpiece
    have hd : payload ++ deliver = data ++ (left ++ deliver) := by
      rw [hsplit, append_assoc]
    rw [hread]
    simp only [Int.toNat_natCast]
    by_cases hfull : data.length ≥ size
    · rw [if_pos hfull]
      exact ⟨le_antisymm hle hfull, left ++ deliver, hd, hpiece⟩
    · rw [if_neg hfull]
      exact ⟨not_le.mp hfull, ⟨left ++ deliver, hd, .inl hpiece⟩,
        work_lt (hshorter hsplit hdata hp')⟩
  · rcases handlePayload_control bio size ctx payload rest heff hstate hp
      hlen hlimit (hne heff) with
      ⟨bio', hread, hp'⟩ | ⟨data, left, ctx', bio', hread, hsplit, hdata, hp', hafter⟩
    · rw [hread]
      refine ⟨rfl, ?_⟩
      rw [hp', hp]
      exact hawait
    have hpiece := hafter.awaits hs hwire (hleft hsplit)
    rw [if_neg heff, ← hp'] at hpiece
    rw [hread]
    simp only [Int.toNat_zero, not_le.mpr hsize, if_neg heff]
    exact ⟨hsize, ⟨deliver, rfl, .inl hpiece⟩, work_lt (hshorter hsplit hdata hp')⟩

/-- **One round** does one of the things it may do. -/
theorem Context.round_ok (hsize : 0 < size) (h : Awaits bad ctx bio.pending deliver) :
    RoundOk bad (work ctx bio) size deliver (ctx.round bio size) := by
  unfold Context.round
  generalize hp : bio.pending = pending at h
  cases h with
  | opcode started _ _ hstate hs hwire =>
    rw [hstate]
    exact round_opcode hsize hstate hs (hp ▸ hwire)
  | length h started rest _ hstate hop hs hfol =>
    rw [hstate]
    exact round_length hsize hstate hop hs hfol hp
  | lengths h started read left rest _ hstate hop hs hfol hb hsplit hne hmask hpos hlen =>
    have hround := round_lengths hsize hstate hop hs hfol hb hsplit hne hmask hpos hlen hp
    rw [hstate, lengthState]
    by_cases h126 : h.lengthAndMask &&& 0x7f = 126
    · rw [if_pos h126]
      exact hround
    · rw [if_neg h126]
      exact hround
  | payload started payload rest deliver hstate hs hwire hlen hlimit hne =>
  rw [hstate]
  exact round_payload hsize hstate hs hwire hlen hlimit hne hp

theorem Context.Failed.round (h : ctx.Failed) (bio) (size) :
    ctx.round bio size = .fail ctx bio := by
  rcases h with h | ⟨⟨h, hpos⟩ | ⟨h, hpos⟩, hlen⟩
  · rw [Context.round, h]
  all_goals
    rw [Context.round, Context.roundLength]
    simp [h, Nat.sub_eq_zero_of_le hpos, lengthLoop, if_pos hlen]

/-! ## Calls -/

/-- What a call ends in, with `data` put into the buffer: the reader has failed, or `data` is the
front of what was to come and the result its length. -/
def CallOk (bad : Option (List UInt8)) (deliver buffer data : List UInt8) (result : ℤ)
    (ctx : Context) (pending : List UInt8) : Prop :=
  (result = -1 ∧ ctx.Failed ∧ deliver = data ∧ bad = some pending) ∨
    ∃ d, deliver = data ++ d ∧ Awaits bad ctx pending d ∧
      result = if (buffer ++ data).length > 0 then ((buffer ++ data).length : ℤ) else -1

theorem assertingIntCast_of_le (h : n ≤ intMax) : assertingIntCast n = some (n : ℤ) :=
  if_neg (not_lt.mpr h)

/-- **The loop of `websocket_context_read`.**  The induction is on the fuel, which is more than the
work that is left. -/
theorem contextReadLoop_spec (ctx : Context) (bio : Bio)
    (size : ℕ) (buffer deliver : List UInt8) (hsize : 0 < size)
    (hint : buffer.length + size ≤ intMax) (hfuel : work ctx bio < fuel)
    (h : Next bad ctx bio.pending deliver) : ∃ result data ctx' bio',
      contextReadLoop fuel ctx bio size buffer = some (result, buffer ++ data, ctx', bio') ∧
      data.length ≤ size ∧ CallOk bad deliver buffer data result ctx' bio'.pending := by
  induction fuel generalizing ctx bio size buffer deliver with
  | zero => omega
  | succ fuel ih =>
  rw [contextReadLoop]
  rcases h with h | ⟨hf, rfl, hbad⟩
  swap
  · rw [hf.round bio size]
    exact ⟨-1, [], ctx, bio, by rw [append_nil], zero_le _, .inl ⟨rfl, hf, rfl, hbad⟩⟩
  have hround := Context.round_ok hsize h
  cases hr : ctx.round bio size with
  | abort =>
    rw [hr] at hround
    exact hround.elim
  | fail ctx' bio' =>
    rw [hr] at hround
    exact ⟨-1, [], ctx', bio', by rw [append_nil], zero_le _, .inl ⟨rfl, hround⟩⟩
  | stop status ctx' bio' =>
    rw [hr] at hround
    obtain ⟨rfl, hawait⟩ := hround
    refine ⟨if buffer.length > 0 then (buffer.length : ℤ) else -1, [], ctx', bio', ?_,
      zero_le _, .inr ⟨deliver, rfl, hawait, by rw [append_nil]⟩⟩
    by_cases hb : buffer.length > 0
    · simp [if_pos hb, assertingIntCast_of_le (show buffer.length ≤ intMax by omega)]
    · simp [if_neg hb]
  | full data ctx' bio' =>
    rw [hr] at hround
    obtain ⟨hfull, d, hd, hawait⟩ := hround
    have hlen : (buffer ++ data).length = buffer.length + size := by
      rw [length_append, hfull]
    refine ⟨(buffer ++ data).length, data, ctx', bio', ?_, hfull.le, .inr ⟨d, hd, hawait, ?_⟩⟩
    · simp only [assertingIntCast_of_le (hlen.trans_le hint), Option.map_some]
    · rw [if_pos (by omega)]
  | go data ctx' bio' =>
  rw [hr] at hround
  obtain ⟨hlt, ⟨d, rfl, hnext⟩, hwork⟩ := hround
  obtain ⟨result, more, ctx'', bio'', hloop, hmore, hok⟩ :=
    ih ctx' bio' (size - data.length) (buffer ++ data) d (by omega)
      (by rw [length_append]; omega) (by omega) hnext
  refine ⟨result, data ++ more, ctx'', bio'', ?_, ?_, ?_⟩
  · rw [← append_assoc]
    exact hloop
  · rw [length_append]
    omega
  rcases hok with ⟨rfl, hf, rfl, hbad⟩ | ⟨d', rfl, hawait, hres⟩
  · exact .inl ⟨rfl, hf, rfl, hbad⟩
  · exact .inr ⟨d', by rw [append_assoc], hawait, by rw [hres, append_assoc]⟩

/-- **One call of `websocket_context_read`.** -/
theorem contextRead_spec (hsize : 1 ≤ size ∧ size ≤ intMax) (h : Next bad ctx bio.pending deliver) :
    ∃ result data ctx' bio', contextRead ctx bio size = some (result, data, ctx', bio') ∧
      data.length ≤ size ∧ CallOk bad deliver [] data result ctx' bio'.pending := by
  have hfuel : work ctx bio < 2 * bio.pending.length + 2 := by
    unfold work
    split <;> omega
  exact contextReadLoop_spec ctx bio size [] deliver hsize.1 (by simpa using hsize.2) hfuel h

/-- A call stays within its buffer, and a result that is no failure is the length of what it
holds. -/
def Call.Within (c : Call) : Prop :=
  c.buffer.length ≤ c.size ∧ (0 ≤ c.result → c.result = c.buffer.length)

theorem CallOk.returned
    (h : CallOk bad deliver [] data result ctx pending) (hle : data.length ≤ size) :
    (Call.mk size result data).Within ∧
      ((result = -1 ∧ ctx.Failed ∧ bad = some pending ∧ (Call.mk size result data).returned = []) ∨
        ∃ d, deliver = (Call.mk size result data).returned ++ d ∧ Awaits bad ctx pending d) := by
  rcases h with ⟨rfl, hf, _, hbad⟩ | ⟨d, hd, hawait, hres⟩
  · exact ⟨⟨hle, fun h => absurd h (show ¬ (0 : ℤ) ≤ -1 by decide)⟩, .inl ⟨rfl, hf, hbad, rfl⟩⟩
  rw [nil_append] at hres
  by_cases hpos : data.length > 0
  · rw [if_pos hpos] at hres
    subst hres
    refine ⟨⟨hle, fun _ => rfl⟩, .inr ⟨d, ?_, hawait⟩⟩
    rw [Call.returned, Int.toNat_natCast, take_length]
    exact hd
  subst hres
  have h0 : data = [] := length_eq_zero_iff.mp (Nat.eq_zero_of_not_pos hpos)
  subst h0
  exact ⟨⟨hle, fun h => absurd h (show ¬ (0 : ℤ) ≤ -1 by decide)⟩, .inr ⟨d, hd, hawait⟩⟩

theorem calls_failed (sizes) (h : ctx.Failed) (bio) :
    calls sizes ctx bio = some (sizes.map (fun size => ⟨size, -1, []⟩), ctx, bio) := by
  induction sizes with
  | nil => rfl
  | cons size sizes ih =>
  have hread : contextRead ctx bio size = some (-1, [], ctx, bio) := by
    rw [contextRead, contextReadLoop, h.round bio size]
  simp [calls, hread, ih]

/-- **A run of calls.**  The induction is on the sizes of the buffers: the calls return the front of
what was to come, and the last of them fails if the reader has met a bad header. -/
theorem calls_spec (sizes : List ℕ)
    (hsizes : ∀ size ∈ sizes, 1 ≤ size ∧ size ≤ intMax) (ctx : Context) (bio : Bio)
    (deliver : List UInt8) (h : Awaits bad ctx bio.pending deliver) :
    ∃ cs ctx' bio', calls sizes ctx bio = some (cs, ctx', bio') ∧ cs.map Call.size = sizes ∧
      (∀ c ∈ cs, c.Within) ∧ ((cs.flatMap Call.returned <+: deliver ∧ bad = some bio'.pending ∧
          ∃ c, cs.getLast? = some c ∧ c.result = -1) ∨
        ∃ d, deliver = cs.flatMap Call.returned ++ d ∧ Awaits bad ctx' bio'.pending d) := by
  induction sizes generalizing ctx bio deliver with
  | nil => exact ⟨[], ctx, bio, rfl, rfl, by simp, .inr ⟨deliver, rfl, h⟩⟩
  | cons size sizes ih =>
  obtain ⟨result, data, ctx1, bio1, hread, hle, hok⟩ :=
    contextRead_spec (hsizes size mem_cons_self) (.inl h)
  obtain ⟨hwithin, hcall⟩ := hok.returned hle
  simp only [calls, hread]
  rcases hcall with ⟨rfl, hf, hbad, hret⟩ | ⟨d, rfl, hawait⟩
  · -- this call failed, so that the others return nothing
    have hnil : (sizes.map fun size => Call.mk size (-1) []).flatMap Call.returned = [] := by
      simp [Call.returned]
    simp only [calls_failed sizes hf bio1]
    refine ⟨_, ctx1, bio1, rfl, ?_, ?_, .inl ⟨?_, hbad, _, List.getLast?_cons, ?_⟩⟩
    · simp [Function.comp_def]
    · refine forall_mem_cons.mpr ⟨hwithin, ?_⟩
      intro c hc
      obtain ⟨s, _, rfl⟩ := mem_map.mp hc
      exact ⟨zero_le s, fun h => absurd h (show ¬ (0 : ℤ) ≤ -1 by decide)⟩
    · rw [flatMap_cons, hnil]
      exact nil_prefix
    · rw [List.getLast?_map]
      cases sizes.getLast? with
      | none => rfl
      | some s => rfl
  · obtain ⟨cs, ctx', bio', hcalls, hmap, hall, hend⟩ :=
      ih (fun s hs => hsizes s (mem_cons_of_mem _ hs)) ctx1 bio1 d hawait
    simp only [hcalls]
    refine ⟨_, ctx', bio', rfl, by rw [map_cons, hmap], forall_mem_cons.mpr ⟨hwithin, hall⟩, ?_⟩
    rw [flatMap_cons]
    rcases hend with ⟨hpre, hbad', c, hlast, hres⟩ | ⟨d', rfl, hawait'⟩
    · refine .inl ⟨(prefix_append_right_inj _).mpr hpre, hbad', c, ?_, hres⟩
      rw [List.getLast?_cons, hlast]
      rfl
    · exact .inr ⟨d', by rw [append_assoc], hawait'⟩

/-! ## Whole streams -/

theorem Wire.frames (fs rest)
    (hrest : ∀ started, Wire bad started rest []) (started) (h : Continues started fs) :
    Wire bad started (fs.flatMap Frame.bytes ++ rest) (fs.flatMap Frame.binary) := by
  induction fs generalizing started with
  | nil => exact hrest started
  | cons f fs ih =>
  rw [flatMap_cons, append_assoc]
  exact .frame started f _ _ h.1 (ih (f.starts started) h.2)

/-- A stream without a bad header has nothing to deliver at its end. -/
theorem Wire.deliver_nil
    (h : Wire none started pending deliver) (hp : pending = []) : deliver = [] := by
  cases h with
  | nil => rfl
  | bad => rfl
  | frame f rest deliver _ _ => cases hp

/-- A reader at the end of a stream without a bad header has delivered everything. -/
theorem Awaits.deliver_nil
    (h : Awaits none ctx pending deliver) (hp : pending = []) : deliver = [] := by
  cases h with
  | opcode started _ _ _ _ hwire => exact hwire.deliver_nil hp
  | length h started rest _ _ _ _ _ => cases hp
  | lengths h started read left rest _ _ _ _ _ _ _ hne _ _ _ =>
    exact absurd (append_eq_nil_iff.mp hp).1 hne
  | payload started payload rest deliver _ _ hwire _ _ _ =>
  obtain ⟨rfl, rfl⟩ := append_eq_nil_iff.mp hp
  rw [hwire.deliver_nil rfl, ite_self, append_nil]

variable {behind : List UInt8}

/-- What comes behind a bad header is shorter than the stream before it. -/
theorem Wire.length_lt
    (h : Wire (some behind) started pending deliver) : behind.length < pending.length := by
  induction h with
  | nil _ hbad => cases hbad
  | bad _ h rest _ hrest =>
    injection hrest with hrest
    subst hrest
    simp only [Header.bytes, length_append, length_cons]
    omega
  | frame _ f rest _ _ _ ih =>
  rw [length_append]
  omega

/-- What comes behind a header ends with what comes behind the bad one. -/
theorem Follows.length_le
    (hfol : Follows (some behind) h started rest deliver) : behind.length ≤ rest.length := by
  rcases hfol with ⟨rest, _, hrest⟩ | ⟨f, rest, deliver, _, _, hwire⟩
  · injection hrest with hrest
    rw [hrest]
  have := hwire.length_lt
  rw [length_append]
  omega

/-- A reader that has not failed has the bad header before it. -/
theorem Awaits.length_lt
    (h : Awaits (some behind) ctx pending deliver) : behind.length < pending.length := by
  cases h with
  | opcode started _ _ _ _ hwire => exact hwire.length_lt
  | length h started rest _ _ _ _ hfol =>
    have := hfol.length_le
    simp only [length_cons, length_append]
    omega
  | lengths h started read left rest _ _ _ _ hfol _ _ hne _ _ _ =>
    have h1 := hfol.length_le
    have h2 := length_pos_of_ne_nil hne
    rw [length_append]
    omega
  | payload started payload rest deliver _ _ hwire _ _ _ =>
  have := hwire.length_lt
  rw [length_append]
  omega

theorem Awaits.new (h : Wire bad false pending deliver) : Awaits bad Context.new pending deliver :=
  .opcode false pending deliver rfl (nofun) h

/-- **The WebSocket reader recovers the binary payload.**  However `BIO_read` splits a stream of
frames, the calls return a prefix of the concatenated binary payloads, and all of it once the stream
was consumed.  Behind a frame with the mask bit or with a longer length nothing is read: the call
that reads its header fails. -/
theorem websocket_read_recovers_payload (frames : List Frame) (hc : Continues false frames)
    (bio : Bio) (sizes : List ℕ) (hsizes : ∀ size ∈ sizes, 1 ≤ size ∧ size ≤ intMax) :
    (bio.pending = frames.flatMap Frame.bytes →
      ∃ cs ctx' bio', calls sizes Context.new bio = some (cs, ctx', bio') ∧
        cs.map Call.size = sizes ∧ (∀ c ∈ cs, c.Within) ∧
        cs.flatMap Call.returned <+: frames.flatMap Frame.binary ∧
        (bio'.pending = [] → cs.flatMap Call.returned = frames.flatMap Frame.binary)) ∧
    (∀ (h : Header) (behind : List UInt8), ¬ h.Good →
      bio.pending = frames.flatMap Frame.bytes ++ (h.bytes ++ behind) →
      ∃ cs ctx' bio', calls sizes Context.new bio = some (cs, ctx', bio') ∧
        cs.map Call.size = sizes ∧ (∀ c ∈ cs, c.Within) ∧
        cs.flatMap Call.returned <+: frames.flatMap Frame.binary ∧
        behind.length ≤ bio'.pending.length ∧
        (bio'.pending.length ≤ behind.length → ∃ c, cs.getLast? = some c ∧ c.result = -1)) := by
  constructor
  · intro hp
    have hwire : Wire none false bio.pending (frames.flatMap Frame.binary) := by
      rw [hp, ← append_nil (frames.flatMap Frame.bytes)]
      exact Wire.frames frames [] (fun started => .nil started rfl) false hc
    obtain ⟨cs, ctx', bio', hcalls, hmap, hall, ⟨_, hbad, _⟩ | ⟨d, hd, hawait⟩⟩ :=
      calls_spec sizes hsizes Context.new bio _ (Awaits.new hwire)
    · cases hbad
    refine ⟨cs, ctx', bio', hcalls, hmap, hall, ⟨d, hd.symm⟩, ?_⟩
    intro hend
    rw [hd, hawait.deliver_nil hend, append_nil]
  intro h behind hbad hp
  have hwire : Wire (some behind) false bio.pending (frames.flatMap Frame.binary) := by
    rw [hp]
    exact Wire.frames frames _ (fun started => .bad started h behind hbad rfl) false hc
  obtain ⟨cs, ctx', bio', hcalls, hmap, hall, ⟨hpre, hrest, hlast⟩ | ⟨d, hd, hawait⟩⟩ :=
    calls_spec sizes hsizes Context.new bio _ (Awaits.new hwire)
  · injection hrest with hrest
    exact ⟨cs, ctx', bio', hcalls, hmap, hall, hpre, by rw [hrest], fun _ => hlast⟩
  refine ⟨cs, ctx', bio', hcalls, hmap, hall, ⟨d, hd.symm⟩, hawait.length_lt.le, ?_⟩
  intro hle
  exact absurd hawait.length_lt (not_lt.mpr hle)

/-- A binary message in two fragments with a ping between them; the second length has 16 bits. -/
def threeFrames : List Frame :=
  [⟨⟨0x02, 2, [], rfl⟩, [1, 2], rfl, by decide, by decide, by decide⟩,
    ⟨⟨0x89, 1, [], rfl⟩, [7], rfl, by decide, by decide, by decide⟩,
    ⟨⟨0x80, 126, [0, 1], rfl⟩, [3], rfl, by decide, by decide, by decide⟩]

/-- Their bytes, where every fourth read blocks. -/
def threeBio : Bio :=
  ⟨threeFrames.flatMap Frame.bytes, fun n => if n % 4 = 3 then .retry else .ready 2, 0⟩

theorem websocket_read_recovers_payload_three : (calls [1, 4, 4, 4, 4] Context.new threeBio).map
      (fun r => (r.1.map Call.result, r.1.flatMap Call.returned)) =
        some ([1, -1, 1, -1, 1], [1, 2, 3]) ∧
    ∃ cs ctx' bio', calls [1, 4, 4, 4, 4] Context.new threeBio = some (cs, ctx', bio') ∧
      cs.map Call.size = [1, 4, 4, 4, 4] ∧ (∀ c ∈ cs, c.Within) ∧
      cs.flatMap Call.returned <+: threeFrames.flatMap Frame.binary ∧
      (bio'.pending = [] → cs.flatMap Call.returned = threeFrames.flatMap Frame.binary) :=
  ⟨by decide +kernel, (websocket_read_recovers_payload threeFrames
      ⟨by decide, by decide, by decide, trivial⟩ threeBio [1, 4, 4, 4, 4] (by decide)).1 rfl⟩

end WBFreeRDP.WebSocket

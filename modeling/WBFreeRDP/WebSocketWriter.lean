/-
# The gateway WebSocket writer

`websocket_context_write` of `gateway/websocket.c`: the header of a frame, its payload masked four
bytes at a time, and the loop that hands the frame to the BIO.
-/
import WBFreeRDP.WebSocket

namespace WBFreeRDP.WebSocket

open WBFreeRDP.Transport List

/-! ## The writer -/

/-- The length with the mask bit that `websocket_context_packet_new` writes. -/
def packetLength (len : ℕ) : List UInt8 :=
  if len < 126 then [UInt8.ofNat len ||| 0x80]
  else if len < 0x10000 then (126 ||| 0x80) :: beBytes 2 len
  else (127 ||| 0x80) :: (beBytes 4 0 ++ beBytes 4 len)

/-- The loops of `websocket_context_mask_and_send`: whole words, then the rest with the bytes that
the key has in memory. -/
def maskData (maskingKey : ℕ) : List UInt8 → List UInt8
  | a :: b :: c :: d :: rest =>
    leBytes 4 (leNat [a, b, c, d] ^^^ maskingKey) ++ maskData maskingKey rest
  | rest => zipWith (· ^^^ ·) rest (leBytes 4 maskingKey)

/-- What a call of `BIO_write` meets: up to `n + 1` bytes are taken, it is tried again after a wait,
there is data to be read first, or it fails. -/
inductive WriteAnswer where
  | taken (n : ℕ)
  | retry
  | readBlocked
  | failed

/-- The loop of `websocket_write_all` with what is left of `length` bytes: the status, `none` while
it goes on, and the bytes taken. -/
def writeAll (length : ℕ) : List WriteAnswer → List UInt8 → Option ℤ × List UInt8
  | _, [] => (some length, [])
  | [], _ => (none, [])
  | .taken n :: answers, data =>
    (writeAll length answers (data.drop (n + 1))).map id (data.take (n + 1) ++ ·)
  | .retry :: answers, data => writeAll length answers data
  | .readBlocked :: _, _ => (some (-2), [])
  | .failed :: _, _ => (some (-1), [])

/-- The frame of `websocket_context_write_wstream`. -/
def packet (buf : List UInt8) (opcode : UInt8) (maskingKey : ℕ) : List UInt8 :=
  (0x80 ||| opcode) :: (packetLength buf.length ++ leBytes 4 maskingKey ++ maskData maskingKey buf)

/-- `websocket_context_write`: the value returned, the bytes taken and `closeSent`. -/
def contextWrite (closeSent : Bool) (answers : List WriteAnswer) (buf : List UInt8) (opcode : UInt8)
    (maskingKey : ℕ) : Option ℤ × List UInt8 × Bool :=
  let size := (packet buf opcode maskingKey).length
  if closeSent then (some (-2), [], true)
  else if buf.length > intMax ∨ size > intMax then (some (-2), [], opcode == closeOpcode)
  else
    let (status, sent) := writeAll size answers (packet buf opcode maskingKey)
    (status.map fun s : ℤ => if s = size then (buf.length : ℤ) else -2, sent, opcode == closeOpcode)

/-! ## What is sent -/

/-- The bytes from the `i`-th on, each with its byte of the key. -/
def xorKey (key : List UInt8) : ℕ → List UInt8 → List UInt8
  | _, [] => []
  | i, x :: rest => (x ^^^ key.getD (i % 4) 0) :: xorKey key (i + 1) rest

theorem xorKey_length : (xorKey key i data).length = data.length := by
  induction data generalizing i with
  | nil => rfl
  | cons x rest ih => rw [xorKey, length_cons, ih, length_cons]

theorem xorKey_xorKey : xorKey key i (xorKey key i data) = data := by
  induction data generalizing i with
  | nil => rfl
  | cons x rest ih => rw [xorKey, xorKey, ih, UInt8.xor_assoc, UInt8.xor_self, UInt8.xor_zero]

theorem leBytes_leNat (l) : leBytes l.length (leNat l) = l := by
  induction l with
  | nil => rfl
  | cons b l ih =>
  have hb := b.toNat_lt
  have hlow : UInt8.ofNat (b.toNat + 256 * leNat l) = b := by
    apply UInt8.toNat_inj.mp
    rw [UInt8.toNat_ofNat']
    omega
  rw [leNat, length_cons, leBytes, hlow, show (b.toNat + 256 * leNat l) / 256 =
    leNat l by omega, ih]

theorem leBytes_xor (w x y) :
    leBytes w (x ^^^ y) = zipWith (· ^^^ ·) (leBytes w x) (leBytes w y) := by
  induction w generalizing x y with
  | zero => rfl
  | succ w ih =>
  rw [leBytes, UInt8.ofNat_xor, show 256 = 2 ^ 8 from rfl, Nat.xor_div_two_pow, ih]
  rfl

/-- **The loops mask byte `i` with byte `i % 4` of the key.** -/
theorem maskData_eq (hi : i % 4 = 0) :
    maskData maskingKey data = xorKey (leBytes 4 maskingKey) i data := by
  induction data using maskData.induct generalizing i with
  | case1 a b c d rest ih =>
    have hword : leBytes 4 (leNat [a, b, c, d]) = [a, b, c, d] := leBytes_leNat [a, b, c, d]
    rw [maskData, leBytes_xor, hword, ih (i := i + 4) (by omega)]
    simp only [xorKey, hi, show (i + 1) % 4 = 1 by omega, show (i + 1 + 1) % 4 = 2 by omega,
      show (i + 1 + 1 + 1) % 4 = 3 by omega]
    rfl
  | case2 rest hshort =>
    rcases rest with _ | ⟨a, _ | ⟨b, _ | ⟨c, _ | ⟨d, rest⟩⟩⟩⟩
    · rfl
    · simp only [maskData, xorKey, hi]
      rfl
    · simp only [maskData, xorKey, hi, show (i + 1) % 4 = 1 by omega]
      rfl
    · simp only [maskData, xorKey, hi, show (i + 1) % 4 = 1 by omega,
        show (i + 1 + 1) % 4 = 2 by omega]
      rfl
    · exact absurd rfl (hshort a b c d rest)

/-- The BIO takes this many bytes, in any number of writes and retries. -/
def AcceptsAll : List WriteAnswer → ℕ → Prop
  | _, 0 => True
  | .taken n :: answers, len + 1 => AcceptsAll answers (len - n)
  | .retry :: answers, len + 1 => AcceptsAll answers (len + 1)
  | _, _ + 1 => False

theorem writeAll_accepts (h : AcceptsAll answers data.length) :
    writeAll len answers data = (some (len : ℤ), data) := by
  induction answers generalizing data with
  | nil =>
    cases data with
    | nil => rfl
    | cons _ _ => cases h
  | cons answer answers ih =>
  rcases data with _ | ⟨x, data⟩
  · cases answer <;> rfl
  cases answer with
  | taken n =>
    have hrest : AcceptsAll answers (data.drop n).length := by
      rw [length_drop]
      exact h
    rw [writeAll, drop_succ_cons, ih hrest, take_succ_cons]
    · exact congrArg (fun l => (some (len : ℤ), x :: l)) (take_append_drop n data)
    · nofun
  | retry =>
    rw [writeAll]
    · exact @ih (x :: data) h
    · nofun
  | readBlocked | failed => cases h

theorem exists_header_long {b : UInt8} (first) (hb : lengthSize b = w ∧ ¬ b &&& 0x7f < 126)
    (hlen : len < 256 ^ w) : ∃ h : Header, h.bytes = first :: b :: beBytes w len ∧ h.first = first ∧
      h.lengthAndMask = b ∧ h.payloadLength = len ∧ h.lengths.length = w := by
  have hlength := beBytes_length w len
  refine ⟨⟨first, b, beBytes w len, hlength.trans hb.1.symm⟩, rfl, rfl, rfl, ?_, hlength⟩
  rw [Header.payloadLength, if_neg hb.2]
  exact (congrArg leNat (reverse_reverse _)).trans (leNat_leBytes hlen)

/-- **The header announces the length in its shortest form.** -/
theorem exists_header (first) (hlen : len < 2 ^ 31) : ∃ h :
    Header, h.bytes = first :: packetLength len ∧
    h.first = first ∧ h.lengthAndMask &&& 0x80 = 0x80 ∧ h.payloadLength = len ∧
    (len < 126 → h.lengths = []) ∧ (len < 0x10000 → h.lengths.length ≤ 2) := by
  unfold packetLength
  split_ifs with hshort hmid
  · have hall : ∀ n : Fin 126, let b := UInt8.ofNat n ||| 0x80
        b &&& 0x7f < 126 ∧ b &&& 0x80 = 0x80 ∧ (b &&& 0x7f).toNat = n := by decide +kernel
    obtain ⟨hlt, hmask, hval⟩ := hall ⟨len, hshort⟩
    refine ⟨⟨first, UInt8.ofNat len ||| 0x80, [], by rw [lengthSize, if_pos hlt]; rfl⟩,
      rfl, rfl, hmask, ?_,
      fun _ => rfl, fun _ => Nat.zero_le 2⟩
    rw [Header.payloadLength, if_pos hlt, hval]
  · obtain ⟨h, hbytes, hfirst, hb, hval, hl⟩ := exists_header_long (b := 126 ||| 0x80) first
      (w := 2) (by decide) hmid
    exact ⟨h, hbytes, hfirst, hb ▸ rfl, hval, fun hlt => absurd hlt hshort, fun _ => hl.le⟩
  · have hlong : beBytes 8 len = beBytes 4 0 ++ beBytes 4 len := by
      have hzero : len / 256 / 256 / 256 / 256 = 0 := by omega
      simp [beBytes, leBytes, hzero]
    obtain ⟨h, hbytes, hfirst, hb, hval, -⟩ := exists_header_long (w := 8) (b := 127 ||| 0x80) first
      (by decide) (Nat.lt_trans hlen (by decide))
    exact ⟨h, hlong ▸ hbytes, hfirst, hb ▸ rfl, hval, fun hlt => absurd hlt hshort,
      fun hlt => absurd hlt hmid⟩

/-- **What the writer sends decodes to what it was given**: one frame with the FIN bit, the shortest
length, the mask bit, the key, and a payload that is the input under the key. -/
theorem websocket_write_frame (answers : List WriteAnswer) (payload : List UInt8) (opcode : UInt8)
    (maskingKey : ℕ) (hlen : payload.length + 14 ≤ intMax)
    (hanswers : AcceptsAll answers (packet payload opcode maskingKey).length) :
    ∃ (h : Header) (masked : List UInt8), contextWrite false answers payload opcode maskingKey =
        (some (payload.length : ℤ), h.bytes ++ leBytes 4 maskingKey ++ masked,
          opcode == closeOpcode) ∧
      h.first = 0x80 ||| opcode ∧ h.lengthAndMask &&& 0x80 = 0x80 ∧
      h.payloadLength = payload.length ∧
      (payload.length < 126 → h.lengths = []) ∧ (payload.length < 0x10000 → h.lengths.length ≤ 2) ∧
      xorKey (leBytes 4 maskingKey) 0 masked = payload := by
  have hmax : intMax = 2 ^ 31 - 1 := rfl
  obtain ⟨h, hbytes, hfirst, hmask, hval, hshort, hmid⟩ := @exists_header payload.length
    (0x80 ||| opcode) (by omega)
  have hpacket : packet payload opcode maskingKey =
      h.bytes ++ leBytes 4 maskingKey ++ xorKey (leBytes 4 maskingKey) 0 payload := by
    rw [packet, maskData_eq (i := 0) rfl, hbytes]
    rfl
  have hsize : ¬ (packet payload opcode maskingKey).length > intMax := by
    have hform : (packetLength payload.length).length ≤ 9 := by
      rw [packetLength]
      split_ifs <;> simp
    rw [packet, length_cons, length_append, length_append, leBytes_length, maskData_eq (i := 0) rfl,
      xorKey_length]
    omega
  refine ⟨h, xorKey (leBytes 4 maskingKey) 0 payload, ?_, hfirst, hmask, hval,
    hshort, hmid, xorKey_xorKey⟩
  rw [contextWrite, if_neg Bool.false_ne_true, if_neg (by omega),
    writeAll_accepts hanswers, hpacket]
  simp

/-- A payload of 130 bytes, with a length of two bytes, whose frame is taken in two writes. -/
theorem websocket_write_frame_two : ∃ (h : Header) (masked : List UInt8),
    contextWrite false [.taken 2, .retry, .taken 200] (replicate 130 7) 2 0x12345678 =
      (some 130, h.bytes ++ leBytes 4 0x12345678 ++ masked, false) ∧ h.payloadLength = 130 ∧
      xorKey (leBytes 4 0x12345678) 0 masked = replicate 130 7 := by
  have hsize : (packet (replicate 130 7) 2 0x12345678).length = 138 := by decide +kernel
  obtain ⟨h, masked, hsent, -, -, hlength, -, -, hmasked⟩ := websocket_write_frame
    [.taken 2, .retry, .taken 200] (replicate 130 7) 2 0x12345678
    (by rw [length_replicate]; decide) (by rw [hsize]; exact trivial)
  exact ⟨h, masked, hsent, hlength, hmasked⟩

end WBFreeRDP.WebSocket

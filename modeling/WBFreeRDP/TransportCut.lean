/-
# The transport cuts the stream into PDUs

Whatever pieces the non-blocking reads arrive in, repeated calls of `transport_read_pdu` on
one receive stream return exactly the PDUs that were sent.
-/
import WBFreeRDP.ByteOrder
import WBFreeRDP.Transport
import Mathlib.Tactic.IntervalCases

namespace WBFreeRDP.Transport

open List Nat

/-! ## What a reader takes from the BIO -/

/-- The BIO stays open: every read finds some bytes or is to be retried. -/
def Bio.Open (bio : Bio) : Prop := ∀ k, bio.answers k = .retry ∨ ∃ n, bio.answers k = .ready n

def Bio.Eager (bio : Bio) : Prop := ∃ n, bio.answers bio.calls = .ready (n + 1)

/-- The reader took `data` from the front of the pending bytes. -/
structure Took (bio : Bio) (data : List UInt8) (bio' : Bio) : Prop where
  pending : bio.pending = data ++ bio'.pending
  answers : bio'.answers = bio.answers

/-- The reader called `BIO_read` once, in vain: nothing was pending, or nothing ready. -/
structure Idle (bio bio' : Bio) : Prop where
  calls : bio'.calls = bio.calls + 1
  reason : bio.pending = [] ∨ ¬ bio.Eager

variable {bio bio' : Bio}

theorem Took.trans (h : Took bio d bio') (h' : Took bio' d' bio'') : Took bio (d ++ d') bio'' :=
  ⟨by rw [h.pending, h'.pending, append_assoc], h'.answers.trans h.answers⟩

theorem Took.open (h : Took bio d bio') (ho : bio.Open) : bio'.Open := by
  unfold Bio.Open
  rw [h.answers]
  exact ho

/-- **`BIO_read` on an open BIO.** It takes at most `r` pending bytes, and none only when it
had to. -/
theorem Bio.read_spec (bio : Bio) (r : ℕ) (ho : bio.Open) (hr : 0 < r) :
    (∃ bio', bio.read r = (.retry, [], bio') ∧ Took bio [] bio' ∧ Idle bio bio') ∨
    (∃ data bio', bio.read r = (.ready data.length, data, bio') ∧ Took bio data bio' ∧
      data ≠ [] ∧ data.length ≤ r) := by
  unfold Bio.read
  rcases ho bio.calls with hret | ⟨n, hn⟩
  · refine .inl ⟨{ bio with calls := bio.calls + 1 }, by simp only [hret], ⟨rfl, rfl⟩, rfl, .inr ?_⟩
    rintro ⟨n, hn⟩
    rw [hret] at hn
    cases hn
  simp only [hn]
  by_cases hd : bio.pending.take (min n r) = []
  · refine .inl ⟨{ bio with calls := bio.calls + 1 }, by rw [if_pos hd], ⟨rfl, rfl⟩, rfl, ?_⟩
    rcases take_eq_nil_iff.mp hd with hz | hz
    · right
      rintro ⟨k, hk⟩
      rw [hn] at hk
      injection hk with hk
      omega
    · exact .inl hz
  · rw [if_neg hd]
    refine .inr ⟨bio.pending.take (min n r), _, rfl, ⟨?_, rfl⟩, hd, ?_⟩
    · exact (prefix_iff_eq_append.mp <| take_prefix _ _).symm
    · simp only [length_take]
      omega

theorem transportReadLayerLoop_done (bytes fuel data bio) (h : bytes ≤ data.length) :
    transportReadLayerLoop bytes fuel data bio = ((data.length : ℤ), data, bio) := by
  cases fuel with
  | zero => rfl
  | succ fuel => rw [transportReadLayerLoop, if_neg (by omega)]

/-- **The read loop.** With bytes still to read it takes at most those, and it takes none only
after one read in vain. -/
theorem transportReadLayerLoop_spec (bytes : ℕ) (fuel : ℕ) :
    ∀ data bio, bio.Open → data.length < bytes → bytes ≤ data.length + fuel →
      ∃ more bio', transportReadLayerLoop bytes fuel data bio =
          (((data ++ more).length : ℤ), data ++ more, bio') ∧
        Took bio more bio' ∧ (data ++ more).length ≤ bytes ∧ (more = [] → Idle bio bio') := by
  induction fuel with
  | zero => omega
  | succ fuel ih =>
  intro data bio ho hlt hfuel
  rw [transportReadLayerLoop, if_pos hlt]
  have hr : 0 < if bytes - data.length > intMax then intMax else bytes - data.length := by
    have : intMax = 2 ^ 31 - 1 := rfl
    split <;> omega
  rcases bio.read_spec _ ho hr with ⟨bio', hread, htook, hidle⟩ | ⟨d, bio', hread, htook, hd, hle⟩
  · refine ⟨[], bio', ?_, htook, by simpa using hlt.le, fun _ => hidle⟩
    simp [hread]
  have hdl : 0 < d.length := length_pos_iff.mpr hd
  have hsum : (data ++ d).length ≤ bytes := by
    rw [length_append]
    split at hle <;> omega
  simp only [hread]
  by_cases hfull : (data ++ d).length < bytes
  · obtain ⟨more, bio'', hloop, htook', hle', -⟩ := ih (data ++ d) bio' (htook.open ho) hfull
      (by rw [length_append]; omega)
    refine ⟨d ++ more, bio'', ?_, htook.trans htook', ?_, ?_⟩
    · rw [hloop, append_assoc]
    · rwa [← append_assoc]
    · intro hnil
      exact absurd (append_eq_nil_iff.mp hnil).1 hd
  · refine ⟨d, bio', ?_, htook, hsum, fun h => absurd h hd⟩
    exact transportReadLayerLoop_done bytes fuel (data ++ d) bio' (by omega)

/-- **`transport_read_layer_bytes`.** The stream receives what was taken; the status tells
whether that was all. -/
theorem transportReadLayerBytes_spec (s : WStream) (toRead : ℕ) (bio : Bio) (ho : bio.Open)
    (hpos : 0 < toRead) (hmax : toRead ≤ ssizeMax) :
    ∃ data s' bio', transportReadLayerBytes s toRead bio =
        (if data.length = toRead then 1 else 0, s', bio') ∧
      Took bio data bio' ∧ s'.filled = s.filled ++ data ∧ data.length ≤ toRead ∧
      (data = [] → Idle bio bio') := by
  obtain ⟨data, bio', hloop, htook, hle, hidle⟩ :=
    transportReadLayerLoop_spec toRead toRead [] bio ho hpos (by simp)
  rw [nil_append] at hloop hle
  have hlayer : transportReadLayer toRead bio = ((data.length : ℤ), data, bio') := by
    rw [transportReadLayer, if_neg (by omega), hloop]
  simp only [transportReadLayerBytes, if_neg (show ¬ toRead > ssizeMax by omega), hlayer]
  by_cases hd : data = []
  · refine ⟨[], s, bio', ?_, hd ▸ htook, by simp, by simp, fun _ => hidle hd⟩
    subst hd
    simp [if_neg (show ¬ 0 = toRead by omega)]
  · have hdl : 0 < data.length := length_pos_iff.mpr hd
    refine ⟨data, s.append data, bio', ?_, htook, by simp, hle, hidle⟩
    rw [if_neg (by omega)]
    simp

/-! ## Framed streams -/

/-- The length parser does not know the length before `hdr` bytes are there, and says `v` from
then on. -/
structure Framed (parse : List UInt8 → ℤ) (stream : List UInt8) (hdr : ℕ) (v : ℤ) : Prop where
  short : ∀ k < hdr, parse (stream.take k) = 0
  long : ∀ k, hdr ≤ k → k ≤ stream.length → parse (stream.take k) = v

variable (m : Mode)

theorem transportParsePdu_eq (s) : transportParsePdu m s =
      if m.parse s.filled ≤ 0 then (m.parse s.filled, true, s.sealLength)
      else if s.position > (m.parse s.filled).toNat then (-1, true, s.sealLength)
      else (m.parse s.filled, s.position < (m.parse s.filled).toNat, s.sealLength) := rfl

variable {s : WStream}

theorem filled_eq_take
    (h : s.filled ++ bio.pending = stream) : s.filled = stream.take s.position := by
  rw [← h, ← s.filled_length, take_left]

theorem Took.stream {s' : WStream} {data stream}
    (ht : Took bio data bio') (hs : s'.filled = s.filled ++ data)
    (h : s.filled ++ bio.pending = stream) : s'.filled ++ bio'.pending = stream := by
  rw [hs, append_assoc, ← ht.pending, h]

variable {hdr : ℕ}

/-- **The header loop.** On a framed stream, with fewer than `hdr` bytes received, a call either
ends waiting with fewer than `hdr` bytes, or goes on with exactly `hdr` of them. -/
theorem readDefaultPdu_header (hf : Framed m.parse stream hdr v) (hmax : hdr ≤ 4) (fuel : ℕ) :
    ∀ s bio, bio.Open → s.filled ++ bio.pending = stream → s.position < hdr →
    bio.pending.length < fuel →
      ∃ data s' bio', Took bio data bio' ∧ s'.filled = s.filled ++ data ∧
        ((readDefaultPdu m fuel s bio = (0, s', bio') ∧ s'.position < hdr ∧
            (data = [] → Idle bio bio')) ∨
          (∃ fuel', readDefaultPdu m fuel s bio = readDefaultPdu m (fuel' + 1) s' bio' ∧
            s'.position = hdr)) := by
  induction fuel with
  | zero => omega
  | succ fuel ih =>
  intro s bio ho hst hpos hfuel
  have hparse : transportParsePdu m s = (0, true, s.sealLength) := by
    have h0 : m.parse s.filled = 0 := by
      rw [filled_eq_take hst]
      exact hf.short _ hpos
    simp [transportParsePdu_eq, h0]
  obtain ⟨s1, hs1, hfill1, hpos1⟩ :=
    s.sealLength.ensureRemainingCapacity_spec 1 (by
      have : sizeMax = 2 ^ 64 - 1 := rfl
      simp only [WStream.sealLength_position]
      omega)
  obtain ⟨data, s2, bio1, hread, htook, hfill2, hle, hidle⟩ :=
    transportReadLayerBytes_spec s1 1 bio ho (by omega) (by decide)
  have hfill : s2.filled = s.filled ++ data := by rw [hfill2, hfill1, WStream.sealLength_filled]
  have hlen : s2.position = s.position + data.length := by
    rw [← s2.filled_length, hfill, length_append, s.filled_length]
  have hunf : readDefaultPdu m (fuel + 1) s bio =
      if data.length = 1 then readDefaultPdu m fuel s2 bio1 else (0, s2, bio1) := by
    simp only [readDefaultPdu, hparse, hs1, hread]
    by_cases h1 : data.length = 1 <;> simp [h1]
  by_cases h1 : data.length = 1
  swap
  · rw [if_neg h1] at hunf
    exact ⟨data, s2, bio1, htook, hfill, .inl ⟨hunf, by omega, hidle⟩⟩
  rw [if_pos h1] at hunf
  have hst' := htook.stream hfill hst
  have hfuel' : bio1.pending.length < fuel := by
    rw [htook.pending, length_append] at hfuel
    omega
  by_cases hdone : s2.position < hdr
  · obtain ⟨d, s', bio', htook', hfill', hres⟩ := ih s2 bio1 (htook.open ho) hst' hdone hfuel'
    refine ⟨data ++ d, s', bio', htook.trans htook', ?_, ?_⟩
    · rw [hfill', hfill, append_assoc]
    rw [hunf]
    refine hres.imp (fun h => ⟨h.1, h.2.1, fun hnil => ?_⟩) id
    rw [(append_eq_nil_iff.mp hnil).1] at h1
    cases h1
  · refine ⟨data, s2, bio1, htook, hfill, .inr ⟨fuel - 1, ?_, by omega⟩⟩
    rw [hunf, Nat.sub_add_cancel (by omega)]

/-- What one call does on a framed stream, of which fewer than `lim` bytes had been received:
it waits with fewer than `lim` bytes, it returns the PDU and has taken nothing behind it, or it
reports the error of a bad header. -/
inductive Outcome (stream : List UInt8) (lim : ℕ) (v : ℤ) (s : WStream) (bio : Bio) :
    ℤ × WStream × Bio → Prop
  | waiting {data s' bio'} (took : Took bio data bio') (filled : s'.filled = s.filled ++ data)
      (lt : s'.position < lim) (idle : data = [] → Idle bio bio') :
      Outcome stream lim v s bio (0, s', bio')
  | complete {n : ℕ} {s' bio'} (len : v = n) (n_pos : 0 < n) (pos : s'.position = 0)
      (pdu : s'.buffer.take s'.length = stream.take n) (pending : bio'.pending = stream.drop n)
      (answers : bio'.answers = bio.answers) :
      Outcome stream lim v s bio (n, s', bio')
  | failed {s' bio'} (err : v = -1) (stream_eq : s'.filled ++ bio'.pending = stream)
      (answers : bio'.answers = bio.answers) :
      Outcome stream lim v s bio (-1, s', bio')

/-- A call that first takes some bytes and then ends with an outcome has that outcome. -/
theorem Outcome.of_took (ht : Took bio data bio1)
    (hs : s1.filled = s.filled ++ data) (hd : data ≠ [])
    (h : Outcome stream lim v s1 bio1 r) : Outcome stream lim v s bio r := by
  cases h with
  | waiting took filled lt idle =>
    refine .waiting (ht.trans took) ?_ lt (fun hnil => ?_)
    · rw [filled, hs, append_assoc]
    · exact absurd (append_eq_nil_iff.mp hnil).1 hd
  | complete len n_pos pos pdu pending answers =>
    exact .complete len n_pos pos pdu pending (answers.trans ht.answers)
  | failed err stream_eq answers => exact .failed err stream_eq (answers.trans ht.answers)

/-- Leaving with a complete PDU returns its length and puts the stream back to its start. -/
theorem finishPdu_spec (hst : s.filled ++ bio.pending = stream) (hpos : s.position = n)
    (hn : 0 < n) (hmax : n ≤ 2 ^ 17) (ha : bio.answers = bio₀.answers) :
    Outcome stream lim n s₀ bio₀ (finishPdu s bio) := by
  have hret : finishPdu s bio = ((n : ℤ), s.sealLength.resetPosition, bio) := by
    simp only [finishPdu, WStream.resetPosition_length, WStream.sealLength_length, hpos]
    rw [if_neg (by omega)]
  have hfill : s.filled = stream.take n := hpos ▸ filled_eq_take hst
  rw [hret]
  refine .complete rfl hn rfl hfill ?_ ha
  rw [← hst, ← hpos, ← s.filled_length, drop_left]

/-- **The body of a PDU.** With the header there and at most the PDU received, a call waits for
the rest or returns the PDU. -/
theorem readDefaultPdu_body {n : ℕ}
    (hf : Framed m.parse stream hdr n) (hn : 0 < n) (hmax : n ≤ 2 ^ 17) (fuel : ℕ) (s : WStream)
    (bio : Bio) (ho : bio.Open) (hst : s.filled ++ bio.pending = stream) (hhdr : hdr ≤ s.position)
    (hpos : s.position ≤ n) : Outcome stream n n s bio (readDefaultPdu m (fuel + 1) s bio) := by
  have hlen : s.position ≤ stream.length := by
    rw [← hst, length_append, s.filled_length]
    omega
  have hparse : transportParsePdu m s = ((n : ℤ), decide (s.position < n), s.sealLength) := by
    have h0 : m.parse s.filled = n := by
      rw [filled_eq_take hst]
      exact hf.long _ hhdr hlen
    simp only [transportParsePdu_eq, h0, Int.toNat_natCast]
    rw [if_neg (by omega), if_neg (by omega)]
  obtain ⟨s1, hs1, hfill1, hpos1⟩ := s.sealLength.ensureCapacity_spec n (by
    have : sizeMax = 2 ^ 64 - 1 := rfl
    omega)
  rw [WStream.sealLength_filled] at hfill1
  rw [WStream.sealLength_position] at hpos1
  have hunf : readDefaultPdu m (fuel + 1) s bio = readRest s.sealLength n bio := by
    simp only [readDefaultPdu, hparse, Int.toNat_natCast]
    rw [if_neg (by omega), if_neg (by omega)]
  rw [hunf]
  simp only [readRest, hs1, hpos1, if_neg (show ¬ s.position > n by omega)]
  by_cases hlt : s.position < n
  swap
  · rw [if_neg hlt]
    exact finishPdu_spec (hfill1 ▸ hst) (by omega) hn hmax rfl
  obtain ⟨data, s2, bio1, hread, htook, hfill2, hle, hidle⟩ :=
    transportReadLayerBytes_spec s1 (n - s.position) bio ho (by omega) (by
      have : ssizeMax = 2 ^ 63 - 1 := rfl
      omega)
  rw [hfill1] at hfill2
  have hpos2 : s2.position = s.position + data.length := by
    rw [← s2.filled_length, hfill2, length_append, s.filled_length]
  rw [if_pos hlt]
  simp only [hread]
  by_cases hall : data.length = n - s.position
  · simp only [if_pos hall]
    exact finishPdu_spec (htook.stream hfill2 hst) (by omega) hn hmax htook.answers
  · simp only [if_neg hall]
    exact .waiting htook hfill2 (by omega) hidle

/-- **A bad header.** With the header there a call reports the error. -/
theorem readDefaultPdu_bad
    (hf : Framed m.parse stream hdr (-1)) (fuel : ℕ) (s : WStream) (bio : Bio)
    (hst : s.filled ++ bio.pending = stream) (hhdr : hdr ≤ s.position) :
    Outcome stream hdr (-1) s bio (readDefaultPdu m (fuel + 1) s bio) := by
  have hlen : s.position ≤ stream.length := by
    rw [← hst, length_append, s.filled_length]
    omega
  have h0 : m.parse s.filled = -1 := by
    rw [filled_eq_take hst]
    exact hf.long _ hhdr hlen
  have hunf : readDefaultPdu m (fuel + 1) s bio = (-1, s.sealLength, bio) := by
    simp [readDefaultPdu, transportParsePdu_eq, h0]
  rw [hunf]
  exact .failed rfl hst rfl

/-! ## PDUs and bad headers are framed -/

/-- A TPKT packet, or a fast-path packet with a one-byte or a two-byte length: the header
announces the length of the whole. -/
inductive DefaultPdu : List UInt8 → Prop
  | tpkt {reserved hi lo : UInt8} {rest : List UInt8} (min : 7 ≤ uint16BE hi lo)
      (len : rest.length + 4 = uint16BE hi lo) : DefaultPdu (3 :: reserved :: hi :: lo :: rest)
  | fastPath1 {header length1 : UInt8} {rest : List UInt8} (hdr : header ≠ 3)
      (form : length1.toNat < 128) (min : 3 ≤ length1.toNat)
      (len : rest.length + 2 = length1.toNat) : DefaultPdu (header :: length1 :: rest)
  | fastPath2 {header length1 length2 : UInt8} {rest : List UInt8} (hdr : header ≠ 3)
      (form : 128 ≤ length1.toNat) (min : 3 ≤ (length1.toNat - 128) * 256 + length2.toNat)
      (len : rest.length + 3 = (length1.toNat - 128) * 256 + length2.toNat) :
      DefaultPdu (header :: length1 :: length2 :: rest)

/-- A DER sequence with a short, a one-byte or a two-byte length. -/
inductive NlaPdu : List UInt8 → Prop
  | short {length : UInt8} {rest : List UInt8} (form : length.toNat < 128)
      (len : rest.length = length.toNat) : NlaPdu (0x30 :: length :: rest)
  | oneByte {length : UInt8} {rest : List UInt8} (len : rest.length = length.toNat) :
      NlaPdu (0x30 :: 0x81 :: length :: rest)
  | twoByte {hi lo : UInt8} {rest : List UInt8} (len : rest.length = uint16BE hi lo) :
      NlaPdu (0x30 :: 0x82 :: hi :: lo :: rest)

/-- A PDU as the peer sends it: in NLA mode a DER sequence, otherwise a TPKT or fast-path
packet. -/
structure Pdu (nla : Bool) where
  bytes : List UInt8
  wf : if nla then NlaPdu bytes else DefaultPdu bytes

/-- A stream that starts with a header of `hdr` bytes announcing a TPKT length below 7 or a
fast-path length below 3. -/
inductive BadHeader : ℕ → List UInt8 → Prop
  | tpkt {reserved hi lo : UInt8} {rest : List UInt8} (max : uint16BE hi lo < 7) :
      BadHeader 4 (3 :: reserved :: hi :: lo :: rest)
  | fastPath1 {header length1 : UInt8} {rest : List UInt8} (hdr : header ≠ 3)
      (max : length1.toNat < 3) : BadHeader 2 (header :: length1 :: rest)
  | fastPath2 {header length1 length2 : UInt8} {rest : List UInt8} (hdr : header ≠ 3)
      (form : 128 ≤ length1.toNat) (max : (length1.toNat - 128) * 256 + length2.toNat < 3) :
      BadHeader 3 (header :: length1 :: length2 :: rest)

theorem fastPath2_length {l1 l2 : UInt8} (h : 128 ≤ l1.toNat) :
    (l1 &&& 0x7F).toNat <<< 8 ||| l2.toNat = (l1.toNat - 128) * 256 + l2.toNat := by
  rw [and_0x7F_toNat l1 h, ← shiftLeft_add_eq_or_of_lt l2.toNat_lt, shiftLeft_eq]

/-- `Framed` for a stream given by its header bytes: the parser is silent on every proper prefix
of the header and says `v` as soon as the header is there. -/
theorem Framed.of_header (h rest)
    (hlen : h.length = n) (short : ∀ k < n, parse (h.take k) = 0) (long : ∀ r, parse (h ++ r) = v) :
    Framed parse (h ++ rest) n v where
  short k hk := by
    rw [take_append_of_le_length (hlen ▸ hk.le)]
    exact short k hk
  long k hk _ := by
    rw [take_append, take_of_length_le (hlen ▸ hk)]
    exact long _

/-- The mode of the receive path with AAD, RDSTLS and early user authorization off. -/
def plainMode (nla : Bool) : Mode := ⟨nla, false, false, false⟩

@[simp] theorem plainMode_parse_true : (plainMode true).parse = parseNlaModePdu := rfl
@[simp] theorem plainMode_parse_false : (plainMode false).parse = parseDefaultModePdu := rfl

theorem DefaultPdu.framed (h : DefaultPdu p) (rest) :
    ∃ hdr, Framed parseDefaultModePdu (p ++ rest) hdr p.length ∧
      0 < hdr ∧ hdr ≤ 4 ∧ hdr ≤ p.length ∧ p.length ≤ 2 ^ 17 := by
  cases h with
  | @tpkt reserved hi lo body min len =>
    have hhi := hi.toNat_lt
    have hlo := lo.toNat_lt
    refine ⟨4, Framed.of_header [3, reserved, hi, lo] (body ++ rest) rfl ?_ ?_, ?_⟩
    · intro k hk
      interval_cases k <;> rfl
    · have hmax : uint16BE hi lo ≤ 0xFFFF := by unfold uint16BE; omega
      simp only [parseDefaultModePdu, cons_append, if_true, length_cons]
      omega
    · simp only [length_cons, uint16BE] at len ⊢
      omega
  | @fastPath1 header length1 body hdr form min len =>
    have htop : ¬ (length1 &&& 0x80 ≠ 0) := by rw [and_0x80_ne_zero]; omega
    refine ⟨2, Framed.of_header [header, length1] (body ++ rest) rfl ?_ ?_, ?_⟩
    · intro k hk
      interval_cases k <;> simp [parseDefaultModePdu]
    · simp only [parseDefaultModePdu, cons_append, if_neg hdr, if_neg htop, length_cons]
      omega
    · simp only [length_cons]
      omega
  | @fastPath2 header length1 length2 body hdr form min len =>
  have h1 := length1.toNat_lt
  have h2 := length2.toNat_lt
  have htop : length1 &&& 0x80 ≠ 0 := by rw [and_0x80_ne_zero]; omega
  refine ⟨3, Framed.of_header [header, length1, length2] (body ++ rest) rfl ?_ ?_, ?_⟩
  · intro k hk
    interval_cases k <;> simp [parseDefaultModePdu, htop]
  · simp only [parseDefaultModePdu, cons_append, if_neg hdr, if_pos htop,
      fastPath2_length form, length_cons]
    omega
  · simp only [length_cons]
    omega

theorem NlaPdu.framed (h : NlaPdu p) (rest) :
    ∃ hdr, Framed parseNlaModePdu (p ++ rest) hdr p.length ∧
      0 < hdr ∧ hdr ≤ 4 ∧ hdr ≤ p.length ∧ p.length ≤ 2 ^ 17 := by
  cases h with
  | @short length body form len =>
    have htop : ¬ (length &&& 0x80 ≠ 0) := by rw [and_0x80_ne_zero]; omega
    refine ⟨2, Framed.of_header [0x30, length] (body ++ rest) rfl ?_ ?_, ?_⟩
    · intro k hk
      interval_cases k <;> rfl
    · simp only [parseNlaModePdu, cons_append, if_true, if_neg htop, length_cons]
      omega
    · simp only [length_cons]
      omega
  | @oneByte length body len =>
    have hl := length.toNat_lt
    refine ⟨3, Framed.of_header [0x30, 0x81, length] (body ++ rest) rfl ?_ ?_, ?_⟩
    · intro k hk
      interval_cases k <;> rfl
    · intro r
      have hparse : parseNlaModePdu (0x30 :: 0x81 :: length :: r) = length.toNat + 3 := rfl
      simp only [cons_append, nil_append, length_cons]
      omega
    · simp only [length_cons]
      omega
  | @twoByte hi lo body len =>
  have hhi := hi.toNat_lt
  have hlo := lo.toNat_lt
  refine ⟨4, Framed.of_header [0x30, 0x82, hi, lo] (body ++ rest) rfl ?_ ?_, ?_⟩
  · intro k hk
    interval_cases k <;> rfl
  · intro r
    have hparse : parseNlaModePdu (0x30 :: 0x82 :: hi :: lo :: r) = uint16BE hi lo + 4 := rfl
    simp only [cons_append, nil_append, length_cons]
    omega
  · simp only [length_cons, len, uint16BE]
    omega

theorem Pdu.framed (p : Pdu nla) (rest) :
    ∃ hdr, Framed (plainMode nla).parse (p.bytes ++ rest) hdr p.bytes.length ∧
      0 < hdr ∧ hdr ≤ 4 ∧ hdr ≤ p.bytes.length ∧ p.bytes.length ≤ 2 ^ 17 := by
  obtain ⟨bytes, wf⟩ := p
  cases nla with
  | true => exact NlaPdu.framed (by simpa using wf) rest
  | false => exact DefaultPdu.framed (by simpa using wf) rest

theorem BadHeader.framed (h : BadHeader hdr stream) :
    Framed parseDefaultModePdu stream hdr (-1) := by
  cases h with
  | @tpkt reserved hi lo rest max =>
    refine Framed.of_header [3, reserved, hi, lo] rest rfl ?_ ?_
    · intro k hk
      interval_cases k <;> rfl
    · simp [parseDefaultModePdu, max]
  | @fastPath1 header length1 rest hdr max =>
    have htop : ¬ (length1 &&& 0x80 ≠ 0) := by rw [and_0x80_ne_zero]; omega
    refine Framed.of_header [header, length1] rest rfl ?_ ?_
    · intro k hk
      interval_cases k <;> simp [parseDefaultModePdu]
    intro r
    simp only [parseDefaultModePdu, cons_append, if_neg hdr, if_neg htop]
    rw [if_pos (.inl max)]
  | @fastPath2 header length1 length2 rest hdr form max =>
  have htop : length1 &&& 0x80 ≠ 0 := by rw [and_0x80_ne_zero]; omega
  refine Framed.of_header [header, length1, length2] rest rfl ?_ ?_
  · intro k hk
    interval_cases k <;> simp [parseDefaultModePdu, htop]
  intro r
  simp only [parseDefaultModePdu, cons_append, if_neg hdr, if_pos htop, fastPath2_length form]
  rw [if_pos (.inl max)]

/-! ## The run -/

section Run

variable {nla : Bool}

/-- The bytes of a sequence of PDUs on the wire. -/
def sent (pdus : List (Pdu nla)) : List UInt8 := (pdus.map Pdu.bytes).flatten

@[simp] theorem sent_nil : sent ([] : List (Pdu nla)) = [] := rfl
@[simp] theorem sent_cons (p) (pdus : List (Pdu nla)) :
    sent (p :: pdus) = p.bytes ++ sent pdus := rfl

/-- How the stream ends behind the last PDU: with nothing, or outside NLA mode with a bad
header.  The index is the number of bytes that decides it. -/
inductive Ending (nla : Bool) : ℕ → List UInt8 → Prop
  | clean : Ending nla 1 []
  | bad {hdr : ℕ} {tail : List UInt8} (mode : nla = false) (header : BadHeader hdr tail) :
      Ending nla hdr tail

/-- The length parser's verdict on what is left of the stream. -/
def verdict (left : List (Pdu nla)) (tail : List UInt8) : ℤ :=
  match left with
  | p :: _ => p.bytes.length
  | [] => if tail = [] then 0 else -1

/-- The receive stream holds fewer bytes than this between two calls. -/
def limit (left : List (Pdu nla)) (hdr : ℕ) : ℕ :=
  match left with
  | p :: _ => p.bytes.length
  | [] => hdr

/-- **The invariant of a run.** What the receive stream holds, followed by what is pending, is
the rest of the PDUs and the end of the stream; what it holds is short of the next PDU. -/
structure Cutting (left : List (Pdu nla)) (hdr : ℕ) (tail : List UInt8) (s : WStream) (bio : Bio) :
    Prop where
  stream : s.filled ++ bio.pending = sent left ++ tail
  lt : s.position < limit left hdr
  bio_open : bio.Open

variable {tail : List UInt8}

theorem BadHeader.ne_nil (h : BadHeader hdr tail) : tail ≠ [] := by
  cases h <;> simp

theorem left_framed (hend : Ending nla hdr tail) (left : List (Pdu nla)) :
    ∃ h, Framed (plainMode nla).parse (sent left ++ tail) h (verdict left tail) ∧
      0 < h ∧ h ≤ 4 ∧ h ≤ limit left hdr ∧
      ((∃ n : ℕ, verdict left tail = n ∧ 0 < n ∧ n ≤ 2 ^ 17 ∧ limit left hdr = n) ∨
        (verdict left tail = -1 ∧ limit left hdr = h) ∨
        (sent left ++ tail = [] ∧ verdict left tail = 0 ∧ limit left hdr = h)) := by
  rcases left with _ | ⟨p, rest⟩
  · cases hend with
    | clean =>
      refine ⟨1, ⟨?_, ?_⟩, by omega, by omega, le_rfl, .inr (.inr ⟨rfl, rfl, rfl⟩)⟩
      · intro k _
        rw [sent_nil, append_nil, take_nil]
        cases nla <;> rfl
      · intro k hk hk'
        simp only [sent_nil, append_nil, length_nil] at hk'
        omega
    | bad mode header =>
      have hv : verdict ([] : List (Pdu nla)) tail = -1 := by simp [verdict, header.ne_nil]
      have hb : 0 < hdr ∧ hdr ≤ 4 := by cases header <;> omega
      subst mode
      rw [hv]
      exact ⟨hdr, header.framed, hb.1, hb.2, le_rfl, .inr (.inl ⟨rfl, rfl⟩)⟩
  obtain ⟨h, hf, hpos, hle, hlen, hmax⟩ := p.framed (sent rest ++ tail)
  refine ⟨h, by simpa [verdict] using hf, hpos, hle, hlen, .inl ⟨_, rfl, by omega, hmax, rfl⟩⟩

variable {left : List (Pdu nla)}

/-- **One call.** Under the invariant, a call has an outcome on what is left of the stream. -/
theorem transportReadPdu_outcome (hend : Ending nla hdr tail) (hc : Cutting left hdr tail s bio) :
    Outcome (sent left ++ tail) (limit left hdr) (verdict left tail) s bio
      (transportReadPdu (plainMode nla) s bio) := by
  obtain ⟨h, hf, hpos, hle, hlim, hcase⟩ := left_framed hend left
  -- with the header there, the call continues as the verdict says
  have hrest : ∀ fuel s1 bio1, bio1.Open →
      s1.filled ++ bio1.pending = sent left ++ tail → h ≤ s1.position →
      s1.position ≤ limit left hdr →
      Outcome (sent left ++ tail) (limit left hdr) (verdict left tail) s1 bio1
        (readDefaultPdu (plainMode nla) (fuel + 1) s1 bio1) := by
    intro fuel s1 bio1 ho1 hst1 hh hlt
    rcases hcase with ⟨n, hv, hn, hmax, hl⟩ | ⟨hv, hl⟩ | ⟨hnil, -, -⟩
    · rw [hv] at hf ⊢
      rw [hl] at hlt ⊢
      exact readDefaultPdu_body _ hf hn hmax fuel s1 bio1 ho1 hst1 hh hlt
    · rw [hv] at hf ⊢
      rw [hl]
      exact readDefaultPdu_bad _ hf fuel s1 bio1 hst1 hh
    · rw [hnil] at hst1
      have : s1.position = 0 := by
        rw [← s1.filled_length, (append_eq_nil_iff.mp hst1).1, length_nil]
      omega
  have hcall : transportReadPdu (plainMode nla) s bio =
      readDefaultPdu (plainMode nla) (bio.pending.length + 1) s bio := rfl
  rw [hcall]
  by_cases hh : s.position < h
  swap
  · exact hrest _ s bio hc.bio_open hc.stream (by omega) hc.lt.le
  obtain ⟨data, s', bio', htook, hfill, hres⟩ := readDefaultPdu_header (plainMode nla) hf hle
    (bio.pending.length + 1) s bio hc.bio_open hc.stream hh (by omega)
  rcases hres with ⟨hres, hlt, hidle⟩ | ⟨fuel', hres, hpos'⟩
  · rw [hres]
    exact .waiting htook hfill (by omega) hidle
  rw [hres]
  refine .of_took htook hfill ?_
    (hrest fuel' s' bio' (htook.open hc.bio_open) (htook.stream hfill hc.stream) (by omega)
      (by omega))
  rintro rfl
  rw [append_nil] at hfill
  rw [← s'.filled_length, hfill, s.filled_length] at hpos'
  omega

/-- What the caller sees when a PDU is returned. -/
def Pdu.returned (p : Pdu nla) : ℤ × List UInt8 := (p.bytes.length, p.bytes)

/-- One call of a run under the invariant: it returns `0` and takes some bytes unless the read
was in vain, it returns the next PDU, or it reports the bad header. -/
inductive Call (left : List (Pdu nla)) (hdr : ℕ) (tail : List UInt8) (bio : Bio) :
    ℤ × WStream × Bio → Prop
  | nothing {s' bio'} (cut : Cutting left hdr tail s' bio')
      (answers : bio'.answers = bio.answers)
      (progress : bio'.pending.length < bio.pending.length ∨
        (bio'.pending = bio.pending ∧ Idle bio bio')) :
      Call left hdr tail bio (0, s', bio')
  | pdu {p rest s' bio'} (left_eq : left = p :: rest) (cut : Cutting rest hdr tail s' bio')
      (answers : bio'.answers = bio.answers) (pos : s'.position = 0)
      (bytes : s'.buffer.take s'.length = p.bytes)
      (progress : bio'.pending.length < bio.pending.length) :
      Call left hdr tail bio (p.bytes.length, s', bio')
  | error {s' bio'} (left_eq : left = []) (bad : tail ≠ []) : Call left hdr tail bio (-1, s', bio')

theorem limit_pos (hend : Ending nla hdr tail) (left : List (Pdu nla)) : 0 < limit left hdr := by
  obtain ⟨h, -, hpos, -, hlim, -⟩ := left_framed hend left
  omega

/-- **Step lemma.** One call keeps the invariant. -/
theorem transportReadPdu_call (hend : Ending nla hdr tail) (hc : Cutting left hdr tail s bio) :
    Call left hdr tail bio (transportReadPdu (plainMode nla) s bio) := by
  have hlen : bio.pending.length + s.position = (sent left ++ tail).length := by
    rw [← hc.stream, length_append, s.filled_length]
    omega
  have hlt := hc.lt
  have h := transportReadPdu_outcome hend hc
  generalize transportReadPdu (plainMode nla) s bio = r at h
  cases h with
  | @waiting data s' bio' took filled lt idle =>
    refine .nothing ⟨took.stream filled hc.stream, lt, took.open hc.bio_open⟩ took.answers ?_
    by_cases hd : data = []
    · subst hd
      exact .inr ⟨took.pending.symm, idle rfl⟩
    have := length_pos_iff.mpr hd
    rw [took.pending, length_append]
    omega
  | @complete n s' bio' len n_pos pos pdu pending answers =>
    rcases left with _ | ⟨p, rest⟩
    · simp only [verdict] at len
      split at len <;> omega
    simp only [verdict, Nat.cast_inj] at len
    subst len
    simp only [sent_cons, append_assoc, take_left, drop_left] at pdu pending
    refine .pdu rfl ⟨?_, ?_, ?_⟩ answers pos pdu ?_
    · rw [pending, WStream.filled, pos, take_zero, nil_append]
    · rw [pos]
      exact limit_pos hend rest
    · intro k
      rw [answers]
      exact hc.bio_open k
    · rw [sent_cons, append_assoc, ← pending, length_append] at hlen
      simp only [limit] at hlt
      omega
  | failed err stream_eq answers =>
  cases left with
  | cons p rest => simp only [verdict] at err; omega
  | nil =>
  refine .error rfl (fun hnil => ?_)
  simp [verdict, hnil] at err

def delivered (seen : List (ℤ × List UInt8)) : List (ℤ × List UInt8) := seen.filter fun x => x.1 ≠ 0

/-- Where a run stands: the first PDUs were returned and nothing behind the part of the next one
in the receive stream was taken, or all were and then the bad header was reported. -/
inductive Progress (pdus : List (Pdu nla)) (hdr : ℕ) (tail : List UInt8) :
    List (ℤ × List UInt8) × WStream × Bio → Prop
  | running {seen s bio} (k : ℕ) (le : k ≤ pdus.length)
      (delivered_eq : delivered seen = (pdus.take k).map Pdu.returned)
      (cut : Cutting (pdus.drop k) hdr tail s bio)
      (last : ∀ x ∈ seen.getLast?, 0 < x.1 → s.position = 0) :
      Progress pdus hdr tail (seen, s, bio)
  | rejected {seen s bio} (bad : tail ≠ [])
      (delivered_eq : delivered seen = pdus.map Pdu.returned ++ [(-1, [])]) :
      Progress pdus hdr tail (seen, s, bio)

theorem readPdus_nil (n s bio)
    (h : (readPdus m n s bio).1 = []) : (readPdus m n s bio).2.1 = s := by
  cases n with
  | zero => rfl
  | succ n =>
  simp only [readPdus] at h
  split at h <;> simp at h

theorem readPdus_succ {m} (h : transportReadPdu m s bio = (status, s', bio')) (h0 : 0 ≤ status) :
    readPdus m (n + 1) s bio =
      (observe status s' :: (readPdus m n s' bio').1, (readPdus m n s' bio').2) := by
  simp only [readPdus, h]
  rw [if_neg (by omega)]

theorem delivered_cons_pdu {p : Pdu nla} (bytes : s.buffer.take s.length = p.bytes)
    (hpos : 0 < p.bytes.length) (seen) :
    delivered (observe p.bytes.length s :: seen) = p.returned :: delivered seen := by
  simp [delivered, observe, bytes, Pdu.returned, length_pos_iff.mp hpos]

/-- **Run lemma.** After any number of calls the run stands as `Progress` says. -/
theorem readPdus_progress (hend : Ending nla hdr tail) (n : ℕ) :
    ∀ (pdus : List (Pdu nla)) (s : WStream) (bio : Bio), Cutting pdus hdr tail s bio →
      Progress pdus hdr tail (readPdus (plainMode nla) n s bio) := by
  induction n with
  | zero =>
    intro pdus s bio hc
    exact .running 0 (zero_le _) rfl hc (by simp)
  | succ n ih =>
  intro pdus s bio hc
  have hcall := transportReadPdu_call hend hc
  generalize hr : transportReadPdu (plainMode nla) s bio = r at hcall
  cases hcall with
  | @nothing s' bio' cut answers progress =>
    rw [readPdus_succ hr le_rfl]
    have hd : ∀ seen, delivered (observe 0 s' :: seen) = delivered seen := by
      simp [delivered, observe]
    generalize readPdus (plainMode nla) n s' bio' = q, ih pdus s' bio' cut = hp
    cases hp with
    | @running seen s'' bio'' k le delivered_eq cut' last =>
      refine .running k le (by rw [hd, delivered_eq]) cut' ?_
      cases seen with
      | nil => simp [observe]
      | cons y seen => simpa using last
    | rejected bad delivered_eq => exact .rejected bad (by rw [hd, delivered_eq])
  | @pdu p rest s' bio' left_eq cut answers pos bytes progress =>
    subst left_eq
    rw [readPdus_succ hr (by omega)]
    have hpos : 0 < p.bytes.length := limit_pos hend (p :: rest)
    have hd := delivered_cons_pdu bytes hpos
    have hlast := readPdus_nil (plainMode nla) n s' bio'
    generalize readPdus (plainMode nla) n s' bio' = q, ih rest s' bio' cut = hp at hlast ⊢
    cases hp with
    | @running seen s'' bio'' k le delivered_eq cut' last =>
      refine .running (k + 1) (by simpa using le) (by rw [hd, delivered_eq]; rfl) cut' ?_
      cases seen with
      | nil =>
        intro _ _ _
        rw [← pos, ← hlast rfl]
      | cons y seen => simpa using last
    | rejected bad delivered_eq => exact .rejected bad (by rw [hd, delivered_eq]; rfl)
  | @error s' bio' left_eq bad =>
  subst left_eq
  have hrun : readPdus (plainMode nla) (n + 1) s bio = ([observe (-1) s'], s', bio') := by
    simp only [readPdus, hr]
    rfl
  rw [hrun]
  exact .rejected bad rfl

/-- The BIO keeps delivering: later reads find something ready again and again. -/
def Bio.Fair (bio : Bio) : Prop := ∀ k, ∃ j, k ≤ j ∧ ∃ n, bio.answers j = .ready (n + 1)

theorem Bio.Fair.of_answers (h : bio.Fair) (ha : bio'.answers = bio.answers) : bio'.Fair := by
  unfold Bio.Fair
  rw [ha]
  exact h

/-- All there is to deliver: the PDUs and the report of a bad header behind them. -/
def expected (pdus : List (Pdu nla)) (tail : List UInt8) : List (ℤ × List UInt8) :=
  pdus.map Pdu.returned ++ if tail = [] then [] else [(-1, [])]

variable {pdus : List (Pdu nla)}

theorem Cutting.expected_nil (hend : Ending nla hdr tail) (hc : Cutting pdus hdr tail s bio)
    (hnil : bio.pending = []) : expected pdus tail = [] := by
  have hlen : s.position = (sent pdus ++ tail).length := by
    rw [← hc.stream, hnil, append_nil, s.filled_length]
  have hlt := hc.lt
  rcases pdus with _ | ⟨p, rest⟩
  · cases hend with
    | clean => rfl
    | bad mode header =>
      exfalso
      simp only [sent_nil, nil_append, limit] at hlen hlt
      cases header <;> simp only [length_cons] at hlen <;> omega
  simp only [sent_cons, length_append, limit] at hlen hlt
  omega

/-- Delivering everything after one call: it is enough to do so from every state in which the
call moved some bytes, and from the one in which it did not. -/
theorem delivers_of_call (hend : Ending nla hdr tail) (hc : Cutting pdus hdr tail s bio)
    (hmoved : ∀ (left : List (Pdu nla)) (s' : WStream) (bio' : Bio),
      Cutting left hdr tail s' bio' → bio'.answers = bio.answers →
      bio'.pending.length < bio.pending.length →
      ∃ n, delivered (readPdus (plainMode nla) n s' bio').1 = expected left tail)
    (hidle : ∀ s' bio', Cutting pdus hdr tail s' bio' →
      bio'.answers = bio.answers → bio'.pending = bio.pending → Idle bio bio' →
      ∃ n, delivered (readPdus (plainMode nla) n s' bio').1 = expected pdus tail) :
    ∃ n, delivered (readPdus (plainMode nla) n s bio).1 = expected pdus tail := by
  have hcall := transportReadPdu_call hend hc
  generalize hr : transportReadPdu (plainMode nla) s bio = r at hcall
  cases hcall with
  | @nothing s' bio' cut answers progress =>
    have hnext : ∃ n, delivered (readPdus (plainMode nla) n s' bio').1 = expected pdus tail := by
      rcases progress with hlt | ⟨heq, hid⟩
      · exact hmoved pdus s' bio' cut answers hlt
      · exact hidle s' bio' cut answers heq hid
    obtain ⟨n, hn⟩ := hnext
    refine ⟨n + 1, ?_⟩
    rw [readPdus_succ hr le_rfl, ← hn]
    simp [delivered, observe]
  | @pdu p rest s' bio' left_eq cut answers pos bytes progress =>
    subst left_eq
    obtain ⟨n, hn⟩ := hmoved rest s' bio' cut answers progress
    have hpos : 0 < p.bytes.length := limit_pos hend (p :: rest)
    refine ⟨n + 1, ?_⟩
    rw [readPdus_succ hr (by omega), delivered_cons_pdu bytes hpos, hn]
    rfl
  | @error s' bio' left_eq bad =>
  subst left_eq
  refine ⟨1, ?_⟩
  simp only [readPdus, hr, expected, if_neg bad]
  rfl

/-- **Delivery.** With `d` reads in vain ahead at most, every state of a run goes on to deliver
everything.  The induction is on the pending bytes and, while no byte moves, on `d`. -/
theorem readPdus_delivers {size} (hend : Ending nla hdr tail) :
    ∀ (d : ℕ) (pdus : List (Pdu nla)) (s : WStream) (bio : Bio), bio.pending.length = size →
      bio.Fair → (∃ n, bio.answers (bio.calls + d) = .ready (n + 1)) → Cutting pdus hdr tail s bio →
      ∃ n, delivered (readPdus (plainMode nla) n s bio).1 = expected pdus tail := by
  induction size using Nat.strong_induction_on with
  | _ size ihsize =>
  -- a call that moved some bytes hands over to the outer induction
  have hmoved : ∀ (pdus : List (Pdu nla)) (s : WStream) (bio : Bio),
      bio.pending.length < size → bio.Fair → Cutting pdus hdr tail s bio →
      ∃ n, delivered (readPdus (plainMode nla) n s bio).1 = expected pdus tail := by
    intro pdus s bio hlt hfair hc
    obtain ⟨j, hj, hready⟩ := hfair bio.calls
    obtain ⟨d, rfl⟩ := Nat.exists_eq_add_of_le hj
    exact ihsize _ hlt d pdus s bio rfl hfair hready hc
  intro d
  induction d with
  | zero =>
    intro pdus s bio hsize hfair hready hc
    refine delivers_of_call hend hc (fun left s' bio' cut answers hlt => ?_)
      (fun s' bio' cut answers heq hid => ?_)
    · exact hmoved left s' bio' (hsize ▸ hlt) (hfair.of_answers answers) cut
    rcases hid.reason with hnil | hnot
    · exact ⟨0, (hc.expected_nil hend hnil).symm⟩
    · exact absurd hready hnot
  | succ d ihd =>
  intro pdus s bio hsize hfair hready hc
  refine delivers_of_call hend hc (fun left s' bio' cut answers hlt => ?_)
    (fun s' bio' cut answers heq hid => ?_)
  · exact hmoved left s' bio' (hsize ▸ hlt) (hfair.of_answers answers) cut
  refine ihd pdus s' bio' (heq ▸ hsize) (hfair.of_answers answers) ?_ cut
  rw [answers, hid.calls, add_assoc, add_comm 1 d]
  exact hready

/-- **The transport cuts the stream into PDUs.** For every sequence of PDUs, followed by nothing
or by a bad header, and every splitting of the stream by non-blocking reads, repeated calls of
`transport_read_pdu` on one receive stream return exactly these PDUs in order and `0` in between,
never take a byte of the next PDU when they return one, and report the bad header; as long as the
BIO keeps delivering, all of them are returned. -/
theorem transportReadPdu_cuts_stream (pdus : List (Pdu nla)) {hdr : ℕ} {tail : List UInt8}
    (hend : Ending nla hdr tail) (s : WStream) (hs : s.position = 0) (bio : Bio) (ho : bio.Open)
    (hb : bio.pending = sent pdus ++ tail) :
    (∀ n, Progress pdus hdr tail (readPdus (plainMode nla) n s bio)) ∧
      (bio.Fair → ∃ n, delivered (readPdus (plainMode nla) n s bio).1 = expected pdus tail) := by
  have hc : Cutting pdus hdr tail s bio := by
    refine ⟨?_, ?_, ho⟩
    · rw [WStream.filled, hs, take_zero, nil_append, hb]
    · rw [hs]
      exact limit_pos hend pdus
  refine ⟨fun n => readPdus_progress hend n pdus s bio hc, fun hfair => ?_⟩
  obtain ⟨j, hj, hready⟩ := hfair bio.calls
  obtain ⟨d, rfl⟩ := Nat.exists_eq_add_of_le hj
  exact readPdus_delivers hend d pdus s bio rfl hfair hready hc

end Run

/-- A BIO that gives one byte at every second read. -/
def trickle (pending : List UInt8) : Bio where
  pending := pending
  answers k := if k % 2 = 0 then .retry else .ready 1
  calls := 0

theorem trickle_open : (trickle pending).Open := by
  intro k
  simp only [trickle]
  split
  · exact .inl rfl
  · exact .inr ⟨1, rfl⟩

theorem trickle_fair : (trickle pending).Fair := by
  intro k
  refine ⟨2 * k + 1, by omega, 0, ?_⟩
  simp only [trickle]
  rw [if_neg (by omega)]

/-- A TPKT packet of seven bytes, a fast-path packet of three, then a fast-path header announcing
two bytes, one byte at a time. -/
theorem transportReadPdu_cuts_trickle :
    let pdus : List (Pdu false) :=
      [⟨[3, 0, 0, 7, 1, 2, 3], .tpkt (by decide) (by decide)⟩,
        ⟨[0, 3, 9], .fastPath1 (by decide) (by decide) (by decide) (by decide)⟩]
    let s : WStream := ⟨[], 0, 0, le_rfl⟩
    let bio := trickle (sent pdus ++ [0, 2])
    (∀ n, Progress pdus 2 [0, 2] (readPdus (plainMode false) n s bio)) ∧
      ∃ n, delivered (readPdus (plainMode false) n s bio).1 =
        [(7, [3, 0, 0, 7, 1, 2, 3]), (3, [0, 3, 9]), (-1, [])] := by
  intro pdus s bio
  have h := transportReadPdu_cuts_stream pdus (.bad rfl (.fastPath1 (by decide) (by decide))) s rfl
    bio trickle_open rfl
  exact ⟨h.1, h.2 trickle_fair⟩

end WBFreeRDP.Transport

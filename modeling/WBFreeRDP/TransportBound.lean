/-
# How much the receive stream holds

`transport_read_pdu` reads byte after byte as long as the length parser says that the PDU is
incomplete.  The amount it stores is bounded when every path of the parser ends in an error or in a
length once four bytes are there.
-/
import WBFreeRDP.TransportCut

namespace WBFreeRDP.Transport

open List Nat

/-! ## The property -/

/-- Up to `n` calls of `transport_read_pdu`, until one returns something else than `0`. -/
def readPdu (m : Mode) : ℕ → WStream → Bio → ℤ × WStream × Bio
  | 0, s, bio => (0, s, bio)
  | n + 1, s, bio =>
    let (status, s, bio) := transportReadPdu m s bio
    if status = 0 then readPdu m n s bio else (status, s, bio)

/-- The bytes the receive stream holds after a call that returned `status`: a complete PDU is sealed
and the position is back at the start. -/
def held (status : ℤ) (s : WStream) : List UInt8 :=
  if status > 0 then s.buffer.take s.length else s.filled

/-- A byte that cannot start a PDU: whatever follows, the parser finds no length. -/
def CannotStart (m : Mode) (b : UInt8) : Prop := ∀ rest, m.parse (b :: rest) ≤ 0

/-- What a bounded receive path does with what the peer sends: it never holds more than 65539 bytes,
and it fails on a first byte that cannot start a PDU. -/
def Bounded (nla : Bool) (stream : List UInt8) : Prop :=
  ∀ (s : WStream) (bio : Bio) (n : ℕ), s.position = 0 → bio.pending = stream →
    let (status, s', _) := readPdu (plainMode nla) n s bio
    (held status s').length ≤ 65539 ∧
      ∀ b, (held status s').head? = some b → CannotStart (plainMode nla) b → status < 0

/-! ## The parsers -/

theorem parseNlaModePdu_le (l) : parseNlaModePdu l ≤ 65539 := by
  unfold parseNlaModePdu
  split
  · decide
  split_ifs
  swap
  · decide
  split
  · decide
  next length s =>
  have hlength := length.toNat_lt
  split_ifs
  · split
    · decide
    next length' _ =>
    have := length'.toNat_lt
    omega
  · split
    · next hi lo _ =>
      have hhi := hi.toNat_lt
      have hlo := lo.toNat_lt
      unfold uint16BE
      omega
    · decide
  · decide
  · omega

theorem parseDefaultModePdu_le (l) : parseDefaultModePdu l ≤ 65539 := by
  unfold parseDefaultModePdu
  split
  · decide
  split_ifs
  · split
    · simp only
      split_ifs <;> omega
    · decide
  split
  · decide
  split_ifs
  · split
    · decide
    · simp only
      split_ifs <;> omega
  · simp only
    split_ifs <;> omega

/-- **No PDU is longer than 65539 bytes.** -/
theorem parse_le (nla : Bool) (l : List UInt8) : (plainMode nla).parse l ≤ 65539 := by
  cases nla with
  | true => exact parseNlaModePdu_le l
  | false => exact parseDefaultModePdu_le l

/-- In NLA mode the first byte is the tag of a sequence. -/
def GoodStart (nla : Bool) (l : List UInt8) : Prop := nla = true → ∀ b, l.head? = some b → b = 0x30

/-- **Four bytes decide**: with a good start they give a length or an error. -/
theorem parse_eq_zero (hstart : GoodStart nla l)
    (h : (plainMode nla).parse l = 0) : l.length < 4 := by
  rcases l with _ | ⟨a, _ | ⟨b, _ | ⟨c, _ | ⟨d, rest⟩⟩⟩⟩
  · exact succ_pos 3
  iterate 2 exact Nat.lt_of_sub_eq_succ rfl
  · exact lt_succ_self 3
  exfalso
  rcases nla with _ | _
  · simp only [plainMode_parse_false, parseDefaultModePdu] at h
    split_ifs at h <;> omega
  obtain rfl := hstart rfl a rfl
  simp only [plainMode_parse_true, parseNlaModePdu] at h
  split_ifs at h <;> omega

/-! ## Any BIO -/

/-- `BIO_read` on any BIO takes what it returns from the pending bytes, and it returns bytes only
when it says so. -/
theorem Bio.read_any (bio : Bio) (r) : ∃ answer data bio', bio.read r = (answer, data, bio') ∧
    bio.pending = data ++ bio'.pending ∧ data.length ≤ r ∧
    ((∃ n, answer = .ready n) ∨ data = []) := by
  unfold Bio.read
  cases bio.answers bio.calls with
  | ready n =>
    simp only
    split_ifs
    · exact ⟨_, _, _, rfl, rfl, zero_le r, .inr rfl⟩
    refine ⟨_, _, _, rfl, ?_, ?_, .inl ⟨_, rfl⟩⟩
    · exact (prefix_iff_eq_append.mp <| take_prefix _ _).symm
    · simp only [length_take]
      omega
  | retry | closed | shallDisconnect => exact ⟨_, _, _, rfl, rfl, zero_le r, .inr rfl⟩

/-- The read loop stores at most what it was asked for, and says how much unless it fails. -/
theorem transportReadLayerLoop_any (bytes fuel) : ∀ data bio,
    data.length ≤ bytes → ∃ status data' bio',
      transportReadLayerLoop bytes fuel data bio = (status, data', bio') ∧
      (status < 0 ∨ status = data'.length ∧ data'.length ≤ bytes ∧
        data ++ bio.pending = data' ++ bio'.pending) := by
  induction fuel with
  | zero => intro data bio hle; exact ⟨_, _, _, rfl, .inr ⟨rfl, hle, rfl⟩⟩
  | succ fuel ih =>
  intro data bio hle
  rw [transportReadLayerLoop]
  by_cases hlt : data.length < bytes
  swap
  · rw [if_neg hlt]
    exact ⟨_, _, _, rfl, .inr ⟨rfl, hle, rfl⟩⟩
  rw [if_pos hlt]
  obtain ⟨answer, more, bio', hread, hpending, hmore, hnone⟩ := bio.read_any
    (if bytes - data.length > intMax then intMax else bytes - data.length)
  simp only [hread]
  have hfit : (data ++ more).length ≤ bytes := by
    rw [length_append]
    split_ifs at hmore <;> omega
  cases answer with
  | ready n =>
    obtain ⟨status, data', bio'', hloop, hres⟩ := ih (data ++ more) bio' hfit
    refine ⟨status, data', bio'', hloop, ?_⟩
    rwa [hpending, ← append_assoc]
  | retry =>
    refine ⟨_, _, _, rfl, .inr ⟨rfl, hle, ?_⟩⟩
    -- nothing comes with a retry
    rcases hnone with ⟨n, hn⟩ | hnil
    · cases hn
    · rw [hpending, hnil, nil_append]
  | closed | shallDisconnect => exact ⟨_, _, _, rfl, .inl (by decide)⟩

/-- `transport_read_layer_bytes` on any BIO: unless it fails, the stream receives what was taken. -/
theorem transportReadLayerBytes_any (s toRead bio) :
    ∃ status s' bio', transportReadLayerBytes s toRead bio = (status, s', bio') ∧
      (status < 0 ∧ s' = s ∨ (status = 0 ∨ status = 1 ∧ s'.position = s.position + toRead) ∧
        s'.position ≤ s.position + toRead ∧
        s'.filled ++ bio'.pending = s.filled ++ bio.pending) := by
  unfold transportReadLayerBytes
  by_cases hmax : toRead > ssizeMax
  · rw [if_pos hmax]
    exact ⟨_, _, _, rfl, .inr ⟨.inl rfl, le_add_right _ _, rfl⟩⟩
  obtain ⟨status, data, bio', hloop, hres⟩ := transportReadLayerLoop_any toRead toRead [] bio
    (zero_le _)
  simp only [transportReadLayer, if_neg hmax, hloop]
  rcases hres with hneg | ⟨rfl, hle, hpending⟩
  · rw [if_pos hneg.le]
    exact ⟨_, _, _, rfl, .inl ⟨hneg, rfl⟩⟩
  rw [nil_append] at hpending
  by_cases hzero : (data.length : ℤ) ≤ 0
  · have hnil : data = [] := length_eq_zero_iff.mp (by omega)
    rw [if_pos hzero]
    refine ⟨_, _, _, rfl, .inr ⟨.inl (by omega), le_add_right _ _, ?_⟩⟩
    rw [hpending, hnil, nil_append]
  rw [if_neg hzero]
  refine ⟨_, _, _, rfl, .inr ⟨?_, ?_, ?_⟩⟩
  · by_cases hall : (data.length : ℤ) = toRead
    · rw [if_pos hall]
      refine .inr ⟨rfl, ?_⟩
      show s.position + data.length = s.position + toRead
      omega
    · rw [if_neg hall]
      exact .inl rfl
  · show s.position + data.length ≤ s.position + toRead
    omega
  · rw [WStream.append_filled, append_assoc, hpending]

/-! ## The bound -/

section Bound

variable {stream : List UInt8}

/-- What the receive path guarantees after a call: what the stream holds is in front of what the
peer sent and is not too long; while the PDU is incomplete nothing is lost. -/
structure Holds (stream : List UInt8) (result : ℤ × WStream × Bio) : Prop where
  front : held result.1 result.2.1 <+: stream
  length_le : (held result.1 result.2.1).length ≤ 65539
  incomplete : result.1 = 0 → result.2.1.filled ++ result.2.2.pending = stream

theorem holds_of_le (hstatus : status ≤ 0)
    (hstream : s.filled <+: stream) (hpos : s.position ≤ 65539)
    (hincomplete : status = 0 → s.filled ++ bio.pending = stream) :
    Holds stream (status, s, bio) := by
  have hheld : held status s = s.filled := if_neg (not_lt.mpr hstatus)
  constructor
  · rwa [hheld]
  · rwa [hheld, WStream.filled_length]
  · exact hincomplete

theorem holds_finishPdu (hstream : s.filled ++ bio.pending = stream)
    (hpos : 0 < s.position) (hle : s.position ≤ 65539) : Holds stream (finishPdu s bio) := by
  have hret : finishPdu s bio = ((s.position : ℤ), s.sealLength.resetPosition, bio) := by
    have hlength : ¬ s.sealLength.resetPosition.length > 2 ^ 31 - 1 := by
      rw [WStream.resetPosition_length, WStream.sealLength_length]
      omega
    simp only [finishPdu, if_neg hlength]
    rfl
  have hheld : held (s.position : ℤ) s.sealLength.resetPosition = s.filled := if_pos (by omega)
  rw [hret]
  constructor
  · rw [hheld, ← hstream]
    exact prefix_append _ _
  · rw [hheld, WStream.filled_length]
    exact hle
  · intro hzero
    exact absurd hzero (by omega)

theorem readRest_holds (hstream : s.filled ++ bio.pending = stream) (hpos : s.position ≤ 65539)
    (hpdu : 0 < pduLength) (hmax : pduLength ≤ 65539) :
    Holds stream (readRest s pduLength bio) := by
  obtain ⟨s1, hgrow, hfilled, hposition⟩ := s.ensureCapacity_spec pduLength (by
    have : sizeMax = 2 ^ 64 - 1 := rfl
    omega)
  rw [← hfilled] at hstream
  rw [← hposition] at hpos
  have hfront : s1.filled <+: stream := ⟨bio.pending, hstream⟩
  simp only [readRest, hgrow]
  by_cases hover : s1.position > pduLength
  · rw [if_pos hover]
    exact holds_of_le (by decide) hfront hpos (by simp)
  rw [if_neg hover]
  by_cases hlt : s1.position < pduLength
  swap
  · rw [if_neg hlt]
    exact holds_finishPdu hstream (by omega) hpos
  rw [if_pos hlt]
  obtain ⟨status, s2, bio', hread, hres⟩ :=
    transportReadLayerBytes_any s1 (pduLength - s1.position) bio
  simp only [hread]
  rcases hres with ⟨hneg, rfl⟩ | ⟨hstatus, hle, hpending⟩
  · rw [if_pos (by omega)]
    exact holds_of_le hneg.le hfront hpos (fun h => by omega)
  rw [hstream] at hpending
  rcases hstatus with rfl | ⟨rfl, hall⟩
  · exact holds_of_le le_rfl ⟨_, hpending⟩ (by omega) (fun _ => hpending)
  · exact holds_finishPdu hpending (by omega) (by omega)

/-- **The bytes held in a call**: as long as the parser does not know the length there are fewer
than four of them, and afterwards at most as many as the PDU has. -/
theorem readDefaultPdu_holds (hstart : GoodStart nla stream) :
    ∀ s bio, s.filled ++ bio.pending = stream → s.position ≤ 65539 →
      Holds stream (readDefaultPdu (plainMode nla) fuel s bio) := by
  induction fuel with
  | zero =>
    intro s bio hstream hpos
    exact holds_of_le le_rfl ⟨_, hstream⟩ hpos (fun _ => hstream)
  | succ fuel ih =>
  intro s bio hstream hpos
  have hfront : s.filled <+: stream := ⟨_, hstream⟩
  have hmax := parse_le nla s.filled
  rw [readDefaultPdu, transportParsePdu_eq]
  by_cases hle : (plainMode nla).parse s.filled ≤ 0
  · simp only [if_pos hle]
    by_cases hzero : (plainMode nla).parse s.filled = 0
    swap
    · rw [if_neg (fun h => hzero h.1), if_pos (by omega)]
      exact holds_of_le (by decide) hfront hpos (by simp)
    -- the length is not known yet
    have hshort : s.position < 4 := by
      rw [← s.filled_length]
      apply parse_eq_zero _ hzero
      intro hnla b hb
      apply hstart hnla
      obtain ⟨rest, rfl⟩ := hfront
      rw [List.head?_append, hb]
      rfl
    obtain ⟨s1, hgrow, hfilled, hposition⟩ :=
      s.sealLength.ensureRemainingCapacity_spec 1 (by
        have : sizeMax = 2 ^ 64 - 1 := rfl
        rw [WStream.sealLength_position]
        omega)
    rw [WStream.sealLength_filled] at hfilled
    rw [WStream.sealLength_position] at hposition
    rw [if_pos ⟨hzero, trivial⟩]
    simp only [hgrow]
    obtain ⟨rc, s2, bio', hread, hres⟩ := transportReadLayerBytes_any s1 1 bio
    simp only [hread]
    rcases hres with ⟨hneg, rfl⟩ | ⟨hstatus, hone, hpending⟩
    · rw [if_pos (by omega)]
      rw [← hfilled] at hfront
      exact holds_of_le hneg.le hfront (by omega) (fun h => by omega)
    rw [hfilled, hstream] at hpending
    rcases hstatus with rfl | ⟨rfl, -⟩
    · exact holds_of_le le_rfl ⟨_, hpending⟩ (by omega) (fun _ => hpending)
    · exact ih s2 bio' hpending (by omega)
  · simp only [if_neg hle]
    by_cases hlong : s.position > ((plainMode nla).parse s.filled).toNat
    · simp only [if_pos hlong]
      exact holds_of_le (by decide) hfront hpos (by simp)
    simp only [if_neg hlong]
    rw [if_neg (fun h => by omega), if_neg (by omega)]
    exact readRest_holds hstream hpos (by omega) (by omega)

theorem transportReadPdu_plain (nla s bio) : transportReadPdu (plainMode nla) s bio =
      readDefaultPdu (plainMode nla) (bio.pending.length + 1) s bio := rfl

theorem readPdu_holds (hstart : GoodStart nla stream) (n) :
    ∀ s bio, s.filled ++ bio.pending = stream → s.position ≤ 65539 →
      Holds stream (readPdu (plainMode nla) n s bio) := by
  induction n with
  | zero =>
    intro s bio hstream hpos
    exact holds_of_le le_rfl ⟨_, hstream⟩ hpos (fun _ => hstream)
  | succ n ih =>
  intro s bio hstream hpos
  have hcall : Holds stream (transportReadPdu (plainMode nla) s bio) := by
    exact readDefaultPdu_holds hstart s bio hstream hpos
  rw [readPdu]
  generalize transportReadPdu (plainMode nla) s bio = result at hcall ⊢
  obtain ⟨status, s', bio'⟩ := result
  simp only
  by_cases hzero : status = 0
  · subst hzero
    apply ih
    · exact hcall.incomplete rfl
    · rw [← WStream.filled_length]
      exact hcall.length_le
  · rw [if_neg hzero]
    exact hcall

end Bound

/-! ## A first byte that is not expected -/

/-- A BIO that gives one byte at each of its first `k` reads. -/
def burst (k : ℕ) (pending : List UInt8) (calls : ℕ) : Bio where
  pending := pending
  answers j := if j < k then .ready 1 else .retry
  calls := calls

theorem one_asked : ¬ 1 > ssizeMax ∧ (if 1 - ([] : List UInt8).length > intMax then intMax
    else 1 - ([] : List UInt8).length) = 1 := by
  decide

theorem burst_read (k s c pending)
    (h : calls < k) : transportReadLayerBytes s 1 (burst k (c :: pending) calls) =
      (1, s.append [c], burst k pending (calls + 1)) := by
  have hread : (burst k (c :: pending) calls).read 1 =
      (.ready 1, [c], burst k pending (calls + 1)) := by
    simp [Bio.read, burst, h]
  simp only [transportReadLayerBytes, transportReadLayer, transportReadLayerLoop,
    one_asked.2, hread]
  rfl

theorem burst_read_none (s)
    (h : k ≤ calls ∨ pending = []) : transportReadLayerBytes s 1 (burst k pending calls) =
      (0, s, burst k pending (calls + 1)) := by
  have hread : (burst k pending calls).read 1 = (.retry, [], burst k pending (calls + 1)) := by
    rcases h with h | rfl
    · simp [Bio.read, burst, not_lt.mpr h]
    · by_cases hk : calls < k <;> simp [Bio.read, burst, hk]
  simp only [transportReadLayerBytes, transportReadLayer, transportReadLayerLoop,
    one_asked.2, hread]
  rfl

theorem parseNlaModePdu_other (hb : b ≠ 0x30) (rest) : parseNlaModePdu (b :: rest) = 0 := by
  simp [parseNlaModePdu, if_neg hb]

/-- **The loop reads on** after a byte that cannot start a `TSRequest`, as long as bytes come. -/
theorem readDefaultPdu_reads_on (hb : b ≠ 0x30) (rest : List UInt8) (k fuel : ℕ) :
    ∀ s pending calls, s.filled ++ pending = b :: rest →
      s.position + (k - calls) ≤ 2 ^ 32 → pending.length < fuel →
      ∃ s' bio', readDefaultPdu (plainMode true) fuel s (burst k pending calls) = (0, s', bio') ∧
        s'.filled <+: b :: rest ∧ s'.position = s.position + min (k - calls) pending.length := by
  induction fuel with
  | zero => intro s pending calls _ _ hfuel; exact absurd hfuel (not_lt_zero _)
  | succ fuel ih =>
  intro s pending calls hstream hpos hfuel
  have hfront : s.filled <+: b :: rest := ⟨_, hstream⟩
  have hparse : (plainMode true).parse s.filled = 0 := by
    rcases hfilled : s.filled with _ | ⟨a, l⟩
    · rfl
    rw [hfilled] at hstream
    obtain rfl : a = b := (List.cons.inj hstream).1
    exact parseNlaModePdu_other hb l
  obtain ⟨s1, hgrow, hfilled, hposition⟩ := s.sealLength.ensureRemainingCapacity_spec 1 (by
    have : sizeMax = 2 ^ 64 - 1 := rfl
    rw [WStream.sealLength_position]
    omega)
  rw [WStream.sealLength_position] at hposition
  rw [readDefaultPdu, transportParsePdu_eq]
  simp only [hparse, le_refl, if_true, true_and, hgrow]
  by_cases hmore : calls < k
  swap
  · rw [burst_read_none s1 (.inl (by omega))]
    refine ⟨s1, _, if_pos (show (0 : ℤ) ≠ 1 by decide), ?_, ?_⟩
    · rwa [hfilled]
    · rw [hposition, Nat.sub_eq_zero_of_le (by omega), zero_min, add_zero]
  rcases pending with _ | ⟨c, pending⟩
  · rw [burst_read_none s1 (.inr rfl)]
    refine ⟨s1, _, if_pos (show (0 : ℤ) ≠ 1 by decide), ?_, ?_⟩
    · rwa [hfilled]
    · rw [hposition, length_nil, min_zero, add_zero]
  rw [burst_read k s1 c pending hmore]
  have hnext : (s1.append [c]).filled ++ pending = b :: rest := by
    rw [WStream.append_filled, hfilled, append_assoc]
    exact hstream
  have happend : (s1.append [c]).position = s.position + 1 := by
    rw [← hposition]
    rfl
  rw [length_cons] at hfuel ⊢
  obtain ⟨s', bio', hcall, hfront', hpos'⟩ := ih (s1.append [c]) pending (calls + 1) hnext
    (by omega) (by omega)
  refine ⟨s', bio', ?_, hfront', ?_⟩
  · simpa using hcall
  · omega

def freshStream : WStream := ⟨[], 0, 0, le_rfl⟩

/-- **When the receive path is bounded**: exactly when, in NLA mode, the first byte the peer sends
is the tag of a sequence. -/
theorem bounded_iff (nla : Bool) (stream : List UInt8) :
    Bounded nla stream ↔ (nla = true → ∀ b, stream.head? = some b → b = 0x30) := by
  constructor
  · rintro hbounded rfl b hb
    by_contra hne
    obtain ⟨rest, rfl⟩ : ∃ rest, stream = b :: rest := List.head?_eq_some_iff.mp hb
    -- one byte arrives, and the call goes on waiting
    obtain ⟨s', bio', hcall, hfront, hpos⟩ := readDefaultPdu_reads_on hne rest 1
      ((b :: rest).length + 1) freshStream (b :: rest) 0 rfl (by decide) (lt_succ_self _)
    have hread : readPdu (plainMode true) 1 freshStream (burst 1 (b :: rest) 0) =
        (0, s', bio') := by
      have hone : transportReadPdu (plainMode true) freshStream (burst 1 (b :: rest) 0) =
          (0, s', bio') := (transportReadPdu_plain true _ _).trans hcall
      simp [readPdu, hone]
    have hfail := hbounded freshStream (burst 1 (b :: rest) 0) 1 rfl rfl
    rw [hread] at hfail
    have hhead : s'.filled.head? = some b := by
      obtain ⟨tail, htail⟩ := hfront
      have hlen : s'.filled.length = 1 := by
        rw [s'.filled_length, hpos]
        show 0 + min (1 - 0) (rest.length + 1) = 1
        omega
      obtain ⟨a, ha⟩ := length_eq_one_iff.mp hlen
      rw [ha] at htail ⊢
      rw [(List.cons.inj htail).1]
      rfl
    have hneg := hfail.2 b hhead fun l => (parseNlaModePdu_other hne l).le
    exact absurd hneg (by decide)
  · intro hstart s bio n hpos hpending
    have hheld := readPdu_holds hstart n s bio
      (by rw [← hpending, length_eq_zero_iff.mp (s.filled_length.trans hpos), nil_append])
      (by omega)
    generalize readPdu (plainMode nla) n s bio = result at hheld
    refine ⟨hheld.length_le, fun b hb hcannot => ?_⟩
    exfalso
    rcases nla with _ | _
    · by_cases htpkt : b = 0x03
      · rw [htpkt] at hcannot
        exact absurd (hcannot [0, 0, 7]) (by decide)
      have := hcannot [3]
      simp only [plainMode_parse_false, parseDefaultModePdu, if_neg htpkt] at this
      exact absurd this (by decide)
    -- a good start can start a `TSRequest`
    obtain ⟨tail, htail⟩ := hheld.front
    have hfirst : b = 0x30 := by
      apply hstart rfl
      rw [← htail, List.head?_append, hb]
      rfl
    rw [hfirst] at hcannot
    exact absurd (hcannot [0]) (by decide)

/-- In NLA mode 65540 zero bytes are all stored, and the call asks for more. -/
theorem nla_holds_too_much :
    let sent := 0 :: List.replicate 65539 (0 : UInt8)
    let result := transportReadPdu (plainMode true) freshStream (burst 65540 sent 0)
    result.1 = 0 ∧ result.2.1.position = 65540 ∧ CannotStart (plainMode true) 0 := by
  intro sent result
  obtain ⟨s', bio', hcall, -, hpos⟩ := readDefaultPdu_reads_on (show (0 : UInt8) ≠ 0x30 by decide)
    (replicate 65539 0) 65540 ((burst 65540 sent 0).pending.length + 1) freshStream sent 0 rfl
    (by decide) (lt_succ_self _)
  have hresult : result = (0, s', bio') := (transportReadPdu_plain true _ _).trans hcall
  have hlength : sent.length = 65540 := by
    show (replicate 65539 (0 : UInt8)).length + 1 = 65540
    rw [length_replicate]
  rw [hresult]
  refine ⟨rfl, ?_, fun l => (parseNlaModePdu_other (show (0 : UInt8) ≠ 0x30 by decide) l).le⟩
  show s'.position = 65540
  rw [hpos, hlength]
  rfl

end WBFreeRDP.Transport

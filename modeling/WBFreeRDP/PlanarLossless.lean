/-
# The planar plane codec is lossless

What the writer of a scan line produces is a sequence of packets: a control byte, some raw bytes
and a run of the last symbol.  Both readers are analysed on such a sequence.
-/
import WBFreeRDP.Planar
import Mathlib.Tactic.IntervalCases

namespace WBFreeRDP.Planar

open List Nat Option

/-! ## Packets -/

/-- What one control byte announces: up to 15 raw bytes and a run of up to 15 symbols, where a
run of one or two is not expressible; or a run of 16 to 47 symbols alone. -/
structure Packet where
  raw : List UInt8
  run : ℕ
  valid : (raw.length ≤ 15 ∧ run ≤ 15 ∧ run ≠ 1 ∧ run ≠ 2 ∧ 0 < raw.length + run) ∨
    (raw = [] ∧ 16 ≤ run ∧ run ≤ 47)

namespace Packet

def control (p : Packet) : UInt8 :=
  if p.run ≤ 15 then planarControlByte p.run p.raw.length
  else if p.run ≤ 31 then planarControlByte 1 (p.run - 16)
  else planarControlByte 2 (p.run - 32)

def bytes (p : Packet) : List UInt8 := p.control :: p.raw

/-- The symbols of a packet that follows the symbol `c`. -/
def symbols (c : UInt8) (p : Packet) : List UInt8 :=
  p.raw ++ List.replicate p.run (p.raw.getLastD c)

@[simp] theorem symbols_length (c) (p : Packet) : (p.symbols c).length = p.raw.length + p.run := by
  simp [symbols]

end Packet

def bytesOf (ps : List Packet) : List UInt8 := ps.flatMap Packet.bytes

/-- The symbols of a sequence of packets that follows the symbol `c`. -/
def expand : UInt8 → List Packet → List UInt8
  | _, [] => []
  | c, p :: ps => p.symbols c ++ expand ((p.symbols c).getLastD c) ps

@[simp] theorem bytesOf_nil : bytesOf [] = [] := rfl
@[simp] theorem bytesOf_cons (p ps) : bytesOf (p :: ps) = p.control :: (p.raw ++ bytesOf ps) := rfl
@[simp] theorem expand_nil (c) : expand c [] = [] := rfl
@[simp] theorem expand_cons (c p ps) :
    expand c (p :: ps) = p.symbols c ++ expand ((p.symbols c).getLastD c) ps := rfl

theorem bytesOf_append (ps qs) : bytesOf (ps ++ qs) = bytesOf ps ++ bytesOf qs :=
  flatMap_append

theorem getLastD_append (a b : List UInt8) (c) :
    (a ++ b).getLastD c = b.getLastD (a.getLastD c) := by
  cases b with
  | nil => simp
  | cons x b =>
  simp

theorem getLastD_append_replicate (a n) (c : UInt8) :
    (a ++ replicate n (a.getLastD c)).getLastD c = a.getLastD c := by
  rw [getLastD_append]
  cases n with
  | zero => rfl
  | succ n => simp [List.getLast?_replicate]

@[simp] theorem Packet.symbols_getLastD (c) (p : Packet) :
    (p.symbols c).getLastD c = p.raw.getLastD c :=
  getLastD_append_replicate p.raw p.run c

theorem expand_append (c ps qs) :
    expand c (ps ++ qs) = expand c ps ++ expand ((expand c ps).getLastD c) qs := by
  induction ps generalizing c with
  | nil => rfl
  | cons p ps ih => rw [cons_append, expand_cons, expand_cons, ih, getLastD_append, append_assoc]

/-- A packet costs at most two bytes for every symbol it stands for. -/
theorem bytesOf_length_le (c ps) : (bytesOf ps).length ≤ 2 * (expand c ps).length := by
  induction ps generalizing c with
  | nil => simp
  | cons p ps ih =>
  have h := ih ((p.symbols c).getLastD c)
  have hp : 0 < p.raw.length + p.run := by
    rcases p.valid with hv | ⟨-, hv, -⟩
    · exact hv.2.2.2.2
    · omega
  simp only [bytesOf_cons, expand_cons, length_cons, length_append, Packet.symbols_length]
  omega

theorem length_le_bytesOf (ps) : ps.length ≤ (bytesOf ps).length := by
  induction ps with
  | nil => simp
  | cons p ps ih =>
  simp only [bytesOf_cons, length_cons, length_append]
  omega

variable {n : ℕ}

theorem planarControlByte_toNat (hr : r ≤ 15) (hn : n ≤ 15) :
    (planarControlByte n r).toNat = r * 16 + n := by
  have hn' : n &&& 0x0F = n := by
    rw [show (0x0F : ℕ) = 2 ^ 4 - 1 from rfl, and_two_pow_sub_one_eq_mod]
    omega
  have hr' : r &&& 0x0F = r := by
    rw [show (0x0F : ℕ) = 2 ^ 4 - 1 from rfl, and_two_pow_sub_one_eq_mod]
    omega
  have hor : n ||| r <<< 4 = r * 16 + n := by
    rw [Nat.or_comm, ← shiftLeft_add_eq_or_of_lt (by omega), shiftLeft_eq]
  rw [planarControlByte, hn', hr', hor, UInt8.toNat_ofNat_of_lt' (by
    rw [UInt8.size]
    omega)]

/-- The readers take the control byte of a packet for what it is. -/
theorem readControlByte_control (p : Packet) :
    readControlByte p.control = (p.run, p.raw.length) := by
  have key : ∀ r n : ℕ, r ≤ 15 → n ≤ 15 → readControlByte (planarControlByte n r) =
      if n = 1 then (r + 16, 0) else if n = 2 then (r + 32, 0) else (n, r) := by
    intro r n hr hn
    have hrun : planarControlByteRunLength (planarControlByte n r) = n := by
      rw [planarControlByteRunLength, planarControlByte_toNat hr hn,
        show (0x0F : ℕ) = 2 ^ 4 - 1 from rfl, and_two_pow_sub_one_eq_mod]
      omega
    have hraw : planarControlByteRawBytes (planarControlByte n r) = r := by
      rw [planarControlByteRawBytes, planarControlByte_toNat hr hn,
        show (0x0F : ℕ) = 2 ^ 4 - 1 from rfl, and_two_pow_sub_one_eq_mod]
      omega
    simp only [readControlByte, hrun, hraw]
  unfold Packet.control
  rcases p.valid with ⟨hraw, hrun, h1, h2, -⟩ | ⟨hraw, h16, h47⟩
  · rw [if_pos hrun, key _ _ hraw hrun, if_neg h1, if_neg h2]
  have h15 : ¬ p.run ≤ 15 := by omega
  rw [if_neg h15, hraw]
  by_cases h31 : p.run ≤ 31
  · rw [if_pos h31, key _ _ (by omega) (by omega), Nat.sub_add_cancel (by omega)]
    rfl
  rw [if_neg h31, key _ _ (by omega) (by omega), Nat.sub_add_cancel (by omega)]
  rfl

/-! ## The writer of raw bytes and runs -/

/-- A run the writer may have left: never one or two symbols. -/
def RunOk (n : ℕ) : Prop := n = 0 ∨ 3 ≤ n

/-- One round of the run loop is a packet, and leaves a run that is `RunOk` again. -/
theorem runRound_packet (hn : 3 ≤ n) :
    ∃ p : Packet, p.raw = [] ∧ runRound n = (p.control, n - p.run) ∧ p.run ≤ n ∧ 0 < p.run ∧
      RunOk (n - p.run) := by
  -- a run of `m` symbols alone, taken from the front of the run
  have htake : ∀ m hm, m ≤ n → RunOk (n - m) →
      runRound n = ((⟨[], m, .inr ⟨rfl, hm⟩⟩ : Packet).control, n - m) →
      ∃ p : Packet, p.raw = [] ∧ runRound n = (p.control, n - p.run) ∧ p.run ≤ n ∧ 0 < p.run ∧
        RunOk (n - p.run) := by
    intro m hm hle hok hround
    exact ⟨⟨[], m, .inr ⟨rfl, hm⟩⟩, rfl, hround, hle, show 0 < m by omega, hok⟩
  by_cases h47 : n > 47
  · by_cases h50 : n < 50
    · refine htake 45 (by omega) (by omega) (.inr (by omega)) ?_
      rw [runRound, if_pos h47, if_pos h50]
      rfl
    · refine htake 47 (by omega) (by omega) (.inr (by omega)) ?_
      rw [runRound, if_pos h47, if_neg h50]
      rfl
  by_cases h15 : n > 15
  · refine htake n (by omega) le_rfl (.inl (by omega)) ?_
    simp only [runRound, if_neg h47, Packet.control, if_neg (show ¬ n ≤ 15 by omega), Nat.sub_self]
    by_cases h31 : n > 31
    · rw [if_pos h31, if_neg (by omega)]
    · rw [if_neg h31, if_pos h15, if_pos (by omega)]
  · refine ⟨⟨[], n, .inl ⟨by simp, by omega, by omega, by omega, by omega⟩⟩, rfl, ?_,
      le_rfl, show 0 < n by omega, .inl (Nat.sub_self n)⟩
    simp only [runRound, Packet.control, if_pos (show n ≤ 15 by omega), Nat.sub_self, length_nil]
    rw [if_neg h47, if_neg (by omega), if_neg h15]

/-- **The run loop** writes packets for the run. -/
theorem writeRunLoop_packets (sym : UInt8) (fuel : ℕ) :
    ∀ n size out, RunOk n → n ≤ fuel → 2 * n ≤ size →
      ∃ ps, writeRunLoop fuel n size out = some (out ++ bytesOf ps) ∧
        expand sym ps = replicate n sym := by
  induction fuel with
  | zero =>
    intro n size out _ hn _
    obtain rfl : n = 0 := by omega
    exact ⟨[], by simp [writeRunLoop], rfl⟩
  | succ fuel ih =>
  intro n size out hok hn hsize
  by_cases h0 : n = 0
  · subst h0
    exact ⟨[], by simp [writeRunLoop], rfl⟩
  have h3 : 3 ≤ n := by
    rcases hok with h | h <;> omega
  obtain ⟨p, hraw, hround, hle, hpos, hok'⟩ := runRound_packet h3
  obtain ⟨ps, hps, hexp⟩ := ih (n - p.run) (size - 1) (out ++ [p.control]) hok' (by omega)
    (by omega)
  refine ⟨p :: ps, ?_, ?_⟩
  · rw [writeRunLoop, if_neg h0, hround]
    simp only
    rw [if_neg (by omega), hps, bytesOf_cons, hraw]
    simp
  have hsym : p.symbols sym = replicate p.run sym := by simp [Packet.symbols, hraw]
  have hlast : (p.symbols sym).getLastD sym = sym := by
    rw [Packet.symbols_getLastD, hraw]
    rfl
  rw [expand_cons, hlast, hexp, hsym, ← replicate_add, Nat.add_sub_cancel' hle]

variable {raw : List UInt8}

/-- One round of the raw loop is a packet of at least one raw byte; it takes part of the run only
when it takes all the raw bytes. -/
theorem rawRound_packet (hraw : raw ≠ []) (hok : RunOk n) :
    ∃ p : Packet, rawRound raw.length n = (p.control, raw.length - p.raw.length, n - p.run) ∧
      p.raw = raw.take p.raw.length ∧ 0 < p.raw.length ∧ p.control.toNat >>> 4 = p.raw.length ∧
      p.run ≤ n ∧ RunOk (n - p.run) ∧ (p.run = 0 ∨ p.raw = raw) := by
  have hpos : 0 < raw.length := length_pos_iff.mpr hraw
  have hctl : ∀ r m : ℕ, r ≤ 15 → m ≤ 15 → (planarControlByte m r).toNat >>> 4 = r := by
    intro r m hr hm
    rw [planarControlByte_toNat hr hm]
    omega
  -- the packet that takes all the raw bytes and `m` symbols of the run
  have hall : ∀ m : ℕ, raw.length < 16 → m ≤ 15 → RunOk m → m ≤ n → RunOk (n - m) →
      rawRound raw.length n = (planarControlByte m raw.length, 0, n - m) →
      ∃ p : Packet, rawRound raw.length n = (p.control, raw.length - p.raw.length, n - p.run) ∧
        p.raw = raw.take p.raw.length ∧ 0 < p.raw.length ∧ p.control.toNat >>> 4 = p.raw.length ∧
        p.run ≤ n ∧ RunOk (n - p.run) ∧ (p.run = 0 ∨ p.raw = raw) := by
    intro m h16 hm hmok hmn hrest hround
    refine ⟨⟨raw, m, .inl ⟨by omega, hm, ?_, ?_, by omega⟩⟩, ?_, ?_, hpos, ?_, hmn, hrest, .inr rfl⟩
    iterate 2 rcases hmok with h | h <;> omega
    · simp only [hround, Packet.control, if_pos hm, Nat.sub_self]
    · simp
    · simp only [Packet.control, if_pos hm]
      exact hctl _ _ (by omega) hm
  by_cases h16 : raw.length < 16
  · by_cases h15 : n > 15
    · by_cases h18 : n < 18
      · refine hall 13 h16 (by omega) (.inr (by omega)) (by omega) (.inr (by omega)) ?_
        simp only [rawRound, if_pos h16, if_pos h15, if_pos h18]
      · refine hall 15 h16 (by omega) (.inr (by omega)) (by omega) (.inr (by omega)) ?_
        simp only [rawRound, if_pos h16, if_pos h15, if_neg h18]
    · refine hall n h16 (by omega) hok le_rfl (.inl (by omega)) ?_
      simp only [rawRound, if_pos h16, if_neg h15, Nat.sub_self]
  have hlen : (raw.take 15).length = 15 := by simp; omega
  refine ⟨⟨raw.take 15, 0, .inl ⟨by omega, by omega, by omega, by omega, by omega⟩⟩, ?_, ?_, ?_,
    ?_, zero_le n, hok, .inl rfl⟩
  · simp only [rawRound, if_neg h16, Packet.control, hlen, Nat.sub_zero, if_pos (Nat.zero_le _)]
  · simp only [hlen]
  · simp only [hlen]
    omega
  · simp only [Packet.control, hlen]
    exact hctl 15 0 (by omega) (by omega)

/-- **The raw loop** writes packets for the raw bytes and the first part of the run. -/
theorem writeRawLoop_packets (tail : List UInt8) (fuel : ℕ) :
    ∀ c raw n size out, raw.length ≤ fuel →
      RunOk n → 2 * (raw.length + n) ≤ size →
      ∃ ps n', writeRawLoop fuel (raw ++ tail) raw.length n size out =
          some (n', size - (bytesOf ps).length, out ++ bytesOf ps) ∧
        n' ≤ n ∧ RunOk n' ∧ expand c ps = raw ++ replicate (n - n') (raw.getLastD c) := by
  induction fuel with
  | zero =>
    intro c raw n size out hlen hok _
    obtain rfl : raw = [] := length_eq_zero_iff.mp (by omega)
    exact ⟨[], n, by simp [writeRawLoop], le_rfl, hok, by simp⟩
  | succ fuel ih =>
  intro c raw n size out hlen hok hsize
  by_cases hnil : raw = []
  · subst hnil
    exact ⟨[], n, by simp [writeRawLoop], le_rfl, hok, by simp⟩
  obtain ⟨p, hround, hraw, hpos, hctl, hrun, hok', hcase⟩ := rawRound_packet hnil hok
  have hsplit : raw = p.raw ++ raw.drop p.raw.length := by
    conv_lhs => rw [← take_append_drop p.raw.length raw, ← hraw]
  have hk : p.raw.length ≤ raw.length := by
    rw [hsplit, length_append]
    omega
  obtain ⟨ps, n', hloop, hle, hokn, hexp⟩ :=
    ih (p.raw.getLastD c) (raw.drop p.raw.length) (n - p.run) (size - 1 - p.raw.length)
      (out ++ p.bytes) (by rw [length_drop]; omega) hok'
      (by rw [length_drop]; omega)
  refine ⟨p :: ps, n', ?_, by omega, hokn, ?_⟩
  · have htake : (raw ++ tail).take p.raw.length = p.raw := by
      rw [take_append_of_le_length hk, ← hraw]
    have hdrop : (raw ++ tail).drop p.raw.length = raw.drop p.raw.length ++ tail :=
      drop_append_of_le_length hk
    have hne : ¬ raw.length = 0 := fun h => hnil (length_eq_zero_iff.mp h)
    rw [writeRawLoop, if_neg hne, hround]
    simp only [hctl]
    rw [if_neg (by omega), if_neg (by omega), htake, hdrop, ← length_drop,
      show p.control :: p.raw = p.bytes from rfl, hloop]
    simp only [bytesOf_cons, length_cons, length_append, Packet.bytes, append_assoc, cons_append]
    rw [show size - 1 - p.raw.length - (bytesOf ps).length =
      size - (p.raw.length + (bytesOf ps).length + 1) by omega]
  · rw [expand_cons, Packet.symbols_getLastD, hexp, Packet.symbols]
    rcases hcase with h0 | hall
    · -- no part of the run was taken: the symbol to repeat is that of the remaining bytes
      rw [h0, replicate_zero, append_nil, ← append_assoc, ← getLastD_append, ← hsplit, Nat.sub_zero]
    -- all raw bytes were taken: what follows continues the run
    rw [hall, drop_length, nil_append, append_assoc,
      show ([] : List UInt8).getLastD (raw.getLastD c) = raw.getLastD c from rfl, ← replicate_add]
    congr 2
    omega

/-- **`freerdp_bitmap_planar_write_rle_bytes`** writes packets for the raw bytes and the run. -/
theorem writeRleBytes_packets (c : UInt8) (raw tail : List UInt8) (n size : ℕ)
    (hpos : 0 < raw.length + n) (hsize : 2 * (raw.length + n) ≤ size) :
    ∃ ps, writeRleBytes (raw ++ replicate n (raw.getLastD c) ++ tail) raw.length n size =
        bytesOf ps ∧ expand c ps = raw ++ replicate n (raw.getLastD c) := by
  have hz : ¬ (raw.length = 0 ∧ n = 0) := by omega
  rw [writeRleBytes, if_neg hz]
  by_cases h3 : n < 3
  · -- a short run is written as raw bytes
    obtain ⟨ps, n', hloop, hle, -, hexp⟩ :=
      writeRawLoop_packets tail (raw.length + n) c (raw ++ replicate n (raw.getLastD c)) 0 size
        [] (by simp) (.inl rfl) (by simpa using hsize)
    obtain rfl : n' = 0 := by omega
    rw [length_append, length_replicate] at hloop
    rw [if_pos h3]
    simp only [hloop]
    exact ⟨ps, rfl, by simpa using hexp⟩
  obtain ⟨ps, n', hloop, hle, hok, hexp⟩ :=
    writeRawLoop_packets (replicate n (raw.getLastD c) ++ tail) raw.length c raw n size []
      le_rfl (.inr (by omega)) hsize
  have hcost := bytesOf_length_le c ps
  rw [hexp, length_append, length_replicate] at hcost
  obtain ⟨qs, hrun, hexp'⟩ := writeRunLoop_packets (raw.getLastD c) n' n'
    (size - (bytesOf ps).length) (bytesOf ps) hok le_rfl (by omega)
  rw [if_neg h3]
  rw [nil_append] at hloop
  simp only [append_assoc, hloop, hrun]
  refine ⟨ps ++ qs, (bytesOf_append ps qs).symm, ?_⟩
  rw [expand_append, hexp, getLastD_append_replicate, hexp', append_assoc,
    ← replicate_add, Nat.sub_add_cancel hle]

/-! ## The writer of a scan line -/

/-- The invariant of the line writer, with `rest` still to be read: the packets written, the
pending raw bytes and the pending run of the last symbol are what was read, and there is room for
two bytes for every symbol not written yet. -/
structure LineInv (line rest : List UInt8) (st : LineState) (ps : List Packet)
    (raw : List UInt8) : Prop where
  out : st.out = bytesOf ps
  cRawBytes : st.cRawBytes = raw.length
  symbol : st.symbol = raw.getLastD ((expand 0 ps).getLastD 0)
  line : line = expand 0 ps ++ (raw ++ List.replicate st.nRunLength st.symbol ++ rest)
  room : 2 * (raw.length + st.nRunLength + rest.length) ≤ st.outBufferSize

variable {line rest : List UInt8} {ps : List Packet}

theorem LineInv.pending (h : LineInv line rest st ps raw) :
    line.drop (line.length - rest.length - (st.cRawBytes + st.nRunLength)) =
      raw ++ replicate st.nRunLength st.symbol ++ rest := by
  have hlen : line.length = (expand 0 ps).length + (raw.length + st.nRunLength + rest.length) := by
    conv_lhs => rw [h.line]
    simp only [length_append, length_replicate]
  have hpos : line.length - rest.length - (st.cRawBytes + st.nRunLength) =
      (expand 0 ps).length := by
    rw [h.cRawBytes]
    omega
  rw [hpos]
  conv_lhs => rw [h.line]
  exact drop_left

/-- Writing out what is pending extends the packets by what is pending. -/
theorem LineInv.write (h : LineInv line rest st ps raw) (hpos : 0 < st.cRawBytes + st.nRunLength) :
    ∃ qs, writeRleBytes (line.drop (line.length - rest.length - (st.cRawBytes + st.nRunLength)))
        st.cRawBytes st.nRunLength st.outBufferSize = bytesOf qs ∧ bytesOf qs ≠ [] ∧
      expand 0 (ps ++ qs) = expand 0 ps ++ (raw ++ replicate st.nRunLength st.symbol) ∧
      (expand 0 (ps ++ qs)).getLastD 0 = st.symbol ∧
      (bytesOf qs).length ≤ 2 * (raw.length + st.nRunLength) := by
  have hroom := h.room
  obtain ⟨qs, hqs, hexp⟩ := writeRleBytes_packets ((expand 0 ps).getLastD 0) raw rest
    st.nRunLength st.outBufferSize (h.cRawBytes ▸ hpos) (by omega)
  rw [← h.symbol] at hqs hexp
  have hall : expand 0 (ps ++ qs) = expand 0 ps ++ (raw ++ replicate st.nRunLength st.symbol) := by
    rw [expand_append, hexp]
  have hcost := bytesOf_length_le ((expand 0 ps).getLastD 0) qs
  rw [hexp, length_append, length_replicate] at hcost
  refine ⟨qs, ?_, ?_, hall, ?_, hcost⟩
  · rw [h.pending, h.cRawBytes, hqs]
  · intro hnil
    have hqnil : qs = [] := length_eq_zero_iff.mp (by
      have := length_le_bytesOf qs
      rw [hnil, length_nil] at this
      omega)
    have hlen : (raw ++ replicate st.nRunLength st.symbol).length = 0 := by
      rw [← hexp, hqnil]
      rfl
    rw [length_append, length_replicate, ← h.cRawBytes] at hlen
    omega
  · rw [hall, getLastD_append, h.symbol, getLastD_append_replicate]

/-- A symbol that ends a run keeps the invariant, and no run of another symbol is pending. -/
theorem flushRun_inv (h : LineInv line (c :: rest) st ps raw) :
    ∃ st' ps' raw', flushRun line (line.length - rest.length) c st = some st' ∧
      LineInv line (c :: rest) st' ps' raw' ∧ (st'.nRunLength = 0 ∨ st'.symbol = c) := by
  unfold flushRun
  by_cases hbreak : st.nRunLength ≠ 0 ∧ st.symbol ≠ c
  · rw [if_pos hbreak]
    by_cases h3 : st.nRunLength < 3
    · rw [if_pos h3]
      refine ⟨_, ps, raw ++ replicate st.nRunLength st.symbol, rfl,
        ⟨h.out, ?_, ?_, ?_, ?_⟩, .inl rfl⟩
      · simp only [length_append, length_replicate, h.cRawBytes]
      · conv_rhs => rw [h.symbol]
        rw [getLastD_append_replicate, ← h.symbol]
      · simpa using h.line
      · simpa using h.room
    obtain ⟨qs, hw, hne, hall, hlast, hcost⟩ := h.write (by omega)
    have hroom := h.room
    have hpos : line.length - (c :: rest).length - (st.cRawBytes + st.nRunLength) =
        line.length - rest.length - (st.cRawBytes + st.nRunLength + 1) := by
      rw [length_cons]
      omega
    rw [hpos] at hw
    rw [if_neg h3]
    simp only [hw]
    rw [if_neg (by
      rintro (hnil | hlong)
      · exact hne hnil
      · omega)]
    refine ⟨_, ps ++ qs, [], rfl, ⟨?_, rfl, ?_, ?_, ?_⟩, .inl rfl⟩
    · simp only [h.out, bytesOf_append]
    · exact hlast.symm
    · simp only [hall]
      simpa using h.line
    · simp only [length_nil]
      omega
  · rw [if_neg hbreak]
    refine ⟨st, ps, raw, rfl, h, ?_⟩
    by_cases h0 : st.nRunLength = 0
    · exact .inl h0
    right
    by_contra hne
    exact hbreak ⟨h0, hne⟩

theorem countSymbol_inv (h : LineInv line (c :: rest) st ps raw)
    (hrun : st.nRunLength = 0 ∨ st.symbol = c) :
    ∃ raw', LineInv line rest (countSymbol c st) ps raw' := by
  have hroom := h.room
  rw [length_cons] at hroom
  unfold countSymbol
  by_cases hc : st.symbol = c
  · rw [if_pos hc]
    refine ⟨raw, h.out, h.cRawBytes, h.symbol, ?_, ?_⟩
    · rw [h.line, ← hc, replicate_succ']
      simp
    · simp only
      omega
  rw [if_neg hc]
  have h0 : st.nRunLength = 0 := by
    rcases hrun with h0 | h1
    · exact h0
    · exact absurd h1 hc
  refine ⟨raw ++ [c], h.out, ?_, ?_, ?_, ?_⟩
  · simp [h.cRawBytes]
  · rw [getLastD_append]
    rfl
  · rw [h.line]
    simp [h0]
  · simp only [length_append, length_singleton]
    omega

/-- **The line writer** from any state of the loop: packets for the whole line. -/
theorem encodeRleLoop_packets (line : List UInt8) (rest : List UInt8) :
    ∀ st ps raw, LineInv line rest st ps raw →
      ∃ qs, encodeRleLoop line rest st = bytesOf qs ∧ expand 0 qs = line := by
  induction rest with
  | nil =>
    intro st ps raw h
    rw [encodeRleLoop, encodeRleEnd]
    by_cases hz : st.cRawBytes + st.nRunLength = 0
    · have hw : ∀ l, writeRleBytes l st.cRawBytes st.nRunLength st.outBufferSize = [] := by
        intro l
        rw [writeRleBytes, if_pos (by omega)]
      simp only [hw]
      rw [if_neg (by omega), append_nil]
      have hraw : raw = [] := length_eq_zero_iff.mp (by
        have := h.cRawBytes
        omega)
      refine ⟨ps, h.out, ?_⟩
      conv_rhs => rw [h.line, hraw, show st.nRunLength = 0 by omega]
      simp
    · obtain ⟨qs, hw, hne, hall, -, -⟩ := h.write (by omega)
      rw [length_nil] at hw
      simp only [hw]
      rw [if_neg (fun hbad => hne hbad.2), if_neg (by omega)]
      refine ⟨ps ++ qs, ?_, ?_⟩
      · rw [h.out, bytesOf_append]
      · conv_rhs => rw [h.line]
        rw [hall, append_nil]
  | cons c rest ih =>
  intro st ps raw h
  obtain ⟨st', ps', raw', hflush, hinv, hrun⟩ := flushRun_inv h
  obtain ⟨raw'', hinv'⟩ := countSymbol_inv hinv hrun
  have hroom : (countSymbol c st').outBufferSize ≠ 0 := by
    have hr := hinv'.room
    have hpend : 0 < raw''.length + (countSymbol c st').nRunLength := by
      rw [← hinv'.cRawBytes]
      unfold countSymbol
      split
      · simp only
        omega
      · simp only
        omega
    omega
  rw [encodeRleLoop, hflush]
  simp only
  rw [if_neg hroom]
  exact ih _ ps' raw'' hinv'

/-- **`freerdp_bitmap_planar_encode_rle_bytes`** writes packets for the line, at most two bytes
for every symbol. -/
theorem encodeRleBytes_packets (line : List UInt8) (size : ℕ) (hline : line ≠ [])
    (hsize : 2 * line.length ≤ size) :
    ∃ ps, encodeRleBytes line size = bytesOf ps ∧ expand 0 ps = line ∧ bytesOf ps ≠ [] ∧
      (bytesOf ps).length ≤ 2 * line.length := by
  have hpos : 0 < line.length := length_pos_iff.mpr hline
  obtain ⟨ps, hps, hexp⟩ := encodeRleLoop_packets line line ⟨0, 0, 0, size, []⟩ [] []
    ⟨rfl, rfl, rfl, rfl, by simpa using hsize⟩
  refine ⟨ps, ?_, hexp, ?_, ?_⟩
  · rw [encodeRleBytes, if_neg (by omega), hps]
  · intro hnil
    have hlen := length_le_bytesOf ps
    rw [hnil, length_nil, le_zero, length_eq_zero_iff] at hlen
    rw [hlen] at hexp
    exact hline hexp.symm
  · have := bytesOf_length_le 0 ps
    rwa [hexp] at this

/-! ## The plane as packets -/

/-- `n` scan lines as packets: the symbols of the plane and its bytes. -/
inductive PlaneCode (width : ℕ) : ℕ → List UInt8 → List UInt8 → Prop
  | nil : PlaneCode width 0 [] []
  | cons {n : ℕ} {plane bytes : List UInt8} (ps : List Packet)
      (len : (expand 0 ps).length = width) (rest : PlaneCode width n plane bytes) :
      PlaneCode width (n + 1) (expand 0 ps ++ plane) (bytesOf ps ++ bytes)

variable {width : ℕ}

/-- **The plane writer** writes the plane as packets, at most two bytes for every symbol. -/
theorem compressLines_planeCode (hw : 0 < width) (n : ℕ) :
    ∀ plane size out, plane.length = width * n →
      2 * (width * n) ≤ size → ∃ bytes, compressLines width n plane size out = some (out ++ bytes) ∧
        PlaneCode width n plane bytes ∧ bytes.length ≤ 2 * (width * n) := by
  induction n with
  | zero =>
    intro plane size out hlen _
    obtain rfl : plane = [] := length_eq_zero_iff.mp (by simpa using hlen)
    exact ⟨[], by simp [compressLines], .nil, by simp⟩
  | succ n ih =>
  intro plane size out hlen hsize
  rw [mul_succ] at hlen hsize
  have htake : (plane.take width).length = width := length_take_of_le (by omega)
  obtain ⟨ps, hps, hexp, hne, hcost⟩ := encodeRleBytes_packets (plane.take width) size
    (length_pos_iff.mp (by omega)) (by omega)
  obtain ⟨bytes, hbytes, hcode, hle⟩ := ih (plane.drop width) (size - (bytesOf ps).length)
    (out ++ bytesOf ps) (by rw [length_drop]; omega) (by omega)
  refine ⟨bytesOf ps ++ bytes, ?_, ?_, ?_⟩
  · rw [compressLines, if_pos (by omega)]
    simp only [hps]
    rw [if_neg (by
      rintro (hnil | hlong)
      · exact hne hnil
      · omega), hbytes, append_assoc]
  · have h := PlaneCode.cons ps (by rw [hexp, htake]) hcode
    rwa [hexp, take_append_drop] at h
  · rw [length_append, mul_succ]
    omega

/-! ## The measuring reader -/

/-- **A line of packets** is measured at its length. -/
theorem skipLine_packets (hsrc : src.length < 2 ^ 32) (hwidth : nWidth < 2 ^ 32)
    (ps : List Packet) : ∀ c fuel x used, src.drop used = bytesOf ps ++ rest → used ≤ src.length →
      x + (expand c ps).length = nWidth → ps.length < fuel →
      skipLine src nWidth fuel x used = some (used + (bytesOf ps).length) := by
  induction ps with
  | nil =>
    intro c fuel x used _ _ hx hfuel
    obtain ⟨fuel, rfl⟩ := exists_eq_succ_of_ne_zero (show fuel ≠ 0 by
      omega)
    rw [skipLine, if_neg (by simpa using hx.ge)]
    rfl
  | cons p ps ih =>
  intro c fuel x used hdrop hused hx hfuel
  obtain ⟨fuel, rfl⟩ := exists_eq_succ_of_ne_zero (show fuel ≠ 0 by omega)
  rw [length_cons, succ_lt_succ_iff] at hfuel
  rw [expand_cons, length_append, Packet.symbols_length] at hx
  rw [bytesOf_cons, cons_append] at hdrop
  have hlen : src.length - used = p.raw.length + (bytesOf ps).length + rest.length + 1 := by
    rw [← length_drop, hdrop]
    simp only [length_cons, length_append]
  have hpos : 0 < p.raw.length + p.run := by
    rcases p.valid with hv | ⟨-, hv, -⟩
    · exact hv.2.2.2.2
    · omega
  have hget : src[used]? = some p.control := by
    rw [← List.head?_drop, hdrop]
    rfl
  have hnext : src.drop (used + 1 + p.raw.length) = bytesOf ps ++ rest := by
    rw [← drop_drop, ← drop_drop, hdrop, drop_one, tail_cons, append_assoc, drop_left]
  have hu : uint32 (used + 1 + p.raw.length) = used + 1 + p.raw.length := mod_eq_of_lt (by omega)
  have hxu : uint32 (x + p.raw.length + p.run) = x + p.raw.length + p.run := mod_eq_of_lt (by omega)
  rw [skipLine, if_pos (by omega), hget]
  simp only [readControlByte_control, hu]
  rw [if_neg (by omega), if_neg (by omega),
    ih ((p.symbols c).getLastD c) fuel _ _ hnext (by omega) (by omega) hfuel]
  congr 1
  simp only [bytesOf_cons, length_cons, length_append]
  omega

variable {plane bytes : List UInt8}

/-- **A plane of packets** is measured at its length. -/
theorem skipLines_planeCode (hsrc : src.length < 2 ^ 32) (hwidth : nWidth < 2 ^ 32)
    (h : PlaneCode nWidth n plane bytes) :
    ∀ used, src.drop used = bytes ++ rest → used ≤ src.length →
      skipLines src nWidth n used = some (used + bytes.length) := by
  induction h with
  | nil => intro used _ _; rfl
  | @cons n plane bytes ps len _ ih =>
  intro used hdrop hused
  rw [append_assoc] at hdrop
  have hlen : src.length - used = (bytesOf ps).length + (bytes.length + rest.length) := by
    rw [← length_drop, hdrop, length_append, length_append]
  have hfuel := Nat.le_mul_of_pos_left (src.length + 1) (show 0 < nWidth + 1 by omega)
  have hline := skipLine_packets hsrc hwidth ps 0 ((nWidth + 1) * (src.length + 1))
    0 used hdrop hused (by rw [len, zero_add]) (by
      have := length_le_bytesOf ps
      omega)
  have hnext : src.drop (used + (bytesOf ps).length) = bytes ++ rest := by
    rw [← drop_drop, hdrop, drop_left]
  rw [skipLines, hline]
  simp only
  rw [ih _ hnext (by omega), length_append, add_assoc]

/-! ## The decoding reader -/

/-- The bytes a list of symbols stands for, from column `x` on. -/
def render (previousScanline : Option (List UInt8)) : ℕ → List UInt8 → List UInt8
  | _, [] => []
  | x, s :: syms =>
    storedPixel previousScanline x (rawPixel previousScanline s) ::
      render previousScanline (x + 1) syms

variable (prev : Option (List UInt8))

@[simp] theorem render_length (x syms) : (render prev x syms).length = syms.length := by
  induction syms generalizing x with
  | nil => rfl
  | cons s syms ih => rw [render, length_cons, length_cons, ih]

theorem render_append (x a b) :
    render prev x (a ++ b) = render prev x a ++ render prev (x + a.length) b := by
  induction a generalizing x with
  | nil => rfl
  | cons s a ih =>
      rw [cons_append, render, render, ih, cons_append, length_cons, add_assoc, add_comm 1]

/-- The raw loop renders its bytes and remembers the last one. -/
theorem decodeRaw_eq (c raw line) : decodeRaw prev raw line (rawPixel prev c) =
      (line ++ render prev line.length raw, rawPixel prev (raw.getLastD c)) := by
  induction raw generalizing line c with
  | nil => simp [decodeRaw, render]
  | cons b raw ih =>
  rw [decodeRaw, ih b, getLastD_cons, append_assoc, length_append]
  rfl

theorem decodeRun_eq (s n line) :
    decodeRun prev (rawPixel prev s) n line = line ++ render prev line.length (replicate n s) := by
  induction n generalizing line with
  | zero => simp [decodeRun, render]
  | succ n ih =>
  rw [decodeRun, ih, replicate_succ, render]
  simp

theorem decodeLine_full
    (h : nWidth ≤ line.length) : decodeLine prev nWidth fuel src line pixel = some (line, src) := by
  cases fuel with
  | zero => rfl
  | succ fuel =>
  cases src with
  | nil | cons b src => rw [decodeLine, if_neg (by omega)]

/-- **A line of packets** is decoded to its rendered symbols. -/
theorem decodeLine_packets (rest : List UInt8) (ps : List Packet) :
    ∀ c fuel line, line.length + (expand c ps).length = nWidth →
      ps.length < fuel → decodeLine prev nWidth fuel (bytesOf ps ++ rest) line (rawPixel prev c) =
        some (line ++ render prev line.length (expand c ps), rest) := by
  induction ps with
  | nil =>
    intro c fuel line hlen _
    rw [decodeLine_full prev (by simpa using hlen.ge)]
    simp [render]
  | cons p ps ih =>
  intro c fuel line hlen hfuel
  obtain ⟨fuel, rfl⟩ := exists_eq_succ_of_ne_zero (show fuel ≠ 0 by omega)
  rw [length_cons, succ_lt_succ_iff] at hfuel
  rw [expand_cons, length_append, Packet.symbols_length] at hlen
  have hpos : 0 < p.raw.length + p.run := by
    rcases p.valid with hv | ⟨-, hv, -⟩
    · exact hv.2.2.2.2
    · omega
  have hshort : ¬ (p.raw ++ (bytesOf ps ++ rest)).length < p.raw.length := by
    rw [length_append]
    omega
  -- the line after the packet
  have hline : decodeRun prev (rawPixel prev (p.raw.getLastD c)) p.run
      (line ++ render prev line.length p.raw) = line ++ render prev line.length (p.symbols c) := by
    rw [decodeRun_eq, Packet.symbols, render_append, length_append, render_length, append_assoc]
  rw [bytesOf_cons, cons_append, append_assoc, decodeLine, if_pos (by omega)]
  simp only [readControlByte_control]
  rw [if_neg (by omega), if_neg hshort, take_left, drop_left, decodeRaw_eq]
  rw [hline, ih (p.raw.getLastD c) fuel _ _ hfuel]
  · rw [expand_cons, render_append, Packet.symbols_getLastD, append_assoc,
      length_append, render_length]
  · rw [length_append, render_length, Packet.symbols_length, ← Packet.symbols_getLastD]
    omega

theorem rawPixel_zero : rawPixel prev 0 = 0 := by
  cases prev <;> rfl

/-! ## The delta transform is undone -/

theorem unfoldDelta_eq (b) :
    unfoldDelta b = if b.toNat % 2 = 1 then -((b.toNat / 2 + 1 : ℕ) : ℤ)
    else (b.toNat / 2 : ℕ) := by
  have h : ∀ n : Fin 256, unfoldDelta (UInt8.ofNat n) =
      if n.val % 2 = 1 then -((n.val / 2 + 1 : ℕ) : ℤ) else (n.val / 2 : ℕ) := by decide +kernel
  simpa using h ⟨b.toNat, b.toNat_lt⟩

/-- Folding the sign of a signed byte is undone by the reader. -/
theorem unfoldDelta_fold (hlo : -128 ≤ m) (hhi : m < 128) :
    unfoldDelta (UInt8.ofNat (if m ≥ 0 then 2 * m else 2 * -m - 1).toNat) = m := by
  have hlt : (if m ≥ 0 then 2 * m else 2 * -m - 1).toNat < UInt8.size := by
    rw [UInt8.size]
    split <;> omega
  rw [unfoldDelta_eq, UInt8.toNat_ofNat_of_lt' hlt]
  split <;> split <;> omega

/-- A folded difference added to the byte above gives the byte back. -/
theorem clamp_deltaByte (src prevByte) :
    clamp (prevByte.toNat + unfoldDelta (deltaByte src prevByte)) = src := by
  have h1 := src.toNat_lt
  have hmax : intMax = 2 ^ 31 - 1 := rfl
  simp only [deltaByte]
  rw [unfoldDelta_fold (Int.le_bmod (by omega)) (Int.bmod_lt (by omega))]
  apply UInt8.toNat_inj.mp
  rw [clamp, UInt8.toNat_ofNat_of_lt' (by rw [UInt8.size]; omega), Int.bmod_def]
  split <;> split <;> omega

theorem render_none (x syms) : render none x syms = syms := by
  induction syms generalizing x with
  | nil => rfl
  | cons s syms ih =>
  have hs : storedPixel none x (rawPixel none s) = s := by
    apply UInt8.toNat_inj.mp
    have h := s.toNat_lt
    simp only [storedPixel, rawPixel, clamp]
    rw [UInt8.toNat_ofNat_of_lt' (by rw [UInt8.size]; omega)]
    omega
  rw [render, hs, ih]

theorem render_zipWith_deltaByte (prevLine line) : ∀ x, x + line.length ≤ prevLine.length →
      render (some prevLine) x (zipWith deltaByte line (prevLine.drop x)) = line := by
  induction line with
  | nil => intro x _; rfl
  | cons s line ih =>
  intro x hx
  rw [length_cons] at hx
  have hlt : x < prevLine.length := by omega
  have hs : storedPixel (some prevLine) x (rawPixel (some prevLine) (deltaByte s prevLine[x])) =
      s := by
    simp only [storedPixel, getD_eq_getElem?_getD, List.getElem?_eq_getElem hlt]
    exact clamp_deltaByte s prevLine[x]
  rw [drop_eq_getElem_cons hlt, zipWith_cons_cons, render, hs, ih (x + 1) (by omega)]

theorem PlaneCode.succ_inv
    (h : PlaneCode width (n + 1) (line ++ plane) bytes) (hline : line.length = width) :
    ∃ ps bytes', bytes = bytesOf ps ++ bytes' ∧ expand 0 ps = line ∧
    PlaneCode width n plane bytes' := by
  generalize hall : line ++ plane = all at h
  cases h with
  | @cons _ plane' bytes' ps len rest =>
  obtain ⟨h1, h2⟩ := append_inj hall (hline.trans len.symm)
  subst h1 h2
  exact ⟨ps, bytes', rfl, rfl, rest⟩

theorem decodeLine_code (hlen : (expand 0 ps).length = nWidth) :
    decodeLine prev nWidth ((bytesOf ps ++ rest).length + 1) (bytesOf ps ++ rest) [] 0 =
      some (render prev 0 (expand 0 ps), rest) := by
  have hfuel : ps.length < (bytesOf ps ++ rest).length + 1 := by
    have := length_le_bytesOf ps
    rw [length_append]
    omega
  have h := decodeLine_packets prev rest ps 0 _ [] (by simpa using hlen) hfuel
  rwa [rawPixel_zero] at h

/-- **The lines after the first** are decoded to the plane their differences came from. -/
theorem decodeLines_deltaEncodeLines (n : ℕ) :
    ∀ prevLine plane bytes rest dst, prevLine.length = width →
      plane.length = width * n → PlaneCode width n (deltaEncodeLines width n prevLine plane) bytes →
      decodeLines width n (some prevLine) (bytes ++ rest) dst = some (dst ++ plane, rest) := by
  induction n with
  | zero =>
    intro prevLine plane bytes rest dst _ hlen hcode
    obtain rfl : plane = [] := length_eq_zero_iff.mp (by simpa using hlen)
    cases hcode
    simp [decodeLines]
  | succ n ih =>
  intro prevLine plane bytes rest dst hprev hlen hcode
  rw [mul_succ] at hlen
  have htake : (plane.take width).length = width := length_take_of_le (by omega)
  obtain ⟨ps, bytes', rfl, hexp, hrest⟩ := PlaneCode.succ_inv hcode (by
    rw [length_zipWith, htake, hprev, min_self])
  have hren : render (some prevLine) 0 (expand 0 ps) = plane.take width := by
    rw [hexp]
    exact render_zipWith_deltaByte prevLine (plane.take width) 0 (by omega)
  rw [append_assoc, decodeLines, decodeLine_code _ (by
    rw [hexp, length_zipWith, htake, hprev, min_self]), hren]
  simp only
  rw [ih (plane.take width) (plane.drop width) bytes' rest (dst ++ plane.take width) htake
    (by rw [length_drop]; omega) hrest, append_assoc, take_append_drop]

theorem deltaEncodeLines_length (n prevLine plane)
    (hprev : prevLine.length = width) (hlen : plane.length = width * n) :
    (deltaEncodeLines width n prevLine plane).length = width * n := by
  induction n generalizing prevLine plane with
  | zero => rfl
  | succ n ih =>
  rw [mul_succ] at hlen ⊢
  have htake : (plane.take width).length = width := length_take_of_le (by omega)
  rw [deltaEncodeLines, length_append, length_zipWith, htake, hprev, min_self,
    ih _ _ htake (by rw [length_drop]; omega), add_comm]

/-! ## The round trip of a plane -/

variable {height : ℕ}

theorem deltaEncodePlane_length (hh : 1 ≤ height) (hlen : plane.length = width * height) :
    (freerdpBitmapPlanarDeltaEncodePlane plane width height).length = width * height := by
  obtain ⟨n, rfl⟩ := Nat.exists_eq_add_of_le' hh
  rw [mul_succ] at hlen
  have htake : (plane.take width).length = width := length_take_of_le (by omega)
  rw [freerdpBitmapPlanarDeltaEncodePlane, length_append, Nat.add_sub_cancel,
    deltaEncodeLines_length n _ _ htake (by rw [length_drop]; omega), htake, mul_succ, add_comm]

/-- The measuring reader on a plane code: its length, as far as an `INT32` can tell. -/
theorem planarSkipPlaneRle_planeCode
    (h : PlaneCode width height plane bytes) (hwidth : width < 2 ^ 32)
    (hbytes : bytes.length < 2 ^ 32) : planarSkipPlaneRle bytes width height =
      if bytes.length ≤ int32Max then (bytes.length : ℤ) else -1 := by
  have hskip := skipLines_planeCode hbytes hwidth h 0 (append_nil bytes).symm (zero_le _)
  rw [zero_add] at hskip
  rw [planarSkipPlaneRle, hskip]
  simp only
  by_cases hle : bytes.length ≤ int32Max
  · rw [if_pos hle, if_neg (by omega)]
  · rw [if_neg hle, if_pos (by omega)]

/-- The decoding reader on the code of a plane's differences. -/
theorem planarDecompressPlaneRleOnly_planeCode
    (hh : 1 ≤ height) (hlen : plane.length = width * height) (hw : width ≤ int32Max)
    (hmax : height ≤ int32Max)
    (h : PlaneCode width height (freerdpBitmapPlanarDeltaEncodePlane plane width height) bytes) :
    planarDecompressPlaneRleOnly bytes width height = some (toInt32 bytes.length, plane) := by
  obtain ⟨n, rfl⟩ := Nat.exists_eq_add_of_le' hh
  rw [mul_succ] at hlen
  have htake : (plane.take width).length = width := length_take_of_le (by omega)
  obtain ⟨ps, bytes', rfl, hexp, hrest⟩ := PlaneCode.succ_inv h htake
  have hdec : decodeLines width (n + 1) none (bytesOf ps ++ bytes') [] = some (plane, []) := by
    have hrec := decodeLines_deltaEncodeLines n (plane.take width) (plane.drop width) bytes' []
      (plane.take width) htake (by rw [length_drop]; omega) hrest
    rw [append_nil, take_append_drop] at hrec
    rw [decodeLines, decodeLine_code _ (by rw [hexp, htake]), render_none, hexp]
    exact hrec
  rw [planarDecompressPlaneRleOnly, if_neg (by omega), hdec]
  simp

/-- **The plane codec is lossless.** For every plane and every output capacity of at least two
bytes for each of its bytes, the delta transform followed by the run-length writer succeeds; the
decoding reader gives the plane back, and the measuring reader tells the length of the code up to
the largest `INT32` and refuses a longer one. -/
theorem planar_plane_lossless (width height : ℕ) (plane : List UInt8) (dstSize : UInt32)
    (hw : 1 ≤ width) (hh : 1 ≤ height) (hlen : plane.length = width * height)
    (hcap : 2 * width * height ≤ dstSize.toNat) :
    ∃ bytes, compressPlaneRle (freerdpBitmapPlanarDeltaEncodePlane plane width height) width height
        dstSize = some bytes ∧
      planarSkipPlaneRle bytes width height =
        (if bytes.length ≤ int32Max then (bytes.length : ℤ) else -1) ∧
      planarDecompressPlaneRleOnly bytes width height = some (toInt32 bytes.length, plane) := by
  have hdst := dstSize.toNat_lt
  rw [mul_assoc] at hcap
  -- with two bytes of room for every byte of the plane the writer succeeds
  obtain ⟨bytes, hbytes, hcode, hle⟩ := compressLines_planeCode hw height
    (freerdpBitmapPlanarDeltaEncodePlane plane width height) dstSize.toNat []
    (deltaEncodePlane_length hh hlen) hcap
  have hmaxw : width ≤ width * height := Nat.le_mul_of_pos_right width hh
  have hmaxh : height ≤ width * height := Nat.le_mul_of_pos_left height hw
  have hint : int32Max = 2 ^ 31 - 1 := rfl
  refine ⟨bytes, ?_, ?_, ?_⟩
  · rw [compressPlaneRle, max_eq_left hh, hbytes, nil_append]
  · exact planarSkipPlaneRle_planeCode hcode (by omega) (by omega)
  · exact planarDecompressPlaneRleOnly_planeCode hh hlen (by omega) (by omega) hcode

/-- A plane of two lines. -/
theorem planar_plane_lossless_two_lines :
    ∃ bytes, compressPlaneRle (freerdpBitmapPlanarDeltaEncodePlane [5, 5, 7, 250] 2 2) 2 2 8 =
        some bytes ∧
      planarSkipPlaneRle bytes 2 2 = (if bytes.length ≤ int32Max then (bytes.length : ℤ) else -1) ∧
      planarDecompressPlaneRleOnly bytes 2 2 = some (toInt32 bytes.length, [5, 5, 7, 250]) :=
  planar_plane_lossless 2 2 [5, 5, 7, 250] 8 (by decide) (by decide) (by decide) (by decide)

theorem PlaneCode.length_of_width_one (h : PlaneCode 1 n plane bytes) : bytes.length = 2 * n := by
  induction h with
  | nil => rfl
  | @cons n plane bytes ps len _ ih =>
  have hps : (bytesOf ps).length = 2 := by
    rcases ps with _ | ⟨p, ps⟩
    · simp at len
    have hcost := bytesOf_length_le ((p.symbols 0).getLastD 0) ps
    rw [expand_cons, length_append, Packet.symbols_length] at len
    rw [bytesOf_cons, length_cons, length_append]
    rcases p.valid with ⟨-, -, h1, h2, h3⟩ | ⟨-, h16, -⟩ <;> omega
  rw [length_append]
  omega

/-- The measuring reader refuses the code of a plane of `2 ^ 30` lines of one byte, which is
longer than the largest `INT32`. -/
theorem planarSkipPlaneRle_refuses_long_plane : ∃ bytes, compressPlaneRle
        (freerdpBitmapPlanarDeltaEncodePlane (List.replicate (2 ^ 30) 0) 1 (2 ^ 30)) 1 (2 ^ 30)
        (UInt32.ofNat (2 ^ 31)) = some bytes ∧
      planarSkipPlaneRle bytes 1 (2 ^ 30) ≠ bytes.length := by
  have hcap : (UInt32.ofNat (2 ^ 31)).toNat = 2 ^ 31 := by decide
  obtain ⟨bytes, hbytes, hcode, -⟩ := compressLines_planeCode one_pos (2 ^ 30) _ (2 ^ 31) []
    (deltaEncodePlane_length (by omega) (show (replicate (2 ^ 30) 0).length = _ by
      rw [length_replicate, one_mul])) (by omega)
  have hlen := hcode.length_of_width_one
  refine ⟨bytes, by rw [compressPlaneRle, max_eq_left (show 1 ≤ 2 ^ 30 by omega), hcap,
    hbytes, nil_append], ?_⟩
  rw [planarSkipPlaneRle_planeCode hcode (by omega) (by omega), if_neg (by rw [int32Max]; omega)]
  omega

end WBFreeRDP.Planar

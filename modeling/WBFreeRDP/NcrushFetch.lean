/-
# The bit reader of the NCRUSH receiver

`ncrush_decompress` drops the bits of a code or of extra bits and then calls `NCrushFetchBits`,
which loads two bytes, the last byte or none.  It only fails there, when more bits were dropped than
the packet has.
-/
import WBFreeRDP.NcrushRounds

namespace WBFreeRDP.Ncrush

open Bulk History LowBits List Nat Option

/-! ## The bits of a round -/

/-- The reader when `n` bits were dropped and others not yet fetched. -/
def Reader.dropped (r : Reader) (n : ℕ) : Reader :=
  { r with bits := r.bits >>> n, nbits := r.nbits - n }

/-- Bits are dropped and others fetched, several times. -/
def Reader.skips : Reader → List ℕ → Option Reader
  | r, [] => some r
  | r, w :: ws => (r.skip w).bind fun r => r.skips ws

/-- The readers that `NCrushFetchBits` is called on meanwhile. -/
def Reader.fetches : Reader → List ℕ → List Reader
  | _, [] => []
  | r, w :: ws =>
    r.dropped w ::
      match r.skip w with
      | none => []
      | some r => r.fetches ws

/-- The bits that `readLength` drops.  The mask gives an index of the table. -/
def lengthSkips (r : Reader) : List ℕ :=
  let entry := huffTableLOM (r.bits &&& maskOf 9)
  entry >>> 12 ::
    if entry &&& 0xFFF ≥ 30 ∨ lomBits.getD (entry &&& 0xFFF) 0 = 0 then []
    else [lomBits.getD (entry &&& 0xFFF) 0]

/-- The bits that `readOffset` drops.  No class has more extra bits than there are masks. -/
def offsetSkips (copyOffsetIndex : ℕ) : List ℕ :=
  if copyOffsetBits.getD copyOffsetIndex 0 = 0 then [] else [copyOffsetBits.getD copyOffsetIndex 0]

/-- The bits that a round drops, as long as there are bits. -/
def roundSkips (st : Receiving) : List ℕ :=
  let entry := huffTableLEC (st.input.bits &&& maskOf 13)
  let indexLEC := entry &&& 0xFFF
  entry >>> 12 ::
    match st.input.skip (entry >>> 12) with
    | none => []
    | some r =>
      if indexLEC ≤ 256 then []
      else if indexLEC - 257 ≥ 32 then
        if indexLEC - 289 ≥ 4 then [] else lengthSkips r
      else
        offsetSkips (indexLEC - 257) ++
          match readOffset r (indexLEC - 257) with
          | none => []
          | some (_, r) => lengthSkips r

variable {r : Reader}

/-- The reader goes on after one list of bits with the next. -/
theorem Reader.skips_append (h : r.skips ws = some r1) : r.skips (ws ++ vs) = r1.skips vs := by
  induction ws generalizing r with
  | nil =>
    cases h
    rfl
  | cons w ws ih =>
  obtain ⟨r2, hskip, hrest⟩ := bind_eq_some_iff.mp h
  rw [cons_append, Reader.skips, hskip, bind_some, ih hrest]

theorem Reader.skips_single (r : Reader) (w) : r.skips [w] = r.skip w := by
  exact bind_fun_some (r.skip w)

/-- **The bits of a length.** -/
theorem readLength_skips (h : readLength r = some (l, r')) : r.skips (lengthSkips r) = some r' := by
  simp only [readLength] at h
  simp only [lengthSkips]
  generalize r.bits &&& maskOf 9 = maskedBits at h ⊢
  generalize huffTableLOM maskedBits = entry at h ⊢
  generalize entry &&& 0xFFF = lengthOfMatch at h ⊢
  by_cases hlarge : maskedBits ≥ 512
  · rw [if_pos hlarge] at h
    cases h
  rw [if_neg hlarge] at h
  obtain ⟨r1, hskip, h⟩ := bind_eq_some_iff.mp h
  simp only [Reader.skips, hskip, bind_some]
  split_ifs at h with h30 hbits hidx
  · obtain ⟨r2, hskip2, hval⟩ := map_eq_some_iff.mp h
    cases hval
    rw [if_neg (by tauto), Reader.skips_single, hskip2]
  · cases h
    rw [if_pos (by tauto)]
    rfl

/-- **The bits of an offset.** -/
theorem readOffset_skips (h : readOffset r i = some (c, r')) :
    r.skips (offsetSkips i) = some r' := by
  simp only [readOffset] at h
  unfold offsetSkips
  split_ifs at h with hbits hidx hone
  · obtain ⟨r1, hskip, hval⟩ := map_eq_some_iff.mp h
    cases hval
    rw [if_neg hbits, Reader.skips_single, hskip]
  · cases h
    rw [if_pos (not_not.mp hbits)]
    rfl

theorem decompressCopy_input (historyEnd : ℕ) (st) (c l) :
    (decompressCopy historyEnd st c l).2.input = st.input := by
  unfold decompressCopy
  simp only
  split_ifs <;> rfl

variable {historyEnd : ℕ} {st : Receiving}

/-- **The bits of a round** that does not fail. -/
theorem decompressStep_skips {next}
    (h : decompressStep historyEnd st = (next, st')) (hok : ∀ status, next ≠ .failed status) :
    st.input.skips (roundSkips st) = some st'.input := by
  simp only [decompressStep] at h
  simp only [roundSkips, Reader.skips]
  generalize st.input.bits &&& maskOf 13 = maskedBits at h ⊢
  generalize huffTableLEC maskedBits = entry at h ⊢
  by_cases hlarge : maskedBits ≥ 8192
  · rw [if_pos hlarge] at h
    cases h
    exact absurd rfl (hok (-1))
  rw [if_neg hlarge] at h
  rcases hskip : st.input.skip (entry >>> 12) with _ | r
  · rw [hskip] at h
    cases h
    exact absurd rfl (hok (-1))
  rw [hskip] at h
  simp only [bind_some] at h ⊢
  generalize entry &&& 0xFFF = indexLEC at h ⊢
  by_cases hlit : indexLEC < 256
  · rw [if_pos (by omega)]
    split_ifs at h
    · cases h
      exact absurd rfl (hok (-1003))
    · cases h
      rfl
  rw [if_neg hlit] at h
  by_cases hend : indexLEC = 256
  · rw [if_pos hend] at h
    cases h
    rw [if_pos (by omega)]
    rfl
  rw [if_neg hend] at h
  rw [if_neg (by omega)]
  -- a copy token: the offset, unless it is cached, and the length
  have hinput (st1 : Receiving) (c l : ℕ)
      (h : decompressCopy historyEnd st1 c l = (next, st')) : st1.input = st'.input := by
    rw [← decompressCopy_input historyEnd st1 c l, h]
  unfold decompressMatch at h
  by_cases h32 : indexLEC - 257 ≥ 32
  · rw [if_pos h32] at h ⊢
    by_cases h4 : indexLEC - 289 ≥ 4
    · rw [if_pos h4] at h
      cases h
      exact absurd rfl (hok (-1004))
    rw [if_neg h4] at h ⊢
    cases hlength : readLength r with
    | none =>
      rw [hlength] at h
      cases h
      exact absurd rfl (hok (-1))
    | some p =>
    rw [hlength] at h
    rw [readLength_skips hlength, ← hinput _ _ _ h]
  rw [if_neg h32] at h ⊢
  rcases hoffset : readOffset r (indexLEC - 257) with _ | p
  · simp only [hoffset] at h
    cases h
    exact absurd rfl (hok (-1))
  simp only [hoffset] at h ⊢
  rw [Reader.skips_append (readOffset_skips hoffset)]
  cases hlength : readLength p.2 with
  | none =>
    rw [hlength] at h
    cases h
    exact absurd rfl (hok (-1))
  | some q =>
  rw [hlength] at h
  rw [readLength_skips hlength, ← hinput _ _ _ h]

/-! ## How many bits -/

/-- Every code of the literal and offset code has a bit at least. -/
theorem huffTableLEC_check : ∀ a < 128, ∀ b < 64, 0 < huffTableLEC (64 * a + b) >>> 12 := by
  decide +kernel

theorem huffTableLEC_pos (hi : i < 8192) : 0 < huffTableLEC i >>> 12 := by
  have := huffTableLEC_check (i / 64) (by omega) (i % 64) (by omega)
  rwa [div_add_mod] at this

theorem packedEntry_width {packed size i} : packedEntry 16 packed size i >>> 12 ≤ 15 := by
  have hlt : packedEntry 16 packed size i < 2 ^ 16 := mod_lt _ (Nat.two_pow_pos 16)
  omega

theorem lengthSkips_le (h : w ∈ lengthSkips r) : w ≤ 15 := by
  simp only [lengthSkips, mem_cons] at h
  rcases h with rfl | h
  · exact packedEntry_width
  split_ifs at h with hnone
  · cases h
  rw [mem_singleton] at h
  have := lomBits_le (huffTableLOM (r.bits &&& maskOf 9) &&& 0xFFF) (by omega)
  omega

theorem offsetSkips_le (hi : i < 32) (h : w ∈ offsetSkips i) : w ≤ 15 := by
  unfold offsetSkips at h
  split_ifs at h with hnone
  · cases h
  rw [mem_singleton] at h
  have := copyOffsetBits_le i hi
  omega

/-- **No more than 15 bits are dropped at a time.** -/
theorem roundSkips_le (h : w ∈ roundSkips st) : w ≤ 15 := by
  simp only [roundSkips, mem_cons] at h
  rcases h with rfl | h
  · exact packedEntry_width
  split at h
  · cases h
  split_ifs at h with hend h32 h4
  · cases h
  · cases h
  · exact lengthSkips_le h
  · rcases mem_append.mp h with h | h
    · exact offsetSkips_le (not_le.mp h32) h
    split at h
    · cases h
    · exact lengthSkips_le h

def roundWidth (st : Receiving) : ℕ := (roundSkips st).sum

/-- **A round drops a bit at least.** -/
theorem roundWidth_pos (st : Receiving) : 0 < roundWidth st := by
  have := huffTableLEC_pos (and_maskOf_lt st.input.bits (show 13 < 17 by omega))
  simp only [roundWidth, roundSkips, sum_cons]
  omega

/-! ## The reader -/

/-- What holds of the reader of a packet of `size` bytes after a successful fetch, when `consumed`
bits were dropped. -/
structure Loaded (size consumed : ℕ) (r : Reader) : Prop where
  full : 16 ≤ r.nbits ∨ r.src = []
  nonneg : 0 ≤ r.nbits
  balance : consumed + r.nbits + 8 * r.src.length = 8 * size

theorem loaded_start {src : List UInt8} (h : 4 ≤ src.length) :
    Loaded src.length 0 ⟨src.drop 4, 32, bytesNat (src.take 4)⟩ := by
  refine ⟨Or.inl (show (16 : ℤ) ≤ 32 by decide), show (0 : ℤ) ≤ 32 by decide, ?_⟩
  rw [length_drop]
  push_cast
  omega

variable {size consumed : ℕ}

/-- What `NCrushFetchBits` is called with: bits are missing only where no input is left. -/
theorem Loaded.dropped (h : Loaded size consumed r)
    (hw : w ≤ 15) : (r.dropped w).src ≠ [] → 0 ≤ (r.dropped w).nbits := by
  intro hsrc
  change 0 ≤ r.nbits - w
  rcases h.full with hfull | hempty
  · omega
  · exact absurd hempty hsrc

/-- **A fetch** fails on a negative number of bits and otherwise leaves 16 bits or no input. -/
theorem Loaded.skip (h : Loaded size consumed r)
    (hw : w ≤ 15) (hskip : r.skip w = some r') : Loaded size (consumed + w) r' := by
  have hdropped := h.dropped hw
  have hbalance := h.balance
  change (r.dropped w).fetchBits = some r' at hskip
  have hnbits : (r.dropped w).nbits = r.nbits - w := rfl
  have hsrc : (r.dropped w).src = r.src := rfl
  rw [← hsrc] at hbalance
  generalize r.dropped w = d at hskip hdropped hnbits hbalance
  unfold Reader.fetchBits at hskip
  split at hskip
  · next hlow =>
      split at hskip
      · next hempty =>
          split at hskip
          · cases hskip
          cases hskip
          refine ⟨Or.inr hempty, by omega, ?_⟩
          push_cast
          omega
      · next b hone =>
          cases hskip
          have := hdropped (by rw [hone]; exact cons_ne_nil b [])
          rw [hone, length_singleton] at hbalance
          refine ⟨Or.inr rfl, by change 0 ≤ d.nbits + 8; omega, ?_⟩
          change ((consumed + w : ℕ) : ℤ) + (d.nbits + 8) + 8 * (0 : ℕ) = _
          omega
      next b b' rest hmany =>
        cases hskip
        have := hdropped (by rw [hmany]; exact cons_ne_nil b (b' :: rest))
        rw [hmany, length_cons, length_cons] at hbalance
        refine ⟨Or.inl ?_, by change 0 ≤ d.nbits + 16; omega, ?_⟩
        · change 16 ≤ d.nbits + 16
          omega
        · change ((consumed + w : ℕ) : ℤ) + (d.nbits + 16) + 8 * (rest.length : ℤ) = _
          omega
  · next hhigh =>
      cases hskip
      refine ⟨Or.inl (by omega), by omega, ?_⟩
      push_cast
      omega

/-- What is asked of a call of `NCrushFetchBits`: with input left it does not shift by a negative
amount, and when it succeeds there are 16 bits or no input. -/
structure FetchOk (d : Reader) : Prop where
  nonneg : d.src ≠ [] → 0 ≤ d.nbits
  full : ∀ r, d.fetchBits = some r → 16 ≤ r.nbits ∨ r.src = []
  fails : d.nbits < 0 → d.src = [] ∧ d.fetchBits = none

theorem Loaded.fetchOk (h : Loaded size consumed r) (hw : w ≤ 15) : FetchOk (r.dropped w) := by
  refine ⟨h.dropped hw, fun r' hfetch => (h.skip hw hfetch).full, fun hneg => ?_⟩
  have hempty : (r.dropped w).src = [] := by
    by_contra hsrc
    have := h.dropped hw hsrc
    omega
  refine ⟨hempty, ?_⟩
  unfold Reader.fetchBits
  rw [if_pos (by omega), hempty]
  exact if_pos hneg

/-- **The fetches of a round**, by induction on the bits that it drops. -/
theorem Loaded.skips (hws : ∀ w ∈ ws, w ≤ 15) : ∀ {consumed} {r}, Loaded size consumed r →
      (∀ d ∈ r.fetches ws, FetchOk d ∧ (d.fetchBits = none → r.skips ws = none)) ∧
      ∀ r', r.skips ws = some r' → Loaded size (consumed + ws.sum) r' := by
  induction ws with
  | nil =>
    intro consumed r h
    refine ⟨nofun, fun r' hr' => ?_⟩
    cases hr'
    exact h
  | cons w ws ih =>
  intro consumed r h
  have hw := hws w mem_cons_self
  have hrest (v : ℕ) (hv : v ∈ ws) : v ≤ 15 := hws v (mem_cons_of_mem w hv)
  have hfetch : (r.dropped w).fetchBits = r.skip w := rfl
  rw [Reader.fetches, Reader.skips]
  rcases hskip : r.skip w with _ | r1
  · refine ⟨fun d hd => ?_, fun r' hr' => by cases hr'⟩
    rw [mem_singleton] at hd
    exact hd ▸ ⟨h.fetchOk hw, fun _ => rfl⟩
  obtain ⟨hfetches, hloaded⟩ := ih hrest (h.skip hw hskip)
  constructor
  · intro d hd
    rcases mem_cons.mp hd with rfl | hd
    · refine ⟨h.fetchOk hw, fun hnone => ?_⟩
      rw [hfetch, hskip] at hnone
      cases hnone
    · exact hfetches d hd
  · rw [sum_cons, ← add_assoc]
    exact hloaded

/-- The readers that a round calls `NCrushFetchBits` on. -/
def roundFetches (st : Receiving) : List Reader := st.input.fetches (roundSkips st)

theorem Loaded.round {next}
    (h : Loaded size consumed st.input) (hstep : decompressStep historyEnd st = (next, st'))
    (hok : ∀ status, next ≠ .failed status) : Loaded size (consumed + roundWidth st) st'.input :=
  (h.skips fun _ hw => roundSkips_le hw).2 _ (decompressStep_skips hstep hok)

/-! ## Whole packets -/

/-- The bits that are dropped in `n` rounds. -/
def widthOf (historyEnd : ℕ) : ℕ → Receiving → ℕ
  | 0, _ => 0
  | n + 1, st => roundWidth st + widthOf historyEnd n (decompressStep historyEnd st).2

/-- **A run** keeps what holds of its reader. -/
theorem Loaded.rounds (n : ℕ) : ∀ {consumed} {st st'},
    Loaded size consumed st.input → rounds historyEnd n st = some st' →
      Loaded size (consumed + widthOf historyEnd n st) st'.input ∧ n ≤ widthOf historyEnd n st := by
  induction n with
  | zero =>
    intro consumed st st' h hrounds
    cases hrounds
    exact ⟨h, le_rfl⟩
  | succ n ih =>
  intro consumed st st' h hrounds
  rw [Ncrush.rounds] at hrounds
  split at hrounds
  case _ st1 hmore =>
    obtain ⟨hloaded, hle⟩ := ih (h.round hmore (fun _ => by simp)) hrounds
    have hpos := roundWidth_pos st
    simp only [widthOf, hmore]
    rw [← add_assoc]
    exact ⟨hloaded, by omega⟩
  case _ => cases hrounds

/-- A loop that has fuel enough ends as its last round does. -/
theorem decompressLoop_rounds (n) :
    ∀ {fuel} {st st' st''} {next}, rounds historyEnd n st = some st' → n < fuel →
      decompressStep historyEnd st' = (next, st'') →
      (next = .done → decompressLoop historyEnd fuel st = (1, st'')) ∧
      ∀ status, next = .failed status → decompressLoop historyEnd fuel st = (status, st'') := by
  induction n with
  | zero =>
    intro fuel st st' st'' next hrounds hfuel hstep
    cases hrounds
    obtain ⟨fuel, rfl⟩ : ∃ k, fuel = k + 1 := ⟨fuel - 1, by omega⟩
    rw [decompressLoop, hstep]
    exact ⟨fun hdone => by rw [hdone], fun status hfail => by rw [hfail]⟩
  | succ n ih =>
  intro fuel st st' st'' next hrounds hfuel hstep
  obtain ⟨fuel, rfl⟩ : ∃ k, fuel = k + 1 := ⟨fuel - 1, by omega⟩
  rw [rounds] at hrounds
  split at hrounds
  case _ st1 hmore =>
    rw [decompressLoop, hmore]
    exact ih hrounds (by omega) hstep
  case _ => cases hrounds

theorem exists_last_round (historyEnd : ℕ) (n) : ∀ {st},
    rounds historyEnd n st = none → ∃ m < n, ∃ st', rounds historyEnd m st = some st' ∧
        (decompressStep historyEnd st').1 ≠ .more := by
  induction n with
  | zero => intro st h; cases h
  | succ n ih =>
  intro st h
  by_cases hmore : (decompressStep historyEnd st).1 = .more
  · rw [rounds_succ (decompressStep_more hmore)] at h
    obtain ⟨m, hm, st', hrounds, hlast⟩ := ih h
    exact ⟨m + 1, by omega, st', by rw [rounds_succ (decompressStep_more hmore), hrounds], hlast⟩
  · exact ⟨0, by omega, st, rfl, hmore⟩

theorem decompressStep_stops (h : (decompressStep 65535 st).1 ≠ .more) :
    (decompressStep 65535 st).1.Stops := by
  rcases htoken : copyToken st with _ | token
  · obtain ⟨b, r, -, hstep⟩ | ⟨next, r, hstops, hstep⟩ := decompressStep_noToken 65535 htoken
    · rw [hstep] at h
      exact absurd rfl h
    · rw [hstep]
      exact hstops
  obtain ⟨c, l, st1⟩ := token
  rw [decompressStep_copyToken 65535 htoken] at h ⊢
  obtain ⟨status, hneg, hcopy⟩ | ⟨-, -, -, hcopy⟩ := decompressCopy_cases st1 c l
  · rw [hcopy]
    exact Next.stops_failed hneg
  · rw [hcopy] at h
    exact absurd rfl h

theorem decompressStep_failed (h : st.input.skips (roundSkips st) = none) :
    ∃ status < 0, (decompressStep 65535 st).1 = .failed status := by
  cases hnext : (decompressStep 65535 st).1 with
  | more | done =>
    have := decompressStep_skips (Prod.ext hnext rfl) nofun
    rw [h] at this
    cases this
  | failed status =>
  rcases decompressStep_stops (by rw [hnext]; nofun) with hstop | ⟨status', hneg, hstop⟩
  · rw [hnext] at hstop
    cases hstop
  rw [hnext] at hstop
  cases hstop
  exact ⟨status, hneg, rfl⟩

theorem widthOf_last (n) : ∀ {st st'}, rounds historyEnd n st = some st' →
      widthOf historyEnd (n + 1) st = widthOf historyEnd n st + roundWidth st' := by
  induction n with
  | zero =>
    intro st st' h
    cases h
    simp only [widthOf, zero_add, add_zero]
  | succ n ih =>
  intro st st' h
  rw [rounds] at h
  split at h
  case _ st1 hmore =>
    rw [widthOf, hmore, ih h]
    simp only [widthOf, hmore, add_assoc]
  case _ => cases h

section Packet

variable {ncrush front : Context} {src : List UInt8} {flags : ℕ}

/-- What `ncrush_decompress` returns for a packet that it starts to decode. -/
theorem decompress_received (hend : ncrush.historyEndOffset = 65535)
    (hopen : opened ncrush flags = some front) (hflag : hasFlag flags packetCompressed = true)
    (hlen : 4 ≤ src.length) : decompress ncrush src flags = received front (receive front src) := by
  unfold decompress
  rw [if_neg (not_not.mpr hend), hopen]
  simp only [hflag, not_true_eq_false, if_false]
  rw [if_neg (by omega)]

theorem received_failed (h : result.1 < 0) : (received front result).status = result.1 := by
  unfold received
  simp only [if_pos h]

theorem rounds_le (hlen : 4 ≤ src.length)
    (h : rounds 65535 n (start front src) = some st) : n ≤ 8 * src.length := by
  obtain ⟨hloaded, hle⟩ := Loaded.rounds n (loaded_start hlen) h
  have := hloaded.balance
  have := hloaded.nonneg
  omega

/-- **The bit reader is safe.**  Whenever `NCrushFetchBits` is called on a packet of four bytes or
more, it does not shift by a negative amount, and there are 16 bits or no input left when it
succeeds; called with a negative number of bits it makes `ncrush_decompress` fail.  The rounds end,
and when the packet is accepted no more bits were dropped than it has. -/
theorem bit_reader_safe (hend : ncrush.historyEndOffset = 65535)
    (hopen : opened ncrush flags = some front) (hflag : hasFlag flags packetCompressed = true)
    (hlen : 4 ≤ src.length) :
    (∀ n st, rounds 65535 n (start front src) = some st → ∀ d ∈ roundFetches st,
      FetchOk d ∧ (d.nbits < 0 → (decompress ncrush src flags).status < 0)) ∧
    (∃ n ≤ 8 * src.length, ∃ st next st', rounds 65535 n (start front src) = some st ∧
      decompressStep 65535 st = (next, st') ∧
      (next = .done ∧ receive front src = (1, st') ∨
        ∃ status < 0, next = .failed status ∧ receive front src = (status, st'))) ∧
    ((decompress ncrush src flags).status = 1 → ∃ n st st',
      rounds 65535 n (start front src) = some st ∧ decompressStep 65535 st = (.done, st') ∧
      widthOf 65535 (n + 1) (start front src) ≤ 8 * src.length) := by
  have hreceive : receive front src =
      decompressLoop 65535 (8 * src.length + 1) (start front src) := by
    rw [← hend, ← opened_end hopen]
    rfl
  have hstatus := decompress_received hend hopen hflag hlen
  -- the rounds end, since each of them drops a bit
  have hends : ∃ n ≤ 8 * src.length, ∃ st next st', rounds 65535 n (start front src) = some st ∧
      decompressStep 65535 st = (next, st') ∧
      (next = .done ∧ receive front src = (1, st') ∨
        ∃ status < 0, next = .failed status ∧ receive front src = (status, st')) := by
    have hnone : rounds 65535 (8 * src.length + 1) (start front src) = none := by
      rw [eq_none_iff_forall_ne_some]
      intro st hst
      have := rounds_le hlen hst
      omega
    obtain ⟨n, hn, st, hrounds, hlast⟩ := exists_last_round 65535 _ hnone
    obtain ⟨hdone, hfailed⟩ := decompressLoop_rounds n hrounds hn rfl
    refine ⟨n, by omega, st, _, _, hrounds, rfl, ?_⟩
    rw [hreceive]
    rcases decompressStep_stops hlast with hstop | ⟨status, hneg, hstop⟩
    · exact Or.inl ⟨hstop, hdone hstop⟩
    · exact Or.inr ⟨status, hneg, hstop, hfailed status hstop⟩
  refine ⟨fun n st hrounds d hd => ?_, hends, fun hone => ?_⟩
  · obtain ⟨hloaded, -⟩ := Loaded.rounds n (loaded_start hlen) hrounds
    obtain ⟨hok, hnone⟩ := (hloaded.skips fun _ hw => roundSkips_le hw).1 d hd
    refine ⟨hok, fun hneg => ?_⟩
    have hskips := hnone (hok.fails hneg).2
    obtain ⟨status, hlt, hfail⟩ := decompressStep_failed hskips
    have hloop := (decompressLoop_rounds n hrounds
      (show n < 8 * src.length + 1 by have := rounds_le hlen hrounds; omega) rfl).2 status hfail
    rw [hstatus, hreceive, hloop, received_failed hlt]
    exact hlt
  obtain ⟨n, -, st, next, st', hrounds, hstep, ⟨rfl, -⟩ | ⟨status, hlt, rfl, hres⟩⟩ := hends
  · obtain ⟨hloaded, -⟩ := Loaded.rounds n (loaded_start hlen) hrounds
    have hlast := hloaded.round hstep nofun
    have hbalance := hlast.balance
    have hnonneg := hlast.nonneg
    refine ⟨n, st, st', hrounds, hstep, ?_⟩
    rw [widthOf_last n hrounds]
    omega
  · rw [hstatus, hres, received_failed hlt] at hone
    omega

end Packet

/-- A packet of six bytes is accepted. -/
theorem bit_reader_safe_repeat :
    (decompress newContext [227, 115, 249, 127, 1, 0] 0x22).status = 1 ∧ ∃ n st st',
      rounds 65535 n (start newContext [227, 115, 249, 127, 1, 0]) = some st ∧
      decompressStep 65535 st = (.done, st') ∧
      widthOf 65535 (n + 1) (start newContext [227, 115, 249, 127, 1, 0]) ≤ 48 := by
  have hstatus : (decompress newContext [227, 115, 249, 127, 1, 0] 0x22).status = 1 := by
    decide +kernel
  exact ⟨hstatus, (bit_reader_safe rfl (opened_plain newContext) (by decide) (by decide)).2.2
    hstatus⟩

end WBFreeRDP.Ncrush

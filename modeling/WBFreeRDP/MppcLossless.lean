/-
# MPPC loses nothing

The sender's output is a list of tokens, literals and back-references.  A back-reference is only
sent after its bytes have been compared with the history, so copying them spells the packet
(`Spelled`).  The receiver decodes the same tokens, and since its history agrees with the sender's
the packet comes out and the histories agree again.
-/
import WBFreeRDP.MppcCode

namespace WBFreeRDP.Mppc

open Bits Bulk History List

/-! ## Tokens -/

/-- What the sender writes: a literal or a back-reference. -/
inductive Token where
  | literal (b : UInt8)
  | copy (copyOffset lengthOfMatch : ℕ)

/-- The bits of a token. -/
def tokenBits (level : ℕ) : Token → List Bool
  | .literal b => fieldBits (some (literalField b))
  | .copy copyOffset lengthOfMatch =>
    fieldBits (offsetField level copyOffset) ++ fieldBits (lengthField level lengthOfMatch)

/-- The copy offset that leads from cell `i` of a history of `size` cells back to cell `src`. -/
def offsetTo (size i src : ℕ) : ℕ := (((i : ℤ) - src) % size).toNat

/-- The tokens spell a packet from cell `i` of the history on: a back-reference copies bytes the
history has. -/
inductive Spelled (size : ℕ) : Memory UInt8 → ℕ → List Token → List UInt8 → Prop
  | nil {h : Memory UInt8} {i : ℕ} : Spelled size h i [] []
  | literal {h : Memory UInt8} {i : ℕ} {ts : List Token} {p : List UInt8} (b : UInt8)
      (hi : i < size) (hs : Spelled size (set h i b) (i + 1) ts p) :
      Spelled size h i (.literal b :: ts) (b :: p)
  | copy {h : Memory UInt8} {i : ℕ} {ts : List Token} {p : List UInt8} (src : ℕ) (m : List UInt8)
      (hlen : 3 ≤ m.length) (hdst : i + m.length ≤ size) (hsrc : src + m.length < size)
      (hm : Spells h i src m) (hs : Spelled size (write h i m) (i + m.length) ts p) :
      Spelled size h i (.copy (offsetTo size i src) m.length :: ts) (m ++ p)

variable {size : ℕ}

theorem offsetTo_lt (hsize : 0 < size) (i src) : offsetTo size i src < size := by
  have h2 := Int.emod_lt_of_pos ((i : ℤ) - src) (show (0 : ℤ) < size by omega)
  unfold offsetTo
  omega

variable {i : ℕ}

theorem offsetTo_back (hsrc : src < size) :
    (((i : ℤ) - offsetTo size i src) % size).toNat = src := by
  have h1 := Int.emod_nonneg ((i : ℤ) - src) (show (size : ℤ) ≠ 0 by omega)
  unfold offsetTo
  rw [Int.toNat_of_nonneg h1, Int.sub_emod, Int.emod_emod, ← Int.sub_emod, sub_sub_cancel,
    Int.emod_eq_of_lt (by omega) (by omega), Int.toNat_natCast]

/-! ## The receiver -/

variable {level : ℕ} {h : Memory UInt8}

theorem decompressStep_literal
    (hi : i < size) (hr : bs.Reads (tokenBits level (.literal b) ++ rest)) :
    ∃ bs', decompressStep level size ⟨h, i, bs⟩ = (1, ⟨set h i b, i + 1, bs'⟩) ∧
    bs'.Reads rest := by
  have hb := b.toNat_lt
  have hend : ¬ i > size - 1 := by omega
  unfold decompressStep
  simp (disch := decide) only [if_neg hend, and_mask_eq_iff, BitVec.reduceNeg, BitVec.reduceToNat]
  rw [tokenBits, literalField_eq] at hr
  by_cases hlit : b.toNat < 128
  · rw [if_pos hlit] at hr
    have hpeek := hr.accumulator.peek_natBits (by omega) (by omega)
    have hvalue : ((bs.accumulator &&& 0x7F000000) >>> 24).toNat = b.toNat := by
      rw [BitVec.ushiftRight_and_distrib, shift_and_toNat _ _ (by decide)]
      change bs.accumulator.toNat / 2 ^ 24 % 128 = _
      omega
    rw [if_pos (by omega), hvalue, UInt8.ofNat_toNat]
    exact ⟨_, rfl, hr.shift_natBits (by omega)⟩
  rw [if_neg hlit] at hr
  have hpeek := hr.accumulator.peek_natBits (by omega) (by omega)
  have hvalue : ((bs.accumulator &&& 0x3F800000) >>> 23).toNat + 0x80 = b.toNat := by
    rw [BitVec.ushiftRight_and_distrib, shift_and_toNat _ _ (by decide)]
    change bs.accumulator.toNat / 2 ^ 23 % 128 + 128 = _
    omega
  rw [if_neg (by omega), if_pos (by omega), hvalue, UInt8.ofNat_toNat]
  exact ⟨_, rfl, hr.shift_natBits (by omega)⟩

theorem decompressStep_copy (hlen : 3 ≤ len) (hdst : i + len ≤ sizeOf level)
    (hsrc : src + len < sizeOf level)
    (hr : bs.Reads (tokenBits level (.copy (offsetTo (sizeOf level) i src) len) ++ rest)) :
    ∃ bs', decompressStep level (sizeOf level) ⟨h, i, bs⟩ =
        (1, ⟨History.copy h i src len, i + len, bs'⟩) ∧ bs'.Reads rest := by
  rw [tokenBits, append_assoc] at hr
  have hmask : (sizeOf level : ℤ) = if level ≠ 0 then 0x10000 else 0x2000 := by
    unfold sizeOf
    split_ifs <;> rfl
  obtain ⟨n1, hread1, hr1⟩ := (codes_offset (offsetTo_lt (by omega) i src)).read hr
  obtain ⟨n2, hread2, hr2⟩ := (codes_length hlen (by omega)).read hr1
  have htop := readOffset_top hread1
  have hend : ¬ i > sizeOf level - 1 := by omega
  have hback := offsetTo_back (i := i) (show src < sizeOf level by omega)
  rw [hmask] at hback
  refine ⟨_, ?_, hr2⟩
  unfold decompressStep
  simp (disch := decide) only [if_neg hend, and_mask_eq_iff, BitVec.reduceNeg, BitVec.reduceToNat]
  rw [if_neg (by omega), if_neg (by omega), decompressMatch]
  simp only [hread1, hread2, hback]
  rw [if_neg (by omega), if_neg (by omega)]

theorem literal_length (level b) :
    8 ≤ (tokenBits level (.literal b)).length ∧ (tokenBits level (.literal b)).length ≤ 9 := by
  obtain ⟨-, hlo, hhi⟩ := literalField_fits b
  rw [tokenBits, fieldBits, natBits_length]
  exact ⟨hlo, hhi⟩

theorem copy_length (hoff : off < sizeOf level) (h3 : 3 ≤ len) (hlen : len < sizeOf level) :
    8 ≤ (tokenBits level (.copy off len)).length ∧
    (tokenBits level (.copy off len)).length ≤ 49 := by
  have h1 := (codes_offset hoff).length_fieldBits
  have h2 := (codes_length h3 hlen).length_fieldBits
  rw [tokenBits, length_append]
  omega

theorem decompressLoop_step
    (hrem : 8 ≤ st.bs.remainingLength) (hstep : decompressStep level size st = (1, st')) :
    decompressLoop level size (fuel + 1) st = decompressLoop level size fuel st' := by
  rw [decompressLoop, if_pos hrem, hstep]
  rfl

variable {p : List UInt8}

/-- **The receiver's run.** Tokens that spell a packet in the sender's history are turned into the
packet. -/
theorem decompressLoop_spelled (hpad : pad.length < 8) (hs : Spelled (sizeOf level) g i ts p) :
    ∀ h bs fuel, Agree (sizeOf level) g h →
      bs.Reads (ts.flatMap (tokenBits level) ++ pad) → ts.length < fuel →
      ∃ bs', decompressLoop level (sizeOf level) fuel ⟨h, i, bs⟩ =
        (1, ⟨write h i p, i + p.length, bs'⟩) := by
  induction hs with
  | nil =>
    intro h bs fuel _ hr hfuel
    obtain ⟨fuel, rfl⟩ := Nat.exists_eq_add_of_lt hfuel
    have hrem := hr.remainingLength_eq
    rw [flatMap_nil, nil_append] at hrem
    refine ⟨bs, ?_⟩
    rw [decompressLoop, if_neg (by simp only; omega)]
    rfl
  | literal b hi _ ih =>
    intro h bs fuel hag hr hfuel
    rw [length_cons] at hfuel
    obtain ⟨fuel, rfl⟩ : ∃ n, fuel = n + 1 := ⟨fuel - 1, by omega⟩
    rw [flatMap_cons, append_assoc] at hr
    have hrem := hr.remainingLength_eq
    rw [length_append] at hrem
    have hlen := literal_length level b
    obtain ⟨bs', hstep, hr'⟩ := decompressStep_literal hi hr
    obtain ⟨bs'', hloop⟩ := ih (set h _ b) bs' fuel (hag.set _ b) hr' (by omega)
    refine ⟨bs'', ?_⟩
    rw [decompressLoop_step (by simp only; omega) hstep, hloop, write_cons, length_cons,
      add_assoc, add_comm 1]
  | @copy _ i _ _ src m hlen hdst hsrc hm _ ih =>
  intro h bs fuel hag hr hfuel
  rw [length_cons] at hfuel
  obtain ⟨fuel, rfl⟩ : ∃ n, fuel = n + 1 := ⟨fuel - 1, by omega⟩
  rw [flatMap_cons, append_assoc] at hr
  have hrem := hr.remainingLength_eq
  rw [length_append] at hrem
  have hbits := copy_length (offsetTo_lt (show 0 < sizeOf level by omega) i src) hlen (by omega)
  obtain ⟨bs', hstep, hr'⟩ := decompressStep_copy hlen hdst hsrc hr
  have hcopy := (hm.congr hag (by omega)).copy_eq
  rw [hcopy] at hstep
  obtain ⟨bs'', hloop⟩ := ih (write h _ m) bs' fuel (hag.write m _) hr' (by omega)
  refine ⟨bs'', ?_⟩
  rw [decompressLoop_step (by simp only; omega) hstep, hloop, write_append,
    length_append, add_assoc]

/-! ## The sender -/

/-- **Extending a match**: the bytes taken are the ones the history has, as far as it is filled, and
the last byte of the packet is left. -/
theorem extendMatch_spec (high : ℕ) (src : List UInt8) : ∀ h historyPtr matchPtr len, ∃ m rest,
      extendMatch high src h historyPtr matchPtr len =
        (rest, write h historyPtr m, historyPtr + m.length, len + m.length) ∧
      src = m ++ rest ∧ Spells h historyPtr matchPtr m ∧
      (m ≠ [] → matchPtr + m.length ≤ high + 1) := by
  induction src with
  | nil => intro h historyPtr matchPtr len; exact ⟨[], [], rfl, rfl, trivial,
      fun hm => absurd rfl hm⟩
  | cons sym rest ih =>
  intro h historyPtr matchPtr len
  rcases rest with _ | ⟨next, rest⟩
  · exact ⟨[], [sym], rfl, rfl, trivial, fun hm => absurd rfl hm⟩
  rw [extendMatch]
  by_cases hmatch : sym = h matchPtr ∧ matchPtr ≤ high
  swap
  · rw [if_neg hmatch]
    exact ⟨[], sym :: next :: rest, rfl, rfl, trivial, fun hm => absurd rfl hm⟩
  obtain ⟨m, rest', heq, hsplit, hspells, hhigh⟩ := ih (set h historyPtr sym)
    (historyPtr + 1) (matchPtr + 1) (len + 1)
  rw [if_pos hmatch, heq]
  refine ⟨sym :: m, rest', ?_, by rw [hsplit, cons_append], ⟨hmatch.1.symm, hspells⟩, ?_⟩
  · rw [write_cons, length_cons, add_assoc, add_assoc, add_comm 1]
  rw [length_cons]
  by_cases hm : m = []
  · rw [hm, length_nil]
    omega
  · have := hhigh hm
    omega

/-- What `mppc_compress` relies on: the history has the size of the level, and the output has a
capacity that a bit position can count. -/
structure Params.Ok (ps : Params) : Prop where
  size_eq : ps.historyBufferSize = sizeOf ps.compressionLevel
  dst_pos : 0 < ps.dstSize
  dst_lt : ps.dstSize < 2 ^ 29

/-- What holds while `n` bytes of the packet are left and the bits `w` are written. -/
structure SendInv (ps : Params) (st : Sending) (w : List Bool) (n : ℕ) : Prop where
  wrote : st.bs.Wrote w
  capacity : st.bs.buffer.length = ps.dstSize
  used : w.length + 8 ≤ 8 * ps.dstSize
  high_le : st.high + 4 ≤ ps.historyBufferSize
  room : st.historyPtr + n + 4 ≤ ps.historyBufferSize

variable {ps : Params} {w : List Bool}

/-- Where the test for room in the output fails to stop, there is room. -/
theorem Params.Ok.room (hps : ps.Ok)
    (hw : bs.Wrote w) (hfull : ps.full bs n = false) : w.length + 8 * n < 8 * ps.dstSize := by
  have hpos := hps.dst_pos
  unfold Params.full at hfull
  rw [hw.position_eq] at hfull
  simp only [decide_eq_false_iff_not] at hfull
  omega

theorem SendInv.literal (hps : ps.Ok)
    (h : SendInv ps st w n) (hfull : ps.full st.bs 2 = false) (b) :
    (writeField st.bs (some (literalField b))).Wrote
        (w ++ tokenBits ps.compressionLevel (.literal b)) ∧
      (writeField st.bs (some (literalField b))).buffer.length = ps.dstSize ∧
      (w ++ tokenBits ps.compressionLevel (.literal b)).length + 8 ≤ 8 * ps.dstSize := by
  have hroom := hps.room h.wrote hfull
  have hlt := hps.dst_lt
  obtain ⟨hfits, -, hhi⟩ := literalField_fits b
  obtain ⟨hw, hlen⟩ := writeField_wrote hfits h.wrote (by rw [h.capacity]; omega) (by omega)
  refine ⟨hw, hlen.trans h.capacity, ?_⟩
  have hbits := literal_length ps.compressionLevel b
  rw [length_append]
  omega

theorem SendInv.copy (hps : ps.Ok) (h : SendInv ps st w n) (hfull : ps.full st.bs 7 = false)
    (hoff : off < sizeOf ps.compressionLevel) (h3 : 3 ≤ len)
    (hlen : len < sizeOf ps.compressionLevel) :
    (writeField (writeField st.bs (offsetField ps.compressionLevel off))
        (lengthField ps.compressionLevel len)).Wrote
        (w ++ tokenBits ps.compressionLevel (.copy off len)) ∧
      (writeField (writeField st.bs (offsetField ps.compressionLevel off))
        (lengthField ps.compressionLevel len)).buffer.length = ps.dstSize ∧
      (w ++ tokenBits ps.compressionLevel (.copy off len)).length + 8 ≤ 8 * ps.dstSize := by
  have hroom := hps.room h.wrote hfull
  have hlt := hps.dst_lt
  have hbits := (codes_offset hoff).length_fieldBits
  obtain ⟨hw1, hl1⟩ := (codes_offset hoff).write h.wrote (by rw [h.capacity]; omega) (by omega)
  obtain ⟨hw2, hl2⟩ := (codes_length h3 hlen).write hw1
    (by rw [hl1, h.capacity, length_append]; omega) (by rw [length_append]; omega)
  refine ⟨?_, hl2.trans (hl1.trans h.capacity), ?_⟩
  · rw [tokenBits, ← append_assoc]
    exact hw2
  have hboth := copy_length hoff h3 hlen
  rw [length_append]
  omega

/-- The first three bytes of a match, compared after the first of them was written. -/
theorem spells_three (h1 : s1 = set h i s1 (matchPtr - 1)) (h2 : s2 = set h i s1 matchPtr)
    (h3 : s3 = set h i s1 (matchPtr + 1)) (hpos : matchPtr ≠ 0) (hne : matchPtr ≠ i)
    (hne' : matchPtr ≠ i + 1) : Spells h i (matchPtr - 1) [s1, s2, s3] := by
  rw [set_of_ne h (by omega)] at h1
  refine ⟨h1.symm, ?_, ?_, trivial⟩
  · rw [Nat.sub_add_cancel (by omega)]
    exact h2.symm
  · rw [set_of_ne _ (by omega), show matchPtr - 1 + 1 + 1 = matchPtr + 1 by omega]
    exact h3.symm

/-- **One round of the sender** writes a token that spells the bytes it takes. -/
theorem compressStep_spelled (hps : ps.Ok) (h : SendInv ps st w (rest.length + 3))
    (hstep : compressStep ps st s1 s2 s3 rest = some (st', src')) :
    ∃ t m, s1 :: s2 :: s3 :: rest = m ++ src' ∧ m ≠ [] ∧
      st'.historyBuffer = write st.historyBuffer st.historyPtr m ∧
      st'.historyPtr = st.historyPtr + m.length ∧
      SendInv ps st' (w ++ tokenBits ps.compressionLevel t) src'.length ∧
      ∀ ts p, Spelled ps.historyBufferSize st'.historyBuffer st'.historyPtr ts p →
        Spelled ps.historyBufferSize st.historyBuffer st.historyPtr (t :: ts) (m ++ p) := by
  have hsize := hps.size_eq
  have hhigh := h.high_le
  have hroom := h.room
  simp only [compressStep] at hstep
  generalize st.matchBuffer (matchIndex s1 s2 s3) = matchPtr at hstep
  have hnew : (if st.high < st.historyPtr + 1 then st.historyPtr + 1 else st.high) + 4 ≤
      ps.historyBufferSize := by
    split_ifs <;> omega
  generalize (if st.high < st.historyPtr + 1 then st.historyPtr + 1 else st.high) =
    high at hstep hnew
  by_cases hlit : s1 ≠ set st.historyBuffer st.historyPtr s1 (matchPtr - 1) ∨
      s2 ≠ set st.historyBuffer st.historyPtr s1 matchPtr ∨
      s3 ≠ set st.historyBuffer st.historyPtr s1 (matchPtr + 1) ∨ matchPtr + 1 > high ∨
      matchPtr = 0 ∨ matchPtr = st.historyPtr + 1 - 1 ∨ matchPtr = st.historyPtr + 1
  · rw [if_pos hlit] at hstep
    by_cases hfull : ps.full st.bs 2 = true
    · rw [if_pos hfull] at hstep
      cases hstep
    rw [if_neg hfull] at hstep
    obtain ⟨hw, hcap, hused⟩ := h.literal hps (by simpa using hfull) s1
    cases hstep
    refine ⟨.literal s1, [s1], rfl, by simp, rfl, rfl, ⟨hw, hcap, hused, hnew, ?_⟩, ?_⟩
    · simp only [length_cons]
      omega
    · intro ts p hs
      exact .literal s1 (by omega) hs
  rw [if_neg hlit] at hstep
  push Not at hlit
  obtain ⟨h1, h2, h3, h4, h5, h6, h7⟩ := hlit
  have hthree := spells_three h1 h2 h3 h5 (by omega) h7
  obtain ⟨m, rest', hext, hsplit, hspells, hmax⟩ := extendMatch_spec high rest
    (set (set (set st.historyBuffer st.historyPtr s1) (st.historyPtr + 1) s2)
      (st.historyPtr + 1 + 1) s3) (st.historyPtr + 1 + 2) (matchPtr + 2) 3
  rw [hext] at hstep
  by_cases hfull : ps.full st.bs 7 = true
  · rw [if_pos hfull] at hstep
    cases hstep
  rw [if_neg hfull] at hstep
  have hrest : rest.length = m.length + rest'.length := by rw [hsplit, length_append]
  have hsrc : matchPtr - 1 + (3 + m.length) ≤ high + 1 := by
    by_cases hm : m = []
    · rw [hm, length_nil]
      omega
    · have := hmax hm
      omega
  have hall : Spells st.historyBuffer st.historyPtr (matchPtr - 1) ([s1, s2, s3] ++ m) := by
    refine hthree.append ?_
    rw [show matchPtr - 1 + [s1, s2, s3].length = matchPtr + 2 by
      simp only [length_cons, length_nil]; omega]
    exact hspells
  have hoff : ((((st.historyPtr + 1 : ℕ) : ℤ) - matchPtr) % ps.historyBufferSize).toNat =
      offsetTo ps.historyBufferSize st.historyPtr (matchPtr - 1) := by
    congr 2
    omega
  have hlen : ([s1, s2, s3] ++ m).length = 3 + m.length := by
    simp only [length_append, length_cons, length_nil]
  have hofflt := offsetTo_lt (show 0 < ps.historyBufferSize by omega) st.historyPtr (matchPtr - 1)
  rw [hoff] at hstep
  rw [hsize] at hofflt
  obtain ⟨hw, hcap, hused⟩ := h.copy hps (by simpa using hfull) hofflt
    (show 3 ≤ 3 + m.length by omega) (by omega)
  rw [← hsize] at hw hcap hused
  cases hstep
  refine ⟨.copy _ _, [s1, s2, s3] ++ m, by rw [hsplit]; rfl, by simp, ?_, ?_,
    ⟨hw, hcap, hused, hnew, ?_⟩, ?_⟩
  · rfl
  · simp only
    omega
  · simp only
    omega
  · intro ts p hs
    rw [← hlen]
    refine .copy (matchPtr - 1) _ (by omega) (by omega) (by omega) hall ?_
    rw [hlen, ← add_assoc]
    exact hs

theorem compressTail_spelled (hps : ps.Ok) (src) :
    ∀ {st st'} {w}, SendInv ps st w src.length → compressTail ps src st = some st' →
      ∃ ts, Spelled ps.historyBufferSize st.historyBuffer st.historyPtr ts src ∧
        st'.historyBuffer = write st.historyBuffer st.historyPtr src ∧
        st'.historyPtr = st.historyPtr + src.length ∧
        SendInv ps st' (w ++ ts.flatMap (tokenBits ps.compressionLevel)) 0 := by
  induction src with
  | nil =>
    intro st st' w h htail
    cases htail
    exact ⟨[], .nil, rfl, rfl, by simpa using h⟩
  | cons sym rest ih =>
  intro st st' w h htail
  rw [compressTail] at htail
  by_cases hfull : ps.full st.bs 2 = true
  · rw [if_pos hfull] at htail
    cases htail
  rw [if_neg hfull] at htail
  have hroom := h.room
  rw [length_cons] at hroom
  obtain ⟨hw, hcap, hused⟩ := h.literal hps (by simpa using hfull) sym
  have hnext : SendInv ps { st with
      historyBuffer := set st.historyBuffer st.historyPtr sym
      historyPtr := st.historyPtr + 1
      bs := writeField st.bs (some (literalField sym)) }
      (w ++ tokenBits ps.compressionLevel (.literal sym)) rest.length :=
    ⟨hw, hcap, hused, h.high_le, by simp only; omega⟩
  obtain ⟨ts, hs, hbuf, hptr, hinv⟩ := ih hnext htail
  refine ⟨.literal sym :: ts, .literal sym (by omega) hs, hbuf, ?_, ?_⟩
  · rw [hptr, length_cons]
    simp only
    omega
  · rw [flatMap_cons, ← append_assoc]
    exact hinv

/-- **The sender's run.** What it writes are tokens that spell the packet. -/
theorem compressLoop_spelled (hps : ps.Ok) (fuel : ℕ) : ∀ {src} {st st'} {w}, src.length ≤ fuel →
      SendInv ps st w src.length → compressLoop ps fuel src st = some st' →
      ∃ ts, Spelled ps.historyBufferSize st.historyBuffer st.historyPtr ts src ∧
        st'.historyBuffer = write st.historyBuffer st.historyPtr src ∧
        st'.historyPtr = st.historyPtr + src.length ∧
        SendInv ps st' (w ++ ts.flatMap (tokenBits ps.compressionLevel)) 0 := by
  induction fuel with
  | zero =>
    intro src st st' w _ h hloop
    exact compressTail_spelled hps src h hloop
  | succ fuel ih =>
  intro src st st' w hfuel h hloop
  -- with three bytes or fewer only the trailing loop runs
  rcases src with _ | ⟨s1, _ | ⟨s2, _ | ⟨s3, _ | ⟨s4, rest⟩⟩⟩⟩
  iterate 4 exact compressTail_spelled hps _ h hloop
  · obtain ⟨⟨st1, src'⟩, hstep, hloop⟩ := Option.bind_eq_some_iff.mp hloop
    obtain ⟨t, m, hsplit, hne, hbuf, hptr, hinv, hspelled⟩ := compressStep_spelled hps h hstep
    have hlen := congrArg List.length hsplit
    have hmpos := length_pos_iff.mpr hne
    rw [length_append] at hlen
    obtain ⟨ts, hs, hbuf', hptr', hinv'⟩ := ih (by omega) hinv hloop
    refine ⟨t :: ts, ?_, ?_, ?_, ?_⟩
    · rw [hsplit]
      exact hspelled ts src' hs
    · rw [hbuf', hbuf, hptr, hsplit, write_append]
    · omega
    · rw [flatMap_cons, ← append_assoc]
      exact hinv'

/-! ## One packet -/

def Stays (s : Context) (n : ℕ) : Prop :=
  s.historyOffset + n < s.historyBufferSize - 3 ∧ s.historyOffset ≠ 0

instance (s : Context) (n : ℕ) : Decidable (Stays s n) := inferInstanceAs (Decidable (_ ∧ _))

def start (s : Context) (n : ℕ) : ℕ := if Stays s n then s.historyOffset else 0

def flagsOf (s : Context) (n : ℕ) : ℕ :=
  packetCompressed ||| s.compressionLevel ||| (if Stays s n then 0 else packetAtFront) |||
    (if ¬ Stays s n ∧ s.historyOffset = s.historyBufferSize + 1 then packetFlushed else 0)

/-- What the sender's context is between packets. -/
structure SenderOk (s : Context) : Prop where
  level_le : s.compressionLevel ≤ 1
  size_eq : s.historyBufferSize = sizeOf s.compressionLevel
  high_le : s.historyPtr + 4 ≤ s.historyBufferSize

theorem SenderOk.reset (h : SenderOk s) (flush) : SenderOk (contextReset s flush) := by
  refine ⟨h.level_le, h.size_eq, ?_⟩
  have : 8192 ≤ sizeOf s.compressionLevel := by
    unfold sizeOf
    split_ifs <;> omega
  have := h.size_eq
  change 0 + 4 ≤ s.historyBufferSize
  omega

variable {s : Context} {src dst : List UInt8}

/-- **What `mppc_compress` returns**: the packet as it is and a flushed context, or tokens that
spell the packet. -/
theorem compress_spec (hs : SenderOk s) (hne : src ≠ [])
    (hlen : src.length + 4 ≤ s.historyBufferSize) (hdst : dst ≠ []) :
    compress s src dst = ⟨1, src, packetFlushed ||| s.compressionLevel, contextReset s true⟩ ∨
    ∃ ts data matchBuffer pad, compress s src dst = ⟨1, data, flagsOf s src.length, { s with
          historyPtr := start s src.length + src.length
          historyOffset := start s src.length + src.length
          historyBuffer := write s.historyBuffer (start s src.length) src
          matchBuffer := matchBuffer }⟩ ∧
      Spelled s.historyBufferSize s.historyBuffer (start s src.length) ts src ∧
      byteBits data = ts.flatMap (tokenBits s.compressionLevel) ++ pad ∧ pad.length < 8 ∧
      data.length < src.length ∧ start s src.length + src.length + 4 ≤ s.historyBufferSize := by
  have hsize := hs.size_eq
  have hpos := length_pos_iff.mpr hne
  have hdpos := length_pos_iff.mpr hdst
  have hstart : start s src.length + src.length + 4 ≤ s.historyBufferSize := by
    unfold start
    split_ifs with hst
    · unfold Stays at hst
      omega
    · omega
  -- the output is never longer than the packet
  obtain ⟨dstSize, hdstSize⟩ :
    ∃ n, n = if dst.length > src.length then src.length else dst.length :=
    ⟨_, rfl⟩
  have hd : 0 < dstSize ∧ dstSize ≤ src.length ∧ dstSize ≤ dst.length := by
    rw [hdstSize]
    split_ifs <;> omega
  have hbig : sizeOf s.compressionLevel ≤ 65536 := by
    unfold sizeOf
    split_ifs <;> omega
  have hps : Params.Ok ⟨s.compressionLevel, s.historyBufferSize, dstSize⟩ :=
    ⟨hsize, hd.1, by simp only; omega⟩
  have hinv : SendInv ⟨s.compressionLevel, s.historyBufferSize, dstSize⟩
      ⟨s.historyBuffer, s.matchBuffer, s.historyPtr, start s src.length,
        BitStream.empty.attach (dst.take dstSize)⟩ [] src.length := by
    refine ⟨BitStream.wrote_attach, ?_, by simp only [length_nil]; omega, hs.high_le,
      by omega⟩
    simp only [BitStream.attach, length_take]
    omega
  simp only [compress, ← hdstSize]
  split
  · exact Or.inl rfl
  next st hloop =>
  right
  obtain ⟨ts, hspelled, hbuf, hptr, hinv'⟩ := compressLoop_spelled hps src.length le_rfl hinv
    hloop
  obtain ⟨hbits, hbytes⟩ := hinv'.wrote.flush_take
  have hfit := hinv'.used
  refine ⟨ts, _, st.matchBuffer, _, ?_, hspelled, hbits, ?_, ?_, hstart⟩
  · rw [hbuf, hptr]
    rfl
  · rw [length_replicate]
    omega
  rw [hbytes]
  simp only at hfit ⊢
  omega

/-- Every token writes a cell of the history, so the receiver's loop has rounds enough. -/
theorem Spelled.length_le (hs : Spelled size g i ts p) : ts.length ≤ size - i := by
  induction hs with
  | nil => exact Nat.zero_le _
  | literal b hi _ ih | copy src m hlen hdst _ _ _ ih =>
  rw [length_cons]
  omega

variable {r : Context}

/-- **What `mppc_decompress` returns** for tokens that spell a packet in a history that agrees with
the receiver's. -/
theorem decompress_spec (hflag : hasFlag flags packetCompressed = true)
    (hsize : (opened r flags).historyBufferSize = sizeOf (opened r flags).compressionLevel)
    (hag : Agree (sizeOf (opened r flags).compressionLevel) g (opened r flags).historyBuffer)
    (hs : Spelled (sizeOf (opened r flags).compressionLevel) g (opened r flags).historyPtr ts p)
    (hbits : byteBits data = ts.flatMap (tokenBits (opened r flags).compressionLevel) ++ pad)
    (hpad : pad.length < 8) (hdata : data.length < 2 ^ 29) :
    decompress r data flags = ⟨1, p, { opened r flags with
      historyBuffer := write (opened r flags).historyBuffer (opened r flags).historyPtr p
      historyPtr := (opened r flags).historyPtr + p.length }⟩ := by
  have hreads := BitStream.reads_attach_fetch BitStream.empty data hdata
  have hts := hs.length_le
  rw [hbits] at hreads
  obtain ⟨bs', hloop⟩ := decompressLoop_spelled hpad hs _ _
    (sizeOf (opened r flags).compressionLevel + 1) hag hreads (by omega)
  have hreceive : receive (opened r flags) data =
      (1, ⟨write (opened r flags).historyBuffer (opened r flags).historyPtr p,
        (opened r flags).historyPtr + p.length, bs'⟩) := by
    rw [receive, hsize, hloop]
  rw [decompress, if_neg (not_not.mpr hflag), hreceive, received]
  simp only [Nat.add_sub_cancel_left, read_write]
  rfl

/-! ## Sessions -/

/-- The two contexts are in step: the histories agree, and the receiver writes where the sender
does, unless the sender has flushed and will say so with the next packet. -/
structure Sync (s r : Context) : Prop where
  sender : SenderOk s
  level_eq : r.compressionLevel = s.compressionLevel
  size_eq : r.historyBufferSize = s.historyBufferSize
  agree : Agree s.historyBufferSize s.historyBuffer r.historyBuffer
  offset : (s.historyOffset = s.historyBufferSize + 1 ∧ s.historyBuffer = fill 0) ∨
    (s.historyOffset + 4 ≤ s.historyBufferSize ∧ r.historyPtr = s.historyOffset)

theorem sync_new (level) : Sync (contextNew level) (contextNew level) := by
  have hlevel : (contextNew level).compressionLevel = if level < 1 then 0 else 1 := rfl
  have hsize : (contextNew level).historyBufferSize = if level < 1 then 8192 else 65536 := rfl
  refine ⟨⟨?_, ?_, ?_⟩, rfl, rfl, fun _ _ => rfl, Or.inr ⟨?_, rfl⟩⟩
  · rw [hlevel]
    split_ifs <;> omega
  · rw [hlevel, hsize]
    split_ifs <;> rfl
  all_goals
    rw [hsize]
    change 0 + 4 ≤ _
    split_ifs <;> omega

theorem flagsOf_tests (h : s.compressionLevel ≤ 1) (n) :
    hasFlag (flagsOf s n) packetCompressed = true ∧
      (hasFlag (flagsOf s n) packetAtFront = true ↔ ¬ Stays s n) ∧
      (hasFlag (flagsOf s n) packetFlushed = true ↔
        ¬ Stays s n ∧ s.historyOffset = s.historyBufferSize + 1) := by
  unfold flagsOf
  have hl : s.compressionLevel = 0 ∨ s.compressionLevel = 1 := by omega
  by_cases h1 : Stays s n
  · simp only [h1, not_true_eq_false, false_and]
    rcases hl with hl | hl <;> rw [hl] <;> decide
  by_cases h2 : s.historyOffset = s.historyBufferSize + 1
  · simp only [h1, h2]
    rcases hl with hl | hl <;> rw [hl] <;> decide
  · simp only [h1, h2]
    rcases hl with hl | hl <;> rw [hl] <;> decide

/-- The receiver in front of a compressed packet is where the sender was. -/
theorem Sync.opened (h : Sync s r) (n) :
    (opened r (flagsOf s n)).compressionLevel = s.compressionLevel ∧
      (opened r (flagsOf s n)).historyBufferSize = s.historyBufferSize ∧
      (opened r (flagsOf s n)).historyPtr = start s n ∧
      Agree s.historyBufferSize s.historyBuffer (opened r (flagsOf s n)).historyBuffer := by
  obtain ⟨-, hfront, hflushed⟩ := flagsOf_tests h.sender.level_le n
  unfold Mppc.opened start
  by_cases hst : Stays s n
  · have h1 : hasFlag (flagsOf s n) packetAtFront = false := by
      rw [← Bool.not_eq_true, hfront]
      exact not_not.mpr hst
    have h2 : hasFlag (flagsOf s n) packetFlushed = false := by
      rw [← Bool.not_eq_true, hflushed]
      exact fun hh => hh.1 hst
    simp only [h1, h2, if_pos hst]
    refine ⟨h.level_eq, h.size_eq, ?_, h.agree⟩
    rcases h.offset with ⟨hoff, -⟩ | ⟨-, hptr⟩
    · unfold Stays at hst
      omega
    · exact hptr
  have h1 := hfront.mpr hst
  simp only [h1, if_true, if_neg hst]
  by_cases hfl : s.historyOffset = s.historyBufferSize + 1
  · have h2 := hflushed.mpr ⟨hst, hfl⟩
    simp only [h2, if_true]
    refine ⟨h.level_eq, h.size_eq, trivial, ?_⟩
    intro j hj
    rcases h.offset with ⟨-, hzero⟩ | ⟨hoff, -⟩
    · simp only [hzero, fill_apply, h.size_eq, if_pos hj]
    · omega
  · have h2 : hasFlag (flagsOf s n) packetFlushed = false := by
      rw [← Bool.not_eq_true, hflushed]
      exact fun hh => hfl hh.2
    simp only [h2, Bool.false_eq_true, if_false]
    exact ⟨h.level_eq, h.size_eq, trivial, h.agree⟩

/-- A raw packet is delivered as it is and leaves both sides flushed. -/
theorem Sync.raw (h : Sync s r) (src) :
    (decompress r src (packetFlushed ||| s.compressionLevel)).status = 1 ∧
      (decompress r src (packetFlushed ||| s.compressionLevel)).data = src ∧
      Sync (contextReset s true)
        (decompress r src (packetFlushed ||| s.compressionLevel)).context := by
  have hl : s.compressionLevel = 0 ∨ s.compressionLevel = 1 := by
    have := h.sender.level_le
    omega
  have hflags : hasFlag (packetFlushed ||| s.compressionLevel) packetCompressed = false ∧
      hasFlag (packetFlushed ||| s.compressionLevel) packetAtFront = false ∧
      hasFlag (packetFlushed ||| s.compressionLevel) packetFlushed = true := by
    rcases hl with hl | hl <;> rw [hl] <;> decide
  obtain ⟨h1, h2, h3⟩ := hflags
  have hopen : Mppc.opened r (packetFlushed ||| s.compressionLevel) = { r with
        historyOffset := 0
        historyPtr := 0
        historyBuffer := ⟨fun j => if j < r.historyBufferSize then 0 else r.historyBuffer j⟩ } := by
    simp only [Mppc.opened, h2, h3, Bool.false_eq_true, if_false, if_true]
  rw [decompress, if_pos (by simp [h1]), hopen]
  refine ⟨rfl, rfl, ⟨h.sender.reset true, h.level_eq, h.size_eq, ?_, Or.inl ⟨rfl, rfl⟩⟩⟩
  intro j hj
  have hj' : j < r.historyBufferSize := by
    rw [h.size_eq]
    exact hj
  simp only [contextReset, fill_apply, if_pos hj']

/-- **Every packet keeps the contexts in step** and is delivered. -/
theorem sync_step (h : Sync s r) (hne : src ≠ [])
    (hlen : src.length + 4 ≤ s.historyBufferSize) (hdst : dst ≠ []) :
    (compress s src dst).status = 1 ∧
      (decompress r (compress s src dst).data (compress s src dst).flags).status = 1 ∧
      (decompress r (compress s src dst).data (compress s src dst).flags).data = src ∧
      Sync (compress s src dst).context
        (decompress r (compress s src dst).data (compress s src dst).flags).context ∧
      (compress s src dst).context.historyBufferSize = s.historyBufferSize := by
  rcases compress_spec h.sender hne hlen hdst with hraw |
    ⟨ts, data, matchBuffer, pad, hcomp, hspelled, hbits, hpad, hdata, hend⟩
  · obtain ⟨hstatus, hdata, hsync⟩ := h.raw src
    rw [hraw]
    exact ⟨rfl, hstatus, hdata, hsync, rfl⟩
  rw [hcomp]
  obtain ⟨hlevel, hsize, hptr, hag⟩ := h.opened src.length
  have hsz := h.sender.size_eq
  have hbig : sizeOf s.compressionLevel ≤ 65536 := by
    unfold sizeOf
    split_ifs <;> omega
  have hdec := decompress_spec (r := r) (g := s.historyBuffer) (p := src)
    (flagsOf_tests h.sender.level_le src.length).1 (by rw [hsize, hlevel, hsz])
    (by rw [hlevel, ← hsz]; exact hag) (by rw [hlevel, ← hsz, hptr]; exact hspelled)
    (by rw [hlevel]; exact hbits) hpad (by omega)
  simp only [hdec]
  refine ⟨trivial, trivial, trivial, ⟨⟨h.sender.level_le, h.sender.size_eq, hend⟩, hlevel, hsize,
    ?_, Or.inr ⟨hend, ?_⟩⟩, trivial⟩
  · simp only [hptr]
    exact hag.write src _
  · simp only [hptr]

/-- **MPPC loses nothing.** In a session of packets of the sizes the callers produce every call
returns 1 and every packet is received as it was sent.  A packet comes with the output buffer of
the call. -/
theorem mppc_session_lossless (level : ℕ) (packets : List (List UInt8 × List UInt8))
    (hsize : ∀ p ∈ packets, 50 < p.1.length ∧
      (if level = 0 then p.1.length ≤ 8172 else p.1.length < 16384) ∧ p.2.length = 65536) :
    session (fun s p => compress s p.1 p.2) decompress (contextNew level) (contextNew level)
      packets = packets.map fun p => ⟨1, 1, p.1⟩ := by
  -- the size of the history does not change in a session
  refine session_lossless Prod.fst
    (fun s r => Sync s r ∧ s.historyBufferSize = (contextNew level).historyBufferSize)
    (fun p => 50 < p.1.length ∧
      (if level = 0 then p.1.length ≤ 8172 else p.1.length < 16384) ∧ p.2.length = 65536)
    ?_ packets _ _ ⟨sync_new level, rfl⟩ hsize
  rintro s r ⟨src, dst⟩ ⟨hsync, hbuffer⟩ ⟨hmin, hmax, hdst⟩
  simp only at hmin hmax hdst ⊢
  have hnew : (contextNew level).historyBufferSize = if level < 1 then 8192 else 65536 := rfl
  have hlen : src.length + 4 ≤ s.historyBufferSize := by
    rw [hbuffer, hnew]
    split_ifs at hmax ⊢ <;> omega
  have hne : src ≠ [] := ne_nil_of_length_pos (by omega)
  have hdne : dst ≠ [] := ne_nil_of_length_pos (by omega)
  obtain ⟨h1, h2, h3, h4, h5⟩ := sync_step hsync hne hlen hdne
  exact ⟨h1, h2, h3, h4, h5.trans hbuffer⟩

/-- Two packets, the second of which repeats the first. -/
theorem mppc_session_lossless_repeat :
    session (fun s p => compress s p.1 p.2) decompress (contextNew 1) (contextNew 1)
      (List.replicate 2 (List.replicate 60 65, List.replicate 65536 0)) =
      (List.replicate 2 (List.replicate 60 65, List.replicate 65536 0)).map fun p => ⟨1, 1, p.1⟩ :=
  mppc_session_lossless 1 _ fun p hp => by
    rw [eq_of_mem_replicate hp]
    simp only [length_replicate]
    decide

end WBFreeRDP.Mppc

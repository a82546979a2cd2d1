/-
# The bit stream of the runtime library

`wBitStream` (`bitstream.h`) reads and writes bit fields through a 32-bit accumulator.
-/
import WBFreeRDP.Bits

namespace WBFreeRDP

open Bits List Nat

/-- A `wBitStream`.  `pointer` counts bytes from the start of the buffer, whose length is the
capacity; the scratch field `mask` is left out. -/
structure BitStream where
  buffer : List UInt8
  pointer : ℕ
  position : ℕ
  length : ℕ
  offset : ℕ
  prefetch : BitVec 32
  accumulator : BitVec 32

namespace BitStream

/-- A stream before it is attached (`BitStream_New`). -/
def empty : BitStream := ⟨[], 0, 0, 0, 0, 0, 0⟩

/-- `BitStream_Attach`; `position` and `length` are `UINT32`. -/
def attach (bs : BitStream) (buffer : List UInt8) : BitStream :=
  { bs with
    buffer := buffer
    pointer := 0
    position := 0
    length := buffer.length * 8 % 2 ^ 32
    offset := 0
    accumulator := 0 }

/-- The four bytes at `i`, as a big-endian word; a byte outside of the buffer counts as zero. -/
def wordAt (buffer : List UInt8) (i : ℕ) : BitVec 32 :=
  ((buffer.getD i 0).toBitVec.setWidth 32) <<< 24 |||
    ((buffer.getD (i + 1) 0).toBitVec.setWidth 32) <<< 16 |||
    ((buffer.getD (i + 2) 0).toBitVec.setWidth 32) <<< 8 |||
    ((buffer.getD (i + 3) 0).toBitVec.setWidth 32)

/-- `BitStream_Prefetch`. -/
def prefetchWord (bs : BitStream) : BitStream :=
  { bs with prefetch := wordAt bs.buffer (bs.pointer + 4) }

/-- `BitStream_Fetch`. -/
def fetch (bs : BitStream) : BitStream :=
  prefetchWord { bs with accumulator := wordAt bs.buffer bs.pointer }

/-- The mask of the low `n` bits. -/
def lowMask (n : ℕ) : BitVec 32 := BitVec.ofNat 32 ((1 <<< n) - 1)

/-- `BitStream_Shift`. -/
def shift (bs : BitStream) (nbits : ℕ) : BitStream :=
  if nbits = 0 then bs
  else if nbits < 32 then
    let accumulator := bs.accumulator <<< nbits |||
      ((bs.prefetch >>> (32 - nbits)) &&& lowMask nbits)
    let position := (bs.position + nbits) % 2 ^ 32
    let offset := bs.offset + nbits
    if offset < 32 then
      { bs with
        accumulator := accumulator
        position := position
        offset := offset
        prefetch := bs.prefetch <<< nbits }
    else
      let offset := offset - 32
      let bs := prefetchWord
        { bs with
          accumulator := accumulator
          position := position
          offset := offset
          pointer := bs.pointer + 4 }
      if offset ≠ 0 then
        { bs with
          accumulator := bs.accumulator ||| ((bs.prefetch >>> (32 - offset)) &&& lowMask offset)
          prefetch := bs.prefetch <<< offset }
      else bs
  else bs

/-- `BitStream_Shift32`. -/
def shift32 (bs : BitStream) : BitStream := (bs.shift 16).shift 16

/-- `BitStream_GetRemainingLength`: a difference of two `UINT32`. -/
def remainingLength (bs : BitStream) : ℕ := (bs.length + 2 ^ 32 - bs.position) % 2 ^ 32

/-- The byte of a word at the shift `k`. -/
def byteOf (x : BitVec 32) (k : ℕ) : UInt8 := UInt8.ofBitVec ((x >>> k).setWidth 8)

/-- `BitStream_Flush`: the accumulator is stored at the pointer, as far as the buffer goes. -/
def flush (bs : BitStream) : BitStream :=
  { bs with
    buffer := (((bs.buffer.set bs.pointer (byteOf bs.accumulator 24)).set (bs.pointer + 1)
      (byteOf bs.accumulator 16)).set (bs.pointer + 2) (byteOf bs.accumulator 8)).set
      (bs.pointer + 3) (byteOf bs.accumulator 0) }

def writeBits (bs : BitStream) (bits nbits : ℕ) : BitStream :=
  let position := (bs.position + nbits) % 2 ^ 32
  let offset := bs.offset + nbits
  let bits := BitVec.ofNat 32 bits
  if offset < 32 then
    { bs with
      position := position
      offset := offset
      accumulator := bs.accumulator ||| bits <<< (32 - offset) }
  else
    let offset := offset - 32
    let bs := flush
      { bs with
        position := position
        offset := offset
        accumulator := bs.accumulator ||| ((bits >>> offset) &&& lowMask (nbits - offset)) }
    { bs with
      pointer := bs.pointer + 4
      accumulator := if offset ≠ 0 then (bits &&& lowMask offset) <<< (32 - offset) else 0 }

/-! ## The reader -/

/-- The reader has exactly the bits `l` in front of it: they are the rest of the buffer, the
accumulator shows the first 32 of them and the prefetched word those behind. -/
structure Reads (bs : BitStream) (l : List Bool) : Prop where
  offset_lt : bs.offset < 32
  position_eq : bs.position = 8 * bs.pointer + bs.offset
  length_eq : bs.length = 8 * bs.buffer.length
  length_lt : bs.length < 2 ^ 32
  position_le : bs.position ≤ bs.length
  bits : l = (byteBits bs.buffer).drop bs.position
  accumulator : Window bs.accumulator l
  prefetch : ∀ i < 32, bs.prefetch.getMsbD i =
      (decide (i < 32 - bs.offset) && l.getD (32 + i) false)

variable {bs : BitStream}

theorem Reads.remainingLength_eq (h : bs.Reads l) : bs.remainingLength = l.length := by
  have h1 := h.length_eq
  have h2 := h.length_lt
  have h3 := h.position_le
  rw [remainingLength, h.bits, length_drop, byteBits_length]
  omega

theorem getMsbD_byte {b : UInt8} (k) (hk : k ≤ 24) : ((b.toBitVec.setWidth 32) <<< k).getMsbD i =
      (decide (24 - k ≤ i) && decide (i < 32 - k) && b.toNat.testBit (31 - k - i)) := by
  rw [BitVec.getMsbD_shiftLeft, BitVec.getMsbD_eq_getLsbD]
  by_cases h1 : i + k < 32
  swap
  · simp [h1, show ¬ i < 32 - k by omega]
  by_cases h2 : 24 - k ≤ i
  · simp only [h1, h2, show i < 32 - k by omega, show 32 - 1 - (i + k) = 31 - k - i by omega]
    rfl
  have hz : b.toNat.testBit (31 - k - i) = false :=
    testBit_lt_two_pow (lt_of_lt_of_le b.toNat_lt (Nat.pow_le_pow_right (by omega) (by omega)))
  have hz' : b.toBitVec.getLsbD (32 - 1 - (i + k)) = false := by
    rw [show 32 - 1 - (i + k) = 31 - k - i by omega]
    exact hz
  simp [hz', h2]

variable {i : ℕ}

theorem wordAt_getMsbD {buffer} {p} (hi : i < 32) :
    (wordAt buffer p).getMsbD i = (byteBits buffer).getD (8 * p + i) false := by
  have hlast : ((buffer.getD (p + 3) 0).toBitVec.setWidth 32 : BitVec 32) =
      ((buffer.getD (p + 3) 0).toBitVec.setWidth 32) <<< 0 := by rw [BitVec.shiftLeft_zero]
  rw [wordAt, hlast, BitVec.getMsbD_or, BitVec.getMsbD_or, BitVec.getMsbD_or,
    getMsbD_byte 24 (by omega), getMsbD_byte 16 (by omega), getMsbD_byte 8 (by omega),
    getMsbD_byte 0 (by omega)]
  -- bit `i` belongs to byte `i / 8`
  have hsplit : 8 * p + i = 8 * (p + i / 8) + i % 8 := by omega
  rw [hsplit, byteBits_getD _ (mod_lt _ (by omega))]
  have hq : i / 8 = 0 ∨ i / 8 = 1 ∨ i / 8 = 2 ∨ i / 8 = 3 := by omega
  rcases hq with hq | hq | hq | hq
  · simp [hq, show i < 8 by omega, show ¬ 16 ≤ i by omega,
      show ¬ 24 ≤ i by omega, show i % 8 = i by omega]
  · simp [hq, show ¬ i < 8 by omega, show 8 ≤ i by omega, show i < 16 by omega,
      show ¬ 24 ≤ i by omega, show 15 - i = 7 - i % 8 by omega]
  · simp [hq, show ¬ i < 8 by omega, show ¬ i < 16 by omega,
      show 16 ≤ i by omega, show i < 24 by omega,
      show 23 - i = 7 - i % 8 by omega]
  · simp [hq, show ¬ i < 8 by omega, show ¬ i < 16 by omega,
      show 24 ≤ i by omega, hi,
      show 31 - i = 7 - i % 8 by omega]

/-- **A fresh reader** has all bits of the buffer in front of it. -/
theorem reads_attach_fetch (bs : BitStream) (buffer : List UInt8)
    (h : buffer.length < 2 ^ 29) : (fetch (bs.attach buffer)).Reads (byteBits buffer) where
  offset_lt := by simp [fetch, prefetchWord, attach]
  position_eq := by simp [fetch, prefetchWord, attach]
  length_eq := by
    simp only [fetch, prefetchWord, attach]
    omega
  length_lt := by
    simp only [fetch, prefetchWord, attach]
    omega
  position_le := by simp [fetch, prefetchWord, attach]
  bits := by simp [fetch, prefetchWord, attach]
  accumulator := by
    intro i hi
    simp only [fetch, prefetchWord, attach]
    rw [wordAt_getMsbD hi, Nat.mul_zero, zero_add]
  prefetch := by
    intro i hi
    simp only [fetch, prefetchWord, attach]
    rw [wordAt_getMsbD hi]
    simp [hi]

@[simp] theorem lowMask_getMsbD (n i) (hn : n ≤ 32) :
    (lowMask n).getMsbD i = (decide (i < 32) && decide (32 - n ≤ i)) := by
  rw [lowMask, BitVec.getMsbD_eq_getLsbD, BitVec.getLsbD_ofNat, one_shiftLeft]
  by_cases h : i < 32
  · by_cases h2 : 32 - n ≤ i
    · simp [h2, show 32 - 1 - i < n by omega, show 32 - 1 - i < 32 by omega]
    · simp [h2, show ¬ 32 - 1 - i < n by omega]
  · simp [h]

theorem getMsbD_top {x : BitVec 32} (hn : n ≤ 32) (hi : i < 32) :
    ((x >>> (32 - n)) &&& lowMask n).getMsbD i =
      (decide (32 - n ≤ i) && x.getMsbD (i - (32 - n))) := by
  rw [BitVec.getMsbD_and, lowMask_getMsbD n i hn]
  by_cases h : 32 - n ≤ i
  · simp [h, hi]
  · simp [h]

theorem getD_drop (l : List Bool) (n i) : (l.drop n).getD i false = l.getD (n + i) false := by
  rw [getD_eq_getElem?_getD, getD_eq_getElem?_getD, List.getElem?_drop]

/-- The accumulator after its shift: the bits behind the first `n`, as far as the prefetched word
goes. -/
theorem Reads.shifted_accumulator (h : bs.Reads l) (hn : n < 32) (hi : i < 32) :
    (bs.accumulator <<< n ||| ((bs.prefetch >>> (32 - n)) &&& lowMask n)).getMsbD i =
      (decide (i + n < 64 - bs.offset) && (l.drop n).getD i false) := by
  have hoff := h.offset_lt
  rw [BitVec.getMsbD_or, BitVec.getMsbD_shiftLeft, getMsbD_top hn.le hi, getD_drop]
  by_cases hin : i + n < 32
  · rw [h.accumulator _ hin, add_comm n i]
    simp [show ¬ 32 - n ≤ i by omega, show i + n < 64 - bs.offset by omega]
  rw [h.prefetch _ (by omega), show 32 + (i - (32 - n)) = n + i by omega]
  have hacc : bs.accumulator.getMsbD (i + n) = false := BitVec.getMsbD_of_ge _ _ (by omega)
  rw [hacc]
  simp [show 32 - n ≤ i by omega, show (i - (32 - n) < 32 - bs.offset) ↔
    (i + n < 64 - bs.offset) by omega]

/-- **`BitStream_Shift`** consumes bits. -/
theorem Reads.shift (h : bs.Reads l) (hn : n < 32) (hl : n ≤ l.length) :
    (bs.shift n).Reads (l.drop n) := by
  have hoff := h.offset_lt
  have hpos := h.position_eq
  have hlen := h.length_lt
  have hle : bs.position + n ≤ bs.length := by
    have h1 := h.length_eq
    have h2 := h.position_le
    rw [h.bits, length_drop, byteBits_length] at hl
    omega
  have hmod : (bs.position + n) % 2 ^ 32 = bs.position + n := mod_eq_of_lt (by omega)
  have hbits : l.drop n = (byteBits bs.buffer).drop (bs.position + n) := by
    rw [h.bits, drop_drop]
  unfold BitStream.shift
  by_cases h0 : n = 0
  · rw [h0]
    exact h
  rw [if_neg h0, if_pos hn]
  simp only [hmod]
  by_cases hwrap : bs.offset + n < 32
  · -- the prefetched word has all the bits that are needed
    rw [if_pos hwrap]
    refine ⟨hwrap, by simp only; omega, h.length_eq, hlen, hle, hbits, ?_, ?_⟩
    · intro i hi
      rw [h.shifted_accumulator hn hi]
      simp [show i + n < 64 - bs.offset by omega]
    intro i hi
    rw [BitVec.getMsbD_shiftLeft]
    by_cases hin : i + n < 32
    · rw [h.prefetch _ hin, show 32 + (i + n) = n + (32 + i) by omega]
      simp [show (i + n < 32 - bs.offset) ↔ (i < 32 - (bs.offset + n)) by omega]
    · rw [BitVec.getMsbD_of_ge _ _ (by omega)]
      simp [show ¬ i < 32 - (bs.offset + n) by omega]
  -- the next word has to be prefetched
  obtain ⟨r, hr⟩ := Nat.exists_eq_add_of_le (Nat.le_of_not_lt hwrap)
  rw [if_neg hwrap]
  simp only [hr, Nat.add_sub_cancel_left]
  have hword : ∀ i < 32, (wordAt bs.buffer (bs.pointer + 4 + 4)).getMsbD i =
      (l.drop n).getD (32 - r + i) false := by
    intro i hi
    rw [wordAt_getMsbD hi, hbits, getD_drop]
    congr 1
    omega
  simp only [prefetchWord]
  by_cases hoff' : r = 0
  · rw [if_neg (not_not.mpr hoff')]
    refine ⟨by simp only; omega, by simp only; omega, h.length_eq, hlen, hle, hbits, ?_, ?_⟩
    · intro i hi
      rw [h.shifted_accumulator hn hi]
      simp [show i + n < 64 - bs.offset by omega]
    · intro i hi
      rw [hword i hi]
      simp [hoff', hi]
  rw [if_pos hoff']
  refine ⟨by simp only; omega, by simp only; omega, h.length_eq, hlen, hle, hbits, ?_, ?_⟩
  · intro i hi
    rw [BitVec.getMsbD_or, h.shifted_accumulator hn hi, getMsbD_top (by omega) hi]
    by_cases hin : i + n < 64 - bs.offset
    · simp [hin, show ¬ 32 - r ≤ i by omega]
    · rw [hword _ (by omega)]
      simp [show 32 - r ≤ i by omega]
  intro i hi
  rw [BitVec.getMsbD_shiftLeft]
  by_cases hin : i + r < 32
  · rw [hword _ hin, show 32 - r + (i + r) = 32 + i by
      omega]
    simp [show i < 32 - r by omega]
  · rw [BitVec.getMsbD_of_ge _ _ (by omega)]
    simp [show ¬ i < 32 - r by omega]

theorem Reads.shift_natBits (h : bs.Reads (natBits n v ++ l)) (hn : n < 32) :
    (bs.shift n).Reads l := by
  have hs := h.shift hn (by simp)
  rwa [drop_left' (natBits_length n v)] at hs

theorem Reads.shift32 (h : bs.Reads l) (hl : 32 ≤ l.length) : bs.shift32.Reads (l.drop 32) := by
  have h1 := h.shift (show 16 < 32 by omega) (by omega)
  have h2 := h1.shift (show 16 < 32 by omega) (by rw [length_drop]; omega)
  rwa [drop_drop] at h2

/-! ## The writer -/

/-- The writer has written the bits `w`: whole words of them are in the buffer, the rest is in the
accumulator. -/
structure Wrote (bs : BitStream) (w : List Bool) : Prop where
  offset_lt : bs.offset < 32
  position_eq : bs.position = w.length
  length_eq : w.length = 8 * bs.pointer + bs.offset
  length_le : w.length ≤ 8 * bs.buffer.length
  bits : ∀ i < 8 * bs.pointer, (byteBits bs.buffer).getD i false = w.getD i false
  accumulator : Window bs.accumulator (w.drop (8 * bs.pointer))

theorem wrote_attach {bs : BitStream} {buffer} : (bs.attach buffer).Wrote [] where
  offset_lt := by simp [attach]
  position_eq := by simp [attach]
  length_eq := by simp [attach]
  length_le := by simp
  bits := by simp [attach]
  accumulator := by
    intro i _
    simp [attach]

theorem byteOf_testBit (hk : k ≤ 24) (hj : j < 8) :
    (byteOf x k).toNat.testBit (7 - j) = x.getMsbD (24 - k + j) := by
  have hbit : (byteOf x k).toNat.testBit (7 - j) = ((x >>> k).setWidth 8).getLsbD (7 - j) := rfl
  rw [hbit, BitVec.getMsbD_eq_getLsbD]
  simp [show 7 - j < 8 by omega, show 24 - k + j < 32 by omega,
    show k + (7 - j) = 31 - (24 - k + j) by omega]

theorem byteBits_set_getD' (hi : i < 8 * l.length) : (byteBits (l.set p b)).getD i false =
      if i / 8 = p then b.toNat.testBit (7 - i % 8) else (byteBits l).getD i false := by
  by_cases hp : p < l.length
  · exact byteBits_set_getD l hp b i
  · rw [set_eq_of_length_le (by omega), if_neg (by omega)]

theorem flush_getD (bs : BitStream) (hi : i < 8 * bs.buffer.length) :
    (byteBits bs.flush.buffer).getD i false = if 8 * bs.pointer ≤ i ∧ i < 8 * bs.pointer + 32 then
        bs.accumulator.getMsbD (i - 8 * bs.pointer) else (byteBits bs.buffer).getD i false := by
  have hmod : i % 8 < 8 := mod_lt _ (by omega)
  simp only [flush]
  rw [byteBits_set_getD' (by simpa using hi), byteBits_set_getD' (by simpa using hi),
    byteBits_set_getD' (by simpa using hi), byteBits_set_getD' hi]
  by_cases hin : 8 * bs.pointer ≤ i ∧ i < 8 * bs.pointer + 32
  swap
  · rw [if_neg hin, if_neg (by omega), if_neg (by omega), if_neg (by omega), if_neg (by omega)]
  rw [if_pos hin]
  -- the bit belongs to one of the four bytes
  have hq : i / 8 = bs.pointer ∨ i / 8 = bs.pointer + 1 ∨ i / 8 = bs.pointer + 2 ∨
      i / 8 = bs.pointer + 3 := by omega
  rcases hq with hq | hq | hq | hq
  · rw [if_neg (by omega), if_neg (by omega), if_neg (by omega), if_pos hq,
      byteOf_testBit (by omega) hmod]
    congr 1
    omega
  · rw [if_neg (by omega), if_neg (by omega), if_pos hq, byteOf_testBit (by omega) hmod]
    congr 1
    omega
  · rw [if_neg (by omega), if_pos hq, byteOf_testBit (by omega) hmod]
    congr 1
    omega
  · rw [if_pos hq, byteOf_testBit (by omega) hmod]
    congr 1
    omega

theorem flush_length (bs : BitStream) : bs.flush.buffer.length = bs.buffer.length := by
  simp [flush]

theorem ofNat_getMsbD (v i) :
    (BitVec.ofNat 32 v).getMsbD i = (decide (i < 32) && v.testBit (31 - i)) := by
  rw [BitVec.getMsbD_eq_getLsbD, BitVec.getLsbD_ofNat]
  by_cases hi : i < 32
  · simp [show 31 - i < 32 by omega]
  · simp [hi]

theorem testBit_of_field (hv : v < 2 ^ n) (hj : n ≤ j) : v.testBit j = false :=
  testBit_lt_two_pow (lt_of_lt_of_le hv (Nat.pow_le_pow_right (by omega) hj))

theorem getD_append_field (hi : w.length ≤ i) : (w ++ natBits n v).getD i false =
      (decide (i - w.length < n) && v.testBit (n - 1 - (i - w.length))) := by
  rw [getD_append_right _ _ _ _ hi, natBits_getD]

theorem Wrote.accumulator_or (h : bs.Wrote w)
    (hy : ∀ i < 32, y.getMsbD i = (decide (bs.offset ≤ i) && decide (i - bs.offset < n) &&
      v.testBit (n - 1 - (i - bs.offset)))) :
    Window (bs.accumulator ||| y) ((w ++ natBits n v).drop (8 * bs.pointer)) := by
  intro i hi
  have hlen := h.length_eq
  rw [BitVec.getMsbD_or, h.accumulator i hi, hy i hi, getD_drop, getD_drop]
  by_cases hin : i < bs.offset
  · rw [getD_append _ _ _ _ (by omega)]
    simp [show ¬ bs.offset ≤ i by omega]
  rw [getD_append_field (by omega), getD_eq_default _ _ (by omega),
    show 8 * bs.pointer + i - w.length = i - bs.offset by omega]
  simp [show bs.offset ≤ i by omega]

/-- **`BitStream_Write_Bits`** appends a field. -/
theorem Wrote.writeBits (h : bs.Wrote w)
    (hv : v < 2 ^ n) (hn : n < 32) (hroom : w.length + n ≤ 8 * bs.buffer.length)
    (hsmall : w.length + n < 2 ^ 32) : (bs.writeBits v n).Wrote (w ++ natBits n v) := by
  have hoff := h.offset_lt
  have hlen := h.length_eq
  have hpos : (bs.position + n) % 2 ^ 32 = w.length + n := by
    rw [h.position_eq, mod_eq_of_lt hsmall]
  unfold BitStream.writeBits
  simp only [hpos]
  by_cases hfit : bs.offset + n < 32
  · rw [if_pos hfit]
    refine ⟨hfit, by simp, by simp only [length_append, natBits_length]; omega,
      by simp only [length_append, natBits_length]; omega, ?_, ?_⟩
    · intro i hi
      simp only at hi ⊢
      rw [h.bits i hi, getD_append _ _ _ _ (by omega)]
    refine h.accumulator_or ?_
    intro i hi
    rw [BitVec.getMsbD_shiftLeft, ofNat_getMsbD]
    by_cases hin : i < bs.offset
    · rw [testBit_of_field hv (by omega)]
      simp [show ¬ bs.offset ≤ i by omega]
    by_cases hlt : i - bs.offset < n
    · simp [show i + (32 - (bs.offset + n)) < 32 by omega, hlt, show bs.offset ≤ i by omega,
        show 31 - (i + (32 - (bs.offset + n))) = n - 1 - (i - bs.offset) by omega]
    · simp [hlt, show ¬ i + (32 - (bs.offset + n)) < 32 by omega]
  -- the accumulator is full and is stored
  obtain ⟨r, hr⟩ := Nat.exists_eq_add_of_le (Nat.le_of_not_lt hfit)
  rw [if_neg hfit]
  simp only [hr, Nat.add_sub_cancel_left]
  have hfull : Window (bs.accumulator ||| ((BitVec.ofNat 32 v >>> r) &&&
      lowMask (n - r))) ((w ++ natBits n v).drop (8 * bs.pointer)) := by
    refine h.accumulator_or ?_
    intro i hi
    rw [BitVec.getMsbD_and, BitVec.getMsbD_ushiftRight, lowMask_getMsbD _ _ (by omega),
      ofNat_getMsbD]
    by_cases hin : bs.offset ≤ i
    · simp [hin, hi, show i - bs.offset < n by omega, show ¬ i < r by omega,
        show i - r < 32 by omega, show 32 - (n - r) ≤ i by omega,
          show 31 - (i - r) = n - 1 - (i - bs.offset) by omega]
    · simp [hin, show ¬ 32 - (n - r) ≤ i by omega]
  refine ⟨by simp only [flush]; omega, by simp [flush], ?_, ?_, ?_, ?_⟩
  · simp only [flush, length_append, natBits_length]
    omega
  · simp only [flush_length, length_append, natBits_length]
    exact hroom
  · intro i hi
    simp only [flush] at hi
    rw [flush_getD _ (by simp only; omega)]
    simp only
    by_cases hold : i < 8 * bs.pointer
    · rw [if_neg (by omega), h.bits i hold, getD_append _ _ _ _ (by omega)]
    · rw [if_pos (by omega), hfull _ (by omega), getD_drop, Nat.add_sub_cancel' (by omega)]
  · intro i hi
    simp only [flush]
    rw [getD_drop, getD_append_field (by omega)]
    by_cases h0 : r = 0
    · rw [if_neg (not_not.mpr h0)]
      simp [show ¬ 8 * (bs.pointer + 4) + i - w.length < n by omega]
    rw [if_pos h0, BitVec.getMsbD_shiftLeft, BitVec.getMsbD_and, ofNat_getMsbD,
      lowMask_getMsbD _ _ (by omega)]
    by_cases hin : i < r
    · simp [show i + (32 - r) < 32 by omega, show 8 * (bs.pointer + 4) + i - w.length < n by omega,
        show 31 - (i + (32 - r)) = n - 1 - (8 * (bs.pointer + 4) + i - w.length) by omega]
    · simp [show ¬ i + (32 - r) < 32 by omega,
        show ¬ 8 * (bs.pointer + 4) + i - w.length < n by omega]

theorem writeBits_length (bs : BitStream) (v n) :
    (bs.writeBits v n).buffer.length = bs.buffer.length := by
  unfold BitStream.writeBits
  by_cases hfit : bs.offset + n < 32
  · simp [if_pos hfit]
  · simp only [if_neg hfit]
    exact flush_length _

/-- **`BitStream_Flush`** after the last field: the bytes that hold the bits written, padded with
zeros. -/
theorem Wrote.flush_take (h : bs.Wrote w) :
    byteBits (bs.flush.buffer.take ((bs.position + 7) / 8)) =
      w ++ replicate (8 * ((w.length + 7) / 8) - w.length) false ∧
    (bs.flush.buffer.take ((bs.position + 7) / 8)).length = (w.length + 7) / 8 := by
  have hle := h.length_le
  have hlen := h.length_eq
  have hoff := h.offset_lt
  have hlength : (bs.flush.buffer.take ((bs.position + 7) / 8)).length = (w.length + 7) / 8 := by
    rw [length_take, flush_length, h.position_eq]
    omega
  refine ⟨?_, hlength⟩
  have hall := byteBits_length (bs.flush.buffer.take ((bs.position + 7) / 8))
  rw [hlength] at hall
  have heq := eq_append_replicate_false
    (a := byteBits (bs.flush.buffer.take ((bs.position + 7) / 8))) (b := w) (by omega) ?_
  · rwa [hall] at heq
  intro i
  rw [← byteBits_take, getD_eq_getElem?_getD, List.getElem?_take, h.position_eq]
  by_cases hi : i < 8 * ((w.length + 7) / 8)
  · rw [if_pos hi, ← getD_eq_getElem?_getD, flush_getD bs (by omega)]
    by_cases hold : i < 8 * bs.pointer
    · rw [if_neg (by omega), h.bits i hold]
    · rw [if_pos (by omega), h.accumulator _ (by omega), getD_drop, Nat.add_sub_cancel' (by omega)]
  · rw [if_neg hi, getD_eq_default _ _ (by omega), Option.getD_none]

end BitStream

end WBFreeRDP

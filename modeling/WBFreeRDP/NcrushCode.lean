/-
# What NCRUSH writes it reads

The sender's bit stream is a list of fields, and so is the receiver's.  A token of the sender, a
literal or a match, is a few fields; the receiver reads the token back and has the fields behind it
before it.
-/
import WBFreeRDP.Ncrush

namespace WBFreeRDP.Ncrush

open History LowBits List Nat Option

/-! ## The sender's bit stream -/

/-- The fields that were written: what the bytes and the accumulator form. -/
structure Writer.Wrote (w : Writer) (fs : List Field) : Prop where
  value : bytesNat w.dst + 2 ^ (8 * w.dst.length) * w.accumulator = fieldsNat fs
  width : 8 * w.dst.length + w.offset = fieldsWidth fs
  small : w.accumulator < 2 ^ w.offset
  offset_lt : w.offset < 16

theorem bytesNat_low (a) :
    bytesNat [UInt8.ofNat (a &&& 0xFF), UInt8.ofNat ((a >>> 8) &&& 0xFF)] = a % 65536 := by
  have hmask (x : ℕ) : x &&& 0xFF = x % 256 := and_two_pow_sub_one_eq_mod x 8
  rw [bytesNat_cons, bytesNat_cons, bytesNat_nil, hmask, hmask,
    UInt8.toNat_ofNat', UInt8.toNat_ofNat']
  omega

variable {w : Writer} {fs : List Field} {f : Field}

/-- **Writing a field.** -/
theorem Writer.Wrote.writeBits (h : w.Wrote fs) (hf : Fits f) (hn : f.2 ≤ 16) :
    (w.writeBits f.1 f.2).Wrote (fs ++ [f]) ∧
    (w.writeBits f.1 f.2).dst.length ≤ w.dst.length + 2 := by
  obtain ⟨v, n⟩ := f
  have hoff := h.offset_lt
  -- the field goes above the bits of the accumulator
  have hbound : v * 2 ^ w.offset + w.accumulator < 2 ^ (w.offset + n) := by
    have h1 : (v + 1) * 2 ^ w.offset ≤ 2 ^ n * 2 ^ w.offset := mul_le_mul_right _ hf
    have h2 := h.small
    rw [pow_add, mul_comm (2 ^ w.offset)]
    rw [add_mul] at h1
    omega
  have hword : 2 ^ (w.offset + n) ≤ 2 ^ 32 := Nat.pow_le_pow_right (by omega) (by omega)
  have hacc : w.accumulator ||| (v <<< w.offset) % 2 ^ 32 = v * 2 ^ w.offset + w.accumulator := by
    rw [shiftLeft_eq, mod_eq_of_lt (by omega), Nat.or_comm, Nat.mul_comm,
      two_pow_add_eq_or_of_lt h.small]
  have hvalue : bytesNat w.dst + 2 ^ (8 * w.dst.length) * (v * 2 ^ w.offset + w.accumulator) =
      fieldsNat (fs ++ [(v, n)]) := by
    rw [fieldsNat_append, ← h.value, ← h.width]
    simp only [fieldsNat]
    ring
  have hwidth : 8 * w.dst.length + (w.offset + n) = fieldsWidth (fs ++ [(v, n)]) := by
    rw [fieldsWidth_append, ← h.width, fieldsWidth_cons, fieldsWidth_nil]
    omega
  simp only [Writer.writeBits, hacc]
  generalize v * 2 ^ w.offset + w.accumulator = a at hbound hvalue
  by_cases hfull : w.offset + n ≥ 16
  swap
  · simp only [if_neg hfull]
    exact ⟨⟨hvalue, hwidth, hbound, Nat.lt_of_not_le hfull⟩, le_add_right _ _⟩
  have hhigh : a >>> 16 = a / 65536 := shiftRight_eq_div_pow a 16
  simp only [if_pos hfull]
  refine ⟨⟨?_, ?_, ?_, ?_⟩, ?_⟩
  · simp only [bytesNat_append, bytesNat_low, length_append, hhigh]
    calc bytesNat w.dst + 2 ^ (8 * w.dst.length) * (a % 65536) +
          2 ^ (8 * (w.dst.length + (0 + 1 + 1))) * (a / 65536)
        = bytesNat w.dst + 2 ^ (8 * w.dst.length) * (a % 65536 + 65536 * (a / 65536)) := by ring
      _ = fieldsNat (fs ++ [(v, n)]) := by rw [mod_add_div, hvalue]
  · simp only [length_append, length_cons, length_nil]
    omega
  · simp only [hhigh]
    rw [div_lt_iff_lt_mul (by omega), show 65536 = 2 ^ 16 from rfl, ← pow_add,
      Nat.sub_add_cancel hfull]
    exact hbound
  · simp only
    omega
  · rw [length_append]
    rfl

theorem Writer.Wrote.finish (h : w.Wrote fs) :
    bytesNat w.finish = fieldsNat fs ∧ fieldsWidth fs ≤ 8 * w.finish.length ∧
      w.finish.length = w.dst.length + 2 := by
  have hoff := h.offset_lt
  have hlt : w.accumulator < 65536 :=
    lt_of_lt_of_le h.small (Nat.pow_le_pow_right (by omega) (show w.offset ≤ 16 by omega))
  have hlen : w.finish.length = w.dst.length + 2 := by
    rw [Writer.finish, length_append]
    rfl
  refine ⟨?_, ?_, hlen⟩
  · rw [Writer.finish, bytesNat_append, bytesNat_low, mod_eq_of_lt hlt, h.value]
  · rw [← h.width]
    omega

/-! ## The receiver's bit stream -/

/-- The fields before the receiver, with `n` bits fetched; what is behind the fields is zero. -/
structure Reader.ReadsAt (r : Reader) (n : ℕ) (fs : List Field) : Prop where
  nbits_eq : r.nbits = n
  nbits_le : n ≤ 32
  small : r.bits < 2 ^ n
  value : r.bits + 2 ^ n * bytesNat r.src = fieldsNat fs
  width : fieldsWidth fs ≤ n + 8 * r.src.length

/-- The fields before the receiver: sixteen bits are there, or all that are left. -/
def Reader.Reads (r : Reader) (fs : List Field) : Prop :=
  ∃ n, r.ReadsAt n fs ∧ (16 ≤ n ∨ r.src = [])

variable {r : Reader}

theorem Reader.ReadsAt.fetchBits (h : r.ReadsAt n fs) :
    ∃ r', r.fetchBits = some r' ∧ r'.Reads fs := by
  obtain ⟨src, nbits, bits⟩ := r
  obtain ⟨rfl, hle, hsmall, hvalue, hwidth⟩ := h
  simp only at hsmall hvalue hwidth
  unfold Reader.fetchBits
  by_cases hn : n < 16
  swap
  · rw [if_neg (by simp only; omega)]
    exact ⟨_, rfl, n, ⟨rfl, hle, hsmall, hvalue, hwidth⟩, Or.inl (by omega)⟩
  rw [if_pos (by simp only; omega)]
  -- what is fetched stands above the bits
  have hgrow (k v : ℕ) (hk : k ≤ 16) (hv : v < 2 ^ k) :
      bits + v <<< n < 2 ^ (n + k) ∧ 2 ^ (n + k) ≤ 2 ^ 32 := by
    have h1 : 2 ^ n * (v + 1) ≤ 2 ^ n * 2 ^ k := mul_le_mul_left _ hv
    refine ⟨?_, Nat.pow_le_pow_right (by omega) (by omega)⟩
    rw [shiftLeft_eq, pow_add, mul_comm v]
    rw [mul_add] at h1
    omega
  rcases src with _ | ⟨b, _ | ⟨b', rest⟩⟩
  · refine ⟨⟨[], n, bits⟩, ?_, n, ⟨rfl, hle, hsmall, hvalue, hwidth⟩, Or.inr rfl⟩
    simp only
    rw [if_neg (by omega)]
  · obtain ⟨hlt, hword⟩ := hgrow 8 b.toNat (by omega) b.toNat_lt
    refine ⟨_, rfl, n + 8, ⟨rfl, by omega, ?_, ?_, ?_⟩, Or.inr rfl⟩
    · simp only [Int.toNat_natCast]
      rw [mod_eq_of_lt (by omega)]
      exact hlt
    · simp only [Int.toNat_natCast]
      rw [mod_eq_of_lt (by omega), ← hvalue, bytesNat_cons, shiftLeft_eq]
      ring
    · omega
  have hb := b.toNat_lt
  have hb' := b'.toNat_lt
  have hor : b.toNat ||| b'.toNat <<< 8 = b.toNat + 256 * b'.toNat := by
    rw [Nat.or_comm, ← shiftLeft_add_eq_or_of_lt (i := 8) hb]
    omega
  obtain ⟨hlt, hword⟩ := hgrow 16 (b.toNat + 256 * b'.toNat) le_rfl (by omega)
  have hmod : (bits + (b.toNat ||| b'.toNat <<< 8) <<< n % 2 ^ 32) % 2 ^ 32 =
      bits + (b.toNat + 256 * b'.toNat) <<< n := by
    rw [hor, mod_eq_of_lt (show (b.toNat + 256 * b'.toNat) <<< n < 2 ^ 32 by omega),
      mod_eq_of_lt (by omega)]
  refine ⟨_, rfl, n + 16, ⟨rfl, by omega, ?_, ?_, ?_⟩, Or.inl (by omega)⟩
  · simp only [Int.toNat_natCast]
    rw [hmod]
    exact hlt
  · simp only [Int.toNat_natCast]
    rw [hmod, ← hvalue, bytesNat_cons, bytesNat_cons, shiftLeft_eq]
    ring
  · simp only [length_cons] at hwidth ⊢
    omega

theorem reads_start (hlen : 4 ≤ src.length)
    (hvalue : bytesNat src = fieldsNat fs) (hwidth : fieldsWidth fs ≤ 8 * src.length) :
    Reader.Reads ⟨src.drop 4, 32, bytesNat (src.take 4)⟩ fs := by
  have htake : (src.take 4).length = 4 := by
    rw [length_take]
    omega
  refine ⟨32, ⟨rfl, le_rfl, ?_, ?_, ?_⟩, Or.inl (by omega)⟩
  · have := ofDigits_lt_base_pow_length (b := 256) (l := (src.take 4).map UInt8.toNat) (by omega)
      (by intro x hx; obtain ⟨b, -, rfl⟩ := mem_map.mp hx; exact b.toNat_lt)
    rw [length_map, htake] at this
    exact this
  · rw [← hvalue]
    conv_rhs => rw [← take_append_drop 4 src]
    rw [bytesNat_append, htake]
  · simp only [length_drop]
    omega

/-- The low bits that the receiver has are those of the fields. -/
theorem Reader.Reads.masked (h : r.Reads fs) (hk : k ≤ 16) :
    r.bits &&& maskOf k = fieldsNat fs % 2 ^ k := by
  obtain ⟨n, hat, hfull⟩ := h
  rw [maskOf, getWord_huffTableMask k (by omega), and_two_pow_sub_one_eq_mod, ← hat.value]
  rcases hfull with hn | hsrc
  · obtain ⟨d, hd⟩ := pow_dvd_pow 2 (hk.trans hn)
    rw [hd, mul_assoc, add_mul_mod_self_left]
  · rw [hsrc, bytesNat_nil, Nat.mul_zero, add_zero]

/-- **Reading a field.** -/
theorem Reader.Reads.field (h : r.Reads (f :: fs)) (hf : Fits f) (hn : f.2 ≤ 16) :
    r.bits &&& maskOf f.2 = f.1 ∧ ∃ r', r.skip f.2 = some r' ∧ r'.Reads fs := by
  refine ⟨by rw [h.masked hn, fieldsNat_cons_mod hf], ?_⟩
  obtain ⟨n, hat, hfull⟩ := h
  have hwidth := hat.width
  rw [fieldsWidth_cons] at hwidth
  have hle : f.2 ≤ n := by
    rcases hfull with h16 | hsrc
    · exact hn.trans h16
    · rw [hsrc, length_nil] at hwidth
      omega
  have hnbits := hat.nbits_eq
  have hmax := hat.nbits_le
  have hsplit : 2 ^ n = 2 ^ f.2 * 2 ^ (n - f.2) := by rw [← pow_add, Nat.add_sub_cancel' hle]
  have hskip : Reader.ReadsAt { r with bits := r.bits >>> f.2, nbits := r.nbits - f.2 } (n - f.2)
      fs := by
    refine ⟨by simp only; omega, by omega, ?_, ?_, by simp only; omega⟩
    · simp only [shiftRight_eq_div_pow]
      rw [div_lt_iff_lt_mul (Nat.two_pow_pos _), mul_comm, ← hsplit]
      exact hat.small
    · simp only [shiftRight_eq_div_pow]
      rw [← fieldsNat_cons_div hf fs, ← hat.value, hsplit, mul_assoc,
        add_mul_div_left _ _ (Nat.two_pow_pos _)]
  exact hskip.fetchBits

theorem Reader.Reads.field_zero (h : r.Reads (f :: fs))
    (hf : Fits f) (hzero : f.2 = 0) : f.1 = 0 ∧ r.Reads fs := by
  obtain ⟨n, ⟨h1, h2, h3, h4, h5⟩, hfull⟩ := h
  have hval : f.1 = 0 := by
    unfold Fits at hf
    rw [hzero] at hf
    omega
  rw [fieldsNat, hval, hzero, pow_zero, zero_add, one_mul] at h4
  rw [fieldsWidth_cons] at h5
  exact ⟨hval, n, ⟨h1, h2, h3, h4, by omega⟩, hfull⟩

/-! ## Tokens -/

/-- What the sender writes: a literal, or a match whose offset is in the cache or is not. -/
inductive Token where
  | literal (b : UInt8)
  | cached (index lengthOfMatch : ℕ)
  | fresh (copyOffset lengthOfMatch : ℕ)

def lengthClass (len : ℕ) : ℕ := tables.huffTableLOM.getD len 0

def offsetClass (copyOffset : ℕ) : ℕ :=
  tables.huffTableCopyOffset.getD (copyOffsetSlot copyOffset) 0

/-- A length: the code of its class, and its low bits. -/
def lengthFields (len : ℕ) : List Field :=
  [codeLOM (lengthClass len),
    ((len - 2) % 2 ^ lomBits.getD (lengthClass len) 0, lomBits.getD (lengthClass len) 0)]

/-- The low bits of an offset. -/
def offsetLow (copyOffset : ℕ) : Field :=
  (copyOffset % 2 ^ copyOffsetBits.getD (offsetClass copyOffset) 0,
    copyOffsetBits.getD (offsetClass copyOffset) 0)

/-- A token as fields of bits. -/
def tokenFields : Token → List Field
  | .literal b => [codeLEC b.toNat]
  | .cached index len => codeLEC (289 + index) :: lengthFields len
  | .fresh copyOffset len =>
    codeLEC (257 + offsetClass copyOffset) :: offsetLow copyOffset :: lengthFields len

def endField : Field := codeLEC 256

/-! ## Low bits fit -/

theorem fits_mod (v n) : Fits (v % 2 ^ n, n) := mod_lt _ (Nat.two_pow_pos n)

theorem lomBits_le : ∀ i < 30, lomBits.getD i 0 ≤ 14 := by decide

theorem copyOffsetBits_le : ∀ i < 32, copyOffsetBits.getD i 0 ≤ 14 := by decide

variable {s : ℕ}

theorem codeLEC_spec (hs : s < 294) :
    5 ≤ (codeLEC s).2 ∧ (codeLEC s).2 ≤ 13 ∧ Fits (codeLEC s) := by
  obtain ⟨h5, h13, hfits, -⟩ := codeLEC_check s hs
  exact ⟨h5, h13, hfits⟩

theorem codeLOM_spec (hs : s < 32) : (codeLOM s).2 ≤ 9 ∧ Fits (codeLOM s) := by
  obtain ⟨h9, hfits, -⟩ := codeLOM_check s hs
  exact ⟨h9, hfits⟩

/-! ## The sender writes tokens -/

theorem putLEC_wrote (h : w.Wrote fs) (limit) (status) (hlimit : 13 ≤ limit) (hs : s < 294) :
    ∃ w', putLEC limit status w s = .ok w' ∧ w'.Wrote (fs ++ [codeLEC s]) ∧
      w'.dst.length ≤ w.dst.length + 2 := by
  obtain ⟨-, hlen, hfits⟩ := codeLEC_spec hs
  unfold putLEC
  rw [if_neg (by omega), if_neg (by omega)]
  exact ⟨_, rfl, h.writeBits hfits (by omega)⟩

variable {len : ℕ}

theorem putLength_wrote (h : w.Wrote fs) (status) (h2 : 2 ≤ len) (hlen : len < 770) :
    ∃ w', putLength tables status w len = .ok w' ∧ w'.Wrote (fs ++ lengthFields len) ∧
      w'.dst.length ≤ w.dst.length + 4 := by
  obtain ⟨hclass, hval⟩ := lomClass_spec h2 hlen
  change lengthClass len < 28 at hclass
  change (len - 2) % 2 ^ lomBits.getD (lengthClass len) 0 + lomBase.getD (lengthClass len) 0 = len
    at hval
  obtain ⟨hcode, hfits⟩ := codeLOM_spec (show lengthClass len < 32 by omega)
  have hbits := lomBits_le (lengthClass len) (by omega)
  obtain ⟨hw1, hl1⟩ := h.writeBits hfits (by omega)
  obtain ⟨hw2, hl2⟩ := hw1.writeBits
    (fits_mod (len - 2) (lomBits.getD (lengthClass len) 0)) (by omega)
  unfold putLength
  rw [if_neg (show ¬ len - 2 ≥ 768 by omega)]
  change ∃ w', (if lengthClass len ≥ 30 then _ else _) = _ ∧ _
  rw [if_neg (by omega)]
  simp only [and_two_pow_sub_one_eq_mod]
  change ∃ w', (if (len - 2) % 2 ^ lomBits.getD (lengthClass len) 0 +
    lomBase.getD (lengthClass len) 0 ≠ len then _ else _) = _ ∧ _
  rw [if_neg (not_not.mpr hval)]
  rw [append_assoc] at hw2
  exact ⟨_, rfl, hw2, hl2.trans (Nat.add_le_add_right hl1 2)⟩

variable {copyOffset : ℕ}

theorem putOffset_wrote (h : w.Wrote fs) (hoff : copyOffset < 65536) :
    ∃ w', putOffset tables w copyOffset = .ok w' ∧
      w'.Wrote (fs ++ [codeLEC (257 + offsetClass copyOffset), offsetLow copyOffset]) ∧
      w'.dst.length ≤ w.dst.length + 4 := by
  obtain ⟨hclass, -⟩ := copyOffsetClass_spec hoff
  change offsetClass copyOffset < 32 at hclass
  have hbits := copyOffsetBits_le (offsetClass copyOffset) hclass
  obtain ⟨w1, hput, hw1, hl1⟩ := putLEC_wrote h 15 (-1008) (by omega)
    (show 257 + offsetClass copyOffset < 294 by omega)
  obtain ⟨hw2, hl2⟩ := hw1.writeBits
    (fits_mod copyOffset (copyOffsetBits.getD (offsetClass copyOffset) 0)) (by omega)
  change ∃ w', (if offsetClass copyOffset ≥ 32 then _ else
    (putLEC 15 (-1008) w (257 + offsetClass copyOffset)).bind _) = _ ∧ _
  rw [if_neg (by omega), hput]
  simp only [and_two_pow_sub_one_eq_mod]
  change ∃ w', (if copyOffsetBits.getD (offsetClass copyOffset) 0 > 18 then _ else _) = _ ∧ _
  rw [if_neg (by omega)]
  rw [append_assoc] at hw2
  exact ⟨_, rfl, hw2, hl2.trans (Nat.add_le_add_right hl1 2)⟩

/-- The token of a match, and the cache after it. -/
def matchToken (cache : Cache) (copyOffset len : ℕ) : Token × Cache :=
  match cache.find copyOffset with
  | some index => (.cached index len, cache.swap index)
  | none => (.fresh copyOffset len, cache.push copyOffset)

theorem Cache.find_spec {c : Cache} (h : c.find copyOffset = some index) :
    index < 4 ∧ c.get index = copyOffset := by
  unfold Cache.find at h
  split_ifs at h with h3 h2 h1 h0 <;> cases h
  · exact ⟨by omega, h3.symm⟩
  · exact ⟨by omega, h2.symm⟩
  · exact ⟨by omega, h1.symm⟩
  · exact ⟨by omega, h0.symm⟩

/-- **A match is written.** -/
theorem putMatch_wrote (h : w.Wrote fs) (cache : Cache)
    (hoff : copyOffset < 65536) (h2 : 2 ≤ len) (hlen : len < 770) :
    ∃ w', putMatch tables cache w copyOffset len = .ok ((matchToken cache copyOffset len).2, w') ∧
      w'.Wrote (fs ++ tokenFields (matchToken cache copyOffset len).1) ∧
      w'.dst.length ≤ w.dst.length + 8 := by
  unfold putMatch matchToken
  rcases hfind : cache.find copyOffset with _ | index
  · obtain ⟨w1, hput1, hw1, hl1⟩ := putOffset_wrote h hoff
    obtain ⟨w2, hput2, hw2, hl2⟩ := putLength_wrote hw1 (-1010) h2 hlen
    rw [append_assoc] at hw2
    simp only [hput1, Except.bind, hput2]
    exact ⟨w2, rfl, hw2, by omega⟩
  obtain ⟨hindex, -⟩ := Cache.find_spec hfind
  obtain ⟨w1, hput1, hw1, hl1⟩ := putLEC_wrote h 14 (-1011) (by omega)
    (show 289 + index < 294 by omega)
  obtain ⟨w2, hput2, hw2, hl2⟩ := putLength_wrote hw1 (-1012) h2 hlen
  rw [append_assoc] at hw2
  simp only [hput1, Except.bind, hput2]
  exact ⟨w2, rfl, hw2, by omega⟩

/-! ## The receiver reads tokens -/

theorem Reader.Reads.lookup (h : r.Reads (f :: fs))
    (hdec : Decodes table k f e) (hf : Fits f) (hn : f.2 ≤ k)
    (hk : k ≤ 16) : r.bits &&& maskOf k < 2 ^ k ∧ table (r.bits &&& maskOf k) = e := by
  rw [h.masked hk]
  exact ⟨mod_lt _ (Nat.two_pow_pos k), hdec.lookup hf hn fs⟩

/-- **A length is read.** -/
theorem readLength_reads (h2 : 2 ≤ len) (hlen : len < 770)
    (h : r.Reads (lengthFields len ++ fs)) : ∃ r', readLength r = some (len, r') ∧ r'.Reads fs := by
  obtain ⟨hclass, hval⟩ := lomClass_spec h2 hlen
  change lengthClass len < 28 at hclass
  change (len - 2) % 2 ^ lomBits.getD (lengthClass len) 0 + lomBase.getD (lengthClass len) 0 = len
    at hval
  have hclass' : lengthClass len < 32 := by omega
  obtain ⟨hcode, hfits⟩ := codeLOM_spec hclass'
  have hbits := lomBits_le (lengthClass len) (by omega)
  obtain ⟨hindex, hentry⟩ := h.lookup (decodes_LOM hclass') hfits hcode (by omega)
  obtain ⟨hlow, hhigh⟩ := entry_parts (codeLOM (lengthClass len)).2
    (show lengthClass len < 4096 by omega)
  obtain ⟨-, r1, hskip1, hr1⟩ := h.field hfits (by omega)
  have hlowfits := fits_mod (len - 2) (lomBits.getD (lengthClass len) 0)
  simp only [readLength, hentry, hlow, hhigh, hskip1, bind_some]
  rw [if_neg (by omega), if_neg (by omega)]
  by_cases hzero : lomBits.getD (lengthClass len) 0 = 0
  · obtain ⟨hv, hr2⟩ := hr1.field_zero hlowfits hzero
    rw [if_neg (not_not.mpr hzero)]
    refine ⟨r1, ?_, hr2⟩
    rw [show lomBase.getD (lengthClass len) 0 = len by omega]
  obtain ⟨hmask, r2, hskip2, hr2⟩ := hr1.field hlowfits (by omega)
  rw [if_pos hzero, if_neg (by omega)]
  refine ⟨r2, ?_, hr2⟩
  rw [hskip2, hmask, map_some, add_comm, hval]

/-- **The low bits of a copy offset are read.** -/
theorem readOffset_reads (hoff : copyOffset < 65536) (h : r.Reads (offsetLow copyOffset :: fs)) :
    ∃ r', readOffset r (offsetClass copyOffset) = some (copyOffset, r') ∧ r'.Reads fs := by
  obtain ⟨hclass, hval⟩ := copyOffsetClass_spec hoff
  change copyOffset % 2 ^ copyOffsetBits.getD (offsetClass copyOffset) 0 +
    copyOffsetBase.getD (offsetClass copyOffset) 0 = copyOffset + 1 at hval
  have hbits := copyOffsetBits_le (offsetClass copyOffset) hclass
  have hfits : Fits (offsetLow copyOffset) := fits_mod _ _
  unfold readOffset
  by_cases hzero : copyOffsetBits.getD (offsetClass copyOffset) 0 = 0
  · obtain ⟨hv, hr1⟩ := h.field_zero hfits hzero
    refine ⟨r, ?_, hr1⟩
    simp only [offsetLow] at hv
    simp only [if_neg (not_not.mpr hzero)]
    rw [show copyOffsetBase.getD (offsetClass copyOffset) 0 - 1 = copyOffset by omega]
  obtain ⟨hmask, r1, hskip, hr1⟩ := h.field hfits (show _ ≤ 16 by simp only [offsetLow]; omega)
  refine ⟨r1, ?_, hr1⟩
  simp only [offsetLow] at hmask hskip
  simp only [if_pos (show copyOffsetBits.getD (offsetClass copyOffset) 0 ≠ 0 from hzero),
    hmask, hskip]
  rw [if_neg (by omega), if_neg (by omega), map_some, add_comm, hval, Nat.add_sub_cancel]

/-- A round of the receiver starts with the code of a symbol. -/
theorem decompressStep_symbol (historyEnd : ℕ) (hs : s < 294)
    (h : st.input.Reads (codeLEC s :: fs)) :
    ∃ r', r'.Reads fs ∧ decompressStep historyEnd st = if s < 256 then
        if st.historyPtr ≥ historyEnd then (.failed (-1003), { st with input := r' })
        else (.more, { st with
          historyBuffer := set st.historyBuffer st.historyPtr (UInt8.ofNat s)
          historyPtr := st.historyPtr + 1
          input := r' })
      else if s = 256 then (.done, { st with input := r' })
      else decompressMatch historyEnd { st with input := r' } s := by
  obtain ⟨-, hlen, hfits⟩ := codeLEC_spec hs
  obtain ⟨hindex, hentry⟩ := h.lookup (decodes_LEC hs) hfits hlen (by omega)
  obtain ⟨hlow, hhigh⟩ := entry_parts (codeLEC s).2 (show s < 4096 by omega)
  obtain ⟨-, r', hskip, hr⟩ := h.field hfits (by omega)
  refine ⟨r', hr, ?_⟩
  -- the low byte of an entry is the low byte of its symbol
  have hbyte : UInt8.ofNat (((codeLEC s).2 <<< 12 ||| s) &&& 0xFF) = UInt8.ofNat s := by
    conv_rhs => rw [← hlow]
    have h8 (x : ℕ) : x &&& 0xFF = x % 2 ^ 8 := and_two_pow_sub_one_eq_mod x 8
    have h12 (x : ℕ) : x &&& 0xFFF = x % 2 ^ 12 := and_two_pow_sub_one_eq_mod x 12
    rw [← UInt8.toNat_inj, UInt8.toNat_ofNat', UInt8.toNat_ofNat', h8, h12]
    omega
  simp only [decompressStep, hentry, hlow, hhigh, hskip, hbyte]
  rw [if_neg (by omega)]

/-- **A literal is read.** -/
theorem decompressStep_literal (st : Receiving)
    (hroom : st.historyPtr < historyEnd) (h : st.input.Reads (tokenFields (.literal b) ++ fs)) :
    ∃ r', r'.Reads fs ∧ decompressStep historyEnd st = (.more, { st with
      historyBuffer := set st.historyBuffer st.historyPtr b
      historyPtr := st.historyPtr + 1
      input := r' }) := by
  have hb : b.toNat < 256 := b.toNat_lt
  obtain ⟨r', hr, hstep⟩ := decompressStep_symbol historyEnd
    (show b.toNat < 294 by omega) h
  refine ⟨r', hr, ?_⟩
  rw [hstep, if_pos hb, if_neg (by omega), UInt8.ofNat_toNat]

/-- **The end of the stream is read.** -/
theorem decompressStep_end (historyEnd : ℕ) (st : Receiving) (h : st.input.Reads (endField :: fs)) :
    ∃ r', decompressStep historyEnd st = (.done, { st with input := r' }) := by
  obtain ⟨r', -, hstep⟩ := decompressStep_symbol historyEnd
    (show 256 < 294 by omega) h
  exact ⟨r', by rw [hstep, if_neg (by omega), if_pos rfl]⟩

/-- **A match is read**, and the caches stay alike. -/
theorem decompressStep_match (historyEnd : ℕ) (st : Receiving)
    (hoff : copyOffset < 65536) (h2 : 2 ≤ len) (hlen : len < 770)
    (h : st.input.Reads (tokenFields (matchToken st.offsetCache copyOffset len).1 ++ fs)) :
    ∃ r', r'.Reads fs ∧ decompressStep historyEnd st = decompressCopy historyEnd { st with
      offsetCache := (matchToken st.offsetCache copyOffset len).2
      input := r' } copyOffset len := by
  unfold matchToken at h ⊢
  rcases hfind : st.offsetCache.find copyOffset with _ | index
  · have hclass := (copyOffsetClass_spec hoff).1
    change offsetClass copyOffset < 32 at hclass
    simp only [hfind] at h ⊢
    obtain ⟨r1, hr1, hstep⟩ := decompressStep_symbol historyEnd
      (show 257 + offsetClass copyOffset < 294 by omega) h
    obtain ⟨r2, hread2, hr2⟩ := readOffset_reads hoff hr1
    obtain ⟨r3, hread3, hr3⟩ := readLength_reads h2 hlen hr2
    refine ⟨r3, hr3, ?_⟩
    rw [hstep, if_neg (by omega), if_neg (by omega), decompressMatch, if_neg (by omega)]
    simp [hread2, hread3]
  obtain ⟨hindex, hget⟩ := Cache.find_spec hfind
  simp only [hfind] at h ⊢
  obtain ⟨r1, hr1, hstep⟩ := decompressStep_symbol historyEnd
    (show 289 + index < 294 by omega) h
  obtain ⟨r2, hread, hr2⟩ := readLength_reads h2 hlen hr1
  refine ⟨r2, hr2, ?_⟩
  rw [hstep, if_neg (by omega), if_neg (by omega), decompressMatch,
    if_pos (by omega), if_neg (by omega)]
  simp [hread, hget]

end WBFreeRDP.Ncrush

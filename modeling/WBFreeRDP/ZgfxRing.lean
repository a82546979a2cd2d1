/-
# The history of the RDP8 compressor is a sliding window

The ring holds the last bytes that were written, and a match reads what a copy byte by byte reads:
the ring is split at its end, more bytes than it has are cut short, and a match that is longer than
its distance is copied in blocks that double.
-/
import WBFreeRDP.SlidingWindow
import WBFreeRDP.Zgfx

namespace WBFreeRDP.Zgfx

open History Ring SlidingWindow List Nat

namespace HistoryRing

variable {size : ℕ}

/-- The bytes of the ring, the oldest first: they end in front of `HistoryIndex`. -/
def window (r : HistoryRing size) : List UInt8 := contents r.historyBuffer size r.historyIndex

section

variable (r : HistoryRing size)
include r

@[simp] theorem length_window : r.window.length = size := length_contents _ _ _

theorem size_pos : 0 < size := zero_lt_of_lt r.historyIndex_lt

/-! ## Writing -/

theorem store_historyBuffer (hindex : index < size) (src) (hsrc : src.length ≤ size) :
    (r.store index hindex src hsrc).historyBuffer = put size r.historyBuffer index src := by
  unfold store
  split
  · rename_i hend
    exact (put_eq_write src _ _ hend).symm
  -- the first copy ends with the ring, and the second one starts it again
  have hfront : (src.take (size - index)).length = size - index := by
    rw [length_take]
    omega
  conv_rhs => rw [← take_append_drop (size - index) src, put_append, hfront,
    show index + (size - index) = size by omega, ← put_mod, mod_self]
  rw [put_eq_write (src.take _) _ _ (by omega),
    put_eq_write (src.drop _) _ _ (by rw [length_drop]; omega)]

/-- The index goes on by the bytes that were written, round and round. -/
theorem store_historyIndex (hindex : index < size) (src) (hsrc : src.length ≤ size) :
    (r.store index hindex src hsrc).historyIndex = (index + src.length) % size := by
  unfold store
  split
  · change (if index + src.length = size then 0 else index + src.length) = _
    split
    · rename_i hfull
      rw [hfull, mod_self]
    · rw [mod_eq_of_lt (by omega)]
  · rw [show index + src.length = src.length - (size - index) + size by omega, add_mod_right,
      mod_eq_of_lt (by omega)]

theorem store_window (hindex : index < size) (src) (hsrc : src.length ≤ size) :
    (r.store index hindex src hsrc).window = slide (contents r.historyBuffer size index) src := by
  rw [window, store_historyBuffer, store_historyIndex, contents_mod, contents_put r.size_pos]

/-- **Writing slides the window**, also for more bytes than the ring has. -/
theorem ringWrite_window (src : List UInt8) : (r.ringWrite src).window = slide r.window src := by
  unfold ringWrite
  split
  · rename_i hnone
    rw [length_eq_zero_iff.mp (le_zero.mp hnone), slide_nil]
  split
  · rename_i hmore
    rw [store_window]
    have hwindow : r.window.length = size := r.length_window
    rw [show src.length - size = src.length - r.window.length by rw [hwindow]]
    exact slide_eq_slide_drop _ _ _ (by rw [length_contents, hwindow]) (by omega)
  · exact r.store_window r.historyIndex_lt src _

end

theorem ringWrites_window (writes : List (List UInt8)) : ∀ r : HistoryRing size,
    (writes.foldl ringWrite r).window = slide r.window writes.flatten := by
  induction writes with
  | nil => intro r; rw [flatten_nil, slide_nil]; rfl
  | cons src writes ih =>
  intro r
  rw [foldl_cons, ih, ringWrite_window, flatten_cons, slide_append]

/-! ## Reading -/

theorem readFront_eq_cells (r : HistoryRing size) (hindex : index < size)
    (hbytes : bytes ≤ size) : r.readFront index bytes = cells r.historyBuffer size index bytes := by
  unfold readFront
  split
  · rename_i hend
    exact (cells_eq_read _ hend).symm
  have hsplit : bytes = size - index + (bytes - (size - index)) := by omega
  conv_rhs => rw [hsplit, cells_add, show index + (size - index) = size by omega,
    ← cells_mod _ _ size, mod_self]
  rw [cells_eq_read _ (by omega), cells_eq_read _ (by omega)]

end HistoryRing

/-- **The blocks that double give the copy byte by byte**: after each block whole rounds were
copied. -/
theorem extend_eq_copyBack (w : List UInt8) (hpos : 0 < d) (hle : d ≤ w.length) :
    ∀ {valid bytesLeft}, 0 < valid → d ∣ valid → 0 < bytesLeft → bytesLeft ≤ fuel →
      valid + bytesLeft ≤ int32Max →
      extend fuel (copyBack w d valid) valid bytesLeft = copyBack w d (valid + bytesLeft) := by
  induction fuel with
  | zero => omega
  | succ fuel ih =>
  intro valid bytesLeft hvalid hround hleft hfuel hmax
  unfold extend
  by_cases hlast : valid > bytesLeft
  · -- the last block is cut short
    simp only [if_pos hlast]
    rw [if_neg (by omega), copyBack_double w hpos hle hround (by omega)]
  simp only [if_neg hlast]
  rw [copyBack_double w hpos hle hround (le_refl _)]
  by_cases hmore : bytesLeft - valid > 0
  · have hmax' : int32Max = 2 ^ 31 - 1 := rfl
    have hdouble : valid * 2 % 2 ^ 32 = valid + valid := by omega
    have htwice : d ∣ valid + valid := Nat.dvd_add hround hround
    rw [if_pos hmore, hdouble, ih (by omega) htwice hmore (by omega) (by omega)]
    congr 1
    omega
  · rw [if_neg hmore]
    congr 1
    omega

theorem length_extend (fuel) : ∀ {dst} {bytesLeft}, 0 < dst.length → 0 < bytesLeft →
    bytesLeft ≤ fuel → dst.length + bytesLeft ≤ int32Max →
      (extend fuel dst dst.length bytesLeft).length = dst.length + bytesLeft := by
  induction fuel with
  | zero => omega
  | succ fuel ih =>
  intro dst bytesLeft hdst hleft hfuel hmax
  unfold extend
  by_cases hlast : dst.length > bytesLeft
  · simp only [if_pos hlast]
    rw [if_neg (by omega), length_append, length_take, min_eq_left (by omega)]
  simp only [if_neg hlast, take_length]
  by_cases hmore : bytesLeft - dst.length > 0
  · have hmax' : int32Max = 2 ^ 31 - 1 := rfl
    have hdouble : dst.length * 2 % 2 ^ 32 = (dst ++ dst).length := by
      rw [length_append]
      omega
    rw [if_pos hmore, hdouble, ih (by omega) hmore (by omega) (by omega)]
    omega
  · rw [if_neg hmore, length_append]
    omega

namespace HistoryRing

theorem length_readFront {size} (r : HistoryRing size) (index bytes) :
    (r.readFront index bytes).length = bytes := by
  unfold readFront
  split
  · rw [length_read]
  · rw [length_append, length_read, length_read]
    omega

/-- At whatever distance, the bytes that are read are as many as were asked for. -/
theorem length_ringRead {size} {r : HistoryRing size} {offset count} (hpos : 0 < offset)
    (hcount : count ≤ int32Max) : (r.ringRead offset count).length = count := by
  unfold ringRead
  by_cases hzero : count = 0
  · rw [if_pos (.inl (by omega)), hzero, length_nil]
  rw [if_neg (by omega)]
  generalize (r.historyIndex + size + 2 ^ 32 - offset) % 2 ^ 32 % size = index
  have hfront := r.length_readFront index (min count offset)
  simp only
  split
  · omega
  have hextend := @length_extend (count - min count offset) (r.readFront index (min count offset))
    (count - min count offset) (by omega) (by omega) (le_refl _) (by omega)
  rw [hfront] at hextend
  omega

/-- **Reading at a distance copies byte by byte.** -/
theorem ringRead_eq_copyBack {size : ℕ} (hsize : size ≤ 2 ^ 31) {r : HistoryRing size}
    {offset count : ℕ} (hpos : 0 < offset) (hle : offset ≤ size) (hcount : count ≤ int32Max) :
    r.ringRead offset count = copyBack r.window offset count := by
  unfold ringRead
  by_cases hzero : count = 0
  · rw [if_pos (.inl (by omega)), hzero, copyBack_zero]
  rw [if_neg (by omega)]
  have hlt := r.historyIndex_lt
  have hindex : (r.historyIndex + size + 2 ^ 32 - offset) % 2 ^ 32 % size =
      (r.historyIndex + size - offset) % size := by
    rw [show r.historyIndex + size + 2 ^ 32 - offset = r.historyIndex + size -
      offset + 2 ^ 32 by omega,
      add_mod_right, mod_eq_of_lt (show r.historyIndex + size - offset < 2 ^ 32 by omega)]
  -- what is copied from the ring are the last bytes of the window
  have hfront : r.readFront ((r.historyIndex + size - offset) % size) (min count offset) =
      copyBack r.window offset (min count offset) := by
    have hwindow : offset ≤ r.window.length := by rw [r.length_window]; exact hle
    rw [r.readFront_eq_cells (mod_lt _ r.size_pos) (by omega), cells_mod,
      copyBack_eq_take _ hpos hwindow (min_le_right _ _), r.length_window, window,
      drop_contents _ hle]
    conv_rhs => rw [show offset = min count offset + (offset - min count offset) by omega,
      cells_add, ← show offset = min count offset + (offset - min count offset) by omega]
    rw [take_left' (length_cells _ _ _ _)]
  simp only [hindex, hfront]
  by_cases hshort : count ≤ offset
  · rw [Nat.min_eq_left hshort, if_pos (Nat.sub_self _)]
  rw [min_eq_right (by omega), if_neg (by omega),
    extend_eq_copyBack r.window hpos (by rw [r.length_window]; exact hle) hpos (Nat.dvd_refl _)
      (by omega) (Nat.le_refl _) (by omega)]
  congr 1
  omega

end HistoryRing

/-- **The history is a sliding window**: after every sequence of writes, of whatever lengths, the
ring holds the last bytes of what it held and was written, in order and ending at `HistoryIndex`;
and at every distance inside of the window a read of up to `INT32_MAX` bytes gives what a copy byte
by byte gives, while a longer one gives nothing. -/
theorem history_refines_window (r : HistoryRing historyBufferSize) (writes : List (List UInt8)) :
    (writes.foldl HistoryRing.ringWrite r).window = slide r.window writes.flatten ∧
      ∀ offset count, 1 ≤ offset → offset ≤ historyBufferSize →
        (writes.foldl HistoryRing.ringWrite r).ringRead offset count =
          if count ≤ int32Max then copyBack (slide r.window writes.flatten) offset count
            else [] := by
  have hwindow := HistoryRing.ringWrites_window writes r
  refine ⟨hwindow, ?_⟩
  intro offset count hpos hle
  split
  · rename_i hcount
    rw [HistoryRing.ringRead_eq_copyBack (by decide) hpos hle hcount, hwindow]
  rename_i hcount
  unfold HistoryRing.ringRead
  rw [if_pos (.inr (by omega))]

/-- A read of 2^31 bytes at distance 1 gives nothing. -/
theorem ringRead_too_long :
    contextNew.history.ringRead 1 (2 ^ 31) ≠ copyBack contextNew.history.window 1 (2 ^ 31) := by
  intro heq
  have hlength := congrArg List.length heq
  rw [length_copyBack] at hlength
  exact absurd hlength (by decide)

/-- Bytes that were written are repeated. -/
theorem history_refines_window_repeat :
    ([[1, 2, 3]].foldl HistoryRing.ringWrite contextNew.history).ringRead 2 5 =
      copyBack (slide contextNew.history.window [1, 2, 3]) 2 5 := by
  rw [(history_refines_window contextNew.history [[1, 2, 3]]).2 2 5 (by decide) (by decide)]
  rfl

end WBFreeRDP.Zgfx

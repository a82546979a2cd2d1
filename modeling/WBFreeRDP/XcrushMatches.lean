/-
# The matches of XCRUSH

What level 1 guarantees about the matches it sends.  A match is found by comparing bytes of a
history that holds the whole packet already, while the receiver has the packet only up to the match.
-/
import WBFreeRDP.Xcrush

namespace WBFreeRDP.Xcrush

open Bulk History List Nat

/-! ## Extending a match -/

/-- A property that fails at once holds for no initial stretch. -/
theorem forall_lt_iff_le_zero {P : ℕ → Prop} (h0 : ¬ P 0) : (∀ d < k, P d) ↔ k ≤ 0 := by
  constructor
  · intro hall
    by_contra hk
    exact h0 (hall 0 (pos_of_ne_zero fun hzero => hk hzero.le))
  · omega

/-- A property that holds at first holds for one more than the rest does. -/
theorem forall_lt_iff_le_succ {P : ℕ → Prop} (h0 : P 0)
    (hrest : (∀ d < k - 1, P (d + 1)) ↔ k - 1 ≤ n) : (∀ d < k, P d) ↔ k ≤ n + 1 := by
  constructor
  · intro hall
    have := hrest.mp fun d hd => hall (d + 1) (by omega)
    omega
  · intro hk d hd
    cases d with
    | zero => exact h0
    | succ d => exact hrest.mpr (by omega) d (by omega)

section Extend

variable (h : Memory UInt8) (historyOffset stop i j : ℕ)

/-- The `k` bytes from `i` on are in the packet and equal the ones from `j` on. -/
def Forward (k : ℕ) : Prop := ∀ d < k, i + d < stop ∧ h (i + d) = h (j + d)

/-- The `k` bytes in front of `i` are behind the first byte of the packet and equal the ones in
front of `j`, which are behind the first byte of the history. -/
def Backward (k : ℕ) : Prop :=
  ∀ d < k, historyOffset < i - 1 - d ∧ 0 < j - 1 - d ∧ h (i - 1 - d) = h (j - 1 - d)

variable {h historyOffset stop i j}

/-- **How far the forward loop goes.** -/
theorem forward_iff : Forward h stop i j k ↔ k ≤ forwardMatchLength h (stop - i) i j := by
  obtain ⟨n, hn⟩ : ∃ n, n = stop - i := ⟨_, rfl⟩
  rw [← hn]
  induction n generalizing i j k with
  | zero =>
    apply forall_lt_iff_le_zero
    omega
  | succ n ih =>
  rw [forwardMatchLength]
  by_cases heq : h i = h j
  · rw [if_neg (not_not.mpr heq)]
    apply forall_lt_iff_le_succ
    · exact ⟨by omega, heq⟩
    · rw [← @ih (i + 1) (j + 1) (k - 1) (by omega)]
      simp only [Forward, add_assoc, add_comm 1]
  · rw [if_pos heq]
    apply forall_lt_iff_le_zero
    rintro ⟨-, h0⟩
    exact heq h0

/-- **How far the backward loop goes.** -/
theorem backward_iff :
    Backward h historyOffset i j k ↔ k ≤ reverseMatchLength h historyOffset i j := by
  induction i generalizing j k with
  | zero =>
    apply forall_lt_iff_le_zero
    omega
  | succ i ih =>
  rcases j with _ | j
  · apply forall_lt_iff_le_zero
    omega
  rw [reverseMatchLength]
  by_cases hstep : i > historyOffset ∧ j > 0 ∧ h i = h j
  · rw [if_pos hstep]
    apply forall_lt_iff_le_succ
    · exact hstep
    · rw [← @ih j (k - 1)]
      simp only [Backward, Nat.add_sub_cancel, Nat.sub_sub, Nat.add_comm 1]
  · rw [if_neg hstep]
    apply forall_lt_iff_le_zero
    exact hstep

variable (h historyOffset stop i j)

theorem forward_forwardMatchLength : Forward h stop i j (forwardMatchLength h (stop - i) i j) :=
  forward_iff.mpr le_rfl

theorem backward_reverseMatchLength :
    Backward h historyOffset i j (reverseMatchLength h historyOffset i j) :=
  backward_iff.mpr le_rfl

theorem forwardMatchLength_le : forwardMatchLength h (stop - i) i j ≤ stop - i := by
  rcases Nat.eq_zero_or_pos (forwardMatchLength h (stop - i) i j) with hzero | hpos
  · omega
  have := (forward_forwardMatchLength h stop i j (forwardMatchLength h (stop - i) i j - 1)
    (by omega)).1
  omega

variable {i} in
/-- The backward loop stays behind the first byte of the packet and of the history. -/
theorem reverseMatchLength_le (hi : historyOffset ≤ i) :
    historyOffset + reverseMatchLength h historyOffset i j ≤ i ∧
      reverseMatchLength h historyOffset i j ≤ j := by
  rcases Nat.eq_zero_or_pos (reverseMatchLength h historyOffset i j) with hzero | hpos
  · omega
  have := backward_reverseMatchLength h historyOffset i j
    (reverseMatchLength h historyOffset i j - 1) (by omega)
  omega

end Extend

/-- The bytes of a match repeat the ones at its chunk. -/
def Repeats (h : Memory UInt8) (m : MatchInfo) : Prop :=
  ∀ i < m.matchLength, h (m.chunkOffset + i) = h (m.matchOffset + i)

/-- What a positive result of `xcrush_find_match_length` is: the bytes around the two offsets, as
far as they agree. -/
structure Found (h : Memory UInt8)
    (historyBufferSize matchOffset chunkOffset historyOffset srcSize : ℕ)
    (m : MatchInfo) : Prop where
  size : chunkOffset ≤ historyBufferSize
  eleven_le : 11 ≤ m.matchLength
  back : Backward h historyOffset matchOffset chunkOffset (matchOffset - m.matchOffset)
  back_max : ∀ k, Backward h historyOffset matchOffset chunkOffset k →
      k ≤ matchOffset - m.matchOffset
  match_le : m.matchOffset ≤ matchOffset
  chunk_eq : m.chunkOffset + (matchOffset - m.matchOffset) = chunkOffset
  forward : Forward h (historyOffset + srcSize) matchOffset chunkOffset
    (m.matchLength - (matchOffset - m.matchOffset))
  forward_max : ∀ k, Forward h (historyOffset + srcSize) matchOffset chunkOffset k →
    k ≤ m.matchLength - (matchOffset - m.matchOffset)
  back_le : matchOffset - m.matchOffset ≤ m.matchLength
  first_le : historyOffset ≤ m.matchOffset
  end_le : m.matchOffset + m.matchLength ≤ historyOffset + srcSize

/-- **What `xcrush_find_match_length` returns** with a positive length. -/
theorem findMatchLength_spec (hfirst : historyOffset ≤ matchOffset)
    (hlast : matchOffset ≤ historyOffset + srcSize)
    (hfind : findMatchLength h historyBufferSize matchOffset chunkOffset historyOffset srcSize
      maxMatchLength = (status, m)) (hpos : 0 < status) : status = m.matchLength ∧
      Found h historyBufferSize matchOffset chunkOffset historyOffset srcSize m := by
  unfold findMatchLength at hfind
  simp only at hfind
  have hforward := forward_forwardMatchLength h (historyOffset + srcSize) matchOffset chunkOffset
  have hback := backward_reverseMatchLength h historyOffset matchOffset chunkOffset
  have hforwardle := forwardMatchLength_le h (historyOffset + srcSize) matchOffset chunkOffset
  have hbackle := reverseMatchLength_le h historyOffset chunkOffset hfirst
  have hforwardmax : ∀ k, Forward h (historyOffset + srcSize) matchOffset chunkOffset k →
      k ≤ forwardMatchLength h (historyOffset + srcSize - matchOffset) matchOffset chunkOffset :=
    fun k hk => forward_iff.mp hk
  have hbackmax : ∀ k, Backward h historyOffset matchOffset chunkOffset k →
      k ≤ reverseMatchLength h historyOffset matchOffset chunkOffset :=
        fun k hk => backward_iff.mp hk
  generalize forwardMatchLength h (historyOffset + srcSize - matchOffset) matchOffset chunkOffset =
    forward at hfind hforward hforwardle hforwardmax
  generalize reverseMatchLength h historyOffset matchOffset chunkOffset = reverse
    at hfind hback hbackle hbackmax
  split_ifs at hfind with h1 h2 h3 h4 h5
  all_goals cases hfind
  iterate 5 exact absurd hpos (by decide)
  · have hdiff : matchOffset - (matchOffset - reverse) = reverse := by omega
    have hlength : reverse + forward - reverse = forward := by omega
    refine ⟨by simp, ?_⟩
    constructor
    · omega
    · simp only
      omega
    · rwa [hdiff]
    · rwa [hdiff]
    · exact sub_le _ _
    · simp only
      omega
    iterate 2 rwa [hdiff, hlength]
    all_goals
      simp only
      omega

theorem Found.repeats
    (hf : Found h historyBufferSize matchOffset chunkOffset historyOffset srcSize m) :
    Repeats h m := by
  intro i hi
  have hchunk := hf.chunk_eq
  have hmatch := hf.match_le
  by_cases hlt : i < matchOffset - m.matchOffset
  · -- a byte in front of the two offsets
    have := (hf.back (matchOffset - m.matchOffset - 1 - i) (by omega)).2.2
    rw [show matchOffset - 1 - (matchOffset - m.matchOffset - 1 - i) = m.matchOffset + i by omega,
      show chunkOffset - 1 - (matchOffset - m.matchOffset - 1 - i) = m.chunkOffset + i by
        omega] at this
    exact this.symm
  · have := (hf.forward (i - (matchOffset - m.matchOffset)) (by omega)).2
    rw [show matchOffset + (i - (matchOffset - m.matchOffset)) = m.matchOffset + i by omega,
      show chunkOffset + (i - (matchOffset - m.matchOffset)) = m.chunkOffset + i by omega] at this
    exact this.symm

/-! ## Replaying a match -/

section Replay

/-- The receiver can replay what `xcrush_find_match_length` returns for a packet that the sender has
copied into its history `g`: the bytes are inside the history, and copying them one by one, on a
history that has the packet up to the match only, gives the bytes of the packet. -/
def Replays (g : Memory UInt8) (packet : List UInt8)
    (historyBufferSize historyOffset matchOffset chunkOffset maxMatchLength : ℕ) : Prop :=
  ∀ status m, findMatchLength (write g historyOffset packet) historyBufferSize
    matchOffset chunkOffset
      historyOffset packet.length maxMatchLength = (status, m) → 0 < status →
    m.chunkOffset + m.matchLength < historyBufferSize ∧
    read (copy (write g historyOffset (packet.take (m.matchOffset - historyOffset))) m.matchOffset
        m.chunkOffset m.matchLength) m.matchOffset m.matchLength =
      (packet.drop (m.matchOffset - historyOffset)).take m.matchLength

/-- The arrangements of a packet and a chunk for which a match does no harm: the chunk is before the
match; or it is behind the history; or the test for a longer match fails; or fewer than eleven bytes
agree; or the bytes that agree stop before the end of the history, and the ones that agree backwards
down into the packet's place are what the history had there before. -/
def Harmless (g : Memory UInt8) (packet : List UInt8)
    (historyBufferSize historyOffset matchOffset chunkOffset maxMatchLength : ℕ) : Prop :=
  let h := write g historyOffset packet
  let stop := historyOffset + packet.length
  chunkOffset < matchOffset ∨ historyBufferSize < chunkOffset ∨
  (matchOffset + maxMatchLength + 1 < stop ∧
    h (matchOffset + maxMatchLength + 1) ≠ h (chunkOffset + maxMatchLength + 1)) ∨
  (∀ r f, Backward h historyOffset matchOffset chunkOffset r →
    Forward h stop matchOffset chunkOffset f → r + f < 11) ∨
  (¬ Forward h stop matchOffset chunkOffset (historyBufferSize - chunkOffset) ∧
    ∀ r, Backward h historyOffset matchOffset chunkOffset r → chunkOffset - r < stop →
      g (chunkOffset - r) = h (chunkOffset - r))

variable {g : Memory UInt8} {packet : List UInt8} {historyBufferSize historyOffset matchOffset
  chunkOffset maxMatchLength : ℕ} {m : MatchInfo}

/-- A match whose chunk is before it: what it copies is there, or has just been copied. -/
theorem Found.replay_before
    (hf : Found (write g historyOffset packet) historyBufferSize matchOffset
      chunkOffset historyOffset packet.length m) (hbefore : chunkOffset < matchOffset) :
    read (copy (write g historyOffset (packet.take (m.matchOffset - historyOffset))) m.matchOffset
        m.chunkOffset m.matchLength) m.matchOffset m.matchLength =
      (packet.drop (m.matchOffset - historyOffset)).take m.matchLength := by
  have hfirst := hf.first_le
  have hend := hf.end_le
  have hchunk := hf.chunk_eq
  have hagree : Agree m.matchOffset (write g historyOffset packet)
      (write g historyOffset (packet.take (m.matchOffset - historyOffset))) := by
    intro j hj
    exact (write_take_below g historyOffset packet (by omega) (by omega)).symm
  have hcopy : Agree (m.matchOffset + m.matchLength) (write g historyOffset packet)
      (copy (write g historyOffset (packet.take (m.matchOffset - historyOffset))) m.matchOffset
        m.chunkOffset m.matchLength) :=
    hagree.copy m.matchLength (by omega) hf.repeats
  rw [← hcopy.read_eq le_rfl, ← read_write_part g historyOffset packet (by omega),
    show historyOffset + (m.matchOffset - historyOffset) = m.matchOffset by omega]

/-- A match whose chunk is behind the packet: the bytes are copied as they were in the history. -/
theorem Found.replay_behind
    (hf : Found (write g historyOffset packet) historyBufferSize matchOffset
      chunkOffset historyOffset
      packet.length m) (hbehind : packet.length + historyOffset < chunkOffset) :
    read (copy (write g historyOffset (packet.take (m.matchOffset - historyOffset))) m.matchOffset
        m.chunkOffset m.matchLength) m.matchOffset m.matchLength =
      (packet.drop (m.matchOffset - historyOffset)).take m.matchLength ↔
    ∀ x, m.chunkOffset ≤ x → x < historyOffset + packet.length →
      g x = write g historyOffset packet x := by
  have hfirst := hf.first_le
  have hend := hf.end_le
  have hchunk := hf.chunk_eq
  have hrepeats := hf.repeats
  have hback := hf.back_le
  generalize hk : write g historyOffset (packet.take (m.matchOffset - historyOffset)) = received
  have hold : ∀ x, m.matchOffset ≤ x → received x = g x := by
    intro x hx
    rw [← hk]
    apply write_above
    rw [length_take]
    omega
  -- the byte of the packet at distance `i` is copied from distance `i` behind the chunk
  have hcell : ∀ i < m.matchLength, copy received m.matchOffset m.chunkOffset m.matchLength
      (m.matchOffset + i) = g (m.chunkOffset + i) := by
    intro i hi
    rw [copy_ahead _ _ (by omega) hi, hold _ (by omega)]
  rw [← read_write_part g historyOffset packet (by omega),
    show historyOffset + (m.matchOffset - historyOffset) = m.matchOffset by omega, read_eq_iff]
  constructor
  · intro hread x hx hstop
    obtain ⟨i, rfl⟩ := Nat.exists_eq_add_of_le hx
    have hi : i < m.matchLength := by omega
    rw [← hcell i hi, hread _ (le_add_right _ _) (by omega), hrepeats i hi]
  intro hsame j hj hlt
  obtain ⟨i, rfl⟩ := Nat.exists_eq_add_of_le hj
  have hi : i < m.matchLength := by omega
  rw [hcell i hi, ← hrepeats i hi]
  by_cases hin : m.chunkOffset + i < historyOffset + packet.length
  · exact hsame _ (le_add_right _ _) hin
  · exact (write_above packet g historyOffset _ (by omega)).symm

/-- `xcrush_find_match_length` returns what it has found, when that is long enough. -/
theorem findMatchLength_eq (hmatch : matchOffset ≤ historyBufferSize)
    (hchunk : chunkOffset ≤ historyBufferSize) (hne : matchOffset ≠ chunkOffset)
    (htest : ¬ (matchOffset + maxMatchLength + 1 < historyOffset + srcSize ∧
      h (matchOffset + maxMatchLength + 1) ≠ h (chunkOffset + maxMatchLength + 1)))
    (hback : Backward h historyOffset matchOffset chunkOffset r)
    (hforward : Forward h (historyOffset + srcSize) matchOffset chunkOffset f) (hlen : 11 ≤ r + f) :
    ∃ status m, findMatchLength h historyBufferSize matchOffset chunkOffset historyOffset srcSize
      maxMatchLength = (status, m) ∧ 0 < status := by
  have hr := backward_iff.mp hback
  have hf := forward_iff.mp hforward
  simp only [findMatchLength]
  rw [if_neg (by omega), if_neg (by omega), if_neg hne, if_neg htest, if_neg (by omega)]
  exact ⟨_, _, rfl, by omega⟩

/-- **When a match can be replayed.** A packet is in the history, the match offset is in the packet,
and the chunk passes the test of `xcrush_find_all_matches`. -/
theorem findMatchLength_replays_iff (g : Memory UInt8) (packet : List UInt8) (maxMatchLength : ℕ)
    (hfit : historyOffset + packet.length + 8 ≤ historyBufferSize)
    (hfirst : historyOffset ≤ matchOffset) (hlast : matchOffset < historyOffset + packet.length)
    (htest : chunkOffset < historyOffset ∨ chunkOffset < matchOffset ∨
      packet.length + historyOffset < chunkOffset) :
    Replays g packet historyBufferSize historyOffset matchOffset chunkOffset maxMatchLength ↔
      Harmless g packet historyBufferSize historyOffset matchOffset chunkOffset maxMatchLength := by
  constructor
  · intro hreplays
    by_contra hharm
    simp only [Harmless, not_or, not_lt, not_forall] at hharm
    obtain ⟨hbefore, hsize, htest', ⟨r, f, hr, hf, hlen⟩, hbad⟩ := hharm
    obtain ⟨status, m, hfind, hpos⟩ := findMatchLength_eq (by omega) hsize (by omega) htest' hr hf
      (by omega)
    obtain ⟨hin, hreplay⟩ := hreplays status m hfind hpos
    obtain ⟨-, hfound⟩ := findMatchLength_spec hfirst hlast.le hfind hpos
    have hchunk := hfound.chunk_eq
    have hback := hfound.back_le
    apply hbad
    constructor
    · -- the match would reach the end of the history
      intro hall
      have := hfound.forward_max _ hall
      omega
    · intro r hr hstop
      have hsame := (hfound.replay_behind (by omega)).mp hreplay
      have := hfound.back_max r hr
      exact hsame _ (by omega) hstop
  intro hharmless status m hfind hpos
  obtain ⟨-, hfound⟩ := findMatchLength_spec hfirst hlast.le hfind hpos
  have hchunk := hfound.chunk_eq
  have hend := hfound.end_le
  have hbefore : chunkOffset < matchOffset →
    m.chunkOffset + m.matchLength < historyBufferSize ∧ _ :=
    fun hlt => ⟨by omega, hfound.replay_before hlt⟩
  rcases hharmless with hlt | hsize | hskip | hshort | ⟨hforward, hold⟩
  · exact hbefore hlt
  · exact absurd hfound.size (by omega)
  · -- nothing would have been returned
    unfold findMatchLength at hfind
    simp only at hfind
    split_ifs at hfind <;>
      · cases hfind
        exact absurd hpos (by decide)
  · have := hshort _ _ hfound.back hfound.forward
    have := hfound.eleven_le
    omega
  · rcases lt_or_ge chunkOffset matchOffset with hlt | hge
    · exact hbefore hlt
    refine ⟨?_, (hfound.replay_behind (by omega)).mpr fun x hx hstop => ?_⟩
    · -- otherwise the bytes would agree up to the end of the history
      by_contra hover
      exact hforward fun d hd => hfound.forward d (by omega)
    · have hxr : chunkOffset - (chunkOffset - x) = x := by omega
      have := hold (chunkOffset - x) (fun d hd => hfound.back d (by omega)) (by omega)
      rwa [hxr] at this

/-- A packet of sixteen ones is copied to the front of a history that has zeros there and ones
behind. The match found for the chunk at 20 reaches down into the packet; the receiver still has
zeros there.  The match found for a chunk ten bytes before the end of the history goes on behind
it. -/
theorem wrapped_match_is_not_replayed :
    let g : Memory UInt8 := ⟨fun i => if i < 16 then 0 else 1⟩
    let packet : List UInt8 := List.replicate 16 1
    (findMatchLength (write g 0 packet) 2000000 12 20 0 16 0 = (15, ⟨1, 9, 15⟩) ∧
      read (copy (write g 0 (packet.take 1)) 1 9 15) 1 15 ≠ (packet.drop 1).take 15) ∧
    findMatchLength (write g 0 packet) 2000000 4 1999990 0 16 0 = (15, ⟨1, 1999987, 15⟩) := by
  decide

/-- A chunk before the match, whose copy overlaps it. -/
theorem findMatchLength_replays_run : Replays (fill 0) (List.replicate 16 1) 2000000 0 4 3 0 :=
  (findMatchLength_replays_iff (fill 0) (replicate 16 1) 0 (by decide) (by decide) (by decide)
    (Or.inr (Or.inl (by decide)))).mpr (Or.inl (by decide))

end Replay

/-! ## Trimming -/

/-- An original match of a packet that stands in the history from `first` to `stop`. -/
structure Original (h : Memory UInt8) (first stop : ℕ) (m : MatchInfo) : Prop where
  repeats : Repeats h m
  eleven_le : 11 ≤ m.matchLength
  first_le : first ≤ m.matchOffset
  end_le : m.matchOffset + m.matchLength ≤ stop

/-- Matches in order, each behind the one before, between two offsets. -/
def Ordered (stop : ℕ) : ℕ → List MatchInfo → Prop
  | start, [] => start ≤ stop
  | start, m :: ms => start ≤ m.matchOffset ∧ Ordered stop (m.matchOffset + m.matchLength) ms

variable {ms : List MatchInfo} {stop : ℕ}

theorem Ordered.le : ∀ {start}, Ordered stop start ms →
    start + (ms.map MatchInfo.matchLength).sum ≤ stop := by
  induction ms with
  | nil => intro start ho; exact ho
  | cons m ms ih =>
  rintro start ⟨hstart, ho⟩
  have := ih ho
  rw [map_cons, sum_cons]
  omega

theorem Ordered.end_le : ∀ {start}, Ordered stop start ms →
    ∀ m ∈ ms, m.matchOffset + m.matchLength ≤ stop := by
  induction ms with
  | nil => intro start _ m hm; cases hm
  | cons m ms ih =>
  rintro start ⟨-, ho⟩ x hx
  rcases mem_cons.mp hx with rfl | hx
  · have := ho.le
    omega
  · exact ih ho x hx

theorem Ordered.pairwise : ∀ {start}, Ordered stop start ms → (∀ m ∈ ms, start ≤ m.matchOffset) ∧
      ms.Pairwise fun a b => a.matchOffset + a.matchLength ≤ b.matchOffset := by
  induction ms with
  | nil => simp
  | cons m ms ih =>
  rintro start ⟨hstart, ho⟩
  obtain ⟨hbehind, hpair⟩ := ih ho
  constructor
  · intro x hx
    rcases mem_cons.mp hx with rfl | hx
    · exact hstart
    · have := hbehind x hx
      omega
  · exact pairwise_cons.mpr ⟨hbehind, hpair⟩

/-- A match that was kept: still a repeat of what is at its chunk, of a least length. -/
structure Kept (h : Memory UInt8) (first least : ℕ) (m : MatchInfo) : Prop where
  repeats : Repeats h m
  least_le : least ≤ m.matchLength
  first_le : first ≤ m.matchOffset

/-- A match that is trimmed at an offset keeps a least length. -/
def KeepsAt (least : ℕ) (m : MatchInfo) (offset : ℕ) : Prop :=
  m.matchOffset < offset → offset + 6 < m.matchOffset + m.matchLength →
    offset + least ≤ m.matchOffset + m.matchLength

theorem Repeats.drop (hr : Repeats h m) (hd : d ≤ m.matchLength) :
    Repeats h ⟨m.matchOffset + d, m.chunkOffset + d, m.matchLength - d⟩ := by
  intro i hi
  simp only at hi ⊢
  rw [add_assoc, add_assoc]
  exact hr (d + i) (by omega)

/-- **Trimming never fails**, and leaves correct matches in order.  When no match is trimmed below a
least length, the ones that are kept have it. -/
theorem optimizeMatchesLoop_spec (hpacket : stop ≤ first + 16384) (hleast : least ≤ 11) :
    ∀ prev : ℕ, (∀ m ∈ ms, Original h first stop m) → prev ≤ stop →
    (∀ m ∈ ms, KeepsAt least m prev) →
      ms.Pairwise (fun a b => KeepsAt least b (a.matchOffset + a.matchLength)) →
      ∃ optimized, optimizeMatchesLoop prev ms = .ok optimized ∧ Ordered stop prev optimized ∧
        ∀ m ∈ optimized, Kept h first least m := by
  induction ms with
  | nil =>
    intro prev _ hprev _ _
    exact ⟨[], rfl, hprev, by simp⟩
  | cons m ms ih =>
  intro prev hall hprev hkeeps hpair
  have hm := hall m mem_cons_self
  have hend := hm.end_le
  have hfirst := hm.first_le
  have heleven := hm.eleven_le
  have hkeep := hkeeps m mem_cons_self
  have hall' : ∀ x ∈ ms, Original h first stop x := fun x hx => hall x (mem_cons_of_mem m hx)
  obtain ⟨hnext, hpair'⟩ := pairwise_cons.mp hpair
  rw [optimizeMatchesLoop]
  by_cases hover : m.matchOffset ≤ prev
  · rw [if_pos hover]
    by_cases htrim : m.matchOffset < prev ∧ m.matchLength + m.matchOffset > prev + 6
    swap
    · rw [if_neg htrim]
      exact ih prev hall' hprev (fun x hx => hkeeps x (mem_cons_of_mem m hx)) hpair'
    -- the part behind the previous match is kept, and ends where the match ends
    have hleft := hkeep htrim.1 (by omega)
    have hstop : m.matchLength - (prev - m.matchOffset) +
        (m.matchOffset + (prev - m.matchOffset)) = m.matchOffset + m.matchLength := by omega
    rw [if_pos htrim]
    simp only
    rw [if_neg (by omega), if_neg (by omega), hstop]
    obtain ⟨optimized, heq, ho, hkept⟩ := ih _ hall' hend hnext hpair'
    rw [heq]
    refine ⟨_, rfl, ⟨by simp only; omega, ?_⟩, ?_⟩
    · rwa [add_comm, hstop]
    intro x hx
    rcases mem_cons.mp hx with rfl | hx
    · exact ⟨hm.repeats.drop (by omega), by simp only; omega, by simp only; omega⟩
    · exact hkept x hx
  · rw [if_neg hover, add_comm]
    obtain ⟨optimized, heq, ho, hkept⟩ := ih _ hall' hend hnext hpair'
    rw [heq]
    refine ⟨_, rfl, ⟨by omega, ho⟩, ?_⟩
    intro x hx
    rcases mem_cons.mp hx with rfl | hx
    · exact ⟨hm.repeats, by omega, hfirst⟩
    · exact hkept x hx

/-- Matches between two offsets that start behind a third one. -/
theorem Ordered.of_first (ho : Ordered stop start ms)
    (hstop : first ≤ stop) (hfirst : ∀ m ∈ ms, first ≤ m.matchOffset) : Ordered stop first ms := by
  cases ms with
  | nil => exact hstop
  | cons m ms => exact ⟨hfirst m mem_cons_self, ho.2⟩

theorem toInt_of_lt (h : n < 2 ^ 31) : toInt n = n := by
  rw [toInt, mod_eq_of_lt (by omega), if_pos h]

theorem optimizeMatches_spec (least)
    (hpacket : stop ≤ first + 16384) (hfirst : first ≤ stop) (hsize : stop < 2 ^ 31)
    (hleast : least ≤ 11) (hall : ∀ m ∈ ms, Original h first stop m)
    (hpair : ms.Pairwise fun a b => KeepsAt least b (a.matchOffset + a.matchLength)) :
    ∃ optimized, optimizeMatches ms = ((optimized.map MatchInfo.matchLength).sum, optimized) ∧
      Ordered stop first optimized ∧ ∀ m ∈ optimized, Kept h first least m := by
  obtain ⟨optimized, heq, ho, hkept⟩ := optimizeMatchesLoop_spec hpacket hleast 0 hall (zero_le _)
    (fun m _ h0 => absurd h0 (not_lt_zero _)) hpair
  have hle := ho.le
  refine ⟨optimized, ?_, ho.of_first hfirst fun m hm => (hkept m hm).first_le, hkept⟩
  simp only [optimizeMatches, heq]
  rw [toInt_of_lt (by omega)]

/-! ## Output -/

/-- The literals between the matches, followed by the ones behind the last match: together with the
matches they tile the packet from an offset on, every byte once. -/
def Tiles (h : Memory UInt8) (stop : ℕ) : ℕ → List MatchInfo → List UInt8 → Prop
  | start, [], literals => start ≤ stop ∧ literals = read h start (stop - start)
  | start, m :: ms, literals =>
    start ≤ m.matchOffset ∧ ∃ rest, literals = read h start (m.matchOffset - start) ++ rest ∧
      Tiles h stop (m.matchOffset + m.matchLength) ms rest

theorem Tiles.length_eq : ∀ {start} {literals}, Tiles h stop start ms literals →
      start + (ms.map MatchInfo.matchLength).sum + literals.length = stop := by
  induction ms with
  | nil =>
    rintro start literals ⟨hle, rfl⟩
    rw [length_read, map_nil, sum_nil]
    omega
  | cons m ms ih =>
  rintro start literals ⟨hle, rest, rfl, htiles⟩
  have := ih htiles
  rw [map_cons, sum_cons, length_append, length_read]
  omega

/-- **The loop over the literals.** It copies the literals between the matches, unless it has no
room for them; it never meets a match that starts too early. -/
theorem literalsLoop_spec (outputSize : ℕ) :
    ∀ output literals {start}, Ordered stop start ms → stop ≤ start + 16384 →
      ∃ bytes current, current ≤ stop ∧
        Tiles h stop start ms (bytes ++ read h current (stop - current)) ∧
        (literalsLoop h outputSize ms output literals start =
            (0, write output literals bytes, literals + bytes.length, current) ∨
          outputSize ≤ literals + bytes.length ∧
            (literalsLoop h outputSize ms output literals start).1 = -6004) := by
  induction ms with
  | nil =>
    intro output literals start hle _
    exact ⟨[], start, hle, ⟨hle, rfl⟩, Or.inl rfl⟩
  | cons m ms ih =>
  rintro output literals start ⟨hstart, ho⟩ hpacket
  have hle := ho.le
  have hshort : m.matchLength % 2 ^ 16 = m.matchLength := mod_eq_of_lt (by omega)
  rw [literalsLoop]
  simp only [hshort]
  by_cases htouch : m.matchOffset ≤ start
  · -- the match follows at once
    obtain ⟨bytes, current, hcurrent, htiles, hres⟩ := ih output literals ho (by omega)
    rw [if_pos htouch, if_neg (by omega)]
    refine ⟨bytes, current, hcurrent, ⟨hstart, _, ?_, htiles⟩, hres⟩
    rw [Nat.sub_eq_zero_of_le htouch]
    rfl
  rw [if_neg htouch]
  obtain ⟨bytes, current, hcurrent, htiles, hres⟩ :=
    ih (write output literals (read h start (m.matchOffset - start)))
      (literals + (m.matchOffset - start)) ho (by omega)
  refine ⟨read h start (m.matchOffset - start) ++ bytes, current, hcurrent,
    ⟨hstart, _, append_assoc _ _ _, htiles⟩, ?_⟩
  rw [length_append, write_append, length_read, ← add_assoc]
  by_cases hroom : literals + m.matchOffset - start ≥ outputSize
  · rw [if_pos hroom]
    exact Or.inr ⟨by omega, rfl⟩
  · rw [if_neg hroom, if_neg (by omega)]
    exact hres

theorem length_matchDetails (historyOffset : ℕ) (ms : List MatchInfo) :
    (ms.flatMap (matchDetails historyOffset)).length = 8 * ms.length := by
  induction ms with
  | nil => rfl
  | cons m ms ih =>
  rw [flatMap_cons, length_cons, matchDetails]
  simp only [length_append, leBytes_length]
  omega

/-- What level 1 sends for a packet with matches. -/
def outputBytes (historyOffset : ℕ) (ms : List MatchInfo) (literals : List UInt8) : List UInt8 :=
  leBytes 2 ms.length ++ ms.flatMap (matchDetails historyOffset) ++ literals

theorem length_outputBytes (historyOffset : ℕ) (ms) (literals) :
    (outputBytes historyOffset ms literals).length = 2 + 8 * ms.length + literals.length := by
  rw [outputBytes, length_append, length_append, leBytes_length, length_matchDetails]

/-- **What `xcrush_generate_output` writes**: the details of the matches and the literals that tile
the packet with them, unless that is not shorter than the room it has. -/
theorem generateOutput_spec
    (ho : Ordered stop first ms) (hpacket : stop ≤ first + 16384) (hstop : stop < 2 ^ 31)
    (output : Memory UInt8) (outputSize : ℕ) : ∃ literals, Tiles h stop first ms literals ∧
      (generateOutput h output outputSize first stop ms =
          (1, write output 0 (outputBytes first ms literals),
            (outputBytes first ms literals).length) ∧
          (outputBytes first ms literals).length < outputSize ∨
        outputSize ≤ (outputBytes first ms literals).length ∧
          (generateOutput h output outputSize first stop ms).1 < 0 ∧
          (generateOutput h output outputSize first stop ms).1 ≠ -6003) := by
  obtain ⟨bytes, current, hcurrent, htiles, hres⟩ := literalsLoop_spec outputSize
    (write (write output 0 (leBytes 2 ms.length)) 2 (ms.flatMap (matchDetails first)))
    (2 + 8 * ms.length) ho hpacket
  refine ⟨_, htiles, ?_⟩
  have hlength := length_outputBytes first ms (bytes ++ read h current (stop - current))
  rw [length_append, length_read] at hlength
  have hdiff : (stop + 2 ^ 32 - current) % 2 ^ 32 = stop - current := by omega
  unfold generateOutput
  simp only
  by_cases htwo : 2 ≥ outputSize
  · rw [if_pos htwo]
    exact Or.inr ⟨by omega, by simp, by simp⟩
  rw [if_neg htwo]
  by_cases hdetails : 2 + 8 * ms.length > outputSize
  · rw [if_pos hdetails]
    exact Or.inr ⟨by omega, by simp, by simp⟩
  rw [if_neg hdetails]
  rcases hres with hloop | ⟨hfull, hloop⟩
  · rw [hloop]
    simp only [hdiff]
    rw [if_neg (by decide)]
    by_cases hroom : 2 + 8 * ms.length + bytes.length + (stop - current) ≥ outputSize
    · rw [if_pos hroom]
      exact Or.inr ⟨by omega, by simp, by simp⟩
    rw [if_neg hroom]
    refine Or.inl ⟨?_, by omega⟩
    -- the four pieces are written one behind the other
    rw [hlength, outputBytes, write_append, write_append, write_append, length_append,
      leBytes_length, length_matchDetails, zero_add, zero_add, add_assoc _ bytes.length]
  · generalize literalsLoop h outputSize ms _ (2 + 8 * ms.length) first = result at hloop
    obtain ⟨status, rest⟩ := result
    subst hloop
    exact Or.inr ⟨by omega, by simp, by simp⟩

/-- **Trimming and output.** For the original matches of a packet, `xcrush_optimize_matches` does
not fail; its matches are correct copies of seven bytes or more, in order and disjoint; and
`xcrush_generate_output` does not meet a match that starts too early, and if it succeeds its
literals and the matches tile the packet. -/
theorem optimize_then_generate {h : Memory UInt8} {historyOffset srcSize : ℕ} {ms : List MatchInfo}
    (hpacket : srcSize ≤ 16384) (hhistory : historyOffset + srcSize ≤ 2000000)
    (hall : ∀ m ∈ ms, Original h historyOffset (historyOffset + srcSize) m) :
    let (status, optimized) := optimizeMatches ms
    0 ≤ status ∧ (∀ m ∈ optimized, Repeats h m ∧ 7 ≤ m.matchLength) ∧
    (optimized.Pairwise fun a b => a.matchOffset + a.matchLength ≤ b.matchOffset) ∧
    ∀ output outputSize,
      let (status, output', dstSize) := generateOutput h output outputSize historyOffset
        (historyOffset + srcSize) optimized
      status ≠ -6003 ∧ (0 ≤ status → ∃ literals,
        Tiles h (historyOffset + srcSize) historyOffset optimized literals ∧
        read output' 0 dstSize = outputBytes historyOffset optimized literals) := by
  obtain ⟨optimized, heq, ho, hkept⟩ := optimizeMatches_spec 7 (by omega) (le_add_right _ _)
    (by omega) (by decide) hall (pairwise_of_forall fun _ _ _ hend => hend)
  rw [heq]
  refine ⟨Int.natCast_nonneg _, fun m hm => ⟨(hkept m hm).repeats, (hkept m hm).least_le⟩,
    ho.pairwise.2, ?_⟩
  intro output outputSize
  obtain ⟨literals, htiles, hres⟩ := generateOutput_spec ho (by omega) (by omega) output outputSize
  rcases hres with ⟨hgen, -⟩ | ⟨-, hneg, hne⟩
  · rw [hgen]
    exact ⟨by simp, fun _ => ⟨literals, htiles, read_write _ _ _⟩⟩
  generalize generateOutput h output outputSize historyOffset (historyOffset + srcSize) optimized =
    result at hneg hne
  exact ⟨hne, fun hge => absurd hneg (not_lt.mpr hge)⟩

/-- Two matches in a history of zeros, of which the second starts inside the first. -/
theorem optimize_then_generate_overlap : 0 ≤ (optimizeMatches [⟨5, 0, 12⟩, ⟨10, 3, 20⟩]).1 :=
  (@optimize_then_generate (fill 0) 0 40 [⟨5, 0, 12⟩, ⟨10, 3, 20⟩] (by decide) (by decide) (by
    intro m hm
    rcases mem_pair.mp hm with rfl | rfl
    · exact ⟨fun _ _ => rfl, by decide, by decide, by decide⟩
    · exact ⟨fun _ _ => rfl, by decide, by decide, by decide⟩)).1

end WBFreeRDP.Xcrush

/-
# The search of XCRUSH

The chunk tables only tell where to look: whatever they hold, a match is compared byte by byte.
What matters is that their entries stay in bounds, so that the search does not fail.
-/
import Mathlib.Algebra.Order.BigOperators.Group.List
import WBFreeRDP.XcrushMatches

namespace WBFreeRDP.Xcrush

open Bulk History List Nat Option

/-! ## Signatures -/

/-- The signatures so far cover the packet up to the start of the current chunk. -/
structure Chunking.Ok (st : Chunking) (stop : ℕ) : Prop where
  size_ge : ∀ s ∈ st.signatures, 15 ≤ s.size
  sum_eq : (st.signatures.map Signature.size).sum = st.offset
  offset_le : st.offset ≤ stop

theorem appendChunk_ok (h : st.Ok stop)
    (hst : appendChunk data st stop = some st') : st'.Ok stop := by
  simp only [appendChunk] at hst
  split_ifs at hst
  swap
  · cases hst
    exact h
  cases hst
  constructor
  · intro s hs
    rcases mem_append.mp hs with hs | hs
    · exact h.size_ge s hs
    · rw [mem_singleton.mp hs]
      assumption
  · rw [map_append, List.sum_append, h.sum_eq]
    simp only [map_cons, map_nil, sum_cons, sum_nil]
    omega
  · exact le_rfl

theorem Chunking.Ok.mono {st : Chunking} (h : st.Ok stop) (hle : stop ≤ stop') : st.Ok stop' :=
  ⟨h.size_ge, h.sum_eq, h.offset_le.trans hle⟩

theorem chunkStep_ok {st st' : Chunking} (h : st.Ok (i + 32))
    (hst : chunkStep data i st = some st') : st'.Ok (i + 1 + 32) := by
  simp only [chunkStep] at hst
  split_ifs at hst
  · -- the hash is not part of the invariant
    refine Chunking.Ok.mono (appendChunk_ok ?_ hst) (by omega)
    exact ⟨h.1, h.2, h.3⟩
  · cases hst
    exact ⟨h.1, h.2, h.3.trans (by omega)⟩

theorem computeChunksLoop_ok (hdata : 128 ≤ data.length) :
    ∀ {i} {st st'}, st.Ok (i + 32) → i ≤ data.length - 61 →
      computeChunksLoop data fuel i st = some st' → st'.Ok data.length := by
  induction fuel with
  | zero =>
    intro i st st' h hi hst
    cases hst
    exact h.mono (by omega)
  | succ fuel ih =>
  intro i st st' h hi hst
  rw [computeChunksLoop] at hst
  split_ifs at hst
  · obtain ⟨st1, h1, hst⟩ := bind_eq_some_iff.mp hst
    obtain ⟨st2, h2, hst⟩ := bind_eq_some_iff.mp hst
    obtain ⟨st3, h3, hst⟩ := bind_eq_some_iff.mp hst
    obtain ⟨st4, h4, hst⟩ := bind_eq_some_iff.mp hst
    have hok := chunkStep_ok (chunkStep_ok (chunkStep_ok (chunkStep_ok h h1) h2) h3) h4
    exact ih hok (by omega) hst
  · cases hst
    exact h.mono (by omega)

/-- **The chunks of a packet**: pieces of fifteen bytes or more, together not longer than the
packet. -/
theorem computeSignatures_spec (data : List UInt8) : (∀ s ∈ computeSignatures data, 15 ≤ s.size) ∧
      ((computeSignatures data).map Signature.size).sum ≤ data.length := by
  unfold computeSignatures
  rcases hsig : computeChunks data with _ | signatures
  · simp
  simp only [computeChunks] at hsig
  split_ifs at hsig with hshort
  obtain ⟨st, hloop, hsig⟩ := bind_eq_some_iff.mp hsig
  have hok := computeChunksLoop_ok (by omega)
    (show Chunking.Ok ⟨_, [], 0⟩ (0 + 32) from ⟨by simp, rfl, zero_le _⟩) (zero_le _) hloop
  have hend : ∃ st' : Chunking, st'.signatures = signatures ∧ st'.Ok data.length := by
    split_ifs at hsig
    · exact ⟨st, some.inj hsig, hok⟩
    · obtain ⟨st', hst', rfl⟩ := map_eq_some_iff.mp hsig
      exact ⟨st', rfl, appendChunk_ok hok hst'⟩
  obtain ⟨st', rfl, hst'⟩ := hend
  exact ⟨hst'.size_ge, hst'.sum_eq.trans_le hst'.offset_le⟩

theorem mul_length_le_sum {α : Type*} (size) {l : List α} (h : ∀ x ∈ l, k ≤ size x) :
    k * l.length ≤ (l.map size).sum := by
  have hsum := card_nsmul_le_sum (l.map size) k (forall_mem_map.mpr h)
  rwa [length_map, nsmul_eq_mul, mul_comm] at hsum

/-! ## Chunk tables -/

/-- The entries of the tables are in bounds, and no offset is above `bound`. -/
structure Chunks.Ok (t : Chunks) (bound : ℕ) : Prop where
  head_le : t.chunkHead ≤ 65530
  next_lt : ∀ i, t.next i < 65534
  nextChunks_lt : ∀ i, t.nextChunks i < 65534
  offset_le : ∀ i, t.offset i ≤ bound

theorem Chunks.empty_ok (bound) : Chunks.empty.Ok bound where
  head_le := by decide
  next_lt _ := show 0 < 65534 by decide
  nextChunks_lt _ := show 0 < 65534 by decide
  offset_le _ := zero_le _

variable {t : Chunks}

theorem Chunks.Ok.mono (h : t.Ok bound) (hle : bound ≤ bound') : t.Ok bound' :=
  ⟨h.head_le, h.next_lt, h.nextChunks_lt, fun i => (h.offset_le i).trans hle⟩

theorem clearRange_le (i) : clearRange m first last i ≤ m i := by
  show (if first ≤ m i ∧ m i ≤ last then 0 else m i) ≤ m i
  split_ifs
  · exact zero_le _
  · exact le_rfl

variable {bound : ℕ}

/-- Making room keeps the bounds, and leaves the head below the end of the table. -/
theorem makeRoom_ok (h : t.Ok bound) : (makeRoom t).Ok bound ∧ (makeRoom t).chunkHead < 65530 := by
  have hclear : ∀ t, t.Ok bound → t.chunkHead < 65530 →
      Chunks.Ok { clearHashTableRange t t.chunkTail (t.chunkTail + 10000) with
        chunkTail := t.chunkTail + 10000 } bound := by
    intro t ht _
    exact ⟨ht.head_le, fun i => (clearRange_le i).trans_lt (ht.next_lt i),
      fun i => (clearRange_le i).trans_lt (ht.nextChunks_lt i), ht.offset_le⟩
  unfold makeRoom
  simp only
  by_cases hfull : t.chunkHead ≥ 65530
  · have hstart : Chunks.Ok { t with chunkHead := 1, chunkTail := 1 } bound :=
      ⟨by simp, h.next_lt, h.nextChunks_lt, h.offset_le⟩
    split_ifs
    · exact ⟨hclear _ hstart (by simp), by simp [clearHashTableRange]⟩
    · exact ⟨hstart, by simp⟩
  · split_ifs
    · exact ⟨hclear _ h (by omega), by simp only [clearHashTableRange]; omega⟩
    · exact ⟨h, by omega⟩

theorem set_lt (hm : ∀ i, m i < bound) (ha : a < bound) : ∀ i, set m j a i < bound := by
  intro i
  by_cases hij : i = j
  · rwa [hij, set_self]
  · rw [set_of_ne m hij]
    exact hm i

/-- The chunk of a search is an index of the table. -/
def ChunkOk (chunk : Option ℕ) : Prop := ∀ c, chunk = some c → c < 65534

/-- **Inserting a chunk** does not fail and keeps the bounds. -/
theorem insertChunk_spec (h : t.Ok bound)
    (seed : ℕ) (hoffset : offset ≤ bound) (hprev : ChunkOk prevChunk) :
    ∃ chunk t', insertChunk t seed offset prevChunk = (.ok chunk, t') ∧
    t'.Ok bound ∧ ChunkOk chunk := by
  obtain ⟨hroom, hhead⟩ := makeRoom_ok h
  have hseed := hroom.nextChunks_lt seed
  simp only [insertChunk]
  rw [if_neg (by omega), if_neg (by omega)]
  refine ⟨_, _, rfl, ⟨by simp only; omega, ?_, ?_, ?_⟩, ?_⟩
  · exact set_lt hroom.next_lt hseed
  · exact set_lt hroom.nextChunks_lt (by omega)
  · intro i
    exact Nat.lt_succ_iff.mp
      (set_lt (fun j => lt_succ_of_le (hroom.offset_le j)) (lt_succ_of_le hoffset) i)
  · intro c hc
    split_ifs at hc
    · cases hc
      exact hseed
    · exact hprev c hc

theorem findNextMatchingChunk_spec (h : t.Ok bound)
    (hchunk : chunk < 65534) : ∃ next, findNextMatchingChunk t chunk = .ok next ∧ ChunkOk next := by
  have hnext := h.next_lt chunk
  simp only [findNextMatchingChunk]
  split_ifs
  · omega
  · omega
  · exact ⟨_, rfl, fun c hc => by rw [← some.inj hc]; exact hnext⟩
  all_goals exact ⟨none, rfl, fun c hc => by cases hc⟩

/-! ## Matches -/

/-- A match of a packet: the bytes at an offset in the packet equal the ones at a chunk, which is
not above `bound` and not in the rest of the packet. -/
def Matched (p : Packet) (bound : ℕ) (m : MatchInfo) : Prop :=
  ∃ offset chunkOffset, p.historyOffset ≤ offset ∧ offset ≤ p.historyOffset + p.srcSize ∧
    chunkOffset ≤ bound ∧
    (chunkOffset < offset ∨ p.historyOffset + p.srcSize < chunkOffset) ∧
    Found p.memory p.historyBufferSize offset chunkOffset p.historyOffset p.srcSize m

/-- Where a packet is in its history. -/
structure Packet.Ok (p : Packet) (bound : ℕ) : Prop where
  end_le : p.historyOffset + p.srcSize ≤ bound
  bound_le : bound ≤ p.historyBufferSize

theorem Matched.original (h : Matched p bound m) :
    Original p.memory p.historyOffset (p.historyOffset + p.srcSize) m := by
  obtain ⟨offset, chunkOffset, -, -, -, -, hfound⟩ := h
  exact ⟨hfound.repeats, hfound.eleven_le, hfound.first_le, hfound.end_le⟩

/-- `xcrush_find_match_length` does not fail for two different offsets in the history. -/
theorem findMatchLength_nonneg {size matchOffset chunkOffset}
    (hmatch : matchOffset ≤ size) (hchunk : chunkOffset ≤ size) (hne : matchOffset ≠ chunkOffset)
    (historyOffset srcSize maxMatchLength : ℕ) :
    0 ≤ (findMatchLength h size matchOffset chunkOffset historyOffset srcSize
      maxMatchLength).1 := by
  simp only [findMatchLength]
  rw [if_neg (by omega), if_neg (by omega), if_neg hne]
  split_ifs
  · exact le_rfl
  · exact le_rfl
  · omega

def BestOk (p : Packet) (bound : ℕ) (best : MatchInfo) : Prop :=
  best.matchLength = 0 ∨ Matched p bound best

theorem probeChunk_spec (hp : p.Ok bound) (hfirst : p.historyOffset ≤ offset)
    (hlast : offset ≤ p.historyOffset + p.srcSize) (hchunk : chunkOffset ≤ bound)
    (hbest : BestOk p bound best) :
    ∃ best' stop, probeChunk p offset chunkOffset best = .ok (best', stop) ∧
    BestOk p bound best' := by
  have hend := hp.end_le
  have hsize := hp.bound_le
  unfold probeChunk
  by_cases htest : chunkOffset < p.historyOffset ∨ chunkOffset < offset ∨
      chunkOffset > p.srcSize + p.historyOffset
  · have hnonneg := findMatchLength_nonneg (show offset ≤ p.historyBufferSize by omega)
      (show chunkOffset ≤ p.historyBufferSize by omega) (show offset ≠ chunkOffset by omega)
      p.historyOffset p.srcSize best.matchLength (h := p.memory)
    rw [if_pos htest]
    rcases hfind : findMatchLength p.memory p.historyBufferSize offset chunkOffset p.historyOffset
      p.srcSize best.matchLength with ⟨status, info⟩
    rw [hfind] at hnonneg
    simp only
    rw [if_neg (not_lt.mpr hnonneg)]
    by_cases hlonger : status.toNat > best.matchLength
    · rw [if_pos hlonger]
      refine ⟨info, _, rfl, Or.inr ⟨offset, chunkOffset, hfirst, hlast, hchunk, by omega, ?_⟩⟩
      exact (findMatchLength_spec hfirst hlast hfind (by omega)).2
    · rw [if_neg hlonger]
      exact ⟨best, false, rfl, hbest⟩
  · rw [if_neg htest]
    exact ⟨best, false, rfl, hbest⟩

/-- **The search along a chain** does not fail and finds a match or none. -/
theorem chainLoop_spec (hp : p.Ok bound) (ht : t.Ok bound) (hfirst : p.historyOffset ≤ offset)
    (hlast : offset ≤ p.historyOffset + p.srcSize) (fuel : ℕ) :
    ∀ {chunk} {best}, ChunkOk chunk → BestOk p bound best →
      ∃ chunk' best', chainLoop p t offset fuel chunk best = .ok (chunk', best') ∧ ChunkOk chunk' ∧
        BestOk p bound best' := by
  induction fuel with
  | zero =>
    intro chunk best hchunk hbest
    rcases chunk with _ | c
    · exact ⟨none, best, by rw [chainLoop], hchunk, hbest⟩
    obtain ⟨best', stop, hprobe, hbest'⟩ := probeChunk_spec hp hfirst hlast (ht.offset_le c) hbest
    rw [chainLoop, hprobe]
    cases stop with
    | true | false => exact ⟨some c, best', rfl, hchunk, hbest'⟩
  | succ fuel ih =>
  intro chunk best hchunk hbest
  rcases chunk with _ | c
  · exact ⟨none, best, by rw [chainLoop], hchunk, hbest⟩
  obtain ⟨best', stop, hprobe, hbest'⟩ := probeChunk_spec hp hfirst hlast (ht.offset_le c) hbest
  rw [chainLoop, hprobe]
  cases stop with
  | true => exact ⟨some c, best', rfl, hchunk, hbest'⟩
  | false =>
  obtain ⟨next, hnext, hok⟩ := findNextMatchingChunk_spec ht (hchunk c rfl)
  simp only [hnext]
  exact ih hok hbest'

/-- The variables of the search between two signatures. -/
structure Search.Ok (p : Packet) (bound : ℕ) (s : Search) : Prop where
  chunks : s.chunks.Ok bound
  chunk : ChunkOk s.chunk
  matched : ∀ m ∈ s.originalMatches, Matched p bound m

/-- The status of a search says whether it has found a thousand matches. -/
def Counted (status : ℤ) (ms : List MatchInfo) : Prop :=
  status = 0 ∧ ms.length < 1000 ∨ status = -1003 ∧ 1000 ≤ ms.length

/-- Taking a match into the list fails only when the list is full. -/
theorem addMatch_spec (hs : s.Ok p bound) (hfew : s.originalMatches.length < 1000)
    (hbest : BestOk p bound best) :
    ∃ status s', addMatch p s best = (status, s') ∧ s'.Ok p bound ∧ s'.srcOffset = s.srcOffset ∧
      s'.originalMatches.length ≤ s.originalMatches.length + 1 ∧
      Counted status s'.originalMatches := by
  unfold addMatch
  by_cases hzero : best.matchLength = 0
  · rw [if_neg (not_not.mpr hzero)]
    exact ⟨0, s, rfl, hs, rfl, le_succ _, Or.inl ⟨rfl, hfew⟩⟩
  have hmatch : Matched p bound best := hbest.resolve_left hzero
  have hfirst := hmatch.original.first_le
  have hall : ∀ m ∈ s.originalMatches ++ [best], Matched p bound m := by
    intro m hm
    rcases mem_append.mp hm with hm | hm
    · exact hs.matched m hm
    · rwa [mem_singleton.mp hm]
  rw [if_pos hzero]
  simp only [length_append, length_singleton]
  rw [if_neg (not_lt.mpr hfirst)]
  by_cases hfull : s.originalMatches.length + 1 ≥ 1000
  · rw [if_pos hfull]
    refine ⟨_, _, rfl, ⟨hs.chunks, hs.chunk, hall⟩, rfl, by simp, Or.inr ⟨rfl, ?_⟩⟩
    rwa [length_append, length_singleton]
  · rw [if_neg hfull]
    refine ⟨_, _, rfl, ⟨hs.chunks, hs.chunk, hall⟩, rfl, by simp, Or.inl ⟨rfl, ?_⟩⟩
    rwa [length_append, length_singleton, ← not_le]

theorem searchSignature_spec (hp : p.Ok bound) (signature) (hs : s.Ok p bound)
    (hfew : s.originalMatches.length < 1000) (hoffset : s.srcOffset ≤ p.srcSize) :
    ∃ status s', searchSignature p signature s = (status, s') ∧ s'.Ok p bound ∧
      s'.srcOffset = s.srcOffset ∧ s'.originalMatches.length ≤ s.originalMatches.length + 1 ∧
      Counted status s'.originalMatches := by
  have hend := hp.end_le
  obtain ⟨chunk, t', hinsert, ht', hchunk⟩ := insertChunk_spec hs.chunks signature.seed
    (show s.srcOffset + p.historyOffset ≤ bound by omega) hs.chunk
  simp only [searchSignature, hinsert]
  split_ifs
  · obtain ⟨chunk', best, hchain, hchunk', hbest⟩ := chainLoop_spec hp ht'
      (show p.historyOffset ≤ s.srcOffset + p.historyOffset by omega) (by omega) 5 hchunk
      (show BestOk p bound ⟨0, 0, 0⟩ from Or.inl rfl)
    simp only [hchain]
    exact addMatch_spec (s := { s with chunks := t', chunk := chunk' })
      ⟨ht', hchunk', hs.matched⟩ hfew hbest
  · exact ⟨0, _, rfl, ⟨ht', hchunk, hs.matched⟩, rfl, le_succ _, Or.inl ⟨rfl, hfew⟩⟩

/-- **The search over all signatures.** It fails only with a thousand matches. -/
theorem findAllMatchesLoop_spec (hp : p.Ok bound) :
    ∀ {s}, s.Ok p bound → s.originalMatches.length < 1000 → (∀ x ∈ signatures, 15 ≤ x.size) →
      s.srcOffset + (signatures.map Signature.size).sum ≤ p.srcSize →
      ∃ status s', findAllMatchesLoop p signatures s = (status, s') ∧ s'.Ok p bound ∧
        (status = 0 → s'.srcOffset ≤ p.srcSize) ∧
        s'.originalMatches.length ≤ s.originalMatches.length + signatures.length ∧
        Counted status s'.originalMatches := by
  induction signatures with
  | nil =>
    intro s hs hfew _ hsum
    exact ⟨0, s, rfl, hs, fun _ => by simpa using hsum, le_rfl, Or.inl ⟨rfl, hfew⟩⟩
  | cons x signatures ih =>
  intro s hs hfew hsizes hsum
  have hx := hsizes x mem_cons_self
  rw [map_cons, sum_cons] at hsum
  obtain ⟨status, s', hsearch, hs', hoffset, hlength, hstatus⟩ :=
    searchSignature_spec hp x hs hfew (by omega)
  rw [findAllMatchesLoop, if_neg (by omega), hsearch, length_cons]
  rcases hstatus with ⟨rfl, hfew'⟩ | ⟨rfl, hfull⟩
  · simp only
    rw [if_neg (lt_irrefl _), if_neg (by omega), hoffset]
    obtain ⟨status, s'', hloop, hs'', hend, hlength', hstatus⟩ :=
      ih (s := { s' with srcOffset := s.srcOffset + x.size })
        ⟨hs'.chunks, hs'.chunk, hs'.matched⟩ hfew'
        (fun y hy => hsizes y (mem_cons_of_mem x hy)) (by simp only; omega)
    exact ⟨status, s'', hloop, hs'', hend, by simp only at hlength'; omega, hstatus⟩
  · exact ⟨-1003, s', rfl, hs', fun h => absurd h (by decide), by omega, Or.inr ⟨rfl, hfull⟩⟩

/-- **What `xcrush_find_all_matches` finds** for the signatures of a packet.  It fails only with a
thousand matches, which a packet shorter than fifteen thousand bytes does not have. -/
theorem findAllMatches_spec (hp : p.Ok bound) (ht : t.Ok bound) {src : List UInt8}
    (hsrc : p.srcSize = src.length) :
    ∃ status t' ms, findAllMatches p t (computeSignatures src) = (status, t', ms) ∧ t'.Ok bound ∧
      (∀ m ∈ ms, Matched p bound m) ∧ 15 * ms.length ≤ src.length ∧
      (0 ≤ status ∧ ms.length < 1000 ∨ status < 0 ∧ 1000 ≤ ms.length) := by
  obtain ⟨hsizes, hsum⟩ := computeSignatures_spec src
  have hcount := mul_length_le_sum Signature.size hsizes
  obtain ⟨status, s, hloop, hs, hoffset, hlength, hstatus⟩ := findAllMatchesLoop_spec hp
    (s := ⟨t, none, 0, 0, []⟩) ⟨ht, (fun c hc => by cases hc), (by simp)⟩ (by simp) hsizes
    (by simp only; omega)
  simp only [length_nil] at hlength
  simp only [findAllMatches, hloop]
  rcases hstatus with ⟨rfl, hfew⟩ | ⟨rfl, hfull⟩
  · rw [if_neg (not_lt.mpr (hoffset rfl))]
    exact ⟨_, _, _, rfl, hs.chunks, hs.matched, by omega, Or.inl ⟨Int.natCast_nonneg _, hfew⟩⟩
  · exact ⟨_, _, _, rfl, hs.chunks, hs.matched, by omega, Or.inr ⟨by decide, hfull⟩⟩

/-! ## Level 1 -/

/-- Where a packet of `n` bytes goes. -/
def front (x : Context) (n : ℕ) : ℕ :=
  if x.historyOffset + n + 8 > x.historyBufferSize then 0 else x.historyOffset

/-- The flag for a packet that goes to the front of the history. -/
def frontFlags (x : Context) (n : ℕ) : ℕ :=
  if x.historyOffset + n + 8 > x.historyBufferSize then l1PacketAtFront else 0

/-- The context with the packet in its history. -/
def placed (x : Context) (src : List UInt8) : Context :=
  { x with
    historyBuffer := write x.historyBuffer (front x src.length) src
    historyOffset := front x src.length + src.length }

def packetOf (x : Context) (src : List UInt8) : Packet :=
  ⟨(placed x src).memory, x.historyBufferSize, front x src.length, src.length⟩

/-- No match is cut down by another one to less than eleven bytes. -/
def Separated (p : Packet) (bound : ℕ) : Prop :=
  ∀ a b, Matched p bound a → Matched p bound b → KeepsAt 11 b (a.matchOffset + a.matchLength)

/-- A packet that is cut into matches and literals. -/
structure Cut (p : Packet) (bound : ℕ) (h : Memory UInt8) (ms : List MatchInfo)
    (literals : List UInt8) : Prop where
  ne_nil : ms ≠ []
  ordered : Ordered (p.historyOffset + p.srcSize) p.historyOffset ms
  kept : ∀ m ∈ ms, Kept p.memory p.historyOffset 7 m
  before : bound = p.historyOffset + p.srcSize → ∀ m ∈ ms, m.chunkOffset < m.matchOffset
  tiles : Tiles h (p.historyOffset + p.srcSize) p.historyOffset ms literals

/-- When no chunk is behind the packet, the chunk of a match is before it. -/
theorem Matched.before (h : Matched p bound m)
    (hbound : bound = p.historyOffset + p.srcSize) : m.chunkOffset < m.matchOffset := by
  obtain ⟨offset, chunkOffset, -, -, hchunk, htest, hfound⟩ := h
  have heq := hfound.chunk_eq
  omega

theorem optimizeMatchesLoop_before :
    ∀ {prev} {optimized}, optimizeMatchesLoop prev ms = .ok optimized →
      (∀ m ∈ ms, m.chunkOffset < m.matchOffset) →
      ∀ m ∈ optimized, m.chunkOffset < m.matchOffset := by
  induction ms with
  | nil =>
    intro prev optimized hloop _
    cases hloop
    simp
  | cons m ms ih =>
  intro prev optimized hloop hall
  have hm := hall m mem_cons_self
  have hms : ∀ x ∈ ms, x.chunkOffset < x.matchOffset := fun x hx => hall x (mem_cons_of_mem m hx)
  -- a match that is kept as a whole or in part is put in front of what the rest gives
  have hcons : ∀ next m', m'.chunkOffset < m'.matchOffset →
      (optimizeMatchesLoop next ms).map (m' :: ·) = .ok optimized →
      ∀ x ∈ optimized, x.chunkOffset < x.matchOffset := by
    intro next m' hm' heq
    cases hrest : optimizeMatchesLoop next ms with
    | error e =>
      rw [hrest] at heq
      cases heq
    | ok rest =>
    rw [hrest] at heq
    cases heq
    intro x hx
    rcases mem_cons.mp hx with rfl | hx
    · exact hm'
    · exact ih hrest hms x hx
  rw [optimizeMatchesLoop] at hloop
  simp only at hloop
  split_ifs at hloop
  · exact hcons _ _ (by simp only; omega) hloop
  · exact ih hloop hms
  · exact hcons _ _ hm hloop

/-- The matches that the search finds in a packet. -/
def foundMatches (x : Context) (src : List UInt8) : List MatchInfo :=
  (findAllMatches (packetOf x src) x.chunks (computeSignatures src)).2.2

/-- The matches that are left without what they share. -/
def keptMatches (x : Context) (src : List UInt8) : List MatchInfo :=
  (optimizeMatches (foundMatches x src)).2

/-- **The matches pay**: there are less than a thousand, and the ones that are left are longer than
the eight bytes that are sent for each of them and the two for their number. -/
def Pays (x : Context) (src : List UInt8) : Prop :=
  (foundMatches x src).length < 1000 ∧
    (keptMatches x src = [] ∨
      2 + 8 * (keptMatches x src).length < ((keptMatches x src).map MatchInfo.matchLength).sum)

instance (x src) : Decidable (Pays x src) := inferInstanceAs (Decidable (_ ∧ _))

/-- The output is shorter than the packet if and only if the matches pay. -/
theorem Tiles.outputBytes_lt_iff (ht : Tiles h stop first ms literals) :
    (outputBytes first ms literals).length < stop - first ↔
      2 + 8 * ms.length < (ms.map MatchInfo.matchLength).sum := by
  have hlength := ht.length_eq
  rw [length_outputBytes]
  omega

/-- The outcomes of level 1 on a packet: no compression; compression; a failure, with matches that
do not pay. -/
inductive Level1Result (x : Context) (src : List UInt8) (bound : ℕ) (l1 : Level1) : Prop
  | plain (hstatus : l1.status = 1)
      (hflags : l1.flags = frontFlags x src.length ||| l1NoCompression) (hdata : l1.data = src)
      (hpays : Pays x src)
  | compressed (hstatus : l1.status = 1)
      (hflags : l1.flags = frontFlags x src.length ||| l1Compressed) (ms : List MatchInfo)
      (literals : List UInt8)
      (hcut : Cut (packetOf x src) bound (placed x src).historyBuffer ms literals)
      (hdata : l1.data = outputBytes (front x src.length) ms literals)
      (hshort : l1.data.length < src.length) (hpays : Pays x src)
  | failed (hstatus : l1.status < 0) (hcosts : ¬ Pays x src)

theorem optimizeMatches_ok (h : optimizeMatches ms = (status, optimized)) (hne : optimized ≠ []) :
    optimizeMatchesLoop 0 ms = .ok optimized := by
  unfold optimizeMatches at h
  cases hloop : optimizeMatchesLoop 0 ms with
  | error e =>
    rw [hloop] at h
    exact absurd (Prod.mk.inj h).2.symm hne
  | ok ms' =>
  rw [hloop] at h
  rw [(Prod.mk.inj h).2]

/-- Without matches there is nothing to trim. -/
theorem ite_optimizeMatches (ms) :
    (if ms ≠ [] then optimizeMatches ms else (0, [])) = optimizeMatches ms := by
  cases ms with
  | nil => rfl
  | cons m ms => exact if_pos (cons_ne_nil m ms)

/-- Level 1 on the signatures of a packet that is in the history. -/
theorem compressMatches_spec (hsize : x.historyBufferSize = 2000000) (hlen : src.length ≤ 16384)
    (hp : (packetOf x src).Ok bound) (ht : x.chunks.Ok bound) :
    ∃ t' block', t'.Ok bound ∧
      (compressMatches (placed x src) src (front x src.length) (frontFlags x src.length)
        (computeSignatures src)).context =
          { placed x src with chunks := t', blockBuffer := block' } ∧
      Level1Result x src bound (compressMatches (placed x src) src (front x src.length)
        (frontFlags x src.length) (computeSignatures src)) := by
  obtain ⟨status, t', ms, hfind, ht', hmatched, -, hstatus⟩ := findAllMatches_spec hp ht rfl
  have hfound : foundMatches x src = ms := by rw [foundMatches, hfind]
  have hend : front x src.length + src.length ≤ 2000000 :=
    (hp.end_le.trans hp.bound_le).trans_eq hsize
  have hall : ∀ m ∈ ms, Original (packetOf x src).memory (front x src.length)
      (front x src.length + src.length) m := fun m hm => (hmatched m hm).original
  have hfind' : findAllMatches ⟨(placed x src).memory, (placed x src).historyBufferSize,
      front x src.length, src.length⟩ (placed x src).chunks (computeSignatures src) =
      (status, t', ms) := hfind
  simp only [compressMatches, hfind']
  rcases hstatus with ⟨hstatus, hfew⟩ | ⟨hstatus, hfull⟩
  swap
  · rw [if_pos hstatus]
    refine ⟨t', _, ht', rfl, .failed hstatus fun hpays => ?_⟩
    exact absurd hpays.1 (by rw [hfound]; omega)
  rw [if_neg (not_lt.mpr hstatus)]
  obtain ⟨optimized, hopt, hordered, hkept⟩ := optimizeMatches_spec 7
    (show front x src.length + src.length ≤ front x src.length + 16384 by omega)
    (le_add_right _ _) (by omega) (by decide) hall
    (pairwise_of_forall fun _ _ _ hend => hend)
  have hkeeps : keptMatches x src = optimized := by rw [keptMatches, hfound, hopt]
  rw [ite_optimizeMatches, hopt]
  by_cases hne : optimized = []
  · rw [if_neg (not_not.mpr hne)]
    have hpays : Pays x src := ⟨by rwa [hfound], Or.inl (hkeeps.trans hne)⟩
    exact ⟨t', _, ht', rfl, .plain rfl rfl rfl hpays⟩
  rw [if_pos hne]
  obtain ⟨literals, htiles, hres⟩ := generateOutput_spec hordered (by omega) (by omega)
    (placed x src).blockBuffer src.length
  have hcut : Cut (packetOf x src) bound (placed x src).historyBuffer optimized literals := by
    refine ⟨hne, hordered, hkept, ?_, htiles⟩
    intro hbound
    apply optimizeMatchesLoop_before (optimizeMatches_ok hopt hne)
    intro m hm
    exact (hmatched m hm).before hbound
  have hiff := htiles.outputBytes_lt_iff
  rw [Nat.add_sub_cancel_left] at hiff
  rcases hres with ⟨hgen, hshort⟩ | ⟨hlong, hneg, -⟩
  · have hgen' : generateOutput (placed x src).historyBuffer (placed x src).blockBuffer src.length
        (front x src.length) (placed x src).historyOffset optimized = _ := hgen
    rw [hgen']
    refine ⟨t', _, ht', rfl, .compressed rfl rfl optimized literals hcut ?_ ?_ ?_⟩
    · exact read_write _ _ _
    · rwa [read_write]
    · exact ⟨by rwa [hfound], Or.inr (by rw [hkeeps]; exact hiff.mp hshort)⟩
  have hcosts : ¬ Pays x src := by
    rintro ⟨-, hnone | hpays⟩
    · exact hne (hkeeps.symm.trans hnone)
    · rw [hkeeps, ← hiff] at hpays
      omega
  have hgen : (generateOutput (placed x src).historyBuffer (placed x src).blockBuffer src.length
      (front x src.length) (placed x src).historyOffset optimized).1 < 0 := hneg
  generalize generateOutput (placed x src).historyBuffer (placed x src).blockBuffer src.length
    (front x src.length) (placed x src).historyOffset optimized = result at hgen
  obtain ⟨status', block', dstSize⟩ := result
  rw [if_pos hgen]
  exact ⟨t', block', ht', rfl, .failed hgen hcosts⟩

/-- A packet shorter than 128 bytes is not cut into chunks. -/
theorem computeSignatures_short {src : List UInt8} (h : src.length < 128) :
    computeSignatures src = [] := by
  rw [computeSignatures, computeChunks, if_pos h]
  rfl

theorem pays_of_nil (h : foundMatches x src = []) : Pays x src := by
  refine ⟨by rw [h]; decide, Or.inl ?_⟩
  rw [keptMatches, h]
  rfl

theorem pays_of_no_signature (h : computeSignatures src = []) : Pays x src :=
  pays_of_nil (by rw [foundMatches, h]; rfl)

/-- **Matches that are not cut down to less than eleven bytes pay**, unless there are too many. -/
theorem pays_of_separated (hsize : x.historyBufferSize = 2000000) (hp : (packetOf x src).Ok bound)
    (ht : x.chunks.Ok bound) (hlen : src.length < 15000) (hsep : Separated (packetOf x src) bound) :
    Pays x src := by
  obtain ⟨status, t', ms, hfind, -, hmatched, hcount, -⟩ := findAllMatches_spec hp ht rfl
  have hfound : foundMatches x src = ms := by rw [foundMatches, hfind]
  have hend : front x src.length + src.length ≤ 2000000 :=
    (hp.end_le.trans hp.bound_le).trans_eq hsize
  obtain ⟨optimized, hopt, -, hkept⟩ := optimizeMatches_spec 11
    (show front x src.length + src.length ≤ front x src.length + 16384 by omega)
    (le_add_right _ _) (by omega) le_rfl (fun m hm => (hmatched m hm).original)
    (pairwise_iff_forall_sublist.mpr fun {a b} hab => hsep a b
      (hmatched a (hab.subset mem_cons_self))
      (hmatched b (hab.subset (mem_cons_of_mem a mem_cons_self))))
  have hkeeps : keptMatches x src = optimized := by rw [keptMatches, hfound, hopt]
  refine ⟨by rw [hfound]; omega, ?_⟩
  rw [hkeeps]
  -- eight bytes of details for eleven bytes of the packet
  have hsum := mul_length_le_sum MatchInfo.matchLength fun m hm => (hkept m hm).least_le
  by_cases hnil : optimized = []
  · exact Or.inl hnil
  · have hpos := length_pos_iff.mpr hnil
    exact Or.inr (by omega)

/-- **What `xcrush_compress_l1` does.** -/
theorem compressL1_spec (hsize : x.historyBufferSize = 2000000) (hlen : src.length ≤ 16384)
    (hp : (packetOf x src).Ok bound) (ht : x.chunks.Ok bound) :
    ∃ t' block', t'.Ok bound ∧
      (compressL1 x src).context = { placed x src with chunks := t', blockBuffer := block' } ∧
      Level1Result x src bound (compressL1 x src) := by
  have heq : compressL1 x src =
      if (if src.length > 50 then computeSignatures src else []) ≠ [] then
        compressMatches (placed x src) src (front x src.length) (frontFlags x src.length)
          (if src.length > 50 then computeSignatures src else [])
      else ⟨1, frontFlags x src.length ||| l1NoCompression, src, placed x src⟩ := rfl
  rw [heq]
  by_cases hsig : (if src.length > 50 then computeSignatures src else []) ≠ []
  · split_ifs at hsig ⊢ with hmin
    · exact compressMatches_spec hsize hlen hp ht
    · exact absurd rfl hsig
  · rw [if_neg hsig]
    refine ⟨x.chunks, x.blockBuffer, ht, rfl, .plain rfl rfl rfl (pays_of_no_signature ?_)⟩
    rw [not_not] at hsig
    split_ifs at hsig with hmin
    · exact hsig
    · exact computeSignatures_short (by omega)

end WBFreeRDP.Xcrush

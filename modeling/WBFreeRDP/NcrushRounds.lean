/-
# The rounds of the NCRUSH receiver

`ncrush_decompress` reads one symbol a round.  A symbol is a literal, the end of the stream or the
start of a copy token; a token has an offset, new or from the cache, and a length.
-/
import WBFreeRDP.NcrushCode

namespace WBFreeRDP.Ncrush

open Bulk History LowBits Nat Option

deriving instance DecidableEq for Next

/-! ## Rounds -/

def start (ncrush : Context) (src : List UInt8) : Receiving :=
  ⟨ncrush.historyBuffer, ncrush.historyPtr, ncrush.offsetCache,
    ⟨src.drop 4, 32, bytesNat (src.take 4)⟩⟩

/-- The variables after `n` rounds, if none of them is the last one. -/
def rounds (historyEnd : ℕ) : ℕ → Receiving → Option Receiving
  | 0, st => some st
  | n + 1, st =>
    match decompressStep historyEnd st with
    | (.more, st) => rounds historyEnd n st
    | _ => none

theorem rounds_zero (historyEnd : ℕ) : rounds historyEnd 0 st = some st := rfl

variable {st : Receiving}

theorem rounds_succ (h : decompressStep historyEnd st = (.more, st')) :
    rounds historyEnd (n + 1) st = rounds historyEnd n st' := by
  rw [rounds, h]

theorem decompressStep_more (h : (decompressStep historyEnd st).1 = .more) :
    decompressStep historyEnd st = (.more, (decompressStep historyEnd st).2) := by
  rw [← h]

variable {P : Receiving → Prop}

/-- What every round keeps holds after any number of rounds. -/
theorem rounds_invariant
    (hstep : ∀ st st', decompressStep historyEnd st = (.more, st') → P st → P st') (n) :
    ∀ {st st'}, rounds historyEnd n st = some st' → P st → P st' := by
  induction n with
  | zero =>
    intro st st' h hst
    cases h
    exact hst
  | succ n ih =>
  intro st st' h hst
  rw [rounds] at h
  split at h
  case _ st₁ hmore => exact ih h (hstep st st₁ hmore hst)
  case _ => cases h

/-- What every round keeps, the last one included, holds in the end. -/
theorem decompressLoop_invariant (hstep : ∀ st, P st → P (decompressStep historyEnd st).2) (fuel) :
    ∀ {st}, P st → P (decompressLoop historyEnd fuel st).2 := by
  induction fuel with
  | zero => intro st hst; exact hst
  | succ fuel ih =>
  intro st hst
  have hnext := hstep st hst
  rw [decompressLoop]
  generalize decompressStep historyEnd st = result at hnext
  obtain ⟨next, st'⟩ := result
  cases next with
  | more => exact ih hnext
  | done => exact hnext
  | failed status => exact hnext

/-! ## Copy tokens -/

/-- The copy token that a round reads: its offset, its length and the variables when it is read. -/
def copyToken (st : Receiving) : Option (ℕ × ℕ × Receiving) :=
  let maskedBits := st.input.bits &&& maskOf 13
  let indexLEC := huffTableLEC maskedBits &&& 0xFFF
  if maskedBits ≥ 8192 ∨ indexLEC ≤ 256 then none
  else
    (st.input.skip (huffTableLEC maskedBits >>> 12)).bind fun r =>
      if indexLEC - 257 ≥ 32 then
        if indexLEC - 289 ≥ 4 then none
        else
          (readLength r).map fun (lengthOfMatch, r) =>
            (st.offsetCache.get (indexLEC - 289), lengthOfMatch,
              { st with offsetCache := st.offsetCache.swap (indexLEC - 289), input := r })
      else
        (readOffset r (indexLEC - 257)).bind fun (copyOffset, r) =>
          (readLength r).map fun (lengthOfMatch, r) =>
            (copyOffset, lengthOfMatch,
              { st with offsetCache := st.offsetCache.push copyOffset, input := r })

variable {c l : ℕ}

/-- **A round that reads a copy token** copies. -/
theorem decompressStep_copyToken (historyEnd : ℕ) (h : copyToken st = some (c, l, st₁)) :
    decompressStep historyEnd st = decompressCopy historyEnd st₁ c l := by
  simp only [copyToken] at h
  simp only [decompressStep]
  generalize st.input.bits &&& maskOf 13 = maskedBits at h ⊢
  generalize huffTableLEC maskedBits &&& 0xFFF = indexLEC at h ⊢
  by_cases hnone : maskedBits ≥ 8192 ∨ indexLEC ≤ 256
  · rw [if_pos hnone] at h
    cases h
  rw [if_neg hnone] at h
  rw [not_or] at hnone
  have hlit : ¬ indexLEC < 256 := by omega
  have hend : ¬ indexLEC = 256 := by omega
  obtain ⟨r, hskip, h⟩ := bind_eq_some_iff.mp h
  simp only [if_neg hnone.1, hskip, if_neg hlit, if_neg hend, decompressMatch]
  split_ifs at h with h32 h4
  · obtain ⟨⟨len, r'⟩, hread, hval⟩ := map_eq_some_iff.mp h
    simp only [Prod.mk.injEq] at hval
    obtain ⟨rfl, rfl, rfl⟩ := hval
    rw [if_pos h32, if_neg h4, hread]
  · obtain ⟨⟨c', r'⟩, hoffset, h⟩ := bind_eq_some_iff.mp h
    obtain ⟨⟨len, r''⟩, hread, hval⟩ := map_eq_some_iff.mp h
    cases hval
    simp only [if_neg h32, hoffset, hread]

/-- How the last round ends: at the end of the stream or with an error. -/
def Next.Stops (next : Next) : Prop := next = .done ∨ ∃ status < 0, next = .failed status

theorem Next.stops_failed (h : status < 0) : (Next.failed status).Stops := .inr ⟨status, h, rfl⟩

/-- **A round without a copy token** appends a literal, or changes nothing but the reader and is the
last one. -/
theorem decompressStep_noToken (historyEnd : ℕ) (h : copyToken st = none) :
    (∃ b r, st.historyPtr < historyEnd ∧ decompressStep historyEnd st = (.more, { st with
      historyBuffer := set st.historyBuffer st.historyPtr b
      historyPtr := st.historyPtr + 1
      input := r })) ∨
    ∃ next r, next.Stops ∧ decompressStep historyEnd st = (next, { st with input := r }) := by
  simp only [copyToken] at h
  simp only [decompressStep]
  generalize st.input.bits &&& maskOf 13 = maskedBits at h ⊢
  generalize huffTableLEC maskedBits &&& 0xFFF = indexLEC at h ⊢
  by_cases hlarge : maskedBits ≥ 8192
  · exact Or.inr ⟨.failed (-1), st.input, Next.stops_failed (by decide), by rw [if_pos hlarge]⟩
  simp only [if_neg hlarge]
  rcases hskip : st.input.skip (huffTableLEC maskedBits >>> 12) with _ | r
  · exact Or.inr ⟨.failed (-1), st.input, Next.stops_failed (by decide), rfl⟩
  simp only
  by_cases hlit : indexLEC < 256
  · rw [if_pos hlit]
    by_cases hroom : st.historyPtr ≥ historyEnd
    · exact Or.inr ⟨.failed (-1003), r, Next.stops_failed (by decide), by rw [if_pos hroom]⟩
    · exact .inl ⟨_, r, not_le.mp hroom, by rw [if_neg hroom]⟩
  rw [if_neg hlit]
  by_cases hend : indexLEC = 256
  · exact .inr ⟨.done, r, .inl rfl, by rw [if_pos hend]⟩
  -- the token is not read to its end
  rw [if_neg (by omega), hskip, bind_some] at h
  refine .inr ?_
  unfold decompressMatch
  split_ifs at h ⊢ with h32 h4
  · exact ⟨.failed (-1004), r, Next.stops_failed (by decide), rfl⟩
  · rw [map_eq_none_iff] at h
    exact ⟨.failed (-1), r, Next.stops_failed (by decide), by rw [h]⟩
  cases hoffset : readOffset r (indexLEC - 257) with
  | none => exact ⟨.failed (-1), r, Next.stops_failed (by decide), rfl⟩
  | some p =>
  rw [hoffset, bind_some, map_eq_none_iff] at h
  exact ⟨.failed (-1), r, Next.stops_failed (by decide), by simp only [h]⟩

theorem and_maskOf_lt (x) (hn : n < 17) : x &&& maskOf n < 2 ^ n := by
  rw [maskOf, getWord_huffTableMask n hn, and_two_pow_sub_one_eq_mod]
  exact mod_lt _ (Nat.two_pow_pos n)

theorem copyOffsetBase_le : ∀ i < 32,
    copyOffsetBase.getD i 0 + 2 ^ copyOffsetBits.getD i 0 ≤ 65537 := by decide

theorem readOffset_lt (hi : i < 32) (h : readOffset r i = some (c, r')) : c < 65536 := by
  have hbits := copyOffsetBits_le i hi
  have hbase := copyOffsetBase_le i hi
  have hmask := and_maskOf_lt r.bits (show copyOffsetBits.getD i 0 < 17 by omega)
  simp only [readOffset] at h
  split_ifs at h with hne hidx hone
  · obtain ⟨r1, -, hval⟩ := map_eq_some_iff.mp h
    simp only [Prod.mk.injEq] at hval
    omega
  · simp only [some.injEq, Prod.mk.injEq] at h
    omega

/-- The offset of a token is in the cache or is a new one; the history is not touched before the
copy. -/
theorem copyToken_spec (h : copyToken st = some (c, l, st₁)) :
    st₁.historyBuffer = st.historyBuffer ∧ st₁.historyPtr = st.historyPtr ∧
      ((∃ i, c = st.offsetCache.get i ∧ st₁.offsetCache = st.offsetCache.swap i) ∨
        c < 65536 ∧ st₁.offsetCache = st.offsetCache.push c) := by
  simp only [copyToken] at h
  generalize st.input.bits &&& maskOf 13 = maskedBits at h
  generalize huffTableLEC maskedBits &&& 0xFFF = indexLEC at h
  by_cases hnone : maskedBits ≥ 8192 ∨ indexLEC ≤ 256
  · rw [if_pos hnone] at h
    cases h
  rw [if_neg hnone] at h
  obtain ⟨r, -, h⟩ := bind_eq_some_iff.mp h
  split_ifs at h with h32 h4
  · obtain ⟨⟨len, r'⟩, -, hval⟩ := map_eq_some_iff.mp h
    simp only [Prod.mk.injEq] at hval
    obtain ⟨rfl, rfl, rfl⟩ := hval
    exact ⟨rfl, rfl, .inl ⟨_, rfl, by simp only⟩⟩
  · obtain ⟨⟨c', r'⟩, hoffset, h⟩ := bind_eq_some_iff.mp h
    obtain ⟨⟨len, r''⟩, -, hval⟩ := map_eq_some_iff.mp h
    cases hval
    exact ⟨rfl, rfl, .inr ⟨readOffset_lt (not_le.mp h32) hoffset, rfl⟩⟩

/-! ## Contexts of a receiver -/

/-- **The contexts of a receiver**: new ones (`bulk_new`), those that were reset (`bulk_reset`), and
those after a packet, also after one that was refused. -/
inductive Reachable : Context → Prop
  | new {ncrush : Context} (h : contextNew = some ncrush) : Reachable ncrush
  | reset {ncrush : Context} (h : Reachable ncrush) : Reachable (contextReset ncrush false)
  | decompress {ncrush : Context} (h : Reachable ncrush) (src : List UInt8) (flags : ℕ) :
      Reachable (decompress ncrush src flags).context

/-- The offsets of a cache are inside of the history. -/
def Cache.Small (c : Cache) : Prop := ∀ i, c.get i < 65536

theorem Cache.small_zero : Cache.Small ⟨0, 0, 0, 0⟩ := by
  intro i
  rcases i with _ | _ | _ | i <;> exact succ_pos _

theorem Cache.Small.swap {c : Cache} (h : c.Small) (i) : (c.swap i).Small := by
  have h0 := h 0
  have h1 := h 1
  have h2 := h 2
  have h3 := h 3
  intro j
  rcases i with _ | _ | _ | i <;> rcases j with _ | _ | _ | j <;> assumption

theorem Cache.Small.push {c : Cache} (h : c.Small) (hoff : copyOffset < 65536) :
    (c.push copyOffset).Small := by
  have h0 := h 0
  have h1 := h 1
  have h2 := h 2
  intro j
  rcases j with _ | _ | _ | j <;> assumption

/-- The variables of a receiver that stays inside of its history. -/
structure InRange (historyPtr : ℕ) (cache : Cache) : Prop where
  ptr_le : historyPtr ≤ 65535
  cache_small : cache.Small

/-- The offset of a token that is read is inside of the history. -/
theorem copyToken_inRange (h : copyToken st = some (c, l, st₁))
    (hst : InRange st.historyPtr st.offsetCache) :
    c < 65536 ∧ InRange st₁.historyPtr st₁.offsetCache := by
  obtain ⟨-, hptr, ⟨i, rfl, hcache⟩ | ⟨hc, hcache⟩⟩ := copyToken_spec h
  · refine ⟨hst.cache_small i, ?_⟩
    rw [hptr, hcache]
    exact ⟨hst.ptr_le, hst.cache_small.swap i⟩
  · refine ⟨hc, ?_⟩
    rw [hptr, hcache]
    exact ⟨hst.ptr_le, hst.cache_small.push hc⟩

theorem copySource_wrap (hp : p < c) (hc : c < 65536) :
    (((p : ℤ) - c) % 65536).toNat = 65536 + p - c := by
  omega

/-- **A copy that is accepted** appends as many bytes as the token says. -/
theorem copyMatch_ptr {h : Memory UInt8} {p : ℕ} (hc : c < 65536)
    (hsrc : (((p : ℤ) - c) % 65536).toNat + l < 65535) : (copyMatch h 65535 p c l).2 = p + l := by
  unfold copyMatch
  by_cases hle : c ≤ p
  · simp only [if_pos hle]
    split_ifs <;> omega
  simp only [if_neg hle]
  split_ifs <;> omega

/-- A token is refused, which changes no more than its reading did, or the copy fits. -/
theorem decompressCopy_cases (st c l) :
    (∃ status < 0, decompressCopy 65535 st c l = (.failed status, st)) ∨
    (((st.historyPtr : ℤ) - c) % 65536).toNat + l < 65535 ∧ st.historyPtr + l < 65535 ∧ 2 ≤ l ∧
      decompressCopy 65535 st c l = (.more, { st with
        historyBuffer := (copyMatch st.historyBuffer 65535 st.historyPtr c l).1
        historyPtr := (copyMatch st.historyBuffer 65535 st.historyPtr c l).2 }) := by
  unfold decompressCopy
  by_cases hshort : l < 2
  · exact .inl ⟨-1005, by decide, by simp only [if_pos hshort]⟩
  by_cases hfar : (((st.historyPtr : ℤ) - c) % 65536).toNat + l ≥ 65535 ∨ st.historyPtr + l ≥ 65535
  · exact .inl ⟨-1006, by decide, by simp only [if_neg hshort, if_pos hfar]⟩
  · refine .inr ⟨by omega, by omega, by omega, ?_⟩
    simp only [if_neg hshort, if_neg hfar]

/-- A round keeps the write index and the cached offsets inside of the history. -/
theorem decompressStep_inRange (hst : InRange st.historyPtr st.offsetCache) :
    InRange (decompressStep 65535 st).2.historyPtr (decompressStep 65535 st).2.offsetCache := by
  rcases htoken : copyToken st with _ | token
  · obtain ⟨b, r, hroom, hstep⟩ | ⟨next, r, -, hstep⟩ := decompressStep_noToken 65535 htoken
    · rw [hstep]
      exact ⟨hroom, hst.cache_small⟩
    · rw [hstep]
      exact hst
  obtain ⟨c, l, st₁⟩ := token
  obtain ⟨hc, hst1⟩ := copyToken_inRange htoken hst
  rw [decompressStep_copyToken 65535 htoken]
  obtain ⟨status, -, hcopy⟩ | ⟨hsrc, hdst, -, hcopy⟩ := decompressCopy_cases st₁ c l
  · rw [hcopy]
    exact hst1
  rw [hcopy]
  refine ⟨?_, hst1.cache_small⟩
  rw [copyMatch_ptr hc hsrc]
  exact le_of_lt hdst

variable {ncrush : Context} {flags : ℕ}

/-- What the flags do keeps the write index and the cached offsets inside of the history. -/
theorem opened_inRange
    (h : InRange ncrush.historyPtr ncrush.offsetCache) (hopen : opened ncrush flags = some front) :
    InRange front.historyPtr front.offsetCache := by
  unfold opened at hopen
  split_ifs at hopen <;> cases hopen
  · exact ⟨zero_le _, Cache.small_zero⟩
  · exact ⟨show 32768 ≤ 65535 by omega, h.cache_small⟩
  · exact ⟨zero_le _, Cache.small_zero⟩
  · exact h

theorem opened_end (hopen : opened ncrush flags = some front) :
    front.historyEndOffset = ncrush.historyEndOffset := by
  unfold opened at hopen
  split_ifs at hopen <;> cases hopen <;> rfl

/-- The rounds of a packet keep the write index and the cached offsets inside of the history. -/
theorem receive_inRange (hend : ncrush.historyEndOffset = 65535)
    (h : InRange ncrush.historyPtr ncrush.offsetCache) (src) :
    InRange (receive ncrush src).2.historyPtr (receive ncrush src).2.offsetCache := by
  unfold receive
  rw [hend]
  exact decompressLoop_invariant (P := fun st => InRange st.historyPtr st.offsetCache)
    (fun st => decompressStep_inRange) _ h

/-- **A receiver stays inside of its history.** -/
theorem Reachable.inRange (h : Reachable ncrush) :
    ncrush.historyEndOffset = 65535 ∧ InRange ncrush.historyPtr ncrush.offsetCache := by
  induction h with
  | new h =>
    obtain ⟨tables, -, rfl⟩ := map_eq_some_iff.mp h
    exact ⟨rfl, zero_le _, Cache.small_zero⟩
  | reset h ih => exact ⟨ih.1, zero_le _, Cache.small_zero⟩
  | @decompress ncrush h src flags ih =>
  obtain ⟨hend, hrange⟩ := ih
  unfold Ncrush.decompress
  rw [if_neg (not_not.mpr hend)]
  rcases hopen : opened ncrush flags with _ | front
  · exact ⟨hend, hrange⟩
  have hend' : front.historyEndOffset = 65535 := (opened_end hopen).trans hend
  have hfront := opened_inRange hrange hopen
  have hreceive := receive_inRange hend' hfront src
  simp only
  split_ifs
  · exact ⟨hend', hfront⟩
  · unfold received
    -- an error leaves the write index as it was, but not the cache
    split_ifs
    iterate 2 exact ⟨hend', hfront.ptr_le, hreceive.cache_small⟩
    · exact ⟨hend', hreceive⟩
  · exact ⟨hend', hfront⟩

/-- The variables after some rounds over a packet that the receiver starts to decode. -/
def Running (ncrush : Context) (src : List UInt8) (flags : ℕ) (st : Receiving) : Prop :=
  ∃ front n, ncrush.historyEndOffset = 65535 ∧ opened ncrush flags = some front ∧
    hasFlag flags packetCompressed = true ∧ 4 ≤ src.length ∧
    rounds front.historyEndOffset n (start front src) = some st

theorem Running.inRange (hr : Reachable ncrush)
    (h : Running ncrush src flags st) : InRange st.historyPtr st.offsetCache := by
  obtain ⟨front, n, hend, hopen, -, -, hrounds⟩ := h
  rw [opened_end hopen, hend] at hrounds
  refine rounds_invariant (P := fun st => InRange st.historyPtr st.offsetCache) ?_ n hrounds
    (opened_inRange hr.inRange.2 hopen)
  intro st st' hmore hst
  have := decompressStep_inRange hst
  rwa [hmore] at this

/-- A new context. -/
def newContext : Context :=
  contextReset ⟨0, 0, 65535, 65536, fill 0, 0xABABABAB, ⟨0, 0, 0, 0⟩, fill 0, fill 0, tables⟩ false

theorem contextNew_eq : contextNew = some newContext := by
  unfold contextNew
  rw [generateTables_eq]
  rfl

/-- A compressed packet that does not touch the history at its start is decoded on the context. -/
theorem opened_plain (ncrush) : opened ncrush 0x22 = some ncrush := by
  unfold opened
  rw [if_neg (by rintro ⟨h, -⟩; exact absurd h (by decide))]
  simp only [show hasFlag 0x22 packetAtFront = false by decide,
    show hasFlag 0x22 packetFlushed = false by decide, Bool.false_eq_true, if_false]

end WBFreeRDP.Ncrush

/-
# The matches of the RDP8 compressor

A match token of a segment has a distance and a length.  The decoder computes the length with 32
bits and does not compare the distance with the size of its history.
-/
import WBFreeRDP.ZgfxSegments

namespace WBFreeRDP.Zgfx

open Nat Option

/-- The token at bit `pos` is a match with this distance and this length. -/
def MatchAt (p : List UInt8) (pos distance length : ℕ) : Prop :=
  ∃ token, findRow p pos tokenTable = some token ∧ token.tokenType ≠ 0 ∧
    distance = token.valueBase + field p (pos + token.prefixLength) token.valueBits ∧ distance ≠ 0 ∧
      length = matchLength p (pos + token.prefixLength + token.valueBits)

/-- The context in which the loop over the tokens of a segment starts. -/
def segmentStart (zgfx : Context) (payload : List UInt8) (padding : UInt8) : Context :=
  { zgfx with
    output := []
    input := payload
    cBitsRemaining := budgetOf payload padding
    cBitsCurrent := 0
    bitsCurrent := 0
    consumed := 0 }

def Round (a b : Context) : Prop := a.cBitsRemaining ≠ 0 ∧ decompressStep a = some (true, b)

/-- Each match adds as many bytes as its length says, from inside of the history. -/
def MatchesKept (zgfx : Context) (payload : List UInt8) (padding : UInt8) : Prop :=
  ∀ a b, Relation.ReflTransGen Round (segmentStart zgfx payload padding) a → Round a b →
    ∀ distance length, MatchAt payload a.consumed distance length →
      b.output.length = a.output.length + length ∧ distance ≤ historyBufferSize

/-! ## Lengths -/

theorem wrappedLength_lt (p pos) : wrappedLength p pos < 2 ^ 32 := by
  unfold wrappedLength
  split
  · decide
  · exact mod_lt _ (by decide)

/-- A length below 2^32 is kept, or it is too long for the output anyway. -/
theorem wrappedLength_eq_or (h : matchLength p pos < 2 ^ 32) :
    wrappedLength p pos = matchLength p pos ∨ outputBufferSize < wrappedLength p pos := by
  have hsize : outputBufferSize = 2 ^ 16 := rfl
  unfold matchLength at h ⊢
  unfold wrappedLength
  by_cases hzero : bit p pos = 0
  · exact .inl (by rw [if_pos hzero, if_pos hzero])
  rw [if_neg hzero] at h
  simp only [if_neg hzero]
  have hextra := field_lt p (pos + ones p (pos + 1) + 2) (ones p (pos + 1) + 2)
  have hshift : (8 - (pos + lengthWidth p pos) % 8) % 8 < 8 := mod_lt _ (by decide)
  generalize field p (pos + ones p (pos + 1) + 2) (ones p (pos + 1) + 2) = extra at h hextra
  generalize (8 - (pos + lengthWidth p pos) % 8) % 8 = r at hshift
  generalize ones p (pos + 1) + 2 = k at h hextra
  have hk : 2 ^ k < 2 ^ 32 := by omega
  have hlow := mod_le extra (2 ^ (32 - r))
  have hsum : (2 ^ k % 2 ^ 32 + extra % 2 ^ (32 - r)) % 2 ^ 32 = 2 ^ k + extra % 2 ^ (32 - r) := by
    rw [mod_eq_of_lt hk, mod_eq_of_lt (by omega)]
  rw [hsum]
  by_cases hshort : k ≤ 25
  · -- the extra bits fit into the window
    left
    have hfits : extra < 2 ^ (32 - r) :=
      lt_of_lt_of_le hextra (Nat.pow_le_pow_right (by decide) (by omega))
    rw [mod_eq_of_lt hfits]
  · have hlong : 2 ^ 26 ≤ 2 ^ k := Nat.pow_le_pow_right (by decide) (by omega)
    omega

/-! ## Rounds and cursors -/

theorem MatchAt.advance
    (h : MatchAt p c.pos distance length) (hadvance : advance p budget c = some c') :
    ∃ pos, length = matchLength p pos ∧ wrappedLength p pos ≤ outputBufferSize ∧
      c'.out = c.out + wrappedLength p pos := by
  obtain ⟨token, hrow, htype, rfl, hdistance, rfl⟩ := h
  unfold Zgfx.advance at hadvance
  rw [hrow] at hadvance
  simp only at hadvance
  rw [if_neg htype, if_pos hdistance, advanceMatch] at hadvance
  split at hadvance
  · cases hadvance
  rename_i hfits
  cases hadvance
  exact ⟨_, rfl, by omega, rfl⟩

section Rounds

variable {p : List UInt8}

section

variable (hlen : 8 * p.length ≤ uint32Max)
include hlen

theorem Round.step (hat : At p budget a c)
    (h : Round a b) : ∃ c', Step p budget c c' ∧ At p budget b c' := by
  obtain ⟨hremaining, hstep⟩ := h
  have hstop : sub32 budget c.pos ≠ 0 := by
    rw [← hat.2.1, ← hat.1.cBitsRemaining_eq]
    exact hremaining
  have hfollows := decompressStep_spec hlen hat
  rw [hstep] at hfollows
  rcases hadvance : advance p budget c with _ | c'
  · rw [hadvance] at hfollows
    obtain ⟨_, heq, -⟩ := hfollows
    cases heq
  rw [hadvance] at hfollows
  obtain ⟨b', heq, hat'⟩ := hfollows
  obtain rfl : b = b' := by
    cases heq
    rfl
  exact ⟨c', ⟨hstop, hadvance⟩, hat'⟩

theorem Step.round (hat : At p budget a c)
    (h : Step p budget c c') : ∃ b, Round a b ∧ At p budget b c' := by
  obtain ⟨hstop, hadvance⟩ := h
  have hfollows := decompressStep_spec hlen hat
  rw [hadvance] at hfollows
  obtain ⟨b, hstep, hat'⟩ := hfollows
  refine ⟨b, ⟨?_, hstep⟩, hat'⟩
  rw [hat.1.cBitsRemaining_eq, hat.2.1]
  exact hstop

theorem rounds_at (hat : At p budget zgfx ⟨0, 0⟩)
    (h : Relation.ReflTransGen Round zgfx a) : ∃ c, Visits p budget c ∧ At p budget a c := by
  induction h with
  | refl => exact ⟨⟨0, 0⟩, .refl, hat⟩
  | tail _ hround ih =>
  obtain ⟨c, hvisits, hat'⟩ := ih
  obtain ⟨c', hstep, hat''⟩ := hround.step hlen hat'
  exact ⟨c', hvisits.tail hstep, hat''⟩

theorem visits_rounds (hat : At p budget zgfx ⟨0, 0⟩)
    (h : Visits p budget c) : ∃ a, Relation.ReflTransGen Round zgfx a ∧ At p budget a c := by
  induction h with
  | refl => exact ⟨zgfx, .refl, hat⟩
  | tail _ hstep ih =>
  obtain ⟨a, hrounds, hat'⟩ := ih
  obtain ⟨b, hround, hat''⟩ := hstep.round hlen hat'
  exact ⟨b, hrounds.tail hround, hat''⟩

end

end Rounds

theorem at_segmentStart (zgfx) {payload} {padding} (hlen : 8 * payload.length ≤ uint32Max) :
    At payload (budgetOf payload padding) (segmentStart zgfx payload padding) ⟨0, 0⟩ := by
  have hmax : uint32Max = 2 ^ 32 - 1 := rfl
  have hbudget : budgetOf payload padding < 2 ^ 32 := by
    unfold budgetOf
    omega
  exact ⟨⟨zero_lt_succ 7, ⟨0, rfl, rfl⟩, rfl, hbudget, rfl⟩, rfl, rfl, zero_le _⟩

/-- What success of a compressed segment says: it has a budget, and the decoder stops somewhere. -/
theorem visits_stopped_of_success (hflags : flags.toNat &&& packetCompressed ≠ 0)
    (hsuccess : decompressSegment zgfx (flags :: payload ++ padding :: rest) (payload.length + 2) =
      some (true, zgfx')) :
    8 * payload.length ≤ uint32Max ∧
      ∃ c, Visits payload (budgetOf payload padding) c ∧
      sub32 (budgetOf payload padding) c.pos = 0 := by
  have hsize : payload.length + 2 ≤ uint32Max := by
    by_contra hlong
    unfold decompressSegment at hsuccess
    rw [if_neg (by omega), if_pos (.inr (by omega))] at hsuccess
    cases hsuccess
  rw [decompressSegment_compressed zgfx hsize hflags] at hsuccess
  have hlen : 8 * payload.length ≤ uint32Max ∧ padding.toNat ≤ 8 * payload.length := by
    unfold decompressBits at hsuccess
    simp only at hsuccess
    split at hsuccess
    · cases hsuccess
    split at hsuccess
    · cases hsuccess
    · omega
  obtain ⟨success, zgfx'', hbits, -, hends⟩ := @decompressBits_ends { zgfx with output := [] }
    _ _ rfl hlen.1 hlen.2
  rw [hsuccess] at hbits
  cases hbits
  obtain ⟨c, hruns, hstop, -⟩ := hends
  exact ⟨hlen.1, c, hruns, hstop⟩

/-- **The matches that are kept**: in a segment that is decoded successfully each match adds exactly
as many bytes as its length says, from inside of the history, exactly when every match token of the
segment has a length below 2^32 and a distance of at most `HistoryBufferSize`. -/
theorem matches_kept_iff (zgfx zgfx' : Context) (flags padding : UInt8) (payload rest : List UInt8)
    (hflags : flags.toNat &&& packetCompressed ≠ 0)
    (hsuccess : decompressSegment zgfx (flags :: payload ++ padding :: rest) (payload.length + 2) =
      some (true, zgfx')) :
    MatchesKept zgfx payload padding ↔
      ∀ c, Visits payload (budgetOf payload padding) c →
      sub32 (budgetOf payload padding) c.pos ≠ 0 →
        ∀ distance length, MatchAt payload c.pos distance length →
          length < 2 ^ 32 ∧ distance ≤ historyBufferSize := by
  obtain ⟨hlen, cEnd, hend, hstop⟩ := visits_stopped_of_success hflags hsuccess
  have hstart := @at_segmentStart zgfx _ padding hlen
  constructor
  · intro hkept c hvisits hmore distance length hmatch
    obtain ⟨a, hrounds, hat⟩ := visits_rounds hlen hstart hvisits
    -- the decoder goes on from here, as it stops elsewhere
    obtain ⟨c', hstep⟩ : ∃ c', Step payload (budgetOf payload padding) c c' := by
      rcases Relation.ReflTransGen.total_of_right_unique
        (fun x y z hy hz => some.inj (hy.2.symm.trans hz.2)) hvisits hend with hruns | hruns
      · rcases Relation.ReflTransGen.cases_head hruns with heq | ⟨c', hstep, -⟩
        · rw [heq] at hmore
          exact absurd hstop hmore
        · exact ⟨c', hstep⟩
      · obtain rfl := Runs.eq_of_stopped hruns hstop
        exact absurd hstop hmore
    obtain ⟨b, hround, hat'⟩ := hstep.round hlen hat
    obtain ⟨pos, rfl, hfits, hout⟩ := hmatch.advance hstep.2
    rw [← hat.2.1] at hmatch
    obtain ⟨hadded, hdistance⟩ := hkept a b hrounds hround distance _ hmatch
    refine ⟨?_, hdistance⟩
    have hwrapped := wrappedLength_lt payload pos
    have hlength := hat.2.2.1
    have hlength' := hat'.2.2.1
    omega
  · intro hcondition a b hrounds hround distance length hmatch
    obtain ⟨c, hvisits, hat⟩ := rounds_at hlen hstart hrounds
    obtain ⟨c', hstep, hat'⟩ := hround.step hlen hat
    rw [hat.2.1] at hmatch
    obtain ⟨hlength, hdistance⟩ := hcondition c hvisits hstep.1 distance length hmatch
    refine ⟨?_, hdistance⟩
    obtain ⟨pos, rfl, hfits, hout⟩ := hmatch.advance hstep.2
    rw [hat'.2.2.1, hat.2.2.1, hout]
    rcases wrappedLength_eq_or hlength with heq | hlong
    · rw [heq]
    · omega

/-! ## Matches that are not kept -/

/-- A match of three bytes at distance 4511392. -/
def farMatch : List UInt8 := [0xBE, 0, 0, 0]

/-- A match of 2^32 bytes at distance 1: thirty ones stand in front of the extra bits of its
length. -/
def longMatch : List UInt8 := [0x88, 0x7F, 0xFF, 0xFF, 0xFF, 0x80, 0, 0, 0, 0]

theorem matchAt_farMatch : MatchAt farMatch 0 4511392 3 :=
  ⟨⟨9, 380, 22, 1, 4511392⟩, by decide, by decide, by decide, by decide, by decide⟩

theorem matchAt_longMatch : MatchAt longMatch 0 1 (2 ^ 32) :=
  ⟨⟨5, 17, 5, 1, 0⟩, by decide, by decide, by decide, by decide, by decide⟩

theorem not_matchesKept (hmatch : MatchAt payload 0 distance length)
    (hround : Round (segmentStart zgfx payload padding) b)
    (hbroken : b.output.length = length → historyBufferSize < distance) :
    ¬MatchesKept zgfx payload padding := by
  intro hkept
  obtain ⟨hadded, hdistance⟩ := hkept _ b .refl hround distance length hmatch
  have hlength : (segmentStart zgfx payload padding).output.length = 0 := rfl
  omega

/-- **Matches that are not kept**: a match from 4511392 bytes back, where the history has 2500000
bytes, and a match of 2^32 bytes, of which none is added; both segments are decoded successfully. -/
theorem matches_broken :
    ((∃ zgfx', decompressSegment contextNew (0x24 :: farMatch ++ [0]) 6 = some (true, zgfx')) ∧
      ¬MatchesKept contextNew farMatch 0) ∧
    ((∃ zgfx', decompressSegment contextNew (0x24 :: longMatch ++ [6]) 12 = some (true, zgfx')) ∧
      ¬MatchesKept contextNew longMatch 6) := by
  have hfar : (decompressSegment contextNew (0x24 :: farMatch ++ [0]) 6).map Prod.fst =
      some true := by
    decide +kernel
  have hfarRound : (decompressStep (segmentStart contextNew farMatch 0)).map Prod.fst =
      some true := by
    decide +kernel
  have hlong : (decompressSegment contextNew (0x24 :: longMatch ++ [6]) 12).map Prod.fst =
      some true := by
    decide +kernel
  have hlongRound : (decompressStep (segmentStart contextNew longMatch 6)).map
      (fun r => (r.1, r.2.output.length)) = some (true, 0) := by
    decide +kernel
  refine ⟨⟨?_, ?_⟩, ?_, ?_⟩
  · obtain ⟨⟨success, zgfx'⟩, hsegment, rfl⟩ := map_eq_some_iff.mp hfar
    exact ⟨zgfx', hsegment⟩
  · obtain ⟨⟨more, b⟩, hstep, rfl⟩ := map_eq_some_iff.mp hfarRound
    exact not_matchesKept matchAt_farMatch ⟨by decide, hstep⟩ fun _ => by decide
  · obtain ⟨⟨success, zgfx'⟩, hsegment, rfl⟩ := map_eq_some_iff.mp hlong
    exact ⟨zgfx', hsegment⟩
  · obtain ⟨⟨more, b⟩, hstep, hresult⟩ := map_eq_some_iff.mp hlongRound
    obtain ⟨rfl, hempty⟩ := Prod.mk.inj hresult
    refine not_matchesKept matchAt_longMatch ⟨by decide, hstep⟩ fun hlength => ?_
    have hempty : b.output.length = 0 := hempty
    omega

/-- A literal and a match of three bytes at distance 1. -/
def nearMatch : List UInt8 := [0x20, 0xC4, 0x20]

theorem visits_nearMatch (h : Visits nearMatch 20 c) : c = ⟨0, 0⟩ ∨ c = ⟨9, 1⟩ ∨ c = ⟨20, 4⟩ := by
  have hfirst : advance nearMatch 20 ⟨0, 0⟩ = some ⟨9, 1⟩ := by rfl
  have hsecond : advance nearMatch 20 ⟨9, 1⟩ = some ⟨20, 4⟩ := by rfl
  induction h with
  | refl => exact .inl rfl
  | tail _ hstep ih =>
  rcases ih with rfl | rfl | rfl
  · exact .inr (.inl (some.inj (hstep.2.symm.trans hfirst)))
  · exact .inr (.inr (some.inj (hstep.2.symm.trans hsecond)))
  · exact absurd rfl hstep.1

/-- The match of this segment is kept. -/
theorem matches_kept_iff_nearMatch : MatchesKept contextNew nearMatch 4 := by
  have hnear : (decompressSegment contextNew (0x24 :: nearMatch ++ [4]) 5).map Prod.fst =
      some true := by
    decide +kernel
  obtain ⟨⟨success, zgfx'⟩, hsegment, rfl⟩ := map_eq_some_iff.mp hnear
  refine (matches_kept_iff contextNew zgfx' 0x24 4 nearMatch [] (by decide) hsegment).mpr ?_
  intro c hvisits hmore distance length hmatch
  obtain ⟨token, hrow, htype, rfl, -, rfl⟩ := hmatch
  rcases visits_nearMatch hvisits with rfl | rfl | rfl
  · have hliteral : findRow nearMatch 0 tokenTable = some ⟨1, 0, 8, 0, 0⟩ := by decide
    obtain rfl := some.inj (hrow.symm.trans hliteral)
    exact absurd rfl htype
  · have hmatch : findRow nearMatch 9 tokenTable = some ⟨5, 17, 5, 1, 0⟩ := by decide
    obtain rfl := some.inj (hrow.symm.trans hmatch)
    decide
  · exact absurd (by decide) hmore

end WBFreeRDP.Zgfx

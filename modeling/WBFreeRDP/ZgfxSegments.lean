/-
# The segments of the RDP8 compressor

What `zgfx_decompress_segment` does with its counters is described by a cursor: how many bits were
consumed and how many bytes are in the output.  The cursor moves from token to token along the bits
of the segment; the decoder stops when its counter of bits, which wraps, is zero.
-/
import Mathlib.Tactic.IntervalCases
import WBFreeRDP.ZgfxBits
import WBFreeRDP.ZgfxRing

namespace WBFreeRDP.Zgfx

open List Nat Option

/-! ## Lengths -/

/-- The number of bits of the length that starts at bit `pos`. -/
def lengthWidth (p : List UInt8) (pos : ℕ) : ℕ :=
  if bit p pos = 0 then 1 else 2 * ones p (pos + 1) + 4

/-- The length itself: 3, or `2 ^ (k + 2)` and `k + 2` extra bits behind `k` ones. -/
def matchLength (p : List UInt8) (pos : ℕ) : ℕ :=
  if bit p pos = 0 then 3
  else
    2 ^ (ones p (pos + 1) + 2) + field p (pos + ones p (pos + 1) + 2) (ones p (pos + 1) + 2)

/-- The length that the decoder computes with 32 bits and a window of 32 bits. -/
def wrappedLength (p : List UInt8) (pos : ℕ) : ℕ :=
  if bit p pos = 0 then 3
  else
    (2 ^ (ones p (pos + 1) + 2) % 2 ^ 32 + field p (pos + ones p (pos + 1) + 2)
      (ones p (pos + 1) + 2) %
        2 ^ (32 - (8 - (pos + lengthWidth p pos) % 8) % 8)) % 2 ^ 32

variable {p : List UInt8} {budget : ℕ} {zgfx : Context}

/-- What is left to read of a segment is at least what is in the input and the window. -/
theorem Reads.le_left (h : Reads p budget zgfx) :
    8 * p.length - zgfx.consumed ≤ 8 * zgfx.input.length + zgfx.cBitsCurrent := by
  obtain ⟨q, hq, hinput⟩ := h.loaded
  rw [hinput, length_drop]
  omega

/-- **The length that is read.** -/
theorem readCount_spec (h : Reads p budget zgfx)
    (hlen : 8 * p.length ≤ uint32Max) (hpos : 2 ≤ zgfx.consumed) :
    ∃ zgfx', readCount zgfx = some (wrappedLength p zgfx.consumed, zgfx') ∧ Reads p budget zgfx' ∧
      zgfx'.consumed = zgfx.consumed + lengthWidth p zgfx.consumed ∧ SameData zgfx zgfx' := by
  have hmax : uint32Max = 2 ^ 32 - 1 := rfl
  obtain ⟨zgfx1, hget1, hreads1, hconsumed1, hbits1, hsame1⟩ := getBits_field h (n := 1) (by decide)
  rw [field_one] at hbits1
  rw [readCount, hget1, bind_some, hbits1]
  by_cases hzero : bit p zgfx.consumed = 0
  · refine ⟨zgfx1, ?_, hreads1, ?_, hsame1⟩
    · rw [if_pos hzero, wrappedLength, if_pos hzero]
    · rw [hconsumed1, lengthWidth, if_pos hzero]
  rw [if_neg hzero]
  obtain ⟨zgfx2, hget2, hreads2, hconsumed2, hbits2, hsame2⟩ :=
    getBits_field hreads1 (n := 1) (by decide)
  rw [field_one, hconsumed1] at hbits2
  have hle := ones_le p (zgfx.consumed + 1)
  have hleft := hreads2.le_left
  obtain ⟨zgfx3, hcount, hreads3, hconsumed3, hsame3⟩ :=
    @countOnes_spec _ _ (8 * zgfx2.input.length + zgfx2.cBitsCurrent + 2) _
      (zgfx.consumed + 1) 0 hreads2 (by omega) hbits2 (by omega)
  rw [show 0 + ones p (zgfx.consumed + 1) + 2 = ones p (zgfx.consumed + 1) + 2 by omega,
    mod_eq_of_lt (show ones p (zgfx.consumed + 1) + 2 < 2 ^ 32 by omega)] at hcount
  obtain ⟨zgfx4, hget4, hreads4, hconsumed4, hbits4, hsame4⟩ :=
    getBits_spec hreads3 (n := ones p (zgfx.consumed + 1) + 2) (by omega)
  have hwidth : zgfx4.consumed = zgfx.consumed + lengthWidth p zgfx.consumed := by
    rw [lengthWidth, if_neg hzero]
    omega
  refine ⟨zgfx4, ?_, hreads4, hwidth, ((hsame1.trans hsame2).trans hsame3).trans hsame4⟩
  rw [hreads4.cBitsCurrent_eq, hwidth, hconsumed3,
    show zgfx.consumed + 1 + ones p (zgfx.consumed + 1) + 1 =
      zgfx.consumed + ones p (zgfx.consumed + 1) + 2 by omega] at hbits4
  rw [hget2]
  change ((countOnes _ (2 ^ (0 + 2) % 2 ^ 32) ((0 + 2) % 2 ^ 32) zgfx2).bind _) = _
  rw [hcount, bind_some]
  simp only
  rw [hget4, map_some, hbits4, wrappedLength, if_neg hzero]

/-! ## Cursors -/

/-- How far the decoder has come: the bits it has consumed and the bytes it has put out. -/
structure Cursor where
  pos : ℕ
  out : ℕ

/-- A match whose length starts at bit `pos`. -/
def advanceMatch (p : List UInt8) (pos out : ℕ) : Option Cursor :=
  if wrappedLength p pos > outputBufferSize - out then none
  else some ⟨pos + lengthWidth p pos, out + wrappedLength p pos⟩

/-- The first whole byte at or behind bit `pos`. -/
def nextByte (pos : ℕ) : ℕ := (pos + 7) / 8

/-- Plain bytes whose number starts at bit `pos`. -/
def advanceRaw (p : List UInt8) (budget pos out : ℕ) : Option Cursor :=
  if field p pos 15 > outputBufferSize - out then none
  else if field p pos 15 > sub32 budget (8 * nextByte (pos + 15)) / 8 then none
  else if field p pos 15 > p.length - nextByte (pos + 15) then none
  else some ⟨8 * nextByte (pos + 15) + 8 * field p pos 15, out + field p pos 15⟩

/-- The cursor behind the next token; `none` when the decoder gives up. -/
def advance (p : List UInt8) (budget : ℕ) (c : Cursor) : Option Cursor :=
  match findRow p c.pos tokenTable with
  | none => some ⟨c.pos + 9, c.out⟩
  | some token =>
    if token.tokenType = 0 then
      if c.out ≥ outputBufferSize then none
      else some ⟨c.pos + token.prefixLength + token.valueBits, c.out + 1⟩
    else if token.valueBase + field p (c.pos + token.prefixLength) token.valueBits ≠ 0 then
      advanceMatch p (c.pos + token.prefixLength + token.valueBits) c.out
    else advanceRaw p budget (c.pos + token.prefixLength + token.valueBits) c.out

/-- The rows of the table: their prefixes get longer, and a distance has ten bits at least. -/
theorem tokenTable_bounds : ∀ token ∈ tokenTable, 1 ≤ token.prefixLength ∧ token.prefixLength ≤ 9 ∧
    token.valueBits ≤ 24 ∧ (token.tokenType ≠ 0 → 10 ≤ token.prefixLength + token.valueBits) := by
  decide

def At (p : List UInt8) (budget : ℕ) (zgfx : Context) (c : Cursor) : Prop :=
  Reads p budget zgfx ∧ zgfx.consumed = c.pos ∧ zgfx.output.length = c.out ∧
  c.out ≤ outputBufferSize

/-- What a round does where the cursor moves to. -/
def Follows (p : List UInt8) (budget : ℕ) (result : Option (Bool × Context)) : Option Cursor → Prop
  | none => ∃ zgfx', result = some (false, zgfx') ∧ zgfx'.output.length ≤ outputBufferSize
  | some c => ∃ zgfx', result = some (true, zgfx') ∧ At p budget zgfx' c

theorem Reads.cBitsRemaining_eq (h : Reads p budget zgfx) :
    zgfx.cBitsRemaining = sub32 budget zgfx.consumed := by
  have hlt := h.remaining
  have hbudget := h.budget_eq
  unfold sub32
  omega

theorem Reads.put (h : Reads p budget zgfx) (output) (history) :
    Reads p budget { zgfx with output := output, history := history } :=
  ⟨h.pending, h.loaded, h.current, h.remaining, h.budget_eq⟩

variable {c : Cursor}

theorem putLiteral_spec (h : At p budget zgfx c) (literal) :
    Follows p budget (some (putLiteral zgfx literal))
      (if c.out ≥ outputBufferSize then none else some ⟨c.pos, c.out + 1⟩) := by
  obtain ⟨hreads, hconsumed, hlength, hout⟩ := h
  unfold putLiteral
  simp only [hlength]
  by_cases hfull : c.out ≥ outputBufferSize
  · rw [if_pos hfull, if_pos hfull]
    exact ⟨_, rfl, hlength.trans_le hout⟩
  rw [if_neg hfull, if_neg hfull]
  refine ⟨_, rfl, hreads.put _ _, hconsumed, ?_, Nat.lt_of_not_le hfull⟩
  simp [hlength]

theorem putMatch_spec (h : At p budget zgfx c) (hdistance : 0 < distance) (count) :
    Follows p budget (some (putMatch zgfx distance count))
      (if count > outputBufferSize - c.out then none else some ⟨c.pos, c.out + count⟩) := by
  have hsize : outputBufferSize = 65536 := rfl
  have hint : int32Max = 2 ^ 31 - 1 := rfl
  obtain ⟨hreads, hconsumed, hlength, hout⟩ := h
  unfold putMatch
  simp only [hlength]
  by_cases hfull : count > outputBufferSize - c.out
  · rw [if_pos hfull, if_pos hfull]
    exact ⟨_, rfl, hlength.trans_le hout⟩
  rw [if_neg hfull, if_neg hfull]
  have hcount : c.out + count ≤ outputBufferSize := by omega
  refine ⟨_, rfl, hreads.put _ _, hconsumed, ?_, hcount⟩
  simp [hlength, HistoryRing.length_ringRead hdistance (show count ≤ int32Max by omega)]

theorem Reads.align (h : Reads p budget zgfx) :
    Reads p budget zgfx.align ∧ zgfx.align.consumed = 8 * nextByte zgfx.consumed := by
  obtain ⟨q, hq, hinput⟩ := h.loaded
  have hpending := h.pending
  have hnext : nextByte zgfx.consumed = q := by
    unfold nextByte
    omega
  have hconsumed : zgfx.align.consumed = zgfx.consumed + zgfx.cBitsCurrent := rfl
  obtain ⟨hlt, hbudget⟩ := budget_take h.budget_eq zgfx.cBitsCurrent
  refine ⟨⟨zero_lt_succ 7, ⟨q, ?_, hinput⟩, rfl, hlt, hbudget⟩, ?_⟩
  · exact hq
  · rw [hconsumed, hnext, hq]

theorem putRaw_spec (h : At p budget zgfx c)
    (hpos : c.pos = 8 * q) (hcurrent : zgfx.cBitsCurrent = 0) (count) :
    Follows p budget (some (putRaw zgfx count)) (if count > outputBufferSize - c.out then none
        else if count > sub32 budget (8 * q) / 8 then none else if count > p.length - q then none
        else some ⟨8 * q + 8 * count, c.out + count⟩) := by
  obtain ⟨hreads, hconsumed, hlength, hout⟩ := h
  obtain ⟨q', hq', hinput⟩ := hreads.loaded
  obtain rfl : q = q' := by omega
  have hremaining : zgfx.cBitsRemaining = sub32 budget (8 * q) := by
    rw [hreads.cBitsRemaining_eq, hconsumed, hpos]
  have hleft : zgfx.input.length = p.length - q := by rw [hinput, length_drop]
  have hfailed : zgfx.output.length ≤ outputBufferSize := hlength.trans_le hout
  unfold putRaw
  simp only [hlength, hremaining, hleft]
  by_cases hfull : count > outputBufferSize - c.out
  · rw [if_pos hfull, if_pos hfull]
    exact ⟨_, rfl, hfailed⟩
  rw [if_neg hfull, if_neg hfull]
  by_cases hbits : count > sub32 budget (8 * q) / 8
  · rw [if_pos hbits, if_pos hbits]
    exact ⟨_, rfl, hfailed⟩
  rw [if_neg hbits, if_neg hbits]
  by_cases hbytes : count > p.length - q
  · rw [if_pos hbytes, if_pos hbytes]
    exact ⟨_, rfl, hfailed⟩
  rw [if_neg hbytes, if_neg hbytes]
  obtain ⟨hlt, hbudget⟩ := budget_take hreads.budget_eq (8 * count)
  have hcount : c.out + count ≤ outputBufferSize := by omega
  have hconsumed' : (zgfx.take (8 * count)).consumed = 8 * q + 8 * count := by
    rw [← hpos, ← hconsumed]
    rfl
  refine ⟨_, rfl, ⟨hreads.pending, ⟨q + count, ?_, ?_⟩, ?_, hlt, hbudget⟩, hconsumed', ?_, hcount⟩
  · change (zgfx.take (8 * count)).consumed + zgfx.cBitsCurrent = _
    rw [hconsumed', hcurrent, add_zero, mul_add]
  · rw [hinput, drop_drop]
  · change zgfx.bitsCurrent = field p _ zgfx.cBitsCurrent
    rw [hreads.current, hcurrent, field_zero, field_zero]
  · simp only [length_append, length_take]
    omega

/-- **Each round of the decoder follows the cursor.** -/
theorem decompressStep_spec (hlen : 8 * p.length ≤ uint32Max) (h : At p budget zgfx c) :
    Follows p budget (decompressStep zgfx) (advance p budget c) := by
  obtain ⟨hreads, hconsumed, hlength, hout⟩ := h
  obtain ⟨zgfx1, hfind, hreads1, hconsumed1, hsame1⟩ :=
    @findToken_spec _ _ c.pos tokenTable 0 _ hreads hconsumed
      (fun _ _ => zero_le _) (by decide)
  have hout1 : zgfx1.output.length = c.out := by rw [hsame1.output, hlength]
  rw [field_zero] at hfind
  rw [decompressStep, hfind, bind_some, advance]
  rcases hrow : findRow p c.pos tokenTable with _ | token
  · rw [hrow, show prefixWidth 0 tokenTable none = 9 by decide] at hconsumed1
    exact ⟨zgfx1, rfl, hreads1, hconsumed1, hout1, hout⟩
  have hmem : token ∈ tokenTable := List.mem_of_find?_eq_some hrow
  obtain ⟨-, -, hbits, hdistance⟩ := tokenTable_bounds token hmem
  rw [hrow] at hconsumed1
  have hconsumed1 : zgfx1.consumed = c.pos + token.prefixLength := hconsumed1
  simp only
  by_cases htype : token.tokenType = 0
  · rw [if_pos htype, if_pos htype]
    obtain ⟨zgfx2, hget, hreads2, hconsumed2, -, hsame2⟩ :=
      getBits_field hreads1 (n := token.valueBits) (by omega)
    rw [literalToken, hget]
    refine putLiteral_spec (c := ⟨c.pos + token.prefixLength + token.valueBits, c.out⟩)
      ⟨hreads2, ?_, ?_, hout⟩ _
    · rw [hconsumed2, hconsumed1]
    · rw [hsame2.output, hout1]
  rw [if_neg htype]
  obtain ⟨zgfx2, hget, hreads2, hconsumed2, hvalue, hsame2⟩ :=
    getBits_field hreads1 (n := token.valueBits) (by omega)
  have hout2 : zgfx2.output.length = c.out := by rw [hsame2.output, hout1]
  rw [hconsumed1] at hconsumed2 hvalue
  rw [hget, bind_some, hvalue]
  split
  · rename_i hnonzero
    obtain ⟨zgfx3, hcount, hreads3, hconsumed3, hsame3⟩ := readCount_spec hreads2 hlen (by omega)
    rw [matchToken, hcount, ← hconsumed2]
    refine putMatch_spec (c := ⟨zgfx2.consumed + lengthWidth p zgfx2.consumed, c.out⟩)
      ⟨hreads3, hconsumed3, ?_, hout⟩ (pos_of_ne_zero hnonzero) _
    rw [hsame3.output, hout2]
  obtain ⟨zgfx3, hget3, hreads3, hconsumed3, hbits3, hsame3⟩ :=
    getBits_field hreads2 (n := 15) (by decide)
  obtain ⟨haligned, hstart⟩ := hreads3.align
  rw [hconsumed3] at hstart
  rw [rawToken, hget3, map_some, hbits3, ← hconsumed2]
  refine putRaw_spec (c := ⟨8 * nextByte (zgfx2.consumed + 15), c.out⟩)
    ⟨haligned, hstart, ?_, hout⟩ rfl rfl _
  change zgfx3.output.length = c.out
  rw [hsame3.output, hout2]

/-! ## Runs -/

/-- What a move of the cursor is: it takes bits, and behind the segment a byte is put out for nine
of them. -/
structure Moved (p : List UInt8) (c c' : Cursor) : Prop where
  forward : c.pos < c'.pos
  grows : c.out ≤ c'.out
  fits : c'.out ≤ outputBufferSize
  behind : 8 * p.length ≤ c.pos → c'.pos = c.pos + 9 ∧ c'.out = c.out + 1
  within : c.pos < 8 * p.length → c'.pos ≤ 16 * p.length + 64

theorem findRow_behind (h : 8 * p.length ≤ pos) :
    findRow p pos tokenTable = some ⟨1, 0, 8, 0, 0⟩ := by
  have hzero : field p pos 1 = 0 := field_of_le h 1
  exact List.find?_cons_of_pos (decide_eq_true hzero)

theorem add_lengthWidth_le (p) (h : pos ≤ 8 * p.length + 40) :
    pos + lengthWidth p pos ≤ 16 * p.length + 64 := by
  have hle := ones_le p (pos + 1)
  unfold lengthWidth
  split
  · omega
  rename_i hone
  omega

theorem advance_moved (hout : c.out ≤ outputBufferSize)
    (h : advance p budget c = some c') : Moved p c c' := by
  unfold advance at h
  rcases hrow : findRow p c.pos tokenTable with _ | token
  · rw [hrow] at h
    cases h
    have hbefore : ¬8 * p.length ≤ c.pos := by
      intro hbehind
      rw [findRow_behind hbehind] at hrow
      cases hrow
    exact ⟨Nat.lt_add_of_pos_right (by decide), Nat.le_refl _, hout,
      fun hbehind => absurd hbehind hbefore, fun _ => by change c.pos + 9 ≤ _; omega⟩
  have hmem : token ∈ tokenTable := List.mem_of_find?_eq_some hrow
  obtain ⟨hbegin, hbegin', hbits, hlow⟩ := tokenTable_bounds token hmem
  rw [hrow] at h
  simp only at h
  split at h
  · rename_i htype
    split at h
    · cases h
    rename_i hroom
    cases h
    refine ⟨?_, le_succ _, Nat.lt_of_not_le hroom, ?_, ?_⟩
    · change c.pos < c.pos + token.prefixLength + token.valueBits
      omega
    · intro hbehind
      rw [findRow_behind hbehind] at hrow
      cases hrow
      exact ⟨rfl, rfl⟩
    · intro _
      change c.pos + token.prefixLength + token.valueBits ≤ _
      omega
  rename_i htype
  have hbefore : c.pos < 8 * p.length := by
    by_contra hbehind
    rw [findRow_behind (Nat.le_of_not_lt hbehind)] at hrow
    cases hrow
    exact htype rfl
  split at h
  · unfold advanceMatch at h
    split at h
    · cases h
    rename_i hroom
    cases h
    refine ⟨?_, le_add_right _ _, ?_, fun hbehind => absurd hbehind (Nat.not_le_of_lt hbefore), ?_⟩
    · change c.pos < c.pos + token.prefixLength + token.valueBits + _
      omega
    · change c.out + _ ≤ _
      omega
    · intro _
      exact add_lengthWidth_le p (by omega)
  unfold advanceRaw at h
  generalize field p (c.pos + token.prefixLength + token.valueBits) 15 = count at h
  split at h
  · cases h
  rename_i hroom
  split at h
  · cases h
  split at h
  · cases h
  rename_i hbytes
  cases h
  unfold nextByte at hbytes ⊢
  refine ⟨?_, le_add_right _ _, ?_, fun hbehind => absurd hbehind (Nat.not_le_of_lt hbefore), ?_⟩
  · change c.pos < 8 * _ + 8 * count
    omega
  · change c.out + count ≤ _
    omega
  intro _
  change 8 * _ + 8 * count ≤ _
  omega

/-- The decoder goes on from one cursor to the next one. -/
def Step (p : List UInt8) (budget : ℕ) (c c' : Cursor) : Prop :=
  sub32 budget c.pos ≠ 0 ∧ advance p budget c = some c'

/-- The decoder comes from one cursor to another one. -/
def Runs (p : List UInt8) (budget : ℕ) : Cursor → Cursor → Prop :=
  Relation.ReflTransGen (Step p budget)

/-- The cursors of a segment, from its first bit on. -/
def Visits (p : List UInt8) (budget : ℕ) (c : Cursor) : Prop := Runs p budget ⟨0, 0⟩ c

theorem Runs.eq_of_stopped (h : Runs p budget a b) (hstopped : sub32 budget a.pos = 0) : b = a := by
  rcases Relation.ReflTransGen.cases_head h with heq | ⟨c, hstep, -⟩
  · exact heq.symm
  · exact absurd hstopped hstep.1

theorem Runs.stopped_unique (ha : Runs p budget c a)
    (hb : Runs p budget c b) (hstop : sub32 budget a.pos = 0) (hstop' : sub32 budget b.pos = 0) :
    a = b := by
  have hunique : Relator.RightUnique (Step p budget) := by
    intro x y z hy hz
    exact some.inj (hy.2.symm.trans hz.2)
  rcases Relation.ReflTransGen.total_of_right_unique hunique ha hb with hab | hba
  · exact (Runs.eq_of_stopped hab hstop).symm
  · exact Runs.eq_of_stopped hba hstop'

/-- How the decoder ends: where its counter is zero, or else at no such place. -/
def Ends (p : List UInt8) (budget : ℕ) (c : Cursor) (consumed : ℕ) : Bool → Prop
  | true => ∃ c', Runs p budget c c' ∧ sub32 budget c'.pos = 0 ∧ consumed = c'.pos
  | false => ∀ c', Runs p budget c c' → sub32 budget c'.pos ≠ 0

/-- **The loop of the decoder ends**: each token takes a bit of the segment or adds a byte to the
output. -/
theorem decompressLoop_spec (hlen : 8 * p.length ≤ uint32Max) (fuel : ℕ) :
    ∀ {zgfx} {c}, At p budget zgfx c → 8 * p.length - c.pos + (outputBufferSize - c.out) < fuel →
      ∃ success zgfx', decompressLoop fuel zgfx = some (success, zgfx') ∧
        zgfx'.output.length ≤ outputBufferSize ∧ Ends p budget c zgfx'.consumed success := by
  induction fuel with
  | zero => intro zgfx c _ hfuel; exact absurd hfuel (not_lt_zero _)
  | succ fuel ih =>
  intro zgfx c hat hfuel
  have hfollows := decompressStep_spec hlen hat
  obtain ⟨hreads, hconsumed, hlength, hout⟩ := hat
  have hremaining : zgfx.cBitsRemaining = sub32 budget c.pos := by
    rw [hreads.cBitsRemaining_eq, hconsumed]
  rw [decompressLoop, hremaining]
  by_cases hstop : sub32 budget c.pos = 0
  · rw [if_pos hstop]
    exact ⟨true, zgfx, rfl, hlength.trans_le hout, c, .refl, hstop, hconsumed⟩
  rw [if_neg hstop]
  rcases hadvance : advance p budget c with _ | c1
  · rw [hadvance] at hfollows
    obtain ⟨zgfx1, hstep, hout1⟩ := hfollows
    rw [hstep]
    refine ⟨false, zgfx1, rfl, hout1, ?_⟩
    intro c' hruns
    rcases Relation.ReflTransGen.cases_head hruns with heq | ⟨c1, hstep1, -⟩
    · rw [← heq]
      exact hstop
    · rw [hstep1.2] at hadvance
      cases hadvance
  rw [hadvance] at hfollows
  obtain ⟨zgfx1, hstep, hat1⟩ := hfollows
  have hmoved := advance_moved hout hadvance
  have hforward := hmoved.forward
  have hgrows := hmoved.grows
  have hfits := hmoved.fits
  have hbehind := hmoved.behind
  obtain ⟨success, zgfx2, hloop, hout2, hends⟩ := ih hat1 (by omega)
  rw [hstep]
  refine ⟨success, zgfx2, hloop, hout2, ?_⟩
  rcases success with _ | _
  · intro c' hruns
    rcases Relation.ReflTransGen.cases_head hruns with heq | ⟨c2, hstep2, hruns⟩
    · rw [← heq]
      exact hstop
    · obtain rfl := some.inj (hadvance.symm.trans hstep2.2)
      exact hends c' hruns
  obtain ⟨c', hruns, hend⟩ := hends
  exact ⟨c', Relation.ReflTransGen.head ⟨hstop, hadvance⟩ hruns, hend⟩

/-! ## The budget of bits -/

/-- The bits of a segment that are not padding. -/
def budgetOf (payload : List UInt8) (padding : UInt8) : ℕ := 8 * payload.length - padding.toNat

/-- The tokens of a segment, with zeros behind its bits, come to an end 2^32 bits behind the end of
its budget, without having stopped there or given up before. -/
def Overruns (payload : List UInt8) (padding : UInt8) : Prop :=
  8 * payload.length ≤ uint32Max ∧ padding.toNat ≤ 8 * payload.length ∧
    ∃ c, Visits payload (budgetOf payload padding) c ∧ c.pos = budgetOf payload padding + 2 ^ 32

theorem Visits.bounds (h : Visits p budget c) :
    c.out ≤ outputBufferSize ∧ (c.pos ≤ 8 * p.length ∨ c.pos ≤ 16 * p.length + 64 + 9 * c.out) := by
  induction h with
  | refl => exact ⟨zero_le _, .inl (zero_le _)⟩
  | tail _ hstep ih =>
  obtain ⟨hout, hpos⟩ := ih
  have hmoved := advance_moved hout hstep.2
  have hwithin := hmoved.within
  have hbehind := hmoved.behind
  exact ⟨hmoved.fits, .inr (by omega)⟩

variable {padding : UInt8} {payload : List UInt8}

/-- A segment that is not nearly 2^29 bytes long does not overrun. -/
theorem not_overruns_of_le
    (hlen : 8 * payload.length + 600000 ≤ 2 ^ 32) : ¬Overruns payload padding := by
  rintro ⟨-, -, c, hvisits, hpos⟩
  obtain ⟨hout, hbounds⟩ := hvisits.bounds
  have hsize : outputBufferSize = 65536 := rfl
  have hpadding := padding.toNat_lt
  unfold budgetOf at hpos
  omega

/-- The place where the decoder stops is the end of the budget, or 2^32 bits behind it. -/
theorem Visits.eq_of_stopped (hlen : 8 * p.length ≤ uint32Max)
    (h : Visits p (budgetOf p padding) c) (hstop : sub32 (budgetOf p padding) c.pos = 0) :
    c.pos = budgetOf p padding ∨ c.pos = budgetOf p padding + 2 ^ 32 := by
  obtain ⟨hout, hbounds⟩ := h.bounds
  have hmax : uint32Max = 2 ^ 32 - 1 := rfl
  have hsize : outputBufferSize = 65536 := rfl
  have hpadding := padding.toNat_lt
  unfold sub32 budgetOf at *
  omega

theorem decompressBits_ends (hempty : zgfx.output = [])
    (hlen : 8 * payload.length ≤ uint32Max) (hpadding : padding.toNat ≤ 8 * payload.length) :
    ∃ success zgfx', decompressBits zgfx payload padding = some (success, zgfx') ∧
      zgfx'.output.length ≤ outputBufferSize ∧
        Ends payload (budgetOf payload padding) ⟨0, 0⟩ zgfx'.consumed success := by
  have hmax : uint32Max = 2 ^ 32 - 1 := rfl
  have hbudget : budgetOf payload padding < 2 ^ 32 := by
    unfold budgetOf
    omega
  unfold decompressBits
  simp only [if_neg (Nat.not_lt_of_le hlen), if_neg (Nat.not_lt_of_le hpadding)]
  apply decompressLoop_spec hlen
  · exact ⟨⟨zero_lt_succ 7, ⟨0, rfl, rfl⟩, rfl, hbudget, rfl⟩, rfl,
      by simp only [hempty, length_nil], zero_le _⟩
  · omega

/-- A compressed segment: the decoder ends, and when it succeeds it has consumed the budget, unless
the segment overruns. -/
theorem decompressBits_spec (hempty : zgfx.output = []) (payload) (padding) :
    ∃ success zgfx', decompressBits zgfx payload padding = some (success, zgfx') ∧
      zgfx'.output.length ≤ outputBufferSize ∧
        ((success = true → zgfx'.consumed = budgetOf payload padding) ↔
          ¬Overruns payload padding) := by
  by_cases hlen : 8 * payload.length ≤ uint32Max ∧ padding.toNat ≤ 8 * payload.length
  · obtain ⟨hlen, hpadding⟩ := hlen
    obtain ⟨success, zgfx', hbits, hout, hends⟩ := decompressBits_ends hempty hlen hpadding
    refine ⟨success, zgfx', hbits, hout, ?_⟩
    constructor
    · rintro hexact ⟨-, -, c, hvisits, hpos⟩
      have hstop : sub32 (budgetOf payload padding) c.pos = 0 := by
        unfold sub32
        omega
      rcases success with _ | _
      · exact hends c hvisits hstop
      obtain ⟨c', hruns, hstop', hconsumed⟩ := hends
      obtain rfl := Runs.stopped_unique hvisits hruns hstop hstop'
      have := hexact rfl
      omega
    · rintro hnot rfl
      obtain ⟨c, hvisits, hstop, hconsumed⟩ := hends
      rcases Visits.eq_of_stopped hlen hvisits hstop with hpos | hpos
      · rw [hconsumed, hpos]
      · exact absurd ⟨hlen, hpadding, c, hvisits, hpos⟩ hnot
  · refine ⟨false, zgfx, ?_, by rw [hempty]; exact zero_le _, ?_⟩
    · unfold decompressBits
      simp only
      split
      · rfl
      · rw [if_pos (by omega)]
    · simp only [Bool.false_eq_true, false_implies, true_iff]
      rintro ⟨hle, hle', -⟩
      exact hlen ⟨hle, hle'⟩

theorem tail_take_segment (flags padding) (payload rest : List UInt8) :
    ((flags :: payload ++ padding :: rest).take (payload.length + 2)).tail =
      payload ++ [padding] := by
  rw [append_cons, take_left' (by simp)]
  rfl

/-- A compressed segment is decoded from its payload and its padding. -/
theorem decompressSegment_compressed (zgfx)
    (hsize : payload.length + 2 ≤ uint32Max) (hflags : flags.toNat &&& packetCompressed ≠ 0) :
    decompressSegment zgfx (flags :: payload ++ padding :: rest) (payload.length + 2) =
      decompressBits { zgfx with output := [] } payload padding := by
  unfold decompressSegment
  rw [if_neg (by omega), if_neg (by
    rw [length_append, length_cons, length_cons]
    omega)]
  simp only [tail_take_segment, dropLast_concat, getLastD_concat]
  exact if_neg hflags

/-- **Decoding a segment ends, and success means an exact budget of bits, unless the segment
overruns.**  For every context and every segment the decoder returns, with at most 65536 bytes in
the output and an index inside of the history.  When the segment is compressed, success means that
the tokens consumed all of its bits but the padding, exactly when the segment does not overrun; none
of fewer than 2^29 - 75000 bytes does. -/
theorem decompressSegment_budget (zgfx : Context) (hout : zgfx.output.length ≤ outputBufferSize)
    (stream : List UInt8) (segmentSize : ℕ) :
    ∃ success zgfx', decompressSegment zgfx stream segmentSize = some (success, zgfx') ∧
      zgfx'.output.length ≤ outputBufferSize ∧ zgfx'.history.historyIndex < historyBufferSize ∧
        ∀ flags payload padding rest, stream = flags :: payload ++ padding :: rest →
          segmentSize = payload.length + 2 → flags.toNat &&& packetCompressed ≠ 0 →
            ((success = true → zgfx'.consumed = budgetOf payload padding) ↔
              ¬Overruns payload padding) ∧
              (payload.length + 75000 ≤ 2 ^ 29 → ¬Overruns payload padding) := by
  have hmax : uint32Max = 2 ^ 32 - 1 := rfl
  have hshort {payload : List UInt8} {padding : UInt8} (h : payload.length + 75000 ≤ 2 ^ 29) :
      ¬Overruns payload padding := not_overruns_of_le (by omega)
  unfold decompressSegment
  by_cases hsmall : segmentSize < 2
  · refine ⟨false, zgfx, if_pos hsmall, hout, zgfx.history.historyIndex_lt, ?_⟩
    omega
  by_cases hlong : stream.length < segmentSize ∨ segmentSize > uint32Max
  · refine ⟨false, zgfx, by rw [if_neg hsmall, if_pos hlong], hout,
      zgfx.history.historyIndex_lt, ?_⟩
    intro flags payload padding rest hstream hsize _
    refine ⟨?_, hshort⟩
    simp only [Bool.false_eq_true, false_implies, true_iff]
    rintro ⟨hle, -⟩
    rw [hstream, length_append, length_cons, length_cons] at hlong
    omega
  rw [if_neg hsmall, if_neg hlong]
  by_cases hplain : (stream.headD 0).toNat &&& packetCompressed = 0
  · rw [if_pos hplain]
    have hcompressed {flags : UInt8} {tail : List UInt8} (hstream : stream = flags :: tail)
        (hflags : flags.toNat &&& packetCompressed ≠ 0) : False := by
      rw [hstream] at hplain
      exact hflags hplain
    split
    · refine ⟨false, _, rfl, zero_le _, HistoryRing.historyIndex_lt _, ?_⟩
      intro flags payload padding rest hstream _ hflags
      exact (hcompressed hstream hflags).elim
    · rename_i hfits
      refine ⟨true, _, rfl, Nat.le_of_not_lt hfits, HistoryRing.historyIndex_lt _, ?_⟩
      intro flags payload padding rest hstream _ hflags
      exact (hcompressed hstream hflags).elim
  rw [if_neg hplain]
  obtain ⟨success, zgfx', hbits, hout', hiff⟩ := @decompressBits_spec { zgfx with output := [] } rfl
    (stream.take segmentSize).tail.dropLast ((stream.take segmentSize).tail.getLastD 0)
  refine ⟨success, zgfx', hbits, hout', zgfx'.history.historyIndex_lt, ?_⟩
  intro flags payload padding rest hstream hsize _
  rw [hstream, hsize, tail_take_segment, dropLast_concat, getLastD_concat] at hiff
  exact ⟨hiff, hshort⟩

/-- A segment with one literal. -/
theorem decompressSegment_budget_literal :
    ∃ zgfx', decompressSegment contextNew [0x24, 0x20, 0x80, 7] 4 =
    some (true, zgfx') ∧ zgfx'.consumed = 9 := by
  obtain ⟨success, zgfx', hsegment, -, -, hiff⟩ := decompressSegment_budget contextNew (by decide)
    [0x24, 0x20, 0x80, 7] 4
  obtain ⟨hexact, hshort⟩ := hiff 0x24 [0x20, 0x80] 7 [] rfl rfl (by decide)
  have hsuccess : (decompressSegment contextNew [0x24, 0x20, 0x80, 7] 4).map Prod.fst =
      some true := by
    decide +kernel
  rw [hsegment] at hsuccess
  obtain rfl : success = true := some.inj hsuccess
  exact ⟨zgfx', hsegment, hexact.mpr (hshort (by decide)) rfl⟩

/-! ## A segment that overruns -/

/-- The bits of a match at distance 1 whose length starts with ones up to the end of the segment. -/
def hugeMatch (n : ℕ) : List UInt8 := 0x88 :: 0x7F :: List.replicate n 0xFF

theorem length_hugeMatch (n) : (hugeMatch n).length = n + 2 := by
  rw [hugeMatch, length_cons, length_cons, length_replicate]

theorem bit_hugeMatch (hi : 9 ≤ i) (hlt : i < 8 * (n + 2)) : bit (hugeMatch n) i = 1 := by
  have hshift : i % 8 < 8 := mod_lt i (by decide)
  by_cases hsecond : i < 16
  · interval_cases i <;> simp [bit, hugeMatch]
  have hbyte : (hugeMatch n).getD (i / 8) 0 = 0xFF := by
    obtain ⟨k, hk⟩ : ∃ k, i / 8 = k + 2 := ⟨i / 8 - 2, by omega⟩
    rw [hk, hugeMatch, getD_cons_succ, getD_cons_succ, getD_eq_getElem?_getD,
      List.getElem?_replicate, if_pos (by omega), getD_some]
  rw [bit, hbyte]
  interval_cases i % 8 <;> rfl

/-- Ones up to the end of the segment are counted up to its end. -/
theorem ones_eq_of_forall (n) : ∀ {pos}, 8 * p.length - pos = n →
    (∀ i, pos ≤ i → i < 8 * p.length → bit p i = 1) → ones p pos = n := by
  induction n with
  | zero => intro pos hn _; exact le_zero.mp (hn ▸ ones_le p pos)
  | succ n ih =>
  intro pos hn hall
  rw [ones_of_bit (hall pos (le_refl _) (by omega)),
    ih (by omega) fun i hi hlt => hall i (by omega) hlt]

theorem findRow_hugeMatch (n) : findRow (hugeMatch n) 0 tokenTable = some ⟨5, 17, 5, 1, 0⟩ := by
  have hone : field (hugeMatch n) 0 1 = 1 := by
    simp [field, bit, hugeMatch]
  have hfive : field (hugeMatch n) 0 5 = 17 := by
    simp [field, bit, hugeMatch]
  rw [findRow, tokenTable, List.find?_cons_of_neg (by simp [hone]),
    List.find?_cons_of_pos (by simp [hfive])]

/-- The first token takes twice as many bits as the segment has, nearly, and nothing is put out. -/
theorem advance_hugeMatch (hn : 8 ≤ n) :
    advance (hugeMatch n) budget ⟨0, 0⟩ = some ⟨16 * n + 24, 0⟩ := by
  have hlen := length_hugeMatch n
  have hones : ones (hugeMatch n) 11 = 8 * n + 5 :=
    ones_eq_of_forall (8 * n + 5) (by omega) fun i hi hlt => bit_hugeMatch (by omega) (by omega)
  have hfirst : bit (hugeMatch n) 10 ≠ 0 := by
    rw [bit_hugeMatch (by decide) (by omega)]
    decide
  have hwidth : lengthWidth (hugeMatch n) 10 = 16 * n + 14 := by
    rw [lengthWidth, if_neg hfirst, hones]
    omega
  have hlength : wrappedLength (hugeMatch n) 10 = 0 := by
    have hdvd : 2 ^ 32 ∣ 2 ^ (8 * n + 5 + 2) := pow_dvd_pow 2 (by omega)
    rw [wrappedLength, if_neg hfirst, hones, field_of_le (by omega), mod_eq_zero_of_dvd hdvd,
      zero_mod, zero_mod]
  have hdistance : 0 + field (hugeMatch n) (0 + 5) 5 ≠ 0 := by
    simp [field, bit, hugeMatch]
  unfold advance
  simp only [findRow_hugeMatch]
  rw [if_neg (by decide), if_pos hdistance, advanceMatch, hlength, hwidth, if_neg (by omega)]
  congr 2
  omega

theorem overruns_hugeMatch (hn : n + 3 = 2 ^ 29) : Overruns (hugeMatch n) 16 := by
  have hlen := length_hugeMatch n
  have hmax : uint32Max = 2 ^ 32 - 1 := rfl
  have hpadding : (16 : UInt8).toNat = 16 := rfl
  refine ⟨by omega, by omega, _, .single ⟨?_, advance_hugeMatch (by omega)⟩, ?_⟩
  · unfold sub32 budgetOf
    simp only
    omega
  · unfold budgetOf
    simp only
    omega

/-- **A segment whose match reads past its bits succeeds**: it is `88 7F FF … FF` with 2^29 - 3
bytes `FF` and a padding of 16 bits.  The length of its match starts with so many ones that the
extra bits take the counter round once, so that it is zero again. -/
theorem segment_overrun : ∃ n zgfx', n + 3 = 2 ^ 29 ∧
    decompressSegment contextNew (0x24 :: hugeMatch n ++ [16]) ((hugeMatch n).length + 2) =
      some (true, zgfx') ∧ zgfx'.consumed ≠ budgetOf (hugeMatch n) 16 := by
  obtain ⟨n, hn⟩ : ∃ n, n + 3 = 2 ^ 29 := ⟨2 ^ 29 - 3, by decide⟩
  obtain ⟨success, zgfx', hbits, -, hiff⟩ :=
    @decompressBits_spec { contextNew with output := [] } rfl (hugeMatch n) 16
  obtain ⟨rfl, hne⟩ := Classical.not_imp.mp (hiff.not.mpr (not_not.mpr (overruns_hugeMatch hn)))
  have hsize : (hugeMatch n).length + 2 ≤ 2 ^ 32 - 1 := by
    rw [length_hugeMatch]
    omega
  exact ⟨n, zgfx', hn, (decompressSegment_compressed contextNew hsize (by decide)).trans hbits, hne⟩

end WBFreeRDP.Zgfx

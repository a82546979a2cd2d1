/-
# The chains of the NCRUSH sender

The hash table has for every word of two bytes the last position where it stands, and the match
table leads from a position to the one before it with the same word.
-/
import WBFreeRDP.Ncrush

namespace WBFreeRDP.Ncrush

open History List

/-! ## The invariant -/

def word (history : Memory UInt8) (i : ℕ) : ℕ := (history i).toNat + 256 * (history (i + 1)).toNat

variable {history : Memory UInt8} {i : ℕ}

theorem bytes_of_word (h : word history i = word history j) :
    history i = history j ∧ history (i + 1) = history (j + 1) := by
  have h1 := (history i).toNat_lt
  have h2 := (history j).toNat_lt
  unfold word at h
  constructor
  all_goals exact UInt8.toNat_inj.mp (by omega)

/-- The chains below position `cur` of a history filled up to `filled`: the head of a chain has the
word of the chain, and a position leads to an earlier one with the same word. -/
structure Chained (history : Memory UInt8) (hashTable matchTable : Memory ℕ) (cur filled : ℕ) :
    Prop where
  head : ∀ w, hashTable w ≠ 0 → hashTable w < cur ∧ hashTable w + 1 < filled ∧
    word history (hashTable w) = w
  next : ∀ i, matchTable i ≠ 0 → matchTable i < i ∧ i + 1 < filled ∧
    word history (matchTable i) = word history i

theorem chained_fill (history) : Chained history (fill 0) (fill 0) cur filled :=
  ⟨fun _ h => absurd rfl h, fun _ h => absurd rfl h⟩

variable {filled : ℕ}

theorem word_congr (hag : Agree filled g h) (hi : i + 1 < filled) : word h i = word g i := by
  unfold word
  rw [hag i (by omega), hag (i + 1) hi]

theorem Chained.extend (hc : Chained g hashTable matchTable cur filled) (hag : Agree filled g h)
    (hle : filled ≤ filled') : Chained h hashTable matchTable cur filled' := by
  constructor
  · intro w hw
    obtain ⟨h1, h2, h3⟩ := hc.head w hw
    exact ⟨h1, by omega, by rw [word_congr hag h2, h3]⟩
  · intro i hi
    obtain ⟨h1, h2, h3⟩ := hc.next i hi
    exact ⟨h1, by omega, by rw [word_congr hag (by omega), word_congr hag h2, h3]⟩

theorem Chained.mono (hc : Chained history hashTable matchTable cur filled) (hle : cur ≤ cur') :
    Chained history hashTable matchTable cur' filled := by
  refine ⟨fun w hw => ?_, hc.next⟩
  obtain ⟨h1, h2, h3⟩ := hc.head w hw
  exact ⟨by omega, h2, h3⟩

/-! ## Adding a packet -/

theorem Chained.add
    (hc : Chained history hashTable matchTable cur filled) (hcur : cur + 1 < filled) :
    Chained history (set hashTable (word history cur) cur)
      (set matchTable cur (hashTable (word history cur))) (cur + 1) filled := by
  constructor
  · intro w hw
    by_cases hwc : w = word history cur
    · rw [hwc, set_self]
      exact ⟨by omega, hcur, rfl⟩
    rw [set_of_ne _ hwc] at hw ⊢
    obtain ⟨h1, h2, h3⟩ := hc.head w hw
    exact ⟨by omega, h2, h3⟩
  intro i hi
  by_cases hic : i = cur
  · rw [hic, set_self] at hi ⊢
    obtain ⟨h1, -, h3⟩ := hc.head _ hi
    exact ⟨h1, hcur, h3⟩
  · rw [set_of_ne _ hic] at hi ⊢
    exact hc.next i hi

/-- **A packet is chained.** -/
theorem hashTableAdd_chained (src : List UInt8) : ∀ {offset} {hashTable matchTable},
      Chained history hashTable matchTable offset filled →
      read history offset src.length = src → offset + src.length ≤ filled →
      Chained history (hashTableAdd src offset hashTable matchTable).1
        (hashTableAdd src offset hashTable matchTable).2 filled filled := by
  induction src with
  | nil => intro offset hashTable matchTable hc _ hle; exact hc.mono (by simpa using hle)
  | cons a src ih =>
  intro offset hashTable matchTable hc hread hle
  rcases src with _ | ⟨b, rest⟩
  · exact hc.mono (by omega)
  rw [hashTableAdd]
  by_cases hlong : (a :: b :: rest).length > 8
  swap
  · rw [if_neg hlong]
    exact hc.mono (by omega)
  rw [if_pos hlong]
  simp only [length_cons] at hread hle hlong
  rw [History.read, History.read] at hread
  obtain ⟨ha, hb, hrest⟩ := by simpa using hread
  have hword : a.toNat ||| b.toNat <<< 8 = word history offset := by
    rw [Nat.or_comm, ← Nat.shiftLeft_add_eq_or_of_lt (i := 8) a.toNat_lt, word, ha, hb]
    omega
  simp only [hword]
  refine ih (hc.add (by omega)) ?_ (by simp only [length_cons]; omega)
  rw [length_cons, History.read, hb, hrest]

/-- **The windows move.** -/
theorem Chained.move
    (hc : Chained history hashTable matchTable filled filled) (hd : d + 32768 = filled) :
    Chained ⟨fun j => if j < 32768 then history (d + j) else history j⟩ ⟨fun w => hashTable w - d⟩
      ⟨fun j => if j < 32768 then matchTable (d + j) - d else 0⟩ 32768 32768 := by
  have hword (i : ℕ) (hi : i + 1 < 32768) :
      word ⟨fun j => if j < 32768 then history (d + j) else history j⟩ i =
        word history (d + i) := by
    simp only [word]
    rw [if_pos (by omega), if_pos hi, add_assoc]
  constructor
  · intro w hw
    simp only at hw
    obtain ⟨h1, h2, h3⟩ := hc.head w (by omega)
    refine ⟨by simp only; omega, by simp only; omega, ?_⟩
    rw [hword _ (by simp only; omega)]
    rw [Nat.add_sub_cancel' (by omega), h3]
  intro i hi
  by_cases hi' : i < 32768
  · simp only [if_pos hi'] at hi ⊢
    obtain ⟨h1, h2, h3⟩ := hc.next (d + i) (by omega)
    refine ⟨by omega, by omega, ?_⟩
    rw [hword _ (by omega), hword _ (by omega), Nat.add_sub_cancel' (by omega), h3]
  · simp only [if_neg hi'] at hi
    exact absurd rfl hi

/-! ## Searching a chain -/

/-- The offset `x` is on the chain of position `i`; the search also meets 0, where a chain ends, and
the position itself, where it leads on from there. -/
def OnChain (history : Memory UInt8) (i x : ℕ) : Prop :=
  x ≤ i ∧ (x ≠ 0 → word history x = word history i)

/-- What is found at position `i` of a history filled up to `filled`. -/
structure IsMatch (history : Memory UInt8) (filled i matchLength matchOffset : ℕ) : Prop where
  length_ge : 2 ≤ matchLength
  length_le : matchLength ≤ 16
  offset_lt : matchOffset < i
  inside : i + matchLength ≤ filled
  same : ∀ k < matchLength, history (matchOffset + k) = history (i + k)

/-- The chain leads from a position on it to a position on it. -/
theorem Chained.onChain (hc : Chained history hashTable matchTable cur filled)
    (hx : OnChain history i x) : OnChain history i (set matchTable 0 i x) := by
  by_cases h0 : x = 0
  · rw [h0]
    exact ⟨le_rfl, fun _ => rfl⟩
  rw [set_of_ne _ h0]
  refine ⟨?_, fun hne => ?_⟩
  · by_cases hne : matchTable x = 0
    · omega
    · exact (le_of_lt (hc.next x hne).1).trans hx.1
  · rw [(hc.next x hne).2.2, hx.2 h0]

theorem probe_onChain (fits)
    (hstep : ∀ x, OnChain history i x → OnChain history i (matchTable x)) (n) :
    ∀ x, OnChain history i x → OnChain history i (probe fits matchTable n x).1 := by
  induction n with
  | zero => intro x hx; exact hx
  | succ n ih =>
  intro x hx
  rw [probe]
  by_cases hfits : fits x = true
  · rw [if_pos hfits]
    exact hx
  · rw [if_neg hfits]
    exact ih _ (hstep x hx)

theorem matchEnd_spec (history) (high fuel : ℕ) :
    ∀ ptr1 ptr2, ptr1 + fuel = high + 1 → matchEnd history high fuel ptr1 ptr2 ≤ high + 1 ∧
      (0 < fuel → ptr1 + 1 ≤ matchEnd history high fuel ptr1 ptr2) ∧
      ∀ k, ptr1 + k + 1 < matchEnd history high fuel ptr1 ptr2 →
        history (ptr1 + k) = history (ptr2 + k) := by
  induction fuel with
  | zero =>
    intro ptr1 ptr2 hfuel
    rw [matchEnd]
    exact ⟨by omega, fun h => absurd h (by omega), fun k hk => absurd hk (by omega)⟩
  | succ fuel ih =>
  intro ptr1 ptr2 hfuel
  rw [matchEnd, if_neg (by omega)]
  by_cases heq : history ptr1 = history ptr2
  swap
  · rw [if_neg heq]
    exact ⟨by omega, fun _ => le_rfl, fun k hk => absurd hk (by omega)⟩
  rw [if_pos heq]
  obtain ⟨h1, h2, h3⟩ := ih (ptr1 + 1) (ptr2 + 1) (by omega)
  refine ⟨h1, fun _ => ?_, fun k hk => ?_⟩
  · by_cases hf : 0 < fuel
    · omega
    · rw [show fuel = 0 by omega, matchEnd]
  rcases k with _ | k
  · exact heq
  have := h3 k (by omega)
  rwa [show ptr1 + (k + 1) = ptr1 + 1 + k by omega,
    show ptr2 + (k + 1) = ptr2 + 1 + k by omega]

/-- **The length of a match** counts equal bytes, none of them behind the packet. -/
theorem findMatchLength_spec (history : Memory UInt8) (ptr2 : ℕ) (h : ptr1 ≤ high) :
    ∃ n : ℕ, findMatchLength history ptr1 ptr2 high = n ∧ ptr1 + n ≤ high ∧
      ∀ k < n, history (ptr1 + k) = history (ptr2 + k) := by
  obtain ⟨h1, h2, h3⟩ := matchEnd_spec history high (high + 1 - ptr1) ptr1 ptr2 (by omega)
  refine ⟨matchEnd history high (high + 1 - ptr1) ptr1 ptr2 - (ptr1 + 1), ?_, by omega, ?_⟩
  · unfold findMatchLength
    omega
  · intro k hk
    exact h3 k (by omega)

/-- An offset on the chain whose bytes were compared is a match. -/
theorem OnChain.isMatch (hx : OnChain history i x)
    (hne : x ≠ i) (h0 : x ≠ 0) (hle : n + 2 ≤ 16) (hin : i + 2 + n ≤ filled)
    (hsame : ∀ k < n, history (i + 2 + k) = history (x + 2 + k)) :
    IsMatch history filled i (n + 2) x := by
  obtain ⟨hb0, hb1⟩ := bytes_of_word (hx.2 h0)
  have hlt := hx.1
  refine ⟨by omega, hle, by omega, by omega, ?_⟩
  intro k hk
  rcases k with _ | _ | k
  · exact hb0
  · exact hb1
  · have := hsame k (by omega)
    rw [show x + (k + 1 + 1) = x + 2 + k by omega, show i + (k + 1 + 1) = i + 2 + k by omega, this]

theorem bestMatchLoop_spec
    (hstep : ∀ x, OnChain history i x → OnChain history i (matchTable x)) (hi : i + 2 ≤ filled)
    (n) : ∀ {x matchLength matchOffset}, OnChain history i x →
      IsMatch history filled i matchLength matchOffset → ∃ matchLength' matchOffset',
        bestMatchLoop history matchTable filled i n x matchLength matchOffset =
          some (matchLength', matchOffset') ∧
        IsMatch history filled i matchLength' matchOffset' := by
  induction n with
  | zero => intro x ml mo _ hm; exact ⟨ml, mo, rfl, hm⟩
  | succ n ih =>
  intro x ml mo hx hm
  rw [bestMatchLoop]
  have hprobe := probe_onChain
    (fun x => decide (history (ml + x) = history (i + ml))) hstep 6 x hx
  generalize probe (fun x => decide (history (ml + x) = history (i + ml))) matchTable 6 x = p
    at hprobe
  obtain ⟨y, found⟩ := p
  rcases found with _ | _
  · exact ih hprobe hm
  simp only
  by_cases hy : y ≠ i ∧ y ≠ 0
  swap
  · rw [if_neg hy]
    exact ⟨ml, mo, rfl, hm⟩
  obtain ⟨len, hlen, hin, hsame⟩ := findMatchLength_spec history (y + 2)
    (show i + 2 ≤ filled from hi)
  rw [if_pos hy, hlen]
  by_cases hmax : (len : ℤ) + 2 > 16
  · rw [if_pos hmax]
    exact ⟨ml, mo, rfl, hm⟩
  rw [if_neg hmax]
  by_cases hlonger : (len : ℤ) + 2 > ml
  · rw [if_pos hlonger]
    exact ih (hstep y hprobe) (hprobe.isMatch hy.1 hy.2 (by omega) hin hsame)
  · rw [if_neg hlonger]
    exact ih (hstep y hprobe) hm

/-- **What the search finds is a match.** -/
theorem findBestMatch_spec (hc : Chained history hashTable matchTable cur filled)
    (hne : matchTable i ≠ 0) (hi : i + 2 ≤ filled) : ∃ matchLength matchOffset,
      findBestMatch history matchTable filled i = some (matchLength, matchOffset) ∧
      IsMatch history filled i matchLength matchOffset := by
  obtain ⟨hlt, -, hword⟩ := hc.next i hne
  have hfirst : OnChain history i (matchTable i) := ⟨le_of_lt hlt, fun _ => hword⟩
  rw [findBestMatch, if_neg hne]
  refine bestMatchLoop_spec (fun x hx => hc.onChain hx) hi 4 hfirst ?_
  exact hfirst.isMatch (ne_of_lt hlt) hne (n := 0) (by omega) (by omega)
    (fun k hk => absurd hk (by omega))

end WBFreeRDP.Ncrush

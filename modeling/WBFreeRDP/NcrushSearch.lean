/-
# The search of the NCRUSH sender

`ncrush_find_best_match` follows the chain of a position for four rounds of at most six probes.  A
probe looks at the byte behind the best match so far; where it is right the round ends and the
candidate is measured.
-/
import WBFreeRDP.NcrushLossless
import WBFreeRDP.NcrushRounds

namespace WBFreeRDP.Ncrush

open Bulk History LowBits List

/-! ## The search and what it measures -/

/-- The probe of a position: the byte behind the best match is the right one. -/
def fitsAt (history : Memory UInt8) (historyOffset matchLength x : ℕ) : Bool :=
  history (matchLength + x) = history (historyOffset + matchLength)

/-- The rounds of `ncrush_find_best_match`: what they find, and the candidates that they measure
with their lengths. -/
def searchLoop (history : Memory UInt8) (matchTable : Memory ℕ) (high historyOffset : ℕ) :
    ℕ → ℕ → ℕ → ℕ → Option (ℕ × ℕ) × List (ℕ × ℤ)
  | 0, _, matchLength, matchOffset => (some (matchLength, matchOffset), [])
  | n + 1, nextOffset, matchLength, matchOffset =>
    match probe (fitsAt history historyOffset matchLength) matchTable 6 nextOffset with
    | (nextOffset, false) =>
      searchLoop history matchTable high historyOffset n nextOffset matchLength matchOffset
    | (offset, true) =>
      if offset ≠ historyOffset ∧ offset ≠ 0 then
        let length := findMatchLength history (historyOffset + 2) (offset + 2) high + 2
        let rest :=
          if length < 2 then (none, [])
          else if length > 16 then (some (matchLength, matchOffset), [])
          else if length > matchLength then
            searchLoop history matchTable high historyOffset n (matchTable offset)
              length.toNat offset
          else
            searchLoop history matchTable high historyOffset n (matchTable offset) matchLength
              matchOffset
        (rest.1, (offset, length) :: rest.2)
      else (some (matchLength, matchOffset), [])

/-- What a search leaves: what it found, what it measured and the chains. -/
structure Search where
  result : Option (ℕ × ℕ)
  measured : List (ℕ × ℤ)
  matchTable : Memory ℕ

/-- `ncrush_find_best_match`.  Cell 0 of the chains leads back to the position while it runs and is
cleared behind the loop, which an error leaves early. -/
def search (history : Memory UInt8) (matchTable : Memory ℕ) (high historyOffset : ℕ) : Search :=
  if matchTable historyOffset = 0 then ⟨none, [], matchTable⟩
  else
    let found := searchLoop history (set matchTable 0 historyOffset) high historyOffset 4
      (matchTable historyOffset) 2 (matchTable historyOffset)
    ⟨found.1, found.2,
      match found.1 with
      | none => set matchTable 0 historyOffset
      | some _ => set (set matchTable 0 historyOffset) 0 0⟩

/-- The loop finds what the sender's one finds. -/
theorem searchLoop_result (history matchTable high historyOffset n) :
    ∀ nextOffset matchLength matchOffset,
      (searchLoop history matchTable high historyOffset n nextOffset matchLength matchOffset).1 =
        bestMatchLoop history matchTable high historyOffset n nextOffset
          matchLength matchOffset := by
  induction n with
  | zero => exact fun _ _ _ => rfl
  | succ n ih =>
  intro nextOffset matchLength matchOffset
  rw [searchLoop, bestMatchLoop]
  have hfits : (fun x => decide
    (history (matchLength + x) = history (historyOffset + matchLength))) =
      fitsAt history historyOffset matchLength := rfl
  simp only [hfits]
  rcases probe (fitsAt history historyOffset matchLength) matchTable 6 nextOffset
    with ⟨offset, _ | _⟩
  · exact ih _ _ _
  simp only
  split_ifs
  all_goals first | rfl | exact ih _ _ _

/-- **The search finds what the sender uses.** -/
theorem search_result (history : Memory UInt8) (matchTable : Memory ℕ) (high historyOffset) :
    (search history matchTable high historyOffset).result =
      findBestMatch history matchTable high historyOffset := by
  unfold search findBestMatch
  split_ifs
  · rfl
  · exact searchLoop_result _ _ _ _ _ _ _ _

/-! ## How far two positions agree -/

/-- The number of equal bytes from two positions on, among the next `n`. -/
def common (history : Memory UInt8) : ℕ → ℕ → ℕ → ℕ
  | 0, _, _ => 0
  | n + 1, a, b => if history a = history b then common history n (a + 1) (b + 1) + 1 else 0

/-- The number of bytes of the packet that a position shares with an earlier one. -/
def agreement (history : Memory UInt8) (high i x : ℕ) : ℕ := common history (high - i) i x

theorem common_eq (history n) : ∀ {a b k}, k < common history n a b →
    history (a + k) = history (b + k) := by
  induction n with
  | zero => intro a b k hk; exact absurd hk (Nat.not_lt_zero k)
  | succ n ih =>
  intro a b k hk
  rw [common] at hk
  split_ifs at hk with heq
  · cases k with
    | zero => exact heq
    | succ k =>
      have := ih (a := a + 1) (b := b + 1) (k := k) (by omega)
      rwa [add_right_comm, add_right_comm b] at this
  · exact absurd hk (Nat.not_lt_zero k)

/-- **What is measured** is how many bytes are equal: the byte behind the packet may be read, but is
not counted. -/
theorem matchEnd_common (history : Memory UInt8) (high fuel : ℕ) : ∀ ptr1 ptr2,
    ptr1 + fuel = high + 1 → 0 < fuel →
      matchEnd history high fuel ptr1 ptr2 = ptr1 + 1 + common history (fuel - 1) ptr1 ptr2 := by
  induction fuel with
  | zero => intro ptr1 ptr2 _ hpos; exact absurd hpos (lt_irrefl 0)
  | succ fuel ih =>
  intro ptr1 ptr2 hfuel _
  rw [matchEnd, if_neg (by omega), Nat.add_sub_cancel]
  rcases fuel with _ | fuel
  · rw [common]
    split_ifs
    · rw [matchEnd]
    · rfl
  rw [common]
  split_ifs with heq
  · rw [ih (ptr1 + 1) (ptr2 + 1) (by omega) (by omega), Nat.add_sub_cancel]
    omega
  · rfl

/-- The length of a candidate, whose first two bytes are not compared. -/
theorem findMatchLength_agreement (hi : i + 2 ≤ high)
    (h0 : history i = history x) (h1 : history (i + 1) = history (x + 1)) :
    findMatchLength history (i + 2) (x + 2) high + 2 = (agreement history high i x : ℤ) := by
  obtain ⟨n, rfl⟩ : ∃ n, high = i + 2 + n := ⟨high - (i + 2), by omega⟩
  unfold findMatchLength agreement
  rw [matchEnd_common history (i + 2 + n) _ (i + 2) (x + 2) (by omega) (by omega),
    show i + 2 + n + 1 - (i + 2) - 1 = n by omega, show i + 2 + n - i = n + 1 + 1 by omega, common,
    if_pos h0, common, if_pos h1]
  push_cast
  ring

/-- A position that agrees on more bytes than the best match passes the probe. -/
theorem fitsAt_of_lt (h : m < agreement history high i x) : fitsAt history i m x = true := by
  have := common_eq history (high - i) h
  rw [fitsAt, decide_eq_true_iff, add_comm m, this]

/-! ## The reach of a search -/

/-- The positions that a round of `p` probes gets to, and those of the next rounds.  A chain ends
with 0. -/
def reachedRound (history : Memory UInt8) (matchTable : Memory ℕ) (high i : ℕ)
    (next : ℕ → ℕ → List ℕ) : ℕ → ℕ → ℕ → List ℕ
  | 0, x, m => next x m
  | p + 1, x, m =>
    if x = 0 ∨ x = i then []
    else
      x ::
        if fitsAt history i m x then next (matchTable x) (max m (agreement history high i x))
        else reachedRound history matchTable high i next p (matchTable x) m

/-- **The positions of the chain that `n` rounds of six probes get to**, from position `x` on and
with a match of `m` bytes so far. -/
def reached (history : Memory UInt8) (matchTable : Memory ℕ) (high i : ℕ) : ℕ → ℕ → ℕ → List ℕ
  | 0, _, _ => []
  | n + 1, x, m =>
      reachedRound history matchTable high i (reached history matchTable high i n) 6 x m

theorem reached_self (history matchTable) (high i n m : ℕ) :
    reached history matchTable high i n i m = [] := by
  cases n with
  | zero => rfl
  | succ n => exact if_pos (Or.inr rfl)

section Search

variable {history : Memory UInt8} {high i : ℕ}

/-- No position of a list agrees with position `i` on more than 16 bytes. -/
def Short (history : Memory UInt8) (high i : ℕ) (l : List ℕ) : Prop :=
  ∀ x ∈ l, agreement history high i x ≤ 16

theorem short_cons :
    Short history high i (x :: l) ↔ agreement history high i x ≤ 16 ∧ Short history high i l :=
  forall_mem_cons

/-- At the end of its chain a round finds nothing: the position itself passes the probe. -/
theorem probe_end (hx : x = 0 ∨ x = i)
    (h : probe (fitsAt history i m) (set matchTable 0 i) (p + 1) x = (y, found)) :
    (found = false → y = i) ∧ (found = true → ¬ (y ≠ i ∧ y ≠ 0)) := by
  have hself (n : ℕ) : probe (fitsAt history i m) (set matchTable 0 i) (n + 1) i = (i, true) := by
    rw [probe, if_pos]
    rw [fitsAt, decide_eq_true_iff, add_comm]
  rcases hx with rfl | rfl
  swap
  · rw [hself] at h
    cases h
    exact ⟨by simp, fun _ hy => hy.1 rfl⟩
  rw [probe, set_self] at h
  split_ifs at h
  · cases h
    exact ⟨by simp, fun _ hy => hy.2 rfl⟩
  rcases p with _ | p
  · cases h
    exact ⟨fun _ => rfl, by simp⟩
  rw [hself] at h
  cases h
  exact ⟨by simp, fun _ hy => hy.1 rfl⟩

/-- **A round.**  It passes over positions that agree on 16 bytes at most, and stops at the first
one that passes the probe. -/
theorem probe_reached {next : ℕ → ℕ → List ℕ} (hnext : ∀ m, next i m = []) {m : ℕ} (hm : m ≤ 16)
    (p : ℕ) : ∀ {x y} {found}, probe (fitsAt history i m) (set matchTable 0 i) p x = (y, found) →
      (found = false → (Short history high i (reachedRound history matchTable high i next p x m) ↔
        Short history high i (next y m))) ∧ (found = true → y ≠ i ∧ y ≠ 0 →
        (Short history high i (reachedRound history matchTable high i next p x m) ↔
          agreement history high i y ≤ 16 ∧ Short history high i
            (next (matchTable y) (max m (agreement history high i y))))) ∧
      (found = true → ¬ (y ≠ i ∧ y ≠ 0) →
        Short history high i (reachedRound history matchTable high i next p x m)) := by
  induction p with
  | zero =>
    intro x y found h
    cases h
    exact ⟨fun _ => Iff.rfl, by simp, by simp⟩
  | succ p ih =>
  intro x y found h
  rw [reachedRound]
  by_cases hend : x = 0 ∨ x = i
  · -- the chain ends here, or it has come back to the position from its end
    obtain ⟨hmissed, hfound⟩ := probe_end hend h
    rw [if_pos hend]
    refine ⟨fun hf => ?_, fun hf hy => absurd hy (hfound hf), fun _ _ => forall_mem_nil _⟩
    rw [hmissed hf, hnext]
  rw [probe] at h
  rw [not_or] at hend
  rw [if_neg (not_or.mpr hend), short_cons]
  by_cases hfits : fitsAt history i m x = true
  · rw [if_pos hfits] at h ⊢
    cases h
    exact ⟨by simp, fun _ _ => Iff.rfl, fun _ hy => absurd ⟨hend.2, hend.1⟩ hy⟩
  rw [if_neg hfits] at h ⊢
  rw [set_of_ne _ hend.1] at h
  have hshort : agreement history high i x ≤ 16 := by
    by_contra hlong
    exact hfits (fitsAt_of_lt (lt_of_le_of_lt hm (not_le.mp hlong)))
  obtain ⟨h1, h2, h3⟩ := ih h
  exact ⟨fun hf => (and_iff_right hshort).trans (h1 hf),
    fun hf hy => (and_iff_right hshort).trans (h2 hf hy), fun hf hy => ⟨hshort, h3 hf hy⟩⟩

/-- A candidate on the chain is a match, as long as it agrees. -/
theorem OnChain.agreement_isMatch (hx : OnChain history i x) (hne : x ≠ i) (h0 : x ≠ 0)
    (hi : i + 2 ≤ high) (hle : agreement history high i x ≤ 16) :
    IsMatch history high i (agreement history high i x) x := by
  obtain ⟨hb0, hb1⟩ := bytes_of_word (hx.2 h0)
  have hlen := findMatchLength_agreement hi hb0.symm hb1.symm
  obtain ⟨n, hn, hin, hsame⟩ := findMatchLength_spec history (x + 2) (show i + 2 ≤ high from hi)
  rw [show agreement history high i x = n + 2 by omega] at hle ⊢
  exact hx.isMatch hne h0 hle hin hsame

/-- **The rounds of the search** keep a match and let it grow; every candidate is at most as long as
the match that is returned exactly if no position within reach agrees on more than 16 bytes. -/
theorem searchLoop_spec
    (hstep : ∀ x, OnChain history i x → OnChain history i (set matchTable 0 i x))
    (hi : i + 2 ≤ high) (n : ℕ) : ∀ {x ml mo}, OnChain history i x → IsMatch history high i ml mo →
      0 < mo → ∃ ml' mo',
        (searchLoop history (set matchTable 0 i) high i n x ml mo).1 = some (ml', mo') ∧
        IsMatch history high i ml' mo' ∧ 0 < mo' ∧ ml ≤ ml' ∧
        ((∀ c ∈ (searchLoop history (set matchTable 0 i) high i n x ml mo).2, c.2 ≤ ml') ↔
          Short history high i (reached history matchTable high i n x ml)) := by
  induction n with
  | zero => intro x ml mo _ hm hpos; exact ⟨ml, mo, rfl, hm, hpos, le_rfl, iff_of_true nofun nofun⟩
  | succ n ih =>
  intro x ml mo hx hm hpos
  have hchain := probe_onChain (fitsAt history i ml) hstep 6 x hx
  rw [searchLoop, reached]
  rcases hprobe : probe (fitsAt history i ml) (set matchTable 0 i) 6 x with ⟨y, found⟩
  rw [hprobe] at hchain
  change OnChain history i y at hchain
  obtain ⟨hmissed, hfound, hended⟩ := probe_reached
    (reached_self history matchTable high i n) hm.length_le 6 hprobe
  rcases found with _ | _
  · rw [hmissed rfl]
    exact ih hchain hm hpos
  simp only
  by_cases hy : y ≠ i ∧ y ≠ 0
  swap
  · rw [if_neg hy]
    exact ⟨ml, mo, rfl, hm, hpos, le_rfl, iff_of_true nofun (hended rfl hy)⟩
  obtain ⟨hb0, hb1⟩ := bytes_of_word (hchain.2 hy.2)
  have hnext : OnChain history i (matchTable y) := by
    have := hstep y hchain
    rwa [set_of_ne _ hy.2] at this
  have hmatch := hchain.agreement_isMatch hy.1 hy.2 hi
  have hlen := findMatchLength_agreement hi hb0.symm hb1.symm
  obtain ⟨len, hn, -⟩ := findMatchLength_spec history (y + 2)
    (show i + 2 ≤ high from hi)
  rw [if_pos hy, hfound rfl hy, hlen, set_of_ne _ hy.2, if_neg (by omega)]
  have hle := hm.length_le
  generalize agreement history high i y = a at hmatch hlen
  by_cases hlong : (a : ℤ) > 16
  · -- the candidate is measured and dropped
    rw [if_pos hlong]
    refine ⟨ml, mo, rfl, hm, hpos, le_rfl, iff_of_false (fun h => ?_) (by omega)⟩
    have := h (y, (a : ℤ)) mem_cons_self
    omega
  have hmatch := hmatch (by omega)
  rw [if_neg hlong, and_iff_right (show a ≤ 16 by omega)]
  by_cases hlonger : (a : ℤ) > ml
  · rw [if_pos hlonger, Int.toNat_natCast, max_eq_right (by omega)]
    obtain ⟨ml', mo', hres, hm', hpos', hgrow, hiff⟩ := ih hnext hmatch (pos_of_ne_zero hy.2)
    refine ⟨ml', mo', hres, hm', hpos', by omega, ?_⟩
    rw [← hiff, forall_mem_cons, and_iff_right (by omega)]
  · rw [if_neg hlonger, max_eq_left (by omega)]
    obtain ⟨ml', mo', hres, hm', hpos', hgrow, hiff⟩ := ih hnext hm hpos
    refine ⟨ml', mo', hres, hm', hpos', hgrow, ?_⟩
    rw [← hiff, forall_mem_cons, and_iff_right (by omega)]

/-- Cell 0 of the chains is not used by them, so that the search leaves them as they were. -/
theorem Chained.set_zero (hc : Chained history hashTable matchTable cur filled) (j) :
    set (set matchTable 0 i) 0 0 j = matchTable j := by
  by_cases hj : j = 0
  · rw [hj]
    by_contra hne
    exact absurd (hc.next 0 (Ne.symm hne)).1 (Nat.not_lt_zero _)
  · rw [set_of_ne _ hj, set_of_ne _ hj]

/-- **The search** from a position with a chain. -/
theorem search_spec (hc : Chained history hashTable matchTable cur high) (hne : matchTable i ≠ 0) :
    ∃ ml mo, (search history matchTable high i).result = some (ml, mo) ∧
      IsMatch history high i ml mo ∧ 0 < mo ∧
      (∀ j, (search history matchTable high i).matchTable j = matchTable j) ∧
      ((∀ c ∈ (search history matchTable high i).measured, c.2 ≤ ml) ↔
        Short history high i (reached history matchTable high i 4 (matchTable i) 2)) := by
  obtain ⟨hlt, hin, hword⟩ := hc.next i hne
  have hfirst : OnChain history i (matchTable i) := ⟨le_of_lt hlt, fun _ => hword⟩
  have hmatch : IsMatch history high i 2 (matchTable i) :=
    hfirst.isMatch (ne_of_lt hlt) hne (n := 0) (by omega) (by omega) nofun
  obtain ⟨ml, mo, hres, hm, hpos, -, hiff⟩ := searchLoop_spec (fun x hx => hc.onChain hx)
    (show i + 2 ≤ high by omega) 4 hfirst hmatch (pos_of_ne_zero hne)
  unfold search
  simp only [if_neg hne]
  refine ⟨ml, mo, hres, hm, hpos, fun j => ?_, hiff⟩
  rw [hres]
  exact hc.set_zero j

end Search

/-! ## The searches of a sender -/

/-- **The contexts of a sender**: new ones, those that were reset, and those after a packet of a
size that `bulk_compress` does not send as it is. -/
inductive Sends : Context → Prop
  | new {ncrush : Context} (h : contextNew = some ncrush) : Sends ncrush
  | reset {ncrush : Context} (h : Sends ncrush) : Sends (contextReset ncrush false)
  | compress {ncrush : Context} (h : Sends ncrush) {src : List UInt8} (hmin : 50 < src.length)
      (hmax : src.length < 16384) : Sends (compress ncrush src 65536).context

theorem Sends.sync (h : Sends ncrush) : ∃ r, Sync ncrush r := by
  induction h with
  | new h =>
    obtain ⟨s, hs, hsync⟩ := sync_new
    rw [hs] at h
    cases h
    exact ⟨_, hsync⟩
  | @reset ncrush h ih =>
    obtain ⟨r, hsync⟩ := ih
    have hsize : ncrush.historyBufferSize = 65536 := hsync.elim Ready.size_eq Flushed.size_eq
    have htables : ncrush.tables = tables := hsync.elim Ready.tables_eq Flushed.tables_eq
    exact ⟨contextReset r false, Or.inl ⟨hsize, htables, chained_fill _,
      show 0 + 0 < 65529 by omega, hsync.end_eq, hsync.fence_eq, rfl, rfl, fun _ _ => rfl⟩⟩
  | compress h hmin hmax ih =>
  obtain ⟨r, hsync⟩ := ih
  exact ⟨_, (sync_step hsync hmin hmax).2.2.2⟩

/-- **The best match of a sender.**  For a position of the packet with a chain, the search returns
an earlier position with the same bytes, inside of the packet, and clears cell 0 of the chains.  The
match is at least as long as every candidate that was measured exactly if no position that the chain
leads to, within four rounds of six probes, agrees on more than 16 bytes of the packet. -/
theorem best_match_iff {ncrush s : Context} (hr : Sends ncrush) {src : List UInt8}
    (hmax : src.length < 16384) {front : ℕ} (hroom : makeRoom ncrush src.length = some (s, front))
    {i : ℕ} (hne : (addPacket s src).matchTable i ≠ 0) :
    ∃ ml mo, (search (addPacket s src).historyBuffer (addPacket s src).matchTable
        (addPacket s src).historyPtr i).result = some (ml, mo) ∧
      0 < mo ∧ mo < i ∧ i + ml ≤ (addPacket s src).historyPtr ∧
      (∀ k < ml, (addPacket s src).historyBuffer (mo + k) =
        (addPacket s src).historyBuffer (i + k)) ∧
      (search (addPacket s src).historyBuffer (addPacket s src).matchTable
        (addPacket s src).historyPtr i).matchTable 0 = 0 ∧
      ((∀ c ∈ (search (addPacket s src).historyBuffer (addPacket s src).matchTable
          (addPacket s src).historyPtr i).measured, c.2 ≤ ml) ↔
        ∀ x ∈ reached (addPacket s src).historyBuffer (addPacket s src).matchTable
          (addPacket s src).historyPtr i 4 ((addPacket s src).matchTable i) 2,
          agreement (addPacket s src).historyBuffer (addPacket s src).historyPtr i x ≤ 16) := by
  obtain ⟨r, hsync⟩ := hr.sync
  obtain ⟨s', front', r', hroom', -, -, hready⟩ := hsync.makeRoom hmax
  rw [hroom] at hroom'
  cases hroom'
  have hchained := hready.sendInv.chained
  obtain ⟨ml, mo, hres, hm, hpos, htable, hiff⟩ := search_spec hchained hne
  refine ⟨ml, mo, hres, hpos, hm.offset_lt, hm.inside, hm.same, ?_, hiff⟩
  refine (htable 0).trans ?_
  by_contra h0
  exact absurd (hchained.next 0 h0).1 (Nat.not_lt_zero _)

theorem makeRoom_new (hn : n < 65529) : makeRoom newContext n = some (newContext, 0) := by
  exact if_neg (not_le.mpr hn)

/-- Three bytes that come again. -/
theorem best_match_iff_repeat : ∃ src : List UInt8, ∃ ml mo,
    (search (addPacket newContext src).historyBuffer (addPacket newContext src).matchTable
      (addPacket newContext src).historyPtr 5).result = some (ml, mo) ∧ mo < 5 ∧
    ∀ c ∈ (search (addPacket newContext src).historyBuffer (addPacket newContext src).matchTable
      (addPacket newContext src).historyPtr 5).measured, c.2 ≤ ml := by
  obtain ⟨ml, mo, hres, -, hlt, -, -, -, hiff⟩ := best_match_iff (.new contextNew_eq)
    (show ([0, 1, 2, 3, 9, 1, 2, 3, 8] ++ (List.range' 10 45).map UInt8.ofNat).length <
      16384 by decide)
    (makeRoom_new (by decide)) (i := 5) (by decide +kernel)
  exact ⟨_, ml, mo, hres, hlt, hiff.mpr (by decide +kernel)⟩

/-- In a packet of equal bytes the candidate of 58 bytes is measured, and a match of 2 bytes is
returned. -/
theorem best_match_dropped : ∃ (ncrush s : Context) (src : List UInt8) (front i : ℕ),
    Sends ncrush ∧ 50 < src.length ∧ src.length < 16384 ∧
    makeRoom ncrush src.length = some (s, front) ∧ s.historyOffset ≤ i ∧
    i < (addPacket s src).historyPtr ∧ (addPacket s src).matchTable i ≠ 0 ∧
    (search (addPacket s src).historyBuffer (addPacket s src).matchTable
      (addPacket s src).historyPtr i).result = some (2, 1) ∧
    (1, 58) ∈ (search (addPacket s src).historyBuffer (addPacket s src).matchTable
      (addPacket s src).historyPtr i).measured := by
  refine ⟨newContext, newContext, replicate 60 65, 0, 2, .new contextNew_eq, by decide, by decide,
    makeRoom_new (by decide), ?_⟩
  decide +kernel

end WBFreeRDP.Ncrush

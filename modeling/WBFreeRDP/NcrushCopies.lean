/-
# The copies of the NCRUSH receiver

A token of offset `c` and length `l` stands for a copy byte by byte: every byte is what the history
holds `c` positions before it.  `ncrush_decompress` copies the first `min(l, c)` bytes and then
repeats them.
-/
import WBFreeRDP.NcrushRounds

namespace WBFreeRDP.Ncrush

open Bulk History LowBits Nat Option

/-! ## The copy byte by byte -/

/-- `l` bytes from position `p` on, each the one `c` positions before it, in a history of 65536. -/
def plainCopy (c : ℕ) : ℕ → Memory UInt8 → ℕ → Memory UInt8
  | 0, h, _ => h
  | l + 1, h, p => plainCopy c l (set h p (h (((p : ℤ) - c) % 65536).toNat)) (p + 1)

/-- Where the source does not pass the end of the history, the copy is one of cells. -/
theorem plainCopy_eq_copy (c l : ℕ) : ∀ {h : Memory UInt8} {p src : ℕ},
    (((p : ℤ) - c) % 65536).toNat = src → src + l ≤ 65536 → plainCopy c l h p = copy h p src l := by
  induction l with
  | zero => intro h p src _ _; rfl
  | succ l ih =>
  intro h p src hsrc hfits
  rw [plainCopy, hsrc]
  rcases Nat.eq_zero_or_pos l with rfl | hl
  · rfl
  · exact ih (by omega) (by omega)

/-! ## Copying by parts -/

theorem memory_ext {g h : Memory UInt8} (heq : ∀ j, g j = h j) : g = h :=
  congrArg Memory.mk (funext heq)

theorem copy_add (m n) : ∀ (h : Memory UInt8) (dst src : ℕ),
    copy h dst src (m + n) = copy (copy h dst src m) (dst + m) (src + m) n := by
  induction m with
  | zero => intro h dst src; rw [zero_add]; rfl
  | succ m ih =>
  intro h dst src
  rw [add_right_comm, copy, ih, add_right_comm dst, add_right_comm src]
  rfl

/-- **Repeating `d` bytes is copying.**  After `m` bytes of the repetition the stretch from `base`
on has period `d`, so that the byte `d` positions back is the one at the index of the repetition. -/
theorem copyCyclic_eq_copy (base : ℕ) (hd : 0 < d) (n : ℕ) :
    ∀ {h} {m index}, (if index ≥ d then 0 else index) = m % d →
      (∀ k < d + m, h (base + k) = h (base + k % d)) →
      copyCyclic base d n h (base + d + m) index = copy h (base + d + m) (base + m) n := by
  induction n with
  | zero => intro h m index _ _; rfl
  | succ n ih =>
  intro h m index hindex hperiod
  have hlt : m % d < d := mod_lt m hd
  have hsame := hperiod m (by omega)
  rw [copyCyclic]
  simp only [hindex]
  rw [← hsame]
  refine ih (m := m + 1) ?_ ?_
  · -- the index runs on, or starts again with the period
    rw [← mod_add_mod m d 1]
    split_ifs with hge
    · rw [show m % d + 1 = d by omega, mod_self]
    · exact (mod_eq_of_lt (not_le.mp hge)).symm
  intro k hk
  have hkd : k % d < d := mod_lt k hd
  rw [set_of_ne h (show base + k % d ≠ base + d + m by omega)]
  by_cases hlast : k = d + m
  · rw [hlast, ← add_assoc, set_self, add_mod_left]
    exact hsame
  · rw [set_of_ne h (show base + k ≠ base + d + m by omega)]
    exact hperiod k (by omega)

/-- **The code's copy is the copy byte by byte**, for every offset but zero. -/
theorem copyMatch_eq_plainCopy (h : Memory UInt8) {p c l : ℕ} (hpos : 0 < c) (hc : c < 65536)
    (hsrc : (((p : ℤ) - c) % 65536).toNat + l < 65535) (hdst : p + l < 65535) :
    (copyMatch h 65535 p c l).1 = plainCopy c l h p := by
  unfold copyMatch
  by_cases hle : c ≤ p
  · rw [plainCopy_eq_copy c l (show (((p : ℤ) - c) % 65536).toNat = p - c by omega) (by omega)]
    simp only [if_pos hle]
    by_cases hlong : l > c
    · -- the first `c` bytes, then the rest of the match repeats them
      obtain ⟨n, rfl⟩ : ∃ n, l = c + n := ⟨l - c, by omega⟩
      obtain ⟨base, rfl⟩ : ∃ base, p = base + c := ⟨p - c, by omega⟩
      simp only [if_pos hlong, Nat.add_sub_cancel, Nat.add_sub_cancel_left]
      rw [copy_add]
      refine copyCyclic_eq_copy (base + c) hpos n (m := 0) ?_ ?_
      · rw [if_neg (by omega), zero_mod]
      · intro k hk
        rw [mod_eq_of_lt (by omega)]
    · simp only [if_neg hlong]
      rw [show l - c = 0 by omega]
      rfl
  · -- the bound on the source leaves no room for the end of the history or for a repetition
    have hwrap := copySource_wrap (not_le.mp hle) hc
    rw [plainCopy_eq_copy c l hwrap (by omega)]
    simp only [if_neg hle]
    rw [if_neg (show ¬ l > c by omega), show l - c = 0 by omega,
      show 65535 - (c - p) + 1 = 65536 + p - c by omega,
      min_eq_left (show l ≤ 65535 + 1 - (65536 + p - c) by omega)]
    rfl

/-! ## Offset zero -/

theorem copyCyclic_zero (p l) : ∀ {h} {q index}, p ≤ q →
    ∀ j, copyCyclic p 0 l h q index j = if q ≤ j ∧ j < q + l then h p else h j := by
  induction l with
  | zero =>
    intro h q index _ j
    rw [if_neg (by omega)]
    rfl
  | succ l ih =>
  intro h q index hq j
  have hp : set h q (h p) p = h p := by
    by_cases heq : p = q
    · rw [heq, set_self]
    · rw [set_of_ne h heq]
  rw [copyCyclic]
  simp only [zero_le, if_true, add_zero]
  rw [ih (by omega), hp]
  by_cases hj : j = q
  · rw [if_neg (by omega), if_pos (by omega), hj, set_self]
  · rw [set_of_ne h hj]
    exact if_congr (by omega) rfl rfl

/-- **A token of offset zero** fills the history with the byte that the write index is at. -/
theorem copyMatch_zero (h : Memory UInt8) (p l j : ℕ) :
    (copyMatch h 65535 p 0 l).1 j = if p ≤ j ∧ j < p + l then h p else h j := by
  have hfirst : (if l > 0 then 0 else l) = 0 := by split_ifs <;> omega
  unfold copyMatch
  simp only [hfirst]
  exact copyCyclic_zero p l le_rfl j

/-- A copy byte by byte with offset zero leaves every cell as it is. -/
theorem plainCopy_zero (l) : ∀ {h} {p}, p + l ≤ 65536 → plainCopy 0 l h p = h := by
  induction l with
  | zero => intro h p _; rfl
  | succ l ih =>
  intro h p hp
  have hself : set h p (h p) = h := by
    unfold History.set
    rw [Function.update_eq_self]
  rw [plainCopy, show (((p : ℤ) - (0 : ℕ)) % 65536).toNat = p by omega, hself]
  exact ih (by omega)

/-- **A token is copied byte by byte** exactly if its offset is not zero or the cells that it fills
are alike. -/
theorem copyMatch_plain_iff {h : Memory UInt8} {p c l : ℕ} (hc : c < 65536)
    (hsrc : (((p : ℤ) - c) % 65536).toNat + l < 65535) (hdst : p + l < 65535) :
    (copyMatch h 65535 p c l).1 = plainCopy c l h p ↔ c ≠ 0 ∨ ∀ i < l, h (p + i) = h p := by
  rcases Nat.eq_zero_or_pos c with rfl | hpos
  swap
  · exact iff_of_true (copyMatch_eq_plainCopy h hpos hc hsrc hdst) (Or.inl (by omega))
  rw [plainCopy_zero l (by omega)]
  constructor
  · intro heq
    refine Or.inr fun i hi => ?_
    rw [← congrFun (congrArg Memory.cell heq) (p + i), copyMatch_zero, if_pos (by omega)]
  rintro (hne | halike)
  · exact absurd rfl hne
  apply memory_ext
  intro j
  rw [copyMatch_zero]
  split_ifs with hj
  · rw [← halike (j - p) (by omega), show p + (j - p) = j by omega]
  · rfl

/-! ## The copies of a receiver -/

variable {st st1 st' : Receiving}

theorem accepted_copy (htoken : copyToken st = some (c, l, st1))
    (hmore : decompressStep 65535 st = (.more, st')) :
    (((st.historyPtr : ℤ) - c) % 65536).toNat + l < 65535 ∧ st.historyPtr + l < 65535 ∧
      st'.historyBuffer = (copyMatch st.historyBuffer 65535 st.historyPtr c l).1 ∧
      st'.historyPtr = (copyMatch st.historyBuffer 65535 st.historyPtr c l).2 := by
  obtain ⟨hbuffer, hptr, -⟩ := copyToken_spec htoken
  rw [decompressStep_copyToken 65535 htoken] at hmore
  obtain ⟨status, -, hcopy⟩ | ⟨hsrc, hdst, -, hcopy⟩ := decompressCopy_cases st1 c l
  · rw [hcopy] at hmore
    cases hmore
  rw [hcopy] at hmore
  cases hmore
  rw [hptr] at hsrc hdst
  rw [hbuffer, hptr]
  exact ⟨hsrc, hdst, rfl, rfl⟩

/-- **The copies of a receiver.**  In every context and for every input a copy token that is
accepted appends as many bytes as it says, in front of the end of the history, and they are those of
the copy byte by byte exactly if the offset is not zero or the cells at the write index are
alike. -/
theorem copies_plain_iff {ncrush : Context} (hr : Reachable ncrush) {src : List UInt8} {flags : ℕ}
    {st st₁ st' : Receiving} {c l : ℕ} (hrun : Running ncrush src flags st)
    (htoken : copyToken st = some (c, l, st₁)) (hmore : decompressStep 65535 st = (.more, st')) :
    st'.historyPtr = st.historyPtr + l ∧ st.historyPtr + l < 65535 ∧
      (st'.historyBuffer = plainCopy c l st.historyBuffer st.historyPtr ↔
        c ≠ 0 ∨ ∀ i < l, st.historyBuffer (st.historyPtr + i) =
          st.historyBuffer st.historyPtr) := by
  obtain ⟨hc, -⟩ := copyToken_inRange htoken (hrun.inRange hr)
  obtain ⟨hsrc, hdst, hbuffer, hptr⟩ := accepted_copy htoken hmore
  refine ⟨?_, hdst, ?_⟩
  · rw [hptr, copyMatch_ptr hc hsrc]
  · rw [hbuffer]
    exact copyMatch_plain_iff hc hsrc hdst

/-- The byte `A`, repeated four times by a token of offset 1. -/
theorem copies_plain_iff_repeat : ∃ st st₁ st',
    Running newContext [227, 115, 249, 127, 1, 0] 0x22 st ∧ copyToken st = some (1, 5, st₁) ∧
      decompressStep 65535 st = (.more, st') ∧ st'.historyPtr = 6 ∧
      st'.historyBuffer = plainCopy 1 5 st.historyBuffer st.historyPtr := by
  -- the first round reads the literal
  have hfirst : (decompressStep 65535 (start newContext [227, 115, 249, 127, 1, 0])).1 = .more := by
    decide +kernel
  have hrounds := (rounds_succ (decompressStep_more hfirst)).trans (rounds_zero 65535)
  have hptr : (decompressStep 65535 (start newContext [227, 115, 249, 127, 1, 0])).2.historyPtr =
    1 :=
    by decide +kernel
  have htoken : (copyToken (decompressStep 65535 (start newContext
      [227, 115, 249, 127, 1, 0])).2).map (fun t => (t.1, t.2.1)) = some (1, 5) := by
    decide +kernel
  have hnext : (decompressStep 65535 (decompressStep 65535 (start newContext
      [227, 115, 249, 127, 1, 0])).2).1 = .more := by
    decide +kernel
  generalize (decompressStep 65535 (start newContext [227, 115, 249, 127, 1, 0])).2 = st
    at hrounds hptr htoken hnext
  obtain ⟨⟨c, l, st₁⟩, htoken, hval⟩ := map_eq_some_iff.mp htoken
  cases hval
  have hrun : Running newContext [227, 115, 249, 127, 1, 0] 0x22 st :=
    ⟨newContext, 1, rfl, opened_plain newContext, by decide, by decide, hrounds⟩
  obtain ⟨hlen, -, hplain⟩ := copies_plain_iff (.new contextNew_eq) hrun htoken
    (decompressStep_more hnext)
  refine ⟨st, st₁, _, hrun, htoken, decompressStep_more hnext, ?_, hplain.mpr (Or.inl one_ne_zero)⟩
  rw [hlen, hptr]

/-- After a packet that is refused, with `A` and `B` written already, a token of offset zero and
length 2 gives `A` and `A`, where a copy byte by byte leaves `A` and `B`. -/
theorem copies_not_plain : ∃ ncrush src flags st st₁ st', Reachable ncrush ∧
    Running ncrush src flags st ∧ copyToken st = some (0, 2, st₁) ∧
    decompressStep 65535 st = (.more, st') ∧
    st'.historyBuffer ≠ plainCopy 0 2 st.historyBuffer st.historyPtr := by
  have hrefused : (decompress newContext [227, 39, 252, 23, 255, 23] 0x22).status = -1006 ∧
      (decompress newContext [227, 39, 252, 23, 255, 23] 0x22).context.historyPtr = 0 ∧
      (decompress newContext [227, 39, 252, 23, 255, 23] 0x22).context.historyBuffer 0 = 65 ∧
      (decompress newContext [227, 39, 252, 23, 255, 23] 0x22).context.historyBuffer 1 = 66 := by
    decide +kernel
  have htoken : (copyToken (start (decompress newContext [227, 39, 252, 23, 255, 23] 0x22).context
      [255, 47, 254, 47])).map (fun t => (t.1, t.2.1)) = some (0, 2) := by
    decide +kernel
  have hreach : Reachable (decompress newContext [227, 39, 252, 23, 255, 23] 0x22).context :=
    .decompress (.new contextNew_eq) _ _
  generalize (decompress newContext [227, 39, 252, 23, 255, 23] 0x22).context = ncrush
    at hrefused htoken hreach
  obtain ⟨-, hptr, hA, hB⟩ := hrefused
  obtain ⟨⟨c, l, st₁⟩, htoken, hval⟩ := map_eq_some_iff.mp htoken
  simp only [Prod.mk.injEq] at hval
  obtain ⟨rfl, rfl⟩ := hval
  obtain ⟨-, hstart, -⟩ := copyToken_spec htoken
  have hmore : (decompressStep 65535 (start ncrush [255, 47, 254, 47])).1 = .more := by
    rw [decompressStep_copyToken 65535 htoken, decompressCopy, hstart]
    rw [if_neg (by omega), if_neg]
    change ¬ ((((ncrush.historyPtr : ℤ) - (0 : ℕ)) % 65536).toNat + 2 ≥ 65535 ∨
      ncrush.historyPtr + 2 ≥ 65535)
    rw [hptr]
    decide
  obtain ⟨-, -, hbuffer, -⟩ := accepted_copy htoken (decompressStep_more hmore)
  refine ⟨ncrush, [255, 47, 254, 47], 0x22, start ncrush [255, 47, 254, 47], st₁, _, hreach,
    ⟨ncrush, 0, hreach.inRange.1, opened_plain ncrush, by decide, by decide, rounds_zero _⟩,
    htoken, decompressStep_more hmore, fun heq => ?_⟩
  have hcell := congrFun (congrArg Memory.cell heq) 1
  rw [hbuffer, copyMatch_zero, plainCopy_zero 2 (by change ncrush.historyPtr + 2 ≤ 65536; omega)]
    at hcell
  change (if ncrush.historyPtr ≤ 1 ∧ 1 < ncrush.historyPtr + 2 then
    ncrush.historyBuffer ncrush.historyPtr else ncrush.historyBuffer 1) = ncrush.historyBuffer 1
    at hcell
  rw [hptr, hA, hB] at hcell
  exact absurd hcell (by decide)

/-! ## Receivers that refused no packet -/

/-- The contexts of a receiver that accepted every packet since it was new or was reset. -/
inductive Accepting : Context → Prop
  | new {ncrush : Context} (h : contextNew = some ncrush) : Accepting ncrush
  | reset {ncrush : Context} (h : Reachable ncrush) : Accepting (contextReset ncrush false)
  | decompress {ncrush : Context} (h : Accepting ncrush) (src : List UInt8) (flags : ℕ)
      (hstatus : (decompress ncrush src flags).status = 1) :
      Accepting (decompress ncrush src flags).context

theorem Accepting.reachable (h : Accepting ncrush) : Reachable ncrush := by
  induction h with
  | new h => exact .new h
  | reset h => exact .reset h
  | decompress _ src flags _ ih => exact ih.decompress src flags

/-- The cells from the write index on hold zeros. -/
def Unwritten (history : Memory UInt8) (historyPtr : ℕ) : Prop :=
  ∀ j, historyPtr ≤ j → j < 65536 → history j = 0

theorem plainCopy_above (c l) : ∀ h {p j}, p + l ≤ j → plainCopy c l h p j = h j := by
  induction l with
  | zero => intro h p j _; rfl
  | succ l ih =>
  intro h p j hj
  rw [plainCopy, ih _ (by omega), set_of_ne h (by omega)]

/-- A round leaves the cells behind the write index as they are. -/
theorem decompressStep_unwritten (hst : InRange st.historyPtr st.offsetCache)
    (h : Unwritten st.historyBuffer st.historyPtr) :
    Unwritten (decompressStep 65535 st).2.historyBuffer (decompressStep 65535 st).2.historyPtr := by
  rcases htoken : copyToken st with _ | token
  · obtain ⟨b, r, hroom, hstep⟩ | ⟨next, r, -, hstep⟩ := decompressStep_noToken 65535 htoken
    · rw [hstep]
      intro j (hj : st.historyPtr + 1 ≤ j) hlt
      exact (set_of_ne st.historyBuffer (by omega) b).trans (h j (by omega) hlt)
    · rw [hstep]
      exact h
  obtain ⟨c, l, st1⟩ := token
  obtain ⟨hc, -⟩ := copyToken_inRange htoken hst
  obtain ⟨hbuffer, hptr, -⟩ := copyToken_spec htoken
  rw [decompressStep_copyToken 65535 htoken]
  rw [← hbuffer, ← hptr] at h
  obtain ⟨status, -, hcopy⟩ | ⟨hsrc, hdst, -, hcopy⟩ := decompressCopy_cases st1 c l
  · rw [hcopy]
    exact h
  rw [hcopy]
  intro j hj hlt
  change (copyMatch st1.historyBuffer 65535 st1.historyPtr c l).2 ≤ j at hj
  rw [copyMatch_ptr hc hsrc] at hj
  -- the cells that the token fills are zeros, so that the copy is the one byte by byte
  rw [(copyMatch_plain_iff hc hsrc hdst).mpr, plainCopy_above c l _ hj]
  · exact h j (by omega) hlt
  · refine Or.inr fun i hi => ?_
    rw [h _ (by omega) (by omega), h _ le_rfl (by omega)]

theorem opened_unwritten
    (h : Unwritten ncrush.historyBuffer ncrush.historyPtr)
    (hopen : opened ncrush flags = some front) :
    Unwritten front.historyBuffer front.historyPtr := by
  have hflushed (n : Context) : Unwritten (flushed n).historyBuffer (flushed n).historyPtr :=
    fun j _ hlt => if_pos hlt
  unfold opened at hopen
  split_ifs at hopen <;> cases hopen
  · exact hflushed _
  · intro j (hj : 32768 ≤ j) hlt
    exact (if_neg (by omega)).trans (if_pos hlt)
  · exact hflushed _
  · exact h

/-- A round keeps the receiver inside of its history, with zeros behind the write index. -/
theorem decompressStep_clean
    (h : InRange st.historyPtr st.offsetCache ∧ Unwritten st.historyBuffer st.historyPtr) :
    InRange (decompressStep 65535 st).2.historyPtr (decompressStep 65535 st).2.offsetCache ∧
      Unwritten (decompressStep 65535 st).2.historyBuffer (decompressStep 65535 st).2.historyPtr :=
  ⟨decompressStep_inRange h.1, decompressStep_unwritten h.1 h.2⟩

/-- **A receiver that refused no packet** has zeros behind its write index. -/
theorem Accepting.unwritten (h : Accepting ncrush) :
    Unwritten ncrush.historyBuffer ncrush.historyPtr := by
  induction h with
  | new h =>
    obtain ⟨tables, -, rfl⟩ := map_eq_some_iff.mp h
    exact fun _ _ _ => rfl
  | reset h => exact fun _ _ _ => rfl
  | @decompress ncrush h src flags hstatus ih =>
  obtain ⟨hend, hrange⟩ := h.reachable.inRange
  revert hstatus
  unfold Ncrush.decompress
  rw [if_neg (not_not.mpr hend)]
  rcases hopen : opened ncrush flags with _ | front
  · exact fun _ => ih
  have hend' : front.historyEndOffset = 65535 := (opened_end hopen).trans hend
  have hfront := opened_unwritten ih hopen
  have hreceive : Unwritten (receive front src).2.historyBuffer
      (receive front src).2.historyPtr := by
    unfold receive
    rw [hend']
    exact (decompressLoop_invariant (P := fun st => InRange st.historyPtr st.offsetCache ∧
      Unwritten st.historyBuffer st.historyPtr) (fun st => decompressStep_clean) _
      ⟨opened_inRange hrange hopen, hfront⟩).2
  simp only
  split_ifs
  · exact fun _ => hfront
  · unfold received
    split_ifs with hfail hfence
    · intro (hstatus : (receive front src).1 = 1)
      omega
    · intro (hstatus : (-1007 : ℤ) = 1)
      exact absurd hstatus (by decide)
    · exact fun _ => hreceive
  · exact fun _ => hfront

/-- **While no packet is refused every token is copied byte by byte.** -/
theorem Accepting.plain (h : Accepting ncrush) {src : List UInt8}
    (hrun : Running ncrush src flags st)
    (htoken : copyToken st = some (c, l, st1)) (hmore : decompressStep 65535 st = (.more, st')) :
    st'.historyBuffer = plainCopy c l st.historyBuffer st.historyPtr := by
  obtain ⟨hsrc, hdst, hbuffer, -⟩ := accepted_copy htoken hmore
  obtain ⟨front, n, hend, hopen, -, -, hrounds⟩ := hrun
  have hrange := h.reachable.inRange.2
  rw [opened_end hopen, hend] at hrounds
  have hclean := rounds_invariant (P := fun st => InRange st.historyPtr st.offsetCache ∧
      Unwritten st.historyBuffer st.historyPtr)
    (fun st st' hmore hst => by
      have := decompressStep_clean hst
      rwa [hmore] at this)
    n hrounds ⟨opened_inRange hrange hopen, opened_unwritten h.unwritten hopen⟩
  obtain ⟨hc, -⟩ := copyToken_inRange htoken hclean.1
  rw [hbuffer, copyMatch_plain_iff hc hsrc hdst]
  refine Or.inr fun i hi => ?_
  rw [hclean.2 _ (by omega) (by omega), hclean.2 _ le_rfl (by omega)]

/-- The token of offset zero that a new receiver copies byte by byte. -/
theorem accepting_plain_zero : ∃ st st₁ st', Running newContext [255, 47, 254, 47] 0x22 st ∧
    copyToken st = some (0, 2, st₁) ∧ decompressStep 65535 st = (.more, st') ∧
    st'.historyBuffer = plainCopy 0 2 st.historyBuffer st.historyPtr := by
  have htoken : (copyToken (start newContext [255, 47, 254, 47])).map (fun t => (t.1, t.2.1)) =
      some (0, 2) := by
    decide +kernel
  have hmore : (decompressStep 65535 (start newContext [255, 47, 254, 47])).1 = .more := by
    decide +kernel
  obtain ⟨⟨c, l, st₁⟩, htoken, hval⟩ := map_eq_some_iff.mp htoken
  cases hval
  have hrun : Running newContext [255, 47, 254, 47] 0x22 (start newContext [255, 47, 254, 47]) :=
    ⟨newContext, 0, rfl, opened_plain newContext, by decide, by decide, rounds_zero _⟩
  exact ⟨_, st₁, _, hrun, htoken, decompressStep_more hmore,
    Accepting.plain (.new contextNew_eq) hrun htoken (decompressStep_more hmore)⟩

end WBFreeRDP.Ncrush

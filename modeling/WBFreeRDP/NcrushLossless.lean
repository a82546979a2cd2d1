/-
# NCRUSH loses nothing

The sender puts the packet into its history first, so what it writes can be said of that history
alone: a literal is the byte that stands there, a match is a stretch that stands there twice
(`Spelled`).
-/
import WBFreeRDP.NcrushChains
import WBFreeRDP.NcrushCode

namespace WBFreeRDP.Ncrush

open Bulk History LowBits List Nat

/-! ## Tokens of a history -/

/-- The tokens of the cells from the first index up to the second one, with the caches before and
after them. -/
inductive Spelled (g : Memory UInt8) : ℕ → Cache → List Token → ℕ → Cache → Prop
  | nil {i : ℕ} {c : Cache} : Spelled g i c [] i c
  | literal {i e : ℕ} {c c' : Cache} {ts : List Token} (hs : Spelled g (i + 1) c ts e c') :
      Spelled g i c (.literal (g i) :: ts) e c'
  | copy {i e : ℕ} {c c' : Cache} {ts : List Token} (copyOffset len : ℕ) (hpos : 0 < copyOffset)
      (hoff : copyOffset ≤ i) (h2 : 2 ≤ len) (hlen : len ≤ 16)
      (hsame : ∀ k < len, g (i - copyOffset + k) = g (i + k))
      (hs : Spelled g (i + len) (matchToken c copyOffset len).2 ts e c') :
      Spelled g i c ((matchToken c copyOffset len).1 :: ts) e c'

variable {g : Memory UInt8} {i : ℕ} {c' : Cache} {ts : List Token} {c : Cache}

theorem Spelled.le (h : Spelled g i c ts e c') : i ≤ e := by
  induction h with
  | nil => exact le_rfl
  | literal _ ih => omega
  | copy _ _ _ _ _ _ _ _ ih => omega

/-! ## The receiver -/

/-- A stretch that repeats what is `d` cells before it repeats its first `d` cells. -/
theorem periodic (hd : 0 < d)
    (h : ∀ k < n, g (i + k) = g (i + d + k)) : ∀ k < n, g (i + d + k) = g (i + k % d) := by
  intro k
  induction k using Nat.strong_induction_on with
  | _ k ih =>
  intro hk
  rw [← h k hk]
  by_cases hkd : k < d
  · rw [mod_eq_of_lt hkd]
  have := ih (k - d) (by omega) (by omega)
  rw [mod_eq_sub_mod (by omega), ← this]
  congr 1
  omega

theorem copyCyclic_agree (base) (hd : 0 < d) (n) :
    ∀ {h} {i} index, Agree i g h → base + d ≤ i → index ≤ d →
      (∀ k < n, g (i + k) = g (base + (index + k) % d)) →
      Agree (i + n) g (copyCyclic base d n h i index) := by
  induction n with
  | zero => intro h i index hag _ _ _; exact hag
  | succ n ih =>
  intro h i index hag hbase hindex hg
  have hwrap : (if index ≥ d then 0 else index) = index % d := by
    split_ifs with hge
    · rw [show index = d by omega, mod_self]
    · rw [mod_eq_of_lt (by omega)]
  have hlt : index % d < d := mod_lt _ hd
  have hfirst : h (base + index % d) = g i := by
    rw [← hag _ (by omega)]
    exact (hg 0 (succ_pos n)).symm
  rw [copyCyclic]
  simp only [hwrap, hfirst]
  rw [add_comm n, ← add_assoc]
  refine ih _ hag.succ (by omega) (by omega) fun k hk => ?_
  have hnext := hg (k + 1) (by omega)
  rw [show i + 1 + k = i + (k + 1) by omega, hnext]
  congr 2
  rw [add_assoc, mod_add_mod, add_comm 1]

/-- **Copying a match** rebuilds the cells. -/
theorem copyMatch_agree (historyEnd : ℕ)
    (hpos : 0 < copyOffset) (hoff : copyOffset ≤ i) (hag : Agree i g h)
    (hsame : ∀ k < len, g (i - copyOffset + k) = g (i + k)) :
    ∃ h', copyMatch h historyEnd i copyOffset len = (h', i + len) ∧ Agree (i + len) g h' := by
  unfold copyMatch
  simp only [if_pos hoff]
  by_cases hlong : len > copyOffset
  swap
  · simp only [if_neg hlong]
    rw [show len - copyOffset = 0 by omega]
    exact ⟨_, rfl, hag.copy len (by omega) hsame⟩
  simp only [if_pos hlong]
  have hfirst := hag.copy copyOffset (show i - copyOffset < i by omega)
    fun k hk => hsame k (by omega)
  -- behind the first copy the match repeats itself
  have hrep : ∀ k < len - copyOffset, g (i + copyOffset + k) = g (i + k % copyOffset) := by
    refine periodic hpos fun k hk => ?_
    have := hsame (copyOffset + k) (by omega)
    rwa [show i - copyOffset + (copyOffset + k) = i + k by omega, ← add_assoc] at this
  have hrest := copyCyclic_agree (i - copyOffset + copyOffset) hpos (len - copyOffset)
    0 hfirst (by omega) (by omega) fun k hk => by
      rw [hrep k hk, Nat.zero_add, Nat.sub_add_cancel hoff]
  refine ⟨_, Prod.ext rfl ?_, ?_⟩
  · omega
  · rwa [show i + copyOffset + (len - copyOffset) = i + len by omega] at hrest

/-- **The receiver's run.** Tokens of the sender's history are turned into its cells. -/
theorem decompressLoop_spelled
    (hs : Spelled g i c ts e c') (he : e < historyEnd) (hend : historyEnd ≤ 65535) :
    ∀ h r fuel, Agree i g h → r.Reads (ts.flatMap tokenFields ++ [endField]) → ts.length < fuel →
      ∃ h' r', decompressLoop historyEnd fuel ⟨h, i, c, r⟩ = (1, ⟨h', e, c', r'⟩) ∧
      Agree e g h' := by
  induction hs with
  | nil =>
    intro h r fuel hag hr hfuel
    obtain ⟨fuel, rfl⟩ := Nat.exists_eq_add_of_lt hfuel
    obtain ⟨r', hstep⟩ := decompressStep_end historyEnd ⟨h, _, _, r⟩ hr
    refine ⟨h, r', ?_, hag⟩
    rw [decompressLoop, hstep]
  | @literal i e c c' ts hs ih =>
    intro h r fuel hag hr hfuel
    have hle := hs.le
    rw [length_cons] at hfuel
    obtain ⟨fuel, rfl⟩ : ∃ n, fuel = n + 1 := ⟨fuel - 1, by omega⟩
    obtain ⟨r1, hr1, hstep⟩ := decompressStep_literal
      ⟨h, i, c, r⟩ (show i < historyEnd by omega) hr
    obtain ⟨h', r', hloop, hag'⟩ := ih he _ r1 fuel hag.succ hr1 (by omega)
    refine ⟨h', r', ?_, hag'⟩
    rw [decompressLoop, hstep]
    exact hloop
  | @copy i e c c' ts copyOffset len hpos hoff h2 hlen hsame hs ih =>
  intro h r fuel hag hr hfuel
  have hle := hs.le
  rw [length_cons] at hfuel
  obtain ⟨fuel, rfl⟩ : ∃ n, fuel = n + 1 := ⟨fuel - 1, by omega⟩
  rw [flatMap_cons, append_assoc] at hr
  obtain ⟨r1, hr1, hstep⟩ := decompressStep_match historyEnd
    ⟨h, i, c, r⟩ (by omega) h2 (by omega) hr
  obtain ⟨h1, hcopy, hag1⟩ := copyMatch_agree historyEnd hpos hoff hag hsame
  obtain ⟨h', r', hloop, hag'⟩ := ih he h1 r1 fuel hag1 hr1 (by omega)
  refine ⟨h', r', ?_, hag'⟩
  have hcopied : decompressCopy historyEnd ⟨h, i, (matchToken c copyOffset len).2, r1⟩ copyOffset
      len = (.more, ⟨h1, i + len, (matchToken c copyOffset len).2, r1⟩) := by
    unfold decompressCopy
    simp only [hcopy]
    rw [if_neg (by omega), if_neg (by omega)]
  rw [decompressLoop, hstep, hcopied]
  exact hloop

/-! ## The sender -/

/-- What `ncrush_compress` relies on. -/
structure Params.Ok (ps : Params) : Prop where
  high_lt : ps.high < 65529
  size_eq : ps.historyBufferSize = 65536
  tables_eq : ps.tables = Ncrush.tables

/-- What holds while `src` is left of the packet and the fields `w` are written. -/
structure SendInv (ps : Params) (hashTable : Memory ℕ) (st : Sending) (w : List Field)
    (src : List UInt8) : Prop where
  wrote : st.out.Wrote w
  chained : Chained ps.historyBuffer hashTable st.matchTable ps.high ps.high
  place : st.historyPtr + src.length = ps.high
  packet : read ps.historyBuffer st.historyPtr src.length = src

variable {hashTable : Memory ℕ} {st : Sending}

theorem Chained.searched (hc : Chained history hashTable st.matchTable cur filled) :
    Chained history hashTable st.searched cur filled := by
  unfold Sending.searched
  split_ifs with hne
  · refine ⟨hc.head, fun i hi => ?_⟩
    by_cases h0 : i = 0
    · rw [h0] at hi
      exact absurd rfl hi
    · rw [set_of_ne _ h0] at hi ⊢
      exact hc.next i hi
  · exact hc

variable {ps : Params} {w : List Field} {src : List UInt8}

/-- **What the sender chooses** is a literal or a match. -/
theorem chooseMatch_spec (hps : ps.Ok) (h : SendInv ps hashTable st w src) (hlen : 2 < src.length) :
    ∃ len copyOffset, chooseMatch ps st = .ok (len, copyOffset) ∧
      (len = 0 ∨ 2 ≤ len ∧ len ≤ 16 ∧ 0 < copyOffset ∧ copyOffset ≤ st.historyPtr ∧
        len ≤ src.length ∧ ∀ k < len,
          ps.historyBuffer (st.historyPtr - copyOffset + k) =
            ps.historyBuffer (st.historyPtr + k)) := by
  have hplace := h.place
  have hhigh := hps.high_lt
  unfold chooseMatch
  rw [if_neg (by omega), if_neg (by omega)]
  by_cases hne : st.matchTable st.historyPtr ≠ 0
  swap
  · rw [if_neg hne]
    exact ⟨0, 0, rfl, .inl rfl⟩
  obtain ⟨len, offset, hfind, hm⟩ := findBestMatch_spec h.chained hne (by omega)
  have hlt := hm.offset_lt
  have hback : (((st.historyPtr : ℤ) - offset) % ps.historyBufferSize).toNat =
      st.historyPtr - offset := by
    rw [hps.size_eq]
    omega
  rw [if_pos hne, hfind]
  simp only [hback]
  by_cases hfar : len = 2 ∧ st.historyPtr - offset ≥ 64
  · rw [if_pos hfar]
    exact ⟨0, _, rfl, .inl rfl⟩
  have hin := hm.inside
  rw [if_neg hfar]
  refine ⟨len, _, rfl, .inr ⟨hm.length_ge, hm.length_le, by omega, by omega, by omega, ?_⟩⟩
  rw [show st.historyPtr - (st.historyPtr - offset) = offset by omega]
  exact hm.same

theorem putLiteral_spelled (status) (h : SendInv ps hashTable st w (b :: src)) :
    b = ps.historyBuffer st.historyPtr ∧ (putLiteral ps status st b = .error .flush ∨
      ∃ st', putLiteral ps status st b = .ok st' ∧ st'.historyPtr = st.historyPtr + 1 ∧
        st'.offsetCache = st.offsetCache ∧
        SendInv ps hashTable st' (w ++ tokenFields (.literal b)) src) := by
  have hplace := h.place
  have hpacket := h.packet
  rw [length_cons] at hplace
  obtain ⟨hb, hrest⟩ := List.cons.inj hpacket
  have hbyte : b.toNat < 256 := b.toNat_lt
  refine ⟨hb.symm, ?_⟩
  unfold putLiteral
  by_cases hfull : st.out.dst.length + 2 > ps.dstEnd
  · rw [if_pos hfull]
    exact .inl rfl
  obtain ⟨out, hput, hwrote, -⟩ := putLEC_wrote h.wrote 15 status (by omega)
    (show b.toNat < 294 by omega)
  rw [if_neg hfull, hput]
  exact .inr ⟨_, rfl, rfl, rfl, hwrote, h.chained, by simp only; omega, hrest⟩

theorem read_drop {α : Type*} {g : Memory α} (n) : ∀ {i} {l},
    read g i l.length = l → read g (i + n) (l.drop n).length = l.drop n := by
  induction n with
  | zero => simp
  | succ n ih =>
  intro i l h
  rcases l with _ | ⟨a, l⟩
  · rfl
  have := ih (List.cons.inj h).2
  rwa [show i + (n + 1) = i + 1 + n by omega]

/-- **One round of the sender** writes a token of its history, or there is no room. -/
theorem compressStep_spelled (hps : ps.Ok)
    (h : SendInv ps hashTable st w src) (hlen : 2 < src.length) :
    compressStep ps st src = .error .flush ∨
    ∃ t st' src', compressStep ps st src = .ok (st', src') ∧
      src'.length < src.length ∧ SendInv ps hashTable st' (w ++ tokenFields t) src' ∧
      ∀ ts e c', Spelled ps.historyBuffer st'.historyPtr st'.offsetCache ts e c' →
        Spelled ps.historyBuffer st.historyPtr st.offsetCache (t :: ts) e c' := by
  obtain ⟨len, copyOffset, hchoose, hmatch⟩ := chooseMatch_spec hps h hlen
  have hplace := h.place
  have hhigh := hps.high_lt
  unfold compressStep
  rw [hchoose]
  rcases hmatch with rfl | ⟨h2, h16, hpos, hoff, hle, hsame⟩
  · obtain ⟨b, src, rfl⟩ := exists_cons_of_length_pos (show 0 < src.length by omega)
    have hsearched : SendInv ps hashTable { st with matchTable := st.searched } w (b :: src) :=
      ⟨h.wrote, h.chained.searched, h.place, h.packet⟩
    obtain ⟨hb, hput⟩ := putLiteral_spelled (-1006) hsearched
    rcases hput with hput | ⟨st', hput, hptr, hcache, hinv⟩
    · simp only [hput]
      exact .inl rfl
    simp only [hput]
    refine .inr ⟨.literal b, st', src, rfl, by simp, hinv, fun ts e c' hs => ?_⟩
    rw [hb]
    rw [hptr, hcache] at hs
    exact .literal hs
  obtain ⟨n, rfl⟩ : ∃ n, len = n + 1 := ⟨len - 1, by omega⟩
  simp only
  by_cases hfull : st.out.dst.length + 8 > ps.dstEnd
  · rw [if_pos hfull]
    exact .inl rfl
  obtain ⟨out, hput, hwrote, -⟩ := putMatch_wrote h.wrote st.offsetCache
    (show copyOffset < 65536 by omega) h2 (by omega)
  rw [if_neg hfull, hps.tables_eq, hput]
  refine .inr ⟨(matchToken st.offsetCache copyOffset (n + 1)).1, _, _, rfl, ?_,
    ⟨hwrote, h.chained.searched, ?_, read_drop (n + 1) h.packet⟩, fun ts e c' hs => ?_⟩
  · rw [length_drop]
    omega
  · simp only [length_drop]
    omega
  · exact .copy copyOffset (n + 1) hpos hoff h2 h16 hsame hs

/-- What the sender's loops come to: the tokens of the rest of the packet. -/
def Sent (ps : Params) (hashTable : Memory ℕ) (st : Sending) (w : List Field)
    (result : Except Stop Sending) : Prop :=
  result = .error .flush ∨ ∃ ts st', result = .ok st' ∧
    Spelled ps.historyBuffer st.historyPtr st.offsetCache ts ps.high st'.offsetCache ∧
    SendInv ps hashTable st' (w ++ ts.flatMap tokenFields) []

theorem Sent.cons {hashTable : Memory ℕ} (t)
    (hspelled : ∀ ts e c', Spelled ps.historyBuffer st1.historyPtr st1.offsetCache ts e c' →
      Spelled ps.historyBuffer st.historyPtr st.offsetCache (t :: ts) e c')
    (h : Sent ps hashTable st1 (w ++ tokenFields t) result) : Sent ps hashTable st w result := by
  rcases h with h | ⟨ts, st', hres, hs, hinv⟩
  · exact .inl h
  refine .inr ⟨t :: ts, st', hres, hspelled _ _ _ hs, ?_⟩
  rw [flatMap_cons, ← append_assoc]
  exact hinv

theorem compressTail_spelled (src) : ∀ {st} {w}, SendInv ps hashTable st w src →
      Sent ps hashTable st w (compressTail ps src st) := by
  induction src with
  | nil =>
    intro st w h
    have hplace := h.place
    rw [length_nil, add_zero] at hplace
    refine .inr ⟨[], st, rfl, ?_, by simpa using h⟩
    rw [hplace]
    exact .nil
  | cons b src ih =>
  intro st w h
  rw [compressTail]
  obtain ⟨hb, hput | ⟨st', hput, hptr, hcache, hinv⟩⟩ := putLiteral_spelled (-1014) h
  · rw [hput]
    exact .inl rfl
  rw [hput]
  refine Sent.cons (.literal b) (fun ts e c' hs => ?_) (ih hinv)
  rw [hb]
  rw [hptr, hcache] at hs
  exact .literal hs

/-- **The sender's run.** -/
theorem compressLoop_spelled (hps : ps.Ok) (fuel : ℕ) :
    ∀ {src} {st} {w}, SendInv ps hashTable st w src →
      Sent ps hashTable st w (compressLoop ps fuel src st) := by
  induction fuel with
  | zero => intro src st w h; exact compressTail_spelled src h
  | succ fuel ih =>
  intro src st w h
  rw [compressLoop]
  by_cases hlen : src.length > 2
  swap
  · rw [if_neg hlen]
    exact compressTail_spelled src h
  rw [if_pos hlen]
  rcases compressStep_spelled hps h hlen with hstep |
    ⟨t, st', src', hstep, -, hinv, hspelled⟩
  · rw [hstep]
    exact .inl rfl
  have hhigh := hps.high_lt
  have hplace := hinv.place
  rw [hstep]
  simp only [Except.bind]
  rw [if_neg (by omega)]
  exact Sent.cons t hspelled (ih hinv)

/-- **The encoded packet**: its bytes are the fields of its tokens and of the end of the stream, and
fewer than those of the packet. -/
theorem encode_spec (hps : ps.Ok) (h : SendInv ps hashTable st [] src) :
    encode ps src st = .error .flush ∨ ∃ ts st' data, encode ps src st = .ok (st', data) ∧
      Spelled ps.historyBuffer st.historyPtr st.offsetCache ts ps.high st'.offsetCache ∧
      st'.historyPtr = ps.high ∧ Chained ps.historyBuffer hashTable st'.matchTable ps.high ps.high ∧
      bytesNat data = fieldsNat (ts.flatMap tokenFields ++ [endField]) ∧
      fieldsWidth (ts.flatMap tokenFields ++ [endField]) ≤ 8 * data.length ∧
      data.length ≤ ps.dstEnd := by
  unfold encode
  rcases compressLoop_spelled hps src.length h with hloop | ⟨ts, st', hloop, hs, hinv⟩
  · rw [hloop]
    exact .inl rfl
  have hplace := hinv.place
  rw [hloop]
  simp only [Except.bind, compressEnd]
  by_cases hfull : st'.out.dst.length + 4 ≥ ps.dstEnd
  · rw [if_pos hfull]
    exact .inl rfl
  obtain ⟨out, hput, hwrote, hlen⟩ := putLEC_wrote hinv.wrote 15 (-1015) (by omega)
    (show 256 < 294 by omega)
  obtain ⟨hvalue, hwidth, hbytes⟩ := hwrote.finish
  rw [if_neg hfull, hput]
  exact .inr ⟨ts, st', out.finish, rfl, hs, hplace, hinv.chained, hvalue, hwidth, by omega⟩

/-! ## One packet -/

theorem matchToken_width (c) (hoff : copyOffset < 65536) (len) :
    5 ≤ fieldsWidth (tokenFields (matchToken c copyOffset len).1) := by
  unfold matchToken
  rcases hfind : c.find copyOffset with _ | index
  · have hclass := (copyOffsetClass_spec hoff).1
    change offsetClass copyOffset < 32 at hclass
    have := (codeLEC_spec (show 257 + offsetClass copyOffset < 294 by omega)).1
    simp only [tokenFields, fieldsWidth_cons]
    omega
  obtain ⟨hindex, -⟩ := Cache.find_spec hfind
  have := (codeLEC_spec (show 289 + index < 294 by omega)).1
  simp only [tokenFields, fieldsWidth_cons]
  omega

theorem Spelled.width (h : Spelled g i c ts e c') (he : e < 65536) :
    5 * ts.length ≤ fieldsWidth (ts.flatMap tokenFields) ∧ e ≤ i + 16 * ts.length := by
  induction h with
  | nil => simp
  | @literal i _ _ _ _ _ ih =>
    have hbyte : (g i).toNat < 256 := (g i).toNat_lt
    have := (codeLEC_spec (show (g i).toNat < 294 by omega)).1
    rw [flatMap_cons, fieldsWidth_append, length_cons, tokenFields, fieldsWidth_cons]
    omega
  | @copy i _ c _ _ copyOffset len hpos hoff h2 hlen _ hs ih =>
  have hle := hs.le
  have := matchToken_width c (show copyOffset < 65536 by omega) len
  rw [flatMap_cons, fieldsWidth_append, length_cons]
  omega

/-- The two contexts in front of a packet of `n` bytes: there is room for it, and as far as it is
filled the receiver's history is the sender's. -/
structure Ready (s r : Context) (n : ℕ) : Prop where
  size_eq : s.historyBufferSize = 65536
  tables_eq : s.tables = Ncrush.tables
  chained : Chained s.historyBuffer s.hashTable s.matchTable s.historyOffset s.historyOffset
  room : s.historyOffset + n < 65529
  end_eq : r.historyEndOffset = 65535
  fence_eq : r.historyBufferFence = 0xABABABAB
  ptr_eq : r.historyPtr = s.historyOffset
  cache_eq : r.offsetCache = s.offsetCache
  agree : Agree s.historyOffset s.historyBuffer r.historyBuffer

def paramsOf (s : Context) (src : List UInt8) : Params :=
  ⟨(addPacket s src).historyBuffer, (addPacket s src).historyPtr,
    (addPacket s src).historyBufferSize, src.length - 1, (addPacket s src).tables⟩

/-- The variables at the start of the sender's loops. -/
def sendingOf (s : Context) (src : List UInt8) : Sending :=
  ⟨(addPacket s src).offsetCache, (addPacket s src).matchTable, (addPacket s src).historyOffset,
    ⟨[], 0, 0⟩⟩

variable {s r : Context}

theorem Ready.params (h : Ready s r src.length) : (paramsOf s src).Ok :=
  ⟨h.room, h.size_eq, h.tables_eq⟩

theorem Ready.sendInv (h : Ready s r src.length) :
    SendInv (paramsOf s src) (addPacket s src).hashTable (sendingOf s src) [] src := by
  refine ⟨⟨rfl, rfl, Nat.one_pos, Nat.succ_pos _⟩, ?_, rfl, read_write src _ _⟩
  refine hashTableAdd_chained src (h.chained.extend ?_ (le_add_right _ _)) (read_write src _ _)
    le_rfl
  intro j hj
  exact (write_below src _ _ j hj).symm

/-- **The receiver's packet.** -/
theorem Ready.received (h : Ready s r src.length) (hlen : 50 < src.length)
    (hs : Spelled (paramsOf s src).historyBuffer s.historyOffset s.offsetCache ts
      (s.historyOffset + src.length) c')
    (hvalue : bytesNat data = fieldsNat (ts.flatMap tokenFields ++ [endField]))
    (hwidth : fieldsWidth (ts.flatMap tokenFields ++ [endField]) ≤ 8 * data.length) :
    4 ≤ data.length ∧ ∃ h', Ncrush.received r (receive r data) = ⟨1, src, { r with
        historyBuffer := h'
        offsetCache := c'
        historyPtr := s.historyOffset + src.length }⟩ ∧
      Agree (s.historyOffset + src.length) (paramsOf s src).historyBuffer h' := by
  have hroom := h.room
  obtain ⟨hbits, hcells⟩ := hs.width (by omega)
  have hend : 5 ≤ endField.2 := (codeLEC_spec (show 256 < 294 by omega)).1
  rw [fieldsWidth_append, fieldsWidth_cons] at hwidth
  have h4 : 4 ≤ data.length := by omega
  have hreads := reads_start h4 hvalue (by
    rw [fieldsWidth_append, fieldsWidth_cons]
    omega)
  have hag : Agree s.historyOffset (paramsOf s src).historyBuffer r.historyBuffer := by
    intro j hj
    rw [← h.agree j hj]
    exact write_below src _ _ j hj
  obtain ⟨h', r', hloop, hag'⟩ := decompressLoop_spelled hs
    (show _ < 65535 by omega) le_rfl
    r.historyBuffer _ (8 * data.length + 1) hag hreads (by omega)
  refine ⟨h4, h', ?_, hag'⟩
  have hread : History.read h' s.historyOffset src.length = src := by
    rw [← hag'.read_eq le_rfl]
    exact read_write src _ _
  unfold Ncrush.received receive
  rw [h.end_eq, h.ptr_eq, h.cache_eq, hloop]
  rw [if_neg (by omega), if_neg (not_not.mpr h.fence_eq), Nat.add_sub_cancel_left, hread]

/-! ## Sessions -/

/-- The sender has flushed and will say so with the next packet. -/
structure Flushed (s r : Context) : Prop where
  size_eq : s.historyBufferSize = 65536
  tables_eq : s.tables = Ncrush.tables
  hash_eq : s.hashTable = fill 0
  match_eq : s.matchTable = fill 0
  cache_eq : s.offsetCache = ⟨0, 0, 0, 0⟩
  offset_eq : s.historyOffset = 65537
  end_eq : r.historyEndOffset = 65535
  fence_eq : r.historyBufferFence = 0xABABABAB

def Sync (s r : Context) : Prop := Ready s r 0 ∨ Flushed s r

theorem Sync.end_eq (h : Sync s r) : r.historyEndOffset = 65535 :=
  h.elim Ready.end_eq Flushed.end_eq

theorem Sync.fence_eq (h : Sync s r) : r.historyBufferFence = 0xABABABAB :=
  h.elim Ready.fence_eq Flushed.fence_eq

theorem flags_tests : (hasFlag (packetCompressed ||| 2 ||| 0) packetAtFront = false ∧
      hasFlag (packetCompressed ||| 2 ||| 0) packetFlushed = false) ∧
    (hasFlag (packetCompressed ||| 2 ||| packetAtFront) packetAtFront = true ∧
      hasFlag (packetCompressed ||| 2 ||| packetAtFront) packetFlushed = false) ∧
    (hasFlag (packetCompressed ||| 2 ||| packetFlushed) packetAtFront = false ∧
      hasFlag (packetCompressed ||| 2 ||| packetFlushed) packetFlushed = true) ∧
    (hasFlag (packetFlushed ||| 2) packetAtFront = false ∧
      hasFlag (packetFlushed ||| 2) packetFlushed = true) := by
  decide

/-- **Making room** on one side and following the flags on the other. -/
theorem Sync.makeRoom (h : Sync s r) (hn : n < 16384) :
    ∃ s1 front r1, makeRoom s n = some (s1, front) ∧
      opened r (packetCompressed ||| 2 ||| front) = some r1 ∧
      hasFlag (packetCompressed ||| 2 ||| front) packetCompressed = true ∧ Ready s1 r1 n := by
  obtain ⟨⟨a1, a2⟩, ⟨b1, b2⟩, ⟨c1, c2⟩, -⟩ := flags_tests
  unfold Ncrush.makeRoom opened
  rcases h with h | h
  · have hroom := h.room
    have hptr := h.ptr_eq
    by_cases hfull : n + s.historyOffset ≥ 65529
    · -- the windows move
      rw [if_pos hfull, if_neg (by rw [h.size_eq]; omega), moveEncoderWindows, if_neg (by omega)]
      refine ⟨_, _, movedToFront r, rfl, ?_, by decide, ?_⟩
      · rw [if_neg (by omega)]
        simp [b1, b2]
      refine ⟨h.size_eq, h.tables_eq, h.chained.move (by omega), by simp only; omega, h.end_eq,
        h.fence_eq, rfl, h.cache_eq, ?_⟩
      intro j hj
      simp only at hj
      simp only [movedToFront, if_pos hj, hptr]
      exact h.agree _ (by omega)
    · rw [if_neg hfull]
      refine ⟨s, 0, r, rfl, ?_, by decide, ?_⟩
      · simp only [a1, a2, Bool.false_eq_true, if_false, false_and]
      · exact ⟨h.size_eq, h.tables_eq, h.chained, by omega, h.end_eq, h.fence_eq, h.ptr_eq,
          h.cache_eq, h.agree⟩
  · have hoff := h.offset_eq
    rw [if_pos (by omega), if_pos (by rw [h.size_eq]; omega)]
    refine ⟨_, _, flushed r, rfl, ?_, by decide, ?_⟩
    · simp [c1, c2]
    refine ⟨h.size_eq, h.tables_eq, ?_, by simp only; omega, h.end_eq, h.fence_eq, rfl,
      h.cache_eq.symm, fun j hj => absurd hj (not_lt_zero j)⟩
    rw [h.hash_eq, h.match_eq]
    exact chained_fill _

/-- A raw packet is delivered as it is and leaves the sender flushed. -/
theorem Ready.raw (h : Sync s r) (h1 : Ready s1 r1 n) (src) :
    (decompress r src (packetFlushed ||| 2)).status = 1 ∧
      (decompress r src (packetFlushed ||| 2)).data = src ∧
      Sync (contextReset (addPacket s1 src) true)
        (decompress r src (packetFlushed ||| 2)).context := by
  obtain ⟨-, -, -, d1, d2⟩ := flags_tests
  have hsize : (addPacket s1 src).historyBufferSize = 65536 := h1.size_eq
  have hdec : decompress r src (packetFlushed ||| 2) = ⟨1, src, flushed r⟩ := by
    have hraw : hasFlag (packetFlushed ||| 2) packetCompressed = false := by decide
    unfold decompress opened
    rw [if_neg (not_not.mpr h.end_eq)]
    simp [d1, d2, hraw]
  rw [hdec]
  refine ⟨rfl, rfl, .inr ⟨hsize, h1.tables_eq, rfl, rfl, rfl, ?_, h.end_eq, h.fence_eq⟩⟩
  change (addPacket s1 src).historyBufferSize + 1 = 65537
  rw [hsize]

/-- **Every packet keeps the contexts in step** and is delivered. -/
theorem sync_step (h : Sync s r) (hmin : 50 < src.length) (hmax : src.length < 16384) :
    (compress s src 65536).status = 1 ∧
      (decompress r (compress s src 65536).data (compress s src 65536).flags).status = 1 ∧
      (decompress r (compress s src 65536).data (compress s src 65536).flags).data = src ∧
      Sync (compress s src 65536).context
        (decompress r (compress s src 65536).data (compress s src 65536).flags).context := by
  obtain ⟨s1, front, r1, hmake, hopen, hflag, hready⟩ := h.makeRoom hmax
  have hcompress : compress s src 65536 =
      sent (addPacket s1 src) src front (encode (paramsOf s1 src) src (sendingOf s1 src)) := by
    unfold compress
    rw [hmake]
    simp only
    rw [if_neg (by omega)]
    rfl
  rw [hcompress]
  rcases encode_spec hready.params hready.sendInv with henc |
    ⟨ts, st', data, henc, hs, hptr, hchained, hvalue, hwidth, hlen⟩
  · rw [henc]
    exact ⟨rfl, Ready.raw h hready src⟩
  have hroom := hready.room
  have hhigh : (paramsOf s1 src).high = s1.historyOffset + src.length := rfl
  have hdst : (paramsOf s1 src).dstEnd = src.length - 1 := rfl
  have hsize : (addPacket s1 src).historyBufferSize = 65536 := hready.size_eq
  obtain ⟨h4, h', hrec, hag⟩ := hready.received hmin hs hvalue hwidth
  have hsent : sent (addPacket s1 src) src front (.ok (st', data)) =
      ⟨1, data, packetCompressed ||| 2 ||| front, { addPacket s1 src with
        offsetCache := st'.offsetCache
        matchTable := st'.matchTable
        historyOffset := st'.historyPtr }⟩ := by
    unfold sent
    simp only
    rw [if_neg (by omega), if_neg (by omega)]
  have hdec : decompress r data (packetCompressed ||| 2 ||| front) =
      Ncrush.received r1 (receive r1 data) := by
    unfold decompress
    rw [if_neg (not_not.mpr h.end_eq), hopen]
    simp only
    rw [if_neg (not_not.mpr hflag), if_neg (by omega)]
  rw [henc, hsent]
  simp only [hdec, hrec]
  refine ⟨trivial, trivial, trivial, .inl ⟨hsize, hready.tables_eq, ?_, ?_, hready.end_eq,
    hready.fence_eq, hptr.symm, rfl, ?_⟩⟩
  · simp only [hptr]
    exact hchained
  · simp only [hptr]
    omega
  · simp only [hptr]
    exact hag

theorem sync_new : ∃ ncrush, contextNew = some ncrush ∧ Sync ncrush ncrush := by
  unfold contextNew
  rw [generateTables_eq]
  refine ⟨_, rfl, .inl ⟨rfl, rfl, chained_fill _, ?_, rfl, rfl, rfl, rfl, fun _ _ => rfl⟩⟩
  change 0 + 0 < 65529
  omega

/-- **NCRUSH loses nothing.** A context can be created, and in a session of packets of the sizes the
callers produce, with output buffers of 65536 bytes, every call returns 1 and every packet is
received as it was sent. -/
theorem ncrush_session_lossless (packets : List (List UInt8))
    (hsize : ∀ p ∈ packets, 50 < p.length ∧ p.length < 16384) :
    ∃ ncrush, contextNew = some ncrush ∧
      session (fun s p => compress s p 65536) decompress ncrush ncrush packets =
        packets.map fun p => ⟨1, 1, p⟩ := by
  obtain ⟨ncrush, hnew, hsync⟩ := sync_new
  refine ⟨ncrush, hnew, ?_⟩
  refine session_lossless (fun p => p) Sync (fun p => 50 < p.length ∧ p.length < 16384) ?_ packets
    ncrush ncrush hsync hsize
  intro s r p hsr hp
  exact sync_step hsr hp.1 hp.2

/-- Two packets, the second of which repeats the first. -/
theorem ncrush_session_lossless_repeat : ∃ ncrush, contextNew = some ncrush ∧
    session (fun s p => compress s p 65536) decompress ncrush ncrush
      (List.replicate 2 (List.replicate 60 65)) =
      (List.replicate 2 (List.replicate 60 65)).map fun p => ⟨1, 1, p⟩ :=
  ncrush_session_lossless _ fun p hp => by
    rw [eq_of_mem_replicate hp]
    decide

end WBFreeRDP.Ncrush

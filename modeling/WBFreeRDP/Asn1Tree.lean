/-
# The ASN.1 encoder writes the tree

The chunks of the encoder are related to the tree under construction.
-/
import WBFreeRDP.Asn1Encoder
import Mathlib.Tactic.Zify

namespace WBFreeRDP.Asn1

open List Nat Option

open History (Memory)
open Tlv (Element Builder lengthOctets encodeAll tagged wrapBytes wrap)

/-! ## Lengths and tags -/

variable {n : ℕ}

/-- `asn1WriteLen` writes the length in the fewest octets, and `lenBytes` is their number. -/
theorem asn1WriteLen_eq (h : n < 2 ^ 32) :
    asn1WriteLen n = some (lengthOctets n) ∧ lenBytes n = (lengthOctets n).length ∧
    lenBytes n ≤ 5 := by
  rw [asn1WriteLen, lenBytes]
  by_cases h7 : n < 128
  · rw [if_pos h7, if_pos h7, lengthOctets, if_pos h7]
    exact ⟨rfl, rfl, by omega⟩
  rw [if_neg h7, if_neg h7]
  by_cases h8 : n < 2 ^ 8
  · rw [if_pos h8, if_pos h8, Tlv.lengthOctets_eq 0 h7 (by omega) (by omega)]
    exact ⟨rfl, rfl, by omega⟩
  rw [if_neg h8, if_neg h8]
  by_cases h16 : n < 2 ^ 16
  · rw [if_pos h16, if_pos h16, Tlv.lengthOctets_eq 1 h7 (by omega) (by omega)]
    exact ⟨rfl, rfl, by omega⟩
  rw [if_neg h16, if_neg h16]
  by_cases h24 : n < 2 ^ 24
  · rw [if_pos h24, if_pos h24, Tlv.lengthOctets_eq 2 h7 (by omega) (by omega)]
    exact ⟨rfl, rfl, by omega⟩
  rw [if_neg h24, if_neg h24, if_pos (by omega), Tlv.lengthOctets_eq 3 h7 (by omega) (by omega)]
  exact ⟨rfl, rfl, le_refl 5⟩

theorem header_eq (tag) (h : n < 2 ^ 32) : header tag n = some (tag :: lengthOctets n) := by
  rw [header, (asn1WriteLen_eq h).1]
  rfl

theorem length_tagged (tag) (h : content.length < 2 ^ 32) :
    (tagged tag content).length = 1 + lenBytes content.length + content.length := by
  rw [tagged, length_append, length_cons, (asn1WriteLen_eq h).2.1]
  omega

theorem length_lt_tagged (tag content) : content.length < (tagged tag content).length := by
  rw [tagged, length_append, length_cons]
  omega

variable {tagId : UInt8}

/-- The source sets the bits of the class and of the number, which do not overlap. -/
theorem or_tagId (h : tagId ≤ 30) :
    0xA0 ||| tagId = contextTag tagId ∧ 0x60 ||| tagId = appTag tagId ∧ tagId < 64 := by
  have hall : ∀ n : Fin 31, 0xA0 ||| UInt8.ofNat n = contextTag (UInt8.ofNat n) ∧
      0x60 ||| UInt8.ofNat n = appTag (UInt8.ofNat n) ∧ UInt8.ofNat n < 64 := by decide
  have hlt : tagId.toNat < 31 := lt_succ_of_le (UInt8.le_iff_toNat_le.mp h)
  have htag := hall ⟨tagId.toNat, hlt⟩
  rwa [UInt8.ofNat_toNat] at htag

theorem length_integerContent (value) : 1 + (integerContent value).length = asn1IntegerLen value ∧
      lengthOctets (integerContent value).length ++ integerContent value = integerLike value := by
  have h7 : (value ≤ 127 ∧ value ≥ -128) ↔ -2 ^ 7 ≤ value.toInt ∧ value.toInt < 2 ^ 7 := by
    rw [ge_iff_le, Int32.le_iff_toInt_le, Int32.le_iff_toInt_le]
    show value.toInt ≤ 127 ∧ -128 ≤ value.toInt ↔ _
    omega
  have h15 : (value ≤ 32767 ∧ value ≥ -32768) ↔ -2 ^ 15 ≤ value.toInt ∧ value.toInt < 2 ^ 15 := by
    rw [ge_iff_le, Int32.le_iff_toInt_le, Int32.le_iff_toInt_le]
    show value.toInt ≤ 32767 ∧ -32768 ≤ value.toInt ↔ _
    omega
  simp only [integerLike, integerContent, asn1IntegerLen, h7, h15]
  by_cases h : -2 ^ 7 ≤ value.toInt ∧ value.toInt < 2 ^ 7
  · simp only [if_pos h, integerBytes, beBytes_length]
    exact ⟨trivial, rfl⟩
  simp only [if_neg h]
  by_cases h' : -2 ^ 15 ≤ value.toInt ∧ value.toInt < 2 ^ 15
  · simp only [if_pos h', integerBytes, beBytes_length]
    exact ⟨trivial, rfl⟩
  · simp only [if_neg h', integerBytes, beBytes_length]
    exact ⟨trivial, rfl⟩

/-- The number that octets stand for in two's complement. -/
def signedValue (octets : List UInt8) : ℤ :=
  if 2 * beNat octets < 256 ^ octets.length then beNat octets
  else beNat octets - 256 ^ octets.length

/-- The low bytes of an integer that fits them stand for it. -/
theorem signedValue_integerBytes (w : ℕ) (value : Int32)
    (h : -256 ^ w ≤ 2 * value.toInt ∧ 2 * value.toInt < 256 ^ w) :
    signedValue (integerBytes w value) = value.toInt := by
  have hpos : (0 : ℤ) < 256 ^ w := Int.pow_pos (by decide)
  have hlow := Int.emod_nonneg value.toInt hpos.ne'
  have hhigh := Int.emod_lt_of_pos value.toInt hpos
  have hnat : ((value.toInt % 256 ^ w).toNat : ℤ) = value.toInt % 256 ^ w :=
    Int.toNat_of_nonneg hlow
  have hbe : beNat (integerBytes w value) = (value.toInt % 256 ^ w).toNat := by
    rw [integerBytes, beNat, beBytes, reverse_reverse]
    refine leNat_leBytes ?_
    zify
    rwa [hnat]
  have hlen : (integerBytes w value).length = w := beBytes_length _ _
  rw [signedValue, hbe, hlen, hnat]
  rcases lt_or_ge value.toInt 0 with hneg | hge
  · have hmod : value.toInt % 256 ^ w = value.toInt + 256 ^ w := by
      rw [← Int.add_emod_right, Int.emod_eq_of_lt (by omega) (by omega)]
    rw [if_neg (by zify; rw [hnat, hmod]; omega), hmod]
    omega
  · have hmod : value.toInt % 256 ^ w = value.toInt := Int.emod_eq_of_lt hge (by omega)
    rw [if_pos (by zify; rw [hnat, hmod]; omega), hmod]

/-- **The content of an integer stands for it.** -/
theorem signedValue_integerContent (value : Int32) :
    signedValue (integerContent value) = value.toInt := by
  unfold integerContent
  split_ifs with h h'
  · exact signedValue_integerBytes 1 value (by omega)
  · exact signedValue_integerBytes 2 value (by omega)
  · have hlow := value.le_toInt
    have hhigh := value.toInt_lt
    exact signedValue_integerBytes 4 value (by omega)

/-! ## Tables -/

namespace Table

variable {α : Type*}

theorem used_put {t : Table α} (h : t.free < t.slots.length) (a) :
    (t.put a).used = t.used ++ [a] := by
  rw [put, used, take_add_one, take_set_of_le (le_refl _), List.getElem?_set_self h]
  rfl

theorem used_replace (t : Table α) (i) (a) : (t.replace i a).used = t.used.set i a := take_set

theorem length_used {t : Table α} (h : t.free ≤ t.slots.length) : t.used.length = t.free :=
  length_take_of_le h

theorem getElem?_slots {t : Table α} (h : t.free ≤ t.slots.length)
    (hu : t.used = l ++ a :: r) : t.slots[l.length]? = some a ∧ l.length < t.free := by
  have hlt : l.length < t.free := by
    rw [← length_used h, hu, length_append, length_cons]
    omega
  have hget : t.used[l.length]? = some a := by
    rw [hu, List.getElem?_append_right (le_refl _), Nat.sub_self, List.getElem?_cons_zero]
  rw [used, List.getElem?_take_of_lt hlt] at hget
  exact ⟨hget, hlt⟩

end Table

/-! ## The layout of the pool -/

/-- The chunks lie one behind the other in the pool, from `lo` on, and the last one ends at `hi`. -/
def Laid : ℕ → List Chunk → ℕ → Prop
  | lo, [], hi => lo = hi
  | lo, c :: cs, hi =>
      lo ≤ c.poolOffset ∧ c.used ≤ c.capacity ∧ Laid (c.poolOffset + c.capacity) cs hi

variable {cs : List Chunk}

theorem Laid.le (h : Laid lo cs hi) : lo ≤ hi := by
  induction cs generalizing lo with
  | nil => exact le_of_eq h
  | cons c cs ih =>
  have := ih h.2.2
  have := h.1
  omega

theorem laid_append : Laid lo (l ++ r) hi ↔ ∃ mid, Laid lo l mid ∧ Laid mid r hi := by
  induction l generalizing lo with
  | nil =>
    constructor
    · intro h
      exact ⟨lo, rfl, h⟩
    · rintro ⟨mid, rfl, h⟩
      exact h
  | cons c l ih =>
  constructor
  · rintro ⟨hlo, hused, h⟩
    obtain ⟨mid, hl, hr⟩ := ih.mp h
    exact ⟨mid, ⟨hlo, hused, hl⟩, hr⟩
  · rintro ⟨mid, ⟨hlo, hused, hl⟩, hr⟩
    exact ⟨hlo, hused, ih.mpr ⟨mid, hl, hr⟩⟩

variable {c : Chunk}

theorem Laid.mem (h : Laid lo cs hi) (hc : c ∈ cs) :
    lo ≤ c.poolOffset ∧ c.poolOffset + c.used ≤ hi := by
  obtain ⟨l, r, rfl⟩ := append_of_mem hc
  obtain ⟨mid, hl, hlo, hused, hr⟩ := laid_append.mp h
  have h1 := hl.le
  have h2 := hr.le
  omega

variable {pool : Memory UInt8}

theorem Chunk.bytes_write (h : c.poolOffset + c.used ≤ dest ∨ dest + data.length ≤ c.poolOffset) :
    c.bytes (History.write pool dest data) = c.bytes pool :=
  History.read_write_of_disjoint pool c.poolOffset c.used dest data h

/-! ## Chunks and trees -/

/-- Chunks in use that hold these bytes. -/
structure Seg (pool : Memory UInt8) (cs : List Chunk) (bytes : List UInt8) : Prop where
  committed : ∀ c ∈ cs, c.capacity = c.used
  bytes_eq : cs.flatMap (Chunk.bytes pool) = bytes

theorem Seg.sum_used (h : Seg pool cs bytes) : (cs.map Chunk.used).sum = bytes.length := by
  rw [← h.bytes_eq]
  simp [Chunk.bytes]

theorem Seg.append (h : Seg pool cs a) (h' : Seg pool ds b) : Seg pool (cs ++ ds) (a ++ b) where
  committed c hc := (mem_append.mp hc).elim (h.committed c) (h'.committed c)
  bytes_eq := by rw [flatMap_append, h.bytes_eq, h'.bytes_eq]

theorem Seg.frame (h : Seg pool cs bytes) (heq : ∀ c ∈ cs, c.bytes pool' = c.bytes pool) :
    Seg pool' cs bytes where
  committed := h.committed
  bytes_eq := (flatMap_congr heq).trans h.bytes_eq

/-- The tags that a container puts around its content. -/
def Container.tags (c : Container) : List UInt8 :=
  (if c.contextual then [0xA0 ||| c.tag] else []) ++ c.containerByte.toList

/-- **The chunks of a tree under construction.**  Those of the complete trees come first; then, for
every open container from the outside in, its reservation and those of its trees. -/
inductive Holds (pool : Memory UInt8) :
    List Chunk → List Container → List Element → List (List UInt8 × List Element) → Prop
  | bottom (cs : List Chunk) (ts : List Element) :
      Seg pool cs (encodeAll ts) → Holds pool cs [] ts []
  | push (cs : List Chunk) (conts : List Container) (ts : List Element)
      (levels : List (List UInt8 × List Element)) (reserved : Chunk) (cont : Container)
      (us : List Element) (seg : List Chunk) : Holds pool cs conts ts levels → reserved.used = 0 →
      reserved.capacity = 6 * cont.tags.length → cont.tags ≠ [] →
      cont.headerChunkId = cs.length → Seg pool seg (encodeAll us) →
      Holds pool (cs ++ reserved :: seg) (conts ++ [cont]) ts ((cont.tags, us) :: levels)

theorem Holds.frame (h : Holds pool cs conts ts levels)
    (heq : ∀ c ∈ cs, c.bytes pool' = c.bytes pool) : Holds pool' cs conts ts levels := by
  induction h with
  | bottom cs ts hseg => exact .bottom cs ts (hseg.frame heq)
  | push cs conts ts levels reserved cont us seg _ hused hcap hne hid hseg ih =>
  refine .push cs conts ts levels reserved cont us seg (ih ?_) hused hcap hne hid
    (hseg.frame ?_)
  · intro c hc
    exact heq c (mem_append_left _ hc)
  · intro c hc
    exact heq c (mem_append_right _ (mem_cons_of_mem _ hc))

variable {b : Builder}

/-- Chunks behind all others belong to the innermost container. -/
theorem Holds.append (h : Holds pool cs conts b.complete b.opened)
    (hseg : Seg pool seg (encodeAll us)) :
    Holds pool (cs ++ seg) conts (b.add us).complete (b.add us).opened := by
  rcases b with ⟨ts, levels⟩
  cases h with
  | bottom _ _ hbase =>
    refine .bottom (cs ++ seg) (ts ++ us) ?_
    rw [Tlv.encodeAll_append]
    exact hbase.append hseg
  | push cs conts _ levels reserved cont us' seg' hlow hused hcap hne hid hseg' =>
  rw [append_assoc]
  refine .push cs conts ts levels reserved cont (us' ++ us) (seg' ++ seg) hlow hused hcap hne hid
    ?_
  rw [Tlv.encodeAll_append]
  exact hseg'.append hseg

/-! ## Writes -/

/-- What a write of `n` bytes does to the chunks: the last one is expanded, or there is a new
one. -/
inductive Commits (position n : ℕ) : List Chunk → List Chunk → Prop
  | expand (l : List Chunk) (c : Chunk) : c.capacity = c.used → c.capacity ≠ 0 →
      c.poolOffset + c.capacity = position →
      Commits position n (l ++ [c])
        (l ++ [{ c with capacity := c.capacity + n, used := c.used + n }])
  | new (cs : List Chunk) : Commits position n cs (cs ++ [⟨position, n, n⟩])

theorem Laid.commits (h : Laid lo cs position)
    (hc : Commits position n cs cs') : Laid lo cs' (position + n) := by
  cases hc with
  | expand l c hused _ hend =>
    obtain ⟨mid, hl, hlo, _, _⟩ := laid_append.mp h
    refine laid_append.mpr ⟨mid, hl, hlo, ?_, ?_⟩
    · show c.used + n ≤ c.capacity + n
      omega
    · show c.poolOffset + (c.capacity + n) = position + n
      omega
  | new => exact laid_append.mpr ⟨position, h, le_refl _, le_refl _, rfl⟩

theorem seg_write (pool position data) :
    Seg (History.write pool position data) [⟨position, data.length, data.length⟩] data where
  committed c hc := by
    rw [mem_singleton] at hc
    rw [hc]
  bytes_eq := by
    rw [flatMap_singleton, Chunk.bytes, History.read_write]

theorem Seg.expand (h : Seg pool (l ++ [c]) bytes)
    (hframe : ∀ c' ∈ l ++ [c], c'.bytes (History.write pool position data) = c'.bytes pool)
    (hend : c.poolOffset + c.capacity = position) :
    Seg (History.write pool position data)
      (l ++ [{ c with capacity := c.capacity + data.length, used := c.used + data.length }])
      (bytes ++ data) where
  committed c' hc' := by
    rcases mem_append.mp hc' with hl | hlast
    · exact h.committed c' (mem_append_left _ hl)
    · rw [mem_singleton] at hlast
      rw [hlast, h.committed c mem_concat_self]
  bytes_eq := by
    have hused := h.committed c mem_concat_self
    have hold := (h.frame hframe).bytes_eq
    rw [flatMap_append, flatMap_singleton] at hold ⊢
    rw [← hold, append_assoc]
    refine congrArg _ ?_
    rw [Chunk.bytes, History.read_add, ← hused, hend, History.read_write, Chunk.bytes, hused]

variable {t : Element}

theorem Holds.commits (h : Holds pool cs conts b.complete b.opened)
    (hlaid : Laid lo cs position) (hc : Commits position t.encode.length cs cs') :
    Holds (History.write pool position t.encode) cs' conts (b.add [t]).complete
      (b.add [t]).opened := by
  have hframe : ∀ c ∈ cs, c.bytes (History.write pool position t.encode) = c.bytes pool := by
    intro c hmem
    exact Chunk.bytes_write (Or.inl (hlaid.mem hmem).2)
  have ht : encodeAll [t] = t.encode := Tlv.encodeAll_singleton t
  cases hc with
  | new =>
    refine (h.frame hframe).append ?_
    rw [ht]
    exact seg_write pool position t.encode
  | expand l c hused hne hend =>
  rcases b with ⟨ts, levels⟩
  generalize hcs : l ++ [c] = cs at h hframe
  cases h with
  | bottom _ _ hbase =>
    subst hcs
    refine .bottom _ (ts ++ [t]) ?_
    rw [Tlv.encodeAll_append, ht]
    exact hbase.expand hframe hend
  | push cs conts _ levels reserved cont us seg hlow hzero hcap htags hid hseg =>
  -- the last chunk is not the reservation, of which nothing is used
  rcases eq_nil_or_concat seg with rfl | ⟨seg, c', rfl⟩
  · obtain ⟨_, rfl⟩ := append_inj' hcs rfl |>.imp_right singleton_inj.mp
    omega
  simp only [concat_eq_append] at hcs hseg hframe
  rw [← cons_append, ← append_assoc] at hcs
  obtain ⟨rfl, rfl⟩ := append_inj' hcs rfl |>.imp_right singleton_inj.mp
  rw [append_assoc]
  refine .push cs conts ts levels reserved cont (us ++ [t]) _ (hlow.frame ?_) hzero hcap
    htags hid ?_
  · intro c' hc'
    exact hframe c' (mem_append_left _ hc')
  rw [Tlv.encodeAll_append, ht]
  refine hseg.expand ?_ hend
  intro c' hc'
  exact hframe c' (mem_append_right _ (mem_cons_of_mem _ hc'))

/-! ## The invariant -/

/-- The tables are within their slots, and the first chunk is clear before it is in use. -/
structure Encoder.TablesOk (enc : Encoder) : Prop where
  chunks_le : enc.chunks.free ≤ enc.chunks.slots.length
  containers_le : enc.containers.free ≤ enc.containers.slots.length
  first : enc.chunks.free = 0 → ∀ c, enc.chunks.slots[0]? = some c → c.capacity = 0

/-- **The invariant of a run.**  The chunks in use lie in the pool from `start` on and hold the
trees under construction. -/
structure Inv (start : ℕ) (enc : Encoder) (b : Builder) : Prop where
  tables : enc.TablesOk
  laid : Laid start enc.chunks.used enc.position
  holds : Holds enc.pool enc.chunks.used enc.containers.used b.complete b.opened

variable (heap : Heap) {enc : Encoder}

theorem growChunks_spec (h : enc.TablesOk) : ∃ slots static, enc.growChunks heap =
        { enc with chunks := ⟨slots, enc.chunks.free⟩, staticChunks := static } ∧
      enc.chunks.free < slots.length ∧ slots.take enc.chunks.free = enc.chunks.used := by
  unfold Encoder.growChunks
  by_cases hfull : enc.chunks.Full
  · rw [if_pos hfull]
    refine ⟨_, false, rfl, ?_, take_append_of_le_length h.chunks_le⟩
    have hfree : enc.chunks.free = enc.chunks.slots.length := hfull
    split <;> simp <;> omega
  · rw [if_neg hfull]
    exact ⟨enc.chunks.slots, enc.staticChunks, rfl, lt_of_le_of_ne h.chunks_le hfull, rfl⟩

theorem getFreeChunk_new (h : enc.TablesOk) (hn : n ≠ 0) (commit : Bool)
    (hexp : (if commit then enc.expandable else none) = none) :
    ∃ enc', getFreeChunk heap enc n commit = some (enc.chunks.free, enc') ∧ enc'.pool = enc.pool ∧
      enc'.position = enc.position + n ∧ enc'.containers = enc.containers ∧ enc'.TablesOk ∧
      enc'.chunks.used = enc.chunks.used ++ [⟨enc.position, n, if commit then n else 0⟩] := by
  obtain ⟨slots, static, hgrow, hlt, hused⟩ := growChunks_spec heap h
  rw [getFreeChunk, if_neg hn, hexp, hgrow]
  refine ⟨_, rfl, rfl, rfl, rfl, ⟨?_, h.containers_le, ?_⟩, ?_⟩
  · simp only [Table.put, length_set]
    exact hlt
  · intro h0
    exact absurd h0 (succ_ne_zero _)
  · rw [Table.used_put hlt, Table.used, hused]

theorem expandable_spec (h : enc.TablesOk) (hexp : enc.expandable = some (i, c)) :
    ∃ l, enc.chunks.used = l ++ [c] ∧ l.length = i ∧ c.capacity = c.used ∧ c.capacity ≠ 0 := by
  unfold Encoder.expandable at hexp
  dsimp only at hexp
  split at hexp
  next ret hslot =>
    by_cases hret : ret.capacity ≠ 0 ∧ ret.capacity = ret.used
    swap
    · rw [if_neg hret] at hexp
      cases hexp
    rw [if_pos hret] at hexp
    injection hexp with hexp
    injection hexp with hi hc
    subst hi
    subst hc
    rcases hfree : enc.chunks.free with _ | k
    · rw [hfree] at hslot
      exact absurd (h.first hfree ret hslot) hret.1
    rw [hfree] at hslot
    rw [if_pos (succ_ne_zero k), Nat.add_sub_cancel] at hslot ⊢
    have hk := h.chunks_le
    refine ⟨enc.chunks.slots.take k, ?_, length_take_of_le (by omega), hret.2, hret.1⟩
    rw [Table.used, hfree, take_add_one, hslot]
    rfl
  next => cases hexp

variable {start : ℕ}

/-- **A chunk for a write.**  It ends where the pool ends. -/
theorem getFreeChunk_commit (h : enc.TablesOk)
    (hlaid : Laid start enc.chunks.used enc.position) (hn : n ≠ 0) :
    ∃ id c enc', getFreeChunk heap enc n true = some (id, enc') ∧ enc'.pool = enc.pool ∧
      enc'.position = enc.position + n ∧ enc'.containers = enc.containers ∧ enc'.TablesOk ∧
      Commits enc.position n enc.chunks.used enc'.chunks.used ∧
      enc'.chunks.slots[id]? = some c ∧ c.poolOffset + c.capacity - n = enc.position := by
  rcases hexp : enc.expandable with _ | ⟨lastChunk, ret⟩
  · obtain ⟨enc', hget, hpool, hpos, hconts, htab, hused⟩ := getFreeChunk_new heap h hn true hexp
    have hslot := (Table.getElem?_slots htab.chunks_le hused).1
    rw [Table.length_used h.chunks_le] at hslot
    refine ⟨_, _, enc', hget, hpool, hpos, hconts, htab, ?_, hslot, Nat.add_sub_cancel _ _⟩
    rw [hused]
    exact .new _
  obtain ⟨l, hused, hlen, hcommitted, hne⟩ := expandable_spec h hexp
  obtain ⟨mid, _, _, _, hend⟩ := laid_append.mp (hused ▸ hlaid)
  have hend : ret.poolOffset + ret.capacity = enc.position := hend
  have hused' : (enc.chunks.replace lastChunk
      { ret with capacity := ret.capacity + n, used := ret.used + n }).used =
        l ++ [{ ret with capacity := ret.capacity + n, used := ret.used + n }] := by
    rw [Table.used_replace, hused, ← hlen, set_append_right _ _ (le_refl _), Nat.sub_self]
    rfl
  have hle : (enc.chunks.replace lastChunk
      { ret with capacity := ret.capacity + n, used := ret.used + n }).free ≤
        (enc.chunks.replace lastChunk
          { ret with capacity := ret.capacity + n, used := ret.used + n }).slots.length := by
    rw [Table.replace, length_set]
    exact h.chunks_le
  obtain ⟨hslot, hlt⟩ := Table.getElem?_slots hle hused'
  rw [hlen] at hslot
  rw [getFreeChunk, if_neg hn, hexp]
  refine ⟨_, _, _, rfl, rfl, rfl, rfl, ⟨hle, h.containers_le, ?_⟩, ?_, hslot, ?_⟩
  · intro h0
    exact absurd (h0 ▸ hlt) (not_lt_zero _)
  · rw [hused, hused']
    exact .expand l ret hcommitted hne hend
  · show ret.poolOffset + (ret.capacity + n) - n = enc.position
    omega

/-- **A write** of a tree. -/
theorem Inv.write (h : Inv start enc b) (ht : t.encode ≠ []) :
    ∃ enc', getWriteStream heap enc t.encode.length t.encode = some (t.encode.length, enc') ∧
      Inv start enc' (b.add [t]) := by
  have hn : t.encode.length ≠ 0 := mt length_eq_zero_iff.mp ht
  obtain ⟨id, c, enc', hget, hpool, hpos, hconts, htab, hcommits, hslot, hdest⟩ :=
    getFreeChunk_commit heap h.tables h.laid hn
  refine ⟨{ enc' with pool := History.write enc.pool enc.position t.encode }, ?_,
    ⟨htab.chunks_le, htab.containers_le, htab.first⟩, ?_, ?_⟩
  · simp only [getWriteStream, hget, hslot, Encoder.store, hdest, hpool, bind_eq_bind,
      bind_some, lt_irrefl]
    rfl
  · rw [hpos]
    exact h.laid.commits hcommits
  · rw [hconts]
    exact h.holds.commits h.laid hcommits

theorem growContainers_spec (enc : Encoder)
    (h : enc.containers.free ≤ enc.containers.slots.length) :
    ∃ slots, enc.growContainers heap = { enc with containers := ⟨slots, enc.containers.free⟩ } ∧
      enc.containers.free < slots.length ∧
      slots.take enc.containers.free = enc.containers.used := by
  unfold Encoder.growContainers
  by_cases hfull : enc.containers.Full
  · rw [if_pos hfull]
    refine ⟨_, rfl, ?_, take_append_of_le_length h⟩
    rw [length_append, length_map, length_range]
    omega
  · rw [if_neg hfull]
    exact ⟨enc.containers.slots, rfl, lt_of_le_of_ne h hfull, rfl⟩

variable {tags : List UInt8}

/-- **A container is opened.** -/
theorem Inv.openContainer (h : Inv start enc b)
    (ctype : ContainerType) (tag : UInt8) (contextual : Bool) (hne : tags ≠ [])
    (htags : (Container.mk 0 contextual tag ctype).tags = tags) :
    ∃ enc', getAsn1Container heap enc ctype tag contextual (6 * tags.length) = some enc' ∧
      Inv start enc' (b.openContainer tags) := by
  have hn : 6 * tags.length ≠ 0 := by
    have := length_pos_of_ne_nil hne
    omega
  obtain ⟨enc', hget, hpool, hpos, hconts, htab, hused⟩ :=
    getFreeChunk_new heap h.tables hn false rfl
  obtain ⟨slots, hgrow, hlt, htake⟩ := growContainers_spec heap enc' htab.containers_le
  have hcontused : ((Table.mk slots enc'.containers.free).put
      ⟨enc.chunks.free, contextual, tag, ctype⟩).used =
        enc.containers.used ++ [⟨enc.chunks.free, contextual, tag, ctype⟩] := by
    rw [Table.used_put hlt, Table.used, htake, hconts]
  refine ⟨{ enc' with
      containers := (Table.mk slots enc'.containers.free).put
        ⟨enc.chunks.free, contextual, tag, ctype⟩ }, ?_, ⟨htab.chunks_le, ?_, htab.first⟩, ?_, ?_⟩
  · simp only [getAsn1Container, hget, hgrow, bind_eq_bind, bind_some]
    rfl
  · simp only [Table.put, length_set]
    exact hlt
  · rw [hpos, hused]
    exact laid_append.mpr ⟨enc.position, h.laid, le_refl _, zero_le _, rfl⟩
  · rw [hpool, hused, hcontused, ← htags]
    exact .push _ _ _ _ _ ⟨enc.chunks.free, contextual, tag, ctype⟩ [] [] h.holds rfl
      rfl (by rw [← htags] at hne; exact hne)
      (Table.length_used h.tables.chunks_le).symm ⟨by simp, rfl⟩

/-- **The header of a container**, with the content behind it, is what the tags make of the content.
It fits the reserved space. -/
theorem Container.headers_spec (c : Container) (h : (wrapBytes c.tags content).length < 2 ^ 32) :
    ∃ bytes, c.headers content.length = some bytes ∧
    bytes.length = c.outerHeaderBytes content.length ∧
      bytes ++ content = wrapBytes c.tags content ∧
      c.outerHeaderBytes content.length ≤ 6 * c.tags.length := by
  have hcontent : content.length < 2 ^ 32 := (Tlv.length_le_wrapBytes c.tags content).trans_lt h
  unfold Container.tags at h ⊢
  unfold Container.headers Container.outerHeaderBytes Container.innerHeaderBytes
  generalize c.contextual = contextual at h ⊢
  generalize c.containerByte = containerByte at h ⊢
  cases contextual <;> rcases containerByte with _ | byte
  · exact ⟨[], rfl, rfl, rfl, le_refl 0⟩
  · have hlen := asn1WriteLen_eq hcontent
    simp only [header_eq _ hcontent, isSome_some, if_true, Bool.false_eq_true, if_false]
    refine ⟨_, rfl, ?_, rfl, ?_⟩
    · rw [nil_append, length_cons, hlen.2.1, add_comm]
    · show 1 + lenBytes content.length ≤ 6
      omega
  · have hlen := asn1WriteLen_eq hcontent
    simp only [header_eq _ hcontent, isSome_none, if_true, Bool.false_eq_true, if_false, zero_add]
    refine ⟨_, rfl, ?_, ?_, ?_⟩
    · rw [append_nil, length_cons, hlen.2.1, add_comm, add_zero]
    · rw [append_nil]
      rfl
    · show 1 + lenBytes content.length + 0 ≤ 6
      omega
  · -- the inner header is part of the content of the outer one
    have hinner : (tagged byte content).length = 1 + lenBytes content.length + content.length :=
      length_tagged byte hcontent
    have houter : 1 + lenBytes content.length + content.length < 2 ^ 32 := by
      rw [← hinner]
      exact (length_lt_tagged _ (tagged byte content)).trans h
    have hlen := asn1WriteLen_eq hcontent
    have hlen' := asn1WriteLen_eq houter
    simp only [header_eq _ hcontent, header_eq _ houter, isSome_some, if_true]
    refine ⟨_, rfl, ?_, ?_, ?_⟩
    · rw [length_append, length_cons, length_cons]
      omega
    · show _ = (0xA0 ||| c.tag) :: lengthOctets (tagged byte content).length ++ tagged byte content
      rw [hinner, append_assoc]
      rfl
    · show 1 + lenBytes (1 + lenBytes content.length + content.length) +
        (1 + lenBytes content.length) ≤ 12
      omega

theorem Table.used_pred {α : Type*} {t : Table α} (h : t.free ≤ t.slots.length) {l} {a}
    (hu : t.used = l ++ [a]) : t.free = l.length + 1 ∧ t.slots.take l.length = l := by
  have hfree : t.free = l.length + 1 := by
    rw [← length_used h, hu, length_append, length_singleton]
  refine ⟨hfree, ?_⟩
  calc t.slots.take l.length = t.used.take l.length := by
        rw [used, take_take, min_eq_left (by omega)]
    _ = l := by rw [hu, take_left]

/-- **The reservation becomes the header.**  It is written to the end of the reserved space, and the
chunks behind it belong to the container around now. -/
theorem Holds.close (b : Builder) {header : List UInt8}
    (hlow : Holds pool cs conts b.complete b.opened) (hseg : Seg pool seg (encodeAll us))
    (hlaid : Laid start (cs ++ reserved :: seg) position) (hfit : header.length ≤ reserved.capacity)
    (hheader : header ++ encodeAll us = wrapBytes tags (encodeAll us))
    (hoffset : offset = reserved.poolOffset + (reserved.capacity - header.length)) :
    Laid start (cs ++ ⟨offset, header.length, header.length⟩ :: seg) position ∧
      Holds (History.write pool offset header)
        (cs ++ ⟨offset, header.length, header.length⟩ :: seg) conts
        (b.add (wrap tags us)).complete (b.add (wrap tags us)).opened := by
  obtain ⟨mid, hcs, hmid, hused, hrest⟩ := laid_append.mp hlaid
  have hend : offset + header.length = reserved.poolOffset + reserved.capacity := by omega
  constructor
  · refine laid_append.mpr ⟨mid, hcs, ?_, le_refl _, ?_⟩
    · show mid ≤ offset
      omega
    · rw [hend]
      exact hrest
  have hframe : ∀ c ∈ cs, c.bytes (History.write pool offset header) = c.bytes pool := by
    intro c hc
    have := (hcs.mem hc).2
    exact Chunk.bytes_write (Or.inl (by omega))
  have hframe' : ∀ c ∈ seg, c.bytes (History.write pool offset header) = c.bytes pool := by
    intro c hc
    have := (hrest.mem hc).1
    exact Chunk.bytes_write (Or.inr (by omega))
  refine (hlow.frame hframe).append ?_
  rw [Tlv.encodeAll_wrap, ← hheader]
  exact (seg_write pool offset header).append (hseg.frame hframe')

variable {b' : Builder}

/-- **The innermost container is closed.** -/
theorem Inv.endContainer
    (h : Inv start enc b) (hb : b.endContainer = some (n, b')) (hsize : b'.size < 2 ^ 32) :
    ∃ enc', Asn1.endContainer enc = some (n, enc') ∧ Inv start enc' b' := by
  have hlaid := h.laid
  have hholds := h.holds
  have htab := h.tables
  rcases b with ⟨ts, levels⟩
  generalize hcs : enc.chunks.used = used at hholds hlaid
  generalize hconts : enc.containers.used = containers at hholds
  cases hholds with
  | bottom => cases hb
  | push cs conts _ levels reserved cont us seg hlow hzero hcap hne hid hseg =>
  injection hb with hb
  injection hb with hn hb
  subst hb
  have hwrap : (wrapBytes cont.tags (encodeAll us)).length < 2 ^ 32 := by
    rw [Builder.size_add, Tlv.encodeAll_wrap] at hsize
    omega
  obtain ⟨bytes, hbytes, hlen, happ, hfit⟩ := cont.headers_spec hwrap
  obtain ⟨hcslot, _⟩ := Table.getElem?_slots htab.containers_le hconts
  obtain ⟨hcfree, hctake⟩ := Table.used_pred htab.containers_le hconts
  obtain ⟨hslot, hslt⟩ := Table.getElem?_slots htab.chunks_le hcs
  have hinner : (((enc.chunks.slots.take enc.chunks.free).drop (cs.length + 1)).map
      Chunk.used).sum = (encodeAll us).length := by
    show ((enc.chunks.used.drop (cs.length + 1)).map Chunk.used).sum = _
    rw [hcs, ← drop_drop, drop_left, drop_one, tail_cons, hseg.sum_used]
  rw [← hlen] at hfit
  set offset := reserved.poolOffset + (reserved.capacity - bytes.length) with hoffset
  have hset : (enc.chunks.replace cs.length ⟨offset, bytes.length, bytes.length⟩).used =
      cs ++ ⟨offset, bytes.length, bytes.length⟩ :: seg := by
    rw [Table.used_replace, hcs, set_append_right _ _ (le_refl _), Nat.sub_self]
    rfl
  obtain ⟨hlaid', hholds'⟩ := Holds.close ⟨ts, levels⟩ hlow hseg hlaid (hcap ▸ hfit) happ hoffset
  refine ⟨{ enc with
      pool := History.write enc.pool offset bytes
      chunks := enc.chunks.replace cs.length ⟨offset, bytes.length, bytes.length⟩
      containers := { enc.containers with free := conts.length } }, ?_, ⟨?_, ?_, ?_⟩, ?_, ?_⟩
  · have hn' : bytes.length + (encodeAll us).length = n := by
      rw [← hn, Tlv.encodeAll_wrap, ← happ, length_append]
    simp only [Asn1.endContainer, hcfree, if_false, Nat.add_sub_cancel, hcslot,
      hid, hinner, hslot, hbytes, ← hlen, Encoder.store, lt_irrefl, bind_eq_bind, bind_some, hn']
    rfl
  · rw [Table.replace, length_set]
    exact htab.chunks_le
  · show conts.length ≤ enc.containers.slots.length
    have := htab.containers_le
    omega
  · intro h0
    have h0 : enc.chunks.free = 0 := h0
    omega
  · show Laid start (enc.chunks.replace _ _).used enc.position
    rw [hset]
    exact hlaid'
  · show Holds _ (enc.chunks.replace _ _).used (enc.containers.slots.take conts.length) _ _
    rw [hset, hctake]
    exact hholds'

/-! ## The calls -/

section Calls

variable {heap} {enc : Encoder}

theorem header_append (tag) (h : (tagged tag content).length < 2 ^ 32) :
    ∃ octets, header tag content.length = some octets ∧ octets ++ content = tagged tag content ∧
      1 + lenBytes content.length + content.length = (tagged tag content).length := by
  have hcontent := (length_lt_tagged tag content).trans h
  exact ⟨_, header_eq tag hcontent, rfl, (length_tagged tag hcontent).symm⟩

theorem encMemoryChunk_eq
    (h : (tagged wireType mchunk).length < 2 ^ 32) : encMemoryChunk heap enc wireType mchunk =
      getWriteStream heap enc (tagged wireType mchunk).length (tagged wireType mchunk) := by
  obtain ⟨octets, hheader, happ, hlen⟩ := header_append wireType h
  simp [encMemoryChunk, hheader, happ, hlen]

theorem encContextualRawContent_eq (ht : tagId ≤ 30) {c}
    (h : (tagged (contextTag tagId) c).length < 2 ^ 32) : encContextualRawContent heap enc tagId c =
      getWriteStream heap enc (tagged (contextTag tagId) c).length
        (tagged (contextTag tagId) c) := by
  obtain ⟨octets, hheader, happ, hlen⟩ := header_append (contextTag tagId) h
  obtain ⟨hctx, _, hlt⟩ := or_tagId ht
  simp [encContextualRawContent, assertValidTag, if_pos hlt, hctx, hheader, happ, hlen]

/-- Content that was tagged before gets a context-specific tag. -/
theorem encContextualMemoryChunk_eq (ht : tagId ≤ 30)
    (h : (tagged (contextTag tagId) (tagged wireType mchunk)).length < 2 ^ 32) :
    encContextualMemoryChunk heap enc wireType tagId mchunk =
      getWriteStream heap enc (tagged (contextTag tagId) (tagged wireType mchunk)).length
        (tagged (contextTag tagId) (tagged wireType mchunk)) := by
  obtain ⟨inner, hinner, happ, hlen⟩ := header_append wireType ((length_lt_tagged _ _).trans h)
  obtain ⟨outer, houter, happ', hlen'⟩ := header_append (contextTag tagId) h
  obtain ⟨hctx, _, hlt⟩ := or_tagId ht
  simp [encContextualMemoryChunk, assertValidTag, if_pos hlt, hctx, hinner, hlen,
    houter, happ, happ', hlen']

theorem tagged_integerContent (b value) : tagged b (integerContent value) = b :: integerLike value ∧
      (tagged b (integerContent value)).length = 1 + asn1IntegerLen value := by
  obtain ⟨hlen, happ⟩ := length_integerContent value
  have heq : tagged b (integerContent value) = b :: integerLike value := by
    rw [tagged, cons_append, happ]
  have hle : asn1IntegerLen value ≤ 5 := by
    unfold asn1IntegerLen
    split_ifs <;> omega
  have hsmall : lenBytes (integerContent value).length = 1 := if_pos (by omega)
  refine ⟨heq, ?_⟩
  rw [length_tagged b (by omega)]
  omega

theorem encIntegerLike_eq {b} (value) : encIntegerLike heap enc b value =
      getWriteStream heap enc (tagged b (integerContent value)).length
        (tagged b (integerContent value)) := by
  obtain ⟨heq, hlen⟩ := tagged_integerContent b value
  rw [encIntegerLike, hlen, heq]

theorem encContextualIntegerLike_eq {b} (ht : tagId ≤ 30)
    (h : (tagged (contextTag tagId) (tagged b (integerContent value))).length < 2 ^ 32) :
    encContextualIntegerLike heap enc b tagId value =
      getWriteStream heap enc (tagged (contextTag tagId) (tagged b (integerContent value))).length
        (tagged (contextTag tagId) (tagged b (integerContent value))) := by
  obtain ⟨outer, houter, happ, hlen⟩ := header_append (contextTag tagId) h
  obtain ⟨heq, hlen'⟩ := tagged_integerContent b value
  obtain ⟨hctx, _, hlt⟩ := or_tagId ht
  rw [hlen'] at houter hlen
  simp [encContextualIntegerLike, assertValidTag, if_pos hlt, hctx, houter, hlen, ← heq, happ]

theorem encContextualBoolean_eq (ht : tagId ≤ 30) (b) :
    encContextualBoolean heap enc tagId b = getWriteStream heap enc
        (tagged (contextTag tagId) (tagged 0x01 [if b then 0xff else 0])).length
        (tagged (contextTag tagId) (tagged 0x01 [if b then 0xff else 0])) := by
  obtain ⟨hctx, _, hlt⟩ := or_tagId ht
  simp only [encContextualBoolean, assertValidTag, if_pos hlt, hctx]
  rfl

theorem encode_inContext (tagId t) :
    (Element.node (contextTag tagId) [t]).encode = tagged (contextTag tagId) t.encode := by
  rw [Element.encode, Tlv.encodeAll_singleton]

variable (heap enc) in
/-- **A call that writes a tree** writes its encoding. -/
theorem Op.run_add {op : Op} (hok : op.Ok) (hop : op.action = .add t)
    (hsize : t.encode.length < 2 ^ 32) :
    op.run heap enc = getWriteStream heap enc t.encode.length t.encode ∧ t.encode ≠ [] := by
  have htag := hok.1
  cases op with
  | appContainer _ | seqContainer | setContainer | contextualSeqContainer _
  | contextualSetContainer _ | contextualContainer _ | octetStringContainer
  | contextualOctetStringContainer _ | endContainer => cases hop
  | rawContent c =>
    cases hop
    refine ⟨rfl, ?_⟩
    intro hc
    exact hok.2 (congrArg Op.rawContent hc)
  | integer value | enumerated value =>
    cases hop
    exact ⟨encIntegerLike_eq value, cons_ne_nil _ _⟩
  | boolean b =>
    cases hop
    exact ⟨rfl, cons_ne_nil _ _⟩
  | oid m | octetString m | ia5String m | generalString m =>
    cases hop
    exact ⟨encMemoryChunk_eq hsize, cons_ne_nil _ _⟩
  | contextualRawContent tagId c =>
    cases hop
    rw [encode_inContext] at hsize ⊢
    exact ⟨encContextualRawContent_eq htag hsize, cons_ne_nil _ _⟩
  | contextualInteger tagId value | contextualEnumerated tagId value =>
    cases hop
    rw [encode_inContext] at hsize ⊢
    exact ⟨encContextualIntegerLike_eq htag hsize, cons_ne_nil _ _⟩
  | contextualBoolean tagId b =>
    cases hop
    rw [encode_inContext]
    exact ⟨encContextualBoolean_eq htag b, cons_ne_nil _ _⟩
  | contextualOID tagId m | contextualOctetString tagId m | contextualIA5String tagId m =>
  cases hop
  rw [encode_inContext] at hsize ⊢
  exact ⟨encContextualMemoryChunk_eq htag hsize, cons_ne_nil _ _⟩

/-- **A call that opens a container** reserves six bytes for each of its tags. -/
theorem Op.run_enter {op : Op} (hok : op.Ok) (hop : op.action = .enter tags) :
    ∃ ctype tag contextual, op.run heap enc =
        opened (getAsn1Container heap enc ctype tag contextual (6 * tags.length)) ∧
      (Container.mk 0 contextual tag ctype).tags = tags ∧ tags ≠ [] := by
  obtain ⟨hctx, happ, hlt⟩ := or_tagId hok.1
  cases op with
  | appContainer tagId =>
    cases hop
    refine ⟨.app, tagId, false, ?_, congrArg (fun t => [t]) happ, cons_ne_nil _ _⟩
    simp only [Op.run, assertValidTag, if_pos (show tagId < 64 from hlt)]
    rfl
  | seqContainer =>
    cases hop
    exact ⟨.seq, 0, false, rfl, rfl, cons_ne_nil _ _⟩
  | setContainer =>
    cases hop
    exact ⟨.set, 0, false, rfl, rfl, cons_ne_nil _ _⟩
  | octetStringContainer =>
    cases hop
    exact ⟨.octetString, 0, false, rfl, rfl, cons_ne_nil _ _⟩
  | contextualContainer tagId =>
    cases hop
    exact ⟨.contextOnly, tagId, true, rfl, congrArg (fun t => [t]) hctx, cons_ne_nil _ _⟩
  | contextualSeqContainer tagId =>
    cases hop
    exact ⟨.seq, tagId, true, rfl, congrArg (fun t => [t, 0x30]) hctx, cons_ne_nil _ _⟩
  | contextualSetContainer tagId =>
    cases hop
    exact ⟨.set, tagId, true, rfl, congrArg (fun t => [t, 0x31]) hctx, cons_ne_nil _ _⟩
  | contextualOctetStringContainer tagId =>
    cases hop
    exact ⟨.octetString, tagId, true, rfl, congrArg (fun t => [t, 0x04]) hctx, cons_ne_nil _ _⟩
  | _ => cases hop

variable (heap) in
/-- **One call keeps the invariant**, and returns what it is to return. -/
theorem Inv.step {op : Op} (h : Inv start enc b)
    (hok : op.Ok) (hb : op.action.run b = some (result, b')) (hsize : b'.size < 2 ^ 32) :
    ∃ enc', op.run heap enc = some (result, enc') ∧ Inv start enc' b' := by
  cases hop : op.action with
  | enter tags =>
    rw [hop] at hb
    injection hb with hb
    injection hb with hresult hb
    subst hresult
    subst hb
    obtain ⟨ctype, tag, contextual, hrun, htags, hne⟩ := Op.run_enter hok hop
    obtain ⟨enc', hget, hinv⟩ := h.openContainer heap ctype tag contextual hne htags
    exact ⟨enc', by rw [hrun, hget]; rfl, hinv⟩
  | leave =>
    rw [hop] at hb
    have hend : op = .endContainer := by
      cases op <;> first | rfl | cases hop
    subst hend
    exact h.endContainer hb hsize
  | add t =>
  rw [hop] at hb
  injection hb with hb
  injection hb with hresult hb
  subst hresult
  subst hb
  have ht : t.encode.length < 2 ^ 32 := by
    rw [Builder.size_add, Tlv.encodeAll_singleton] at hsize
    omega
  obtain ⟨hrun, hne⟩ := Op.run_add heap enc hok hop ht
  obtain ⟨enc', hwrite, hinv⟩ := h.write heap hne
  exact ⟨enc', hrun.trans hwrite, hinv⟩

theorem size_le_of_build (h : build ops b = some (results, b')) : b.size ≤ b'.size := by
  induction ops generalizing b results with
  | nil =>
    cases h
    exact le_refl _
  | cons op ops ih =>
  simp only [build, bind_eq_bind, bind_eq_some_iff] at h
  obtain ⟨⟨result, b1⟩, hstep, ⟨results1, b2⟩, hrest, heq⟩ := h
  cases heq
  refine le_trans ?_ (ih hrest)
  cases hop : op.action with
  | enter tags =>
    rw [hop] at hstep
    cases hstep
    rw [Builder.size_openContainer]
  | leave =>
    rw [hop] at hstep
    exact Builder.size_endContainer hstep
  | add t =>
  rw [hop] at hstep
  cases hstep
  rw [Builder.size_add]
  omega

variable (heap) in
/-- **A run keeps the invariant.**  The induction is on the calls. -/
theorem Inv.run {ops : List Op}
    (h : Inv start enc b) (hok : ∀ op ∈ ops, op.Ok) (hb : build ops b = some (results, b'))
    (hsize : b'.size < 2 ^ 32) :
    ∃ enc', Encoder.run heap ops enc = some (results, enc') ∧ Inv start enc' b' := by
  induction ops generalizing enc b results with
  | nil =>
    cases hb
    exact ⟨enc, rfl, h⟩
  | cons op ops ih =>
  simp only [build, bind_eq_bind, bind_eq_some_iff] at hb
  obtain ⟨⟨result, b1⟩, hstep, ⟨results1, b2⟩, hrest, heq⟩ := hb
  cases heq
  obtain ⟨enc1, hrun, hinv⟩ := h.step heap (hok op mem_cons_self) hstep
    ((size_le_of_build hrest).trans_lt hsize)
  obtain ⟨enc2, hrun', hinv'⟩ := ih hinv (fun op' h' => hok op' (mem_cons_of_mem _ h')) hrest
  refine ⟨enc2, ?_, hinv'⟩
  simp only [Encoder.run, hrun, hrun', bind_eq_bind, bind_some]
  rfl

end Calls

/-- A new encoder, or one that was used for anything and reset. -/
def Encoder.Fresh (enc : Encoder) : Prop := enc = .new ∨ ∃ enc₀ : Encoder, enc = enc₀.reset

theorem Encoder.Fresh.inv (h : enc.Fresh) : Inv enc.position enc Builder.new := by
  have hclear : ∀ n (c : Chunk), (replicate n (⟨0, 0, 0⟩ : Chunk))[0]? = some c →
      c.capacity = 0 := by
    intro n c hc
    rw [List.getElem?_replicate] at hc
    split at hc
    · injection hc with hc
      rw [← hc]
    · cases hc
  rcases h with rfl | ⟨enc₀, rfl⟩
  all_goals exact ⟨⟨zero_le _, zero_le _, fun _ => hclear _⟩, rfl, .bottom [] [] ⟨by simp, rfl⟩⟩

theorem Inv.result (h : Inv start enc ⟨ts, []⟩) :
    enc.streamSize = some (encodeAll ts).length ∧
    ∀ s, enc.toStream s = some (s ++ encodeAll ts) := by
  have hholds := h.holds
  generalize hcs : enc.chunks.used = used at hholds
  generalize hconts : enc.containers.used = containers at hholds
  cases hholds with
  | bottom _ _ hseg =>
  have hfree : enc.containers.free = 0 := by
    rw [← Table.length_used h.tables.containers_le, hconts]
    rfl
  have hsum : enc.streamSize = some (encodeAll ts).length := by
    rw [Encoder.streamSize, if_neg (not_not.mpr hfree)]
    show some (enc.chunks.used.map Chunk.used).sum = _
    rw [hcs, hseg.sum_used]
  refine ⟨hsum, ?_⟩
  intro s
  simp only [Encoder.toStream, hsum]
  show some (enc.chunks.used.foldl _ s) = _
  rw [hcs, foldl_append_eq_append, ← flatMap_def, hseg.bytes_eq]

/-- **The encoder writes the tree.**  For calls that close every container they open, and no other,
with tag ids up to 30 and less than 2^32 bytes in all, every call returns the size of what it
encoded and the stream gets the encoding of the trees. -/
theorem asn1_encoder_writes_tree (heap : Heap) {enc : Encoder} (hfresh : enc.Fresh) (ops : List Op)
    (hok : ∀ op ∈ ops, op.Ok) (results : List ℕ) (trees : List Element)
    (hbuild : build ops Builder.new = some (results, ⟨trees, []⟩))
    (hsize : (encodeAll trees).length < 2 ^ 32) :
    ∃ enc', enc.run heap ops = some (results, enc') ∧
    enc'.streamSize = some (encodeAll trees).length ∧
      ∀ s, enc'.toStream s = some (s ++ encodeAll trees) := by
  obtain ⟨enc', hrun, hinv⟩ := hfresh.inv.run heap hok hbuild (by
    simpa only [Builder.size, map_nil, sum_nil, add_zero] using hsize)
  exact ⟨enc', hrun, hinv.result⟩

/-- A sequence of a boolean and an integer with a context-specific tag. -/
def sequenceOps : List Op :=
  [.seqContainer, .boolean true, .contextualInteger 1 70000, .endContainer]

/-- Memory that is clear. -/
def clearHeap : Heap := ⟨fun _ => ⟨0, 0, 0⟩, fun _ => ⟨0, false, 0, .seq⟩⟩

/-- What they build. -/
def sequenceTree : Element :=
  .node 0x30 [.value 0x01 [0xff], .node 0xA1 [.value 0x02 (integerContent 70000)]]

theorem asn1_encoder_writes_tree_sequence :
    (encodeAll [sequenceTree] = [0x30, 11, 0x01, 1, 0xff, 0xA1, 6, 0x02, 4, 0, 1, 0x11, 0x70]) ∧
    ∃ enc', Encoder.new.run clearHeap sequenceOps = some ([1, 3, 8, 13], enc') ∧
      enc'.streamSize = some (encodeAll [sequenceTree]).length ∧
      ∀ s, enc'.toStream s = some (s ++ encodeAll [sequenceTree]) :=
  ⟨by decide, asn1_encoder_writes_tree clearHeap (Or.inl rfl) sequenceOps (by decide) [1, 3, 8, 13]
    [sequenceTree] rfl (by decide)⟩

end WBFreeRDP.Asn1

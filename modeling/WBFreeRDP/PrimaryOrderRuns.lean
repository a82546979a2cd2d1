/-
# The decoder of primary orders follows the wire

The readers of the order types, then one order, then runs of orders.
-/
import WBFreeRDP.PrimaryOrderTracks

namespace WBFreeRDP.Orders

open Nat Option

variable {t : OrderType} {orderInfo : OrderInfo} {P Q R X : Order → Fields → Prop}
  {o : Order} {fields : Fields} {m : Member}

/-! ## Order types -/

/-- `X` does not care about the members that are read as they are. -/
def IgnoresPlain (t : OrderType) (X : Order → Fields → Prop) : Prop :=
  ∀ m, special t m = false → m.isBrush = false → Stable X m

theorem IgnoresPlain.and (hX : IgnoresPlain t X) (hY : IgnoresPlain t Y) :
    IgnoresPlain t fun o fields => X o fields ∧ Y o fields :=
  fun m hm hb => (hX m hm hb).and (hY m hm hb)

theorem IgnoresPlain.imp (C : Prop) (hX : IgnoresPlain t X) :
    IgnoresPlain t fun o fields => C → X o fields :=
  fun m hm hb o fields v y h hC => hX m hm hb o fields v y (h hC)

theorem ignoresPlain_true : IgnoresPlain t fun _ _ => True := fun _ _ _ _ _ _ _ h => h

/-- A slot that is read into members that are neither derived nor in the brush. -/
def Slot.plain (t : OrderType) : Slot → Bool
  | value _ _ (.member m) | coord _ m => !special t m && !m.isBrush
  | twoBytes _ m₁ m₂ => !special t m₁ && !m₁.isBrush && (!special t m₂ && !m₂.isBrush)
  | _ => true

theorem Slot.plain_writes {slot : Slot} (h : slot.plain t = true) (hm : slot.Writes m) :
    special t m = false ∧ m.isBrush = false := by
  cases slot with
  | value number kind f | coord number m' =>
    obtain rfl := hm
    simpa [Slot.plain] using h
  | twoBytes number m1 m2 =>
    simp only [Slot.plain, Bool.and_eq_true, Bool.not_eq_true'] at h
    rcases hm with rfl | rfl
    · exact h.1
    · exact h.2
  | bytes number =>
    rcases hm with rfl | ⟨i, rfl⟩
    · exact ⟨rfl, rfl⟩
    · exact ⟨rfl, rfl⟩
  | glyph number =>
    rcases hm with rfl | ⟨i, rfl⟩ | ⟨g, rfl⟩
    all_goals exact ⟨rfl, rfl⟩
  | unused number kind | pattern number | rectangles number count | points number count =>
      exact hm.elim

section

variable (hX : IgnoresPlain t X)
include hX

theorem tracks_plain (slots) (h : slots.all (·.plain t) = true) :
    Tracks orderInfo (Mid t X) (Mid t X) (allOf (slots.map Slot.reader)) slots :=
  tracks_slots slots fun slot hslot m hm =>
    have hplain := Slot.plain_writes (List.all_eq_true.mp h slot hslot) hm
    ⟨hplain.1, hX m hplain.1 hplain.2⟩

theorem IgnoresPlain.free (h : special t m = false ∧ m.isBrush = false) : Free t X m :=
  ⟨h.1, hX m h.1 h.2⟩

variable (number list : ℕ)

variable (count : Member)

section

variable (h : special t count = false ∧ count.isBrush = false)
include h

section

variable (hne : count ≠ .cbData)
include hne

theorem tracks_lastRectangles :
    Tracks orderInfo (Mid t X) (Mid t X) (allOf [readRectanglesField number list count])
      [.value number .byte (.member count), .rectangles list count] :=
  (tracks_rectangles (hX.free h) (hX.free ⟨rfl, rfl⟩) hne fun _ _ => hX.free ⟨rfl, rfl⟩).cons
    tracks_nil

theorem tracks_lastPoints :
    Tracks orderInfo (Mid t X) (Mid t X) (allOf [readPointsField number list count])
      [.value number .byte (.member count), .points list count] :=
  (tracks_points (hX.free h) (hX.free ⟨rfl, rfl⟩) hne fun _ _ => hX.free ⟨rfl, rfl⟩).cons tracks_nil

theorem tracks_checkedRectangles (hrect : ∀ j r, count ≠ .rectangles j r) :
    Tracks orderInfo (Mid t X) (Mid t X) (allOf [readRectanglesThenCheck number list count])
      [.value number .byte (.member count), .rectangles list count] :=
  ((tracks_rectangles (hX.free h) (hX.free ⟨rfl, rfl⟩) hne fun _ _ => hX.free ⟨rfl, rfl⟩).of_imp
    fun _ _ _ hread => readRectanglesThenCheck_eq hne hrect hread).cons tracks_nil

theorem tracks_checkedPoints
    (hstart : count ≠ .xStart ∧ count ≠ .yStart) (hpoint : ∀ j r, count ≠ .points j r) :
    Tracks orderInfo (Mid t X) (Mid t X) (allOf [readPointsThenCheck number list count])
      [.value number .byte (.member count), .points list count] :=
  ((tracks_points (hX.free h) (hX.free ⟨rfl, rfl⟩) hne fun _ _ => hX.free ⟨rfl, rfl⟩).of_imp
    fun _ _ _ hread => readPointsThenCheck_eq hstart hpoint hread).cons tracks_nil

end

end

end

def OrderType.direct : OrderType → Bool
  | .dstblt | .scrblt | .drawNineGrid | .multiDrawNineGrid | .lineTo | .saveBitmap | .multiDstblt
  | .multiScrblt | .fastIndex | .polygonSc | .polyline | .fastGlyph | .ellipseSc => true
  | _ => false

theorem tracks_check : Tracks orderInfo P P (allOf [checkGlyphCacheId]) [] := by
  intro s o fields s' o' hP h
  simp only [allOf, checkGlyphCacheId] at h
  split at h
  · cases h
  next so hso =>
  split at hso
  · cases hso
  cases hso
  cases h
  exact ⟨[], rfl, hP⟩

theorem direct_tracks (ht : t.direct = true) :
    Tracks orderInfo (Mid t fun _ _ => True) (Mid t fun _ _ => True) t.reader (format t) := by
  have hX : IgnoresPlain t fun _ _ => True := ignoresPlain_true
  cases t with
  | dstblt => exact tracks_plain hX (format .dstblt) rfl
  | scrblt => exact tracks_plain hX (format .scrblt) rfl
  | drawNineGrid => exact tracks_plain hX (format .drawNineGrid) rfl
  | lineTo => exact tracks_plain hX (format .lineTo) rfl
  | saveBitmap => exact tracks_plain hX (format .saveBitmap) rfl
  | fastIndex => exact tracks_plain hX (format .fastIndex) rfl
  | ellipseSc => exact tracks_plain hX (format .ellipseSc) rfl
  | multiDrawNineGrid =>
    exact (tracks_plain hX ((format .multiDrawNineGrid).take 5) rfl).append
      (tracks_lastRectangles hX 6 7 .nDeltaEntries ⟨rfl, rfl⟩ (by decide))
  | multiDstblt =>
    exact (tracks_plain hX ((format .multiDstblt).take 5) rfl).append
      (tracks_lastRectangles hX 6 7 .numRectangles ⟨rfl, rfl⟩ (by decide))
  | multiScrblt =>
    exact (tracks_plain hX ((format .multiScrblt).take 7) rfl).append
      (tracks_lastRectangles hX 8 9 .numRectangles ⟨rfl, rfl⟩ (by decide))
  | polygonSc =>
    exact (tracks_plain hX ((format .polygonSc).take 5) rfl).append
      (tracks_lastPoints hX 6 7 .numPoints ⟨rfl, rfl⟩ (by decide))
  | polyline =>
    exact (tracks_plain hX ((format .polyline).take 5) rfl).append
      (tracks_lastPoints hX 6 7 .numDeltaEntries ⟨rfl, rfl⟩ (by decide))
  | fastGlyph =>
    exact (tracks_plain hX ((format .fastGlyph).take 1) rfl).append
      (tracks_check.append (tracks_plain hX ((format .fastGlyph).drop 1) rfl))
  | _ => cases ht

theorem colorKept_ignoresPlain (ht : t.colored = true) : IgnoresPlain t ColorKept := by
  intro m hm _ o fields v y h
  have hne : .color ≠ m := Ne.symm (ne_of_special hm ht)
  have hbyte : ∀ k, Sent.receive fields (.member m, y) (.colorByte k) = fields (.colorByte k) :=
    fun k => Sent.receive_of_ne fields (by simp)
  refine ⟨?_, ?_⟩
  · rw [Order.set_of_ne _ _ hne, h.1, colorOf, colorOf, hbyte, hbyte, hbyte]
  intro k
  exact h.2 k

/-- The readers of the two orders whose colour is three fields. -/
theorem colored_tracks (ht : t.colored = true) :
    Tracks orderInfo (Mid t ColorKept) (Mid t ColorKept) t.reader (format t) := by
  have hX := colorKept_ignoresPlain ht
  have hcolor : Tracks orderInfo (Mid t ColorKept) (Mid t ColorKept)
      (allOf [readColorByte 5 0x00FFFF00 0, readColorByte 6 0x00FF00FF 8,
        readColorByte 7 0x0000FFFF 16])
      colorSlots :=
    (tracks_colorByte ht (by simp [colorReaders])).cons <|
      (tracks_colorByte ht (by simp [colorReaders])).cons <|
        (tracks_colorByte ht (by simp [colorReaders])).cons tracks_nil
  cases t with
  | opaqueRect => exact (tracks_plain hX rectSlots rfl).append hcolor
  | multiOpaqueRect =>
    exact ((tracks_plain hX rectSlots rfl).append hcolor).append
      (tracks_lastRectangles hX 8 9 .numRectangles ⟨rfl, rfl⟩ (by decide))
  | _ => cases ht

theorem hasBrush_ignoresPlain : IgnoresPlain t (HasBrush old data) :=
  fun _ _ hb => HasBrush.stable (ne_brush hb _) (ne_brush hb _) (ne_brush hb _)

/-- What the reader of a brush leaves depends on the brush only. -/
theorem BrushRead.congr
    (h : BrushRead orderInfo shift old data o fields) (ho : ∀ b, o' (.brush b) = o (.brush b))
    (hf : ∀ b, fields' (.member (.brush b)) = fields (.member (.brush b))) :
    BrushRead orderInfo shift old data o' fields' := by
  have hrow : ∀ row pointer data, HasRow row pointer data o fields →
      HasRow row pointer data o' fields' :=
    fun row pointer data hr => ⟨(ho _).trans hr.1, (ho _).trans hr.2.1, (hf _).trans hr.2.2⟩
  refine ⟨?_, fun hc => ?_, fun hc => hrow _ _ _ (h.omits hc)⟩
  · rw [CachedBrush, hf, hf, ho, ho]
    exact h.cached
  · rw [hf]
    exact hrow _ _ _ (h.carries hc)

theorem brushRead_ignoresPlain : IgnoresPlain t (BrushRead orderInfo shift old data) := by
  intro m _ hb o fields v y h
  have hne : ∀ b, .brush b ≠ m := fun b => (ne_brush hb b).symm
  exact h.congr (fun b => Order.set_of_ne _ _ (hne b)) fun b => receive_member_of_ne _ _ (hne b)

/-- The readers of the order types with a brush and no other derived members. -/
theorem brush_tracks (ht : t.brushShift = some shift) (hcached : t.cached = false)
    (hrop : t ≠ .polygonCb) (old data) :
    Tracks orderInfo (Mid t fun o fields => True ∧ HasBrush old data o fields)
      (Mid t fun o fields => True ∧ BrushRead orderInfo shift old data o fields)
        t.reader (format t) := by
  have hX : IgnoresPlain t fun o fields => True ∧ HasBrush old data o fields :=
    ignoresPlain_true.and hasBrush_ignoresPlain
  have hY : IgnoresPlain t fun o fields => True ∧ BrushRead orderInfo shift old data o fields :=
    ignoresPlain_true.and brushRead_ignoresPlain
  have hbrush : Tracks orderInfo (Mid t fun o fields => True ∧ HasBrush old data o fields)
      (Mid t fun o fields => True ∧ BrushRead orderInfo shift old data o fields)
      (allOf [updateReadBrush shift]) (brushSlots shift) :=
    (tracks_brush (fun _ _ _ _ _ _ h => h) shift old data).cons tracks_nil
  cases t with
  | patblt =>
    cases ht
    exact (tracks_plain hX ((format .patblt).take 7) rfl).append hbrush
  | multiPatblt =>
    cases ht
    exact ((tracks_plain hX ((format .multiPatblt).take 7) rfl).append hbrush).append
      (tracks_checkedRectangles hY 13 14 .numRectangles ⟨rfl, rfl⟩ (by decide) (by simp))
  | glyphIndex =>
    cases ht
    exact ((tracks_plain hX ((format .glyphIndex).take 14) rfl).append hbrush).append
      (tracks_plain hY ((format .glyphIndex).drop 19) rfl)
  | ellipseCb =>
    cases ht
    exact (tracks_plain hX ((format .ellipseCb).take 8) rfl).append hbrush
  | mem3blt => cases hcached
  | polygonCb => exact absurd rfl hrop
  | _ => exact absurd ht (by simp [OrderType.brushShift])

/-! ## Members that are split after reading -/

/-- A field that is read into a member which is split later: the relation `Y` that the split needs
holds once the order carries the field, or held before. -/
theorem tracks_split (X Y : Order → Fields → Prop) (kind) (number) (m)
    (hm : special t m = true) (hX : Stable X m)
    (hY : ∀ o fields, o m = fields (.member m) → Y o fields) :
    Tracks orderInfo (Mid t fun o fields => X o fields ∧ (Carries orderInfo number ∨ Y o fields))
      (Mid t fun o fields => X o fields ∧ Y o fields) (readOrderField kind.read number m)
      [.value number kind (.member m)] := by
  intro s o fields s' o' hP h
  rw [readOrderField] at h
  by_cases hc : Carries orderInfo number
  · simp only [(orderFieldFlagIsSet_iff orderInfo number).mpr hc, Bool.not_true,
      Bool.false_eq_true, if_false, map_eq_some_iff] at h
    obtain ⟨⟨v, s1⟩, hread, heq⟩ := h
    cases heq
    have hparse : (Slot.value number kind (.member m)).parse orderInfo fields s =
        some (s1, [(.member m, .set v)]) := by
      rw [Slot.parse, show (Slot.value number kind (.member m)).number = number from rfl, if_pos hc,
        Slot.contents, hread]
      rfl
    have hmid : Mid t X o fields := ⟨hP.agree, hP.extra.1⟩
    have hnext := hmid.receive_special hm hX v (.set v)
    refine ⟨[(.member m, .set v)], carried_singleton hparse, hnext.agree, hnext.extra, hY _ _ ?_⟩
    rw [Order.set_self, Sent.receiveAll_cons, Sent.receiveAll_nil, Sent.receive_self]
    rfl
  · simp only [flag_eq_false hc] at h
    cases h
    have hparse : (Slot.value number kind (.member m)).parse orderInfo fields s = some (s, []) := by
      rw [Slot.parse, show (Slot.value number kind (.member m)).number = number from rfl, if_neg hc]
    refine ⟨[], carried_singleton hparse, hP.agree, hP.extra.1, ?_⟩
    exact hP.extra.2.resolve_left hc

/-- Slots with such a field among those in front of a brush, and what is read behind the brush. -/
theorem tracks_split_brush {Y} (hplain : IgnoresPlain t Y)
    (hbrush : IgnoresBrush Y) (kind) (number) (hm : special t m = true)
    (hm' : m.isBrush = false) (hY : ∀ o fields, o m = fields (.member m) → Y o fields)
    (before between) (hbefore : before.all (·.plain t) = true)
    (hbetween : between.all (·.plain t) = true)
    (hafter : ∀ {Z}, IgnoresPlain t Z →
      Tracks orderInfo (Mid t Z) (Mid t Z) (allOf readers) slots) :
    Tracks orderInfo
      (Mid t fun o fields => HasBrush old data o fields ∧ (Carries orderInfo number ∨ Y o fields))
      (Mid t fun o fields => Y o fields ∧ BrushRead orderInfo shift old data o fields)
      (allOf (before.map Slot.reader ++ (readOrderField kind.read number m ::
        between.map Slot.reader ++ updateReadBrush shift :: readers)))
      (before ++ (.value number kind (.member m) :: between ++ (brushSlots shift ++ slots))) := by
  have hfirst : Tracks orderInfo _ _ _ _ := tracks_split (HasBrush old data) Y kind number m hm
    (HasBrush.stable (ne_brush hm' _) (ne_brush hm' _) (ne_brush hm' _)) hY
  have hpre : IgnoresPlain t fun o fields =>
      HasBrush old data o fields ∧ (Carries orderInfo number ∨ Y o fields) :=
    hasBrush_ignoresPlain.and fun m hm hb o fields v y h =>
      h.imp_right (hplain m hm hb o fields v y)
  have hread : Tracks orderInfo (Mid t fun o fields => HasBrush old data o fields ∧ Y o fields)
      (Mid t fun o fields => Y o fields ∧ BrushRead orderInfo shift old data o fields)
      (updateReadBrush shift) (brushSlots shift) :=
    fun s o fields s' o' h => tracks_brush hbrush shift old data ⟨h.agree, h.extra.symm⟩
  exact (tracks_plain hpre before hbefore).append
    ((hfirst.cons (tracks_plain (hasBrush_ignoresPlain.and hplain) between hbetween)).append
      (hread.cons (hafter (hplain.and brushRead_ignoresPlain))))

theorem Tracks.map {g : Order → Order}
    (h : Tracks orderInfo P Q r slots) (hg : ∀ o fields, Q o fields → R (g o) fields) :
    Tracks orderInfo P R (fun orderInfo s o => (r orderInfo s o).map fun (s, o) => (s, g o))
      slots := by
  intro s o fields s' o' hP hr
  obtain ⟨⟨s1, o1⟩, hread, heq⟩ := map_eq_some_iff.mp hr
  cases heq
  obtain ⟨p, hp, hQ⟩ := h hP hread
  exact ⟨p, hp, hg _ _ hQ⟩

/-- The two parts of the `cacheId` word. -/
def CacheIdSplit (o : Order) (fields : Fields) : Prop :=
  o .cacheId = fields (.member .cacheId) &&& 0xFF ∧ o .colorIndex = fields (.member .cacheId) >>> 8

/-- The `cacheId` word before it is split. -/
def CacheIdRead (o : Order) (fields : Fields) : Prop := o .cacheId = fields (.member .cacheId)

theorem and_eq_self_of_shiftRight_eq_zero {x : Word} (h : x >>> 8 = 0) : x &&& 0xFF = x := by
  apply BitVec.eq_of_toNat_eq
  have hx : x.toNat / 2 ^ 8 = 0 := by
    have := congrArg BitVec.toNat h
    simpa [shiftRight_eq_div_pow] using this
  rw [BitVec.toNat_and, show (0xFF : Word).toNat = 2 ^ 8 - 1 from rfl, and_two_pow_sub_one_eq_mod]
  exact mod_eq_of_lt (by omega)

theorem CacheIdSplit.read (h : CacheIdSplit o fields) (orderInfo) :
    Carries orderInfo 1 ∨ (Carries orderInfo 1 ∨ o .colorIndex = 0 → CacheIdRead o fields) := by
  by_cases hc : Carries orderInfo 1
  · exact .inl hc
  refine .inr fun hkeep => ?_
  have hzero := hkeep.resolve_left hc
  rw [h.2] at hzero
  exact h.1.trans (and_eq_self_of_shiftRight_eq_zero hzero)

theorem splitCacheId_spec (h : CacheIdRead o fields) : CacheIdSplit (splitCacheId o) fields := by
  refine ⟨?_, ?_⟩
  · rw [splitCacheId, Order.set_self, Order.set_of_ne _ _ (by decide), h]
  · rw [splitCacheId, Order.set_of_ne _ _ (by decide), Order.set_self, h]

theorem splitCacheId_of_ne (hid : m ≠ .cacheId) (hindex : m ≠ .colorIndex) :
    splitCacheId o m = o m := by
  rw [splitCacheId, Order.set_of_ne _ _ hid, Order.set_of_ne _ _ hindex]

theorem cacheIdRead_ignoresPlain (ht : t.cached = true) : IgnoresPlain t CacheIdRead := by
  intro m hm _ o fields v y h
  have hne : .cacheId ≠ m := Ne.symm (ne_of_special hm ht)
  rw [CacheIdRead, Order.set_of_ne _ _ hne, receive_member_of_ne _ _ hne]
  exact h

/-- The reader of `MEMBLT`: under `C` the word is kept or carried. -/
theorem memblt_tracks (C : Prop) : Tracks orderInfo
      (Mid .memblt fun o fields => True ∧ (Carries orderInfo 1 ∨ (C → CacheIdRead o fields)))
      (Mid .memblt fun o fields => C → CacheIdSplit o fields) OrderType.memblt.reader
        (format .memblt) := by
  have hX := ignoresPlain_true.and ((cacheIdRead_ignoresPlain (t := .memblt) rfl).imp C)
  have hfirst : Tracks orderInfo _ _ _ _ := tracks_split (t := .memblt) (fun _ _ => True)
    (fun o fields => C → CacheIdRead o fields) .uint16 1 .cacheId rfl (fun _ _ _ _ h => h)
    fun _ _ h _ => h
  refine (hfirst.cons (tracks_plain hX ((format .memblt).drop 1) rfl)).map fun o fields h => ?_
  exact h.of_special (fun m hm => splitCacheId_of_ne (ne_of_special hm rfl) (ne_of_special hm rfl))
    fun hC => splitCacheId_spec (h.extra.2 hC)

theorem mem3blt_tracks {C : Prop} {old data} : Tracks orderInfo
      (Mid .mem3blt fun o fields => HasBrush old data o fields ∧
        (Carries orderInfo 1 ∨ (C → CacheIdRead o fields)))
      (Mid .mem3blt fun o fields => (C → CacheIdSplit o fields) ∧
        BrushRead orderInfo 10 old data o fields) OrderType.mem3blt.reader (format .mem3blt) := by
  have hignores : IgnoresBrush fun o fields => C → CacheIdRead o fields := by
    intro o o' fields fields' ho hf h hC
    rw [CacheIdRead, ho _ rfl, hf _ fun m hm => by rw [← Field.member.inj hm]; rfl]
    exact h hC
  refine (tracks_split_brush ((cacheIdRead_ignoresPlain rfl).imp C) hignores .uint16 1 rfl rfl
    (fun _ _ h _ => h) [] (((format .mem3blt).drop 1).take 9) rfl rfl fun hZ =>
    tracks_plain hZ ((format .mem3blt).drop 15) rfl).map fun o fields h => ?_
  have hbrush' : BrushRead orderInfo 10 old data (splitCacheId o) fields :=
    h.extra.2.congr (fun _ => splitCacheId_of_ne (by simp) (by simp)) fun _ => rfl
  exact h.of_special (fun m hm => splitCacheId_of_ne (ne_of_special hm rfl) (ne_of_special hm rfl))
    ⟨fun hC => splitCacheId_spec (h.extra.1 hC), hbrush'⟩

/-- The two parts of the `bRop2` byte.  Before the first order the mode is neither of the two. -/
def Rop2Split (o : Order) (fields : Fields) : Prop :=
  o .bRop2 = fields (.member .bRop2) &&& 0x1F ∧
    (o .backMode = backmodeTransparent ↔ fields (.member .bRop2) &&& 0x80 ≠ 0)

/-- The `bRop2` byte before it is split, as far as the parts are concerned. -/
def Rop2Read (o : Order) (fields : Fields) : Prop :=
  o .bRop2 &&& 0x1F = fields (.member .bRop2) &&& 0x1F ∧
    o .bRop2 &&& 0x80 = fields (.member .bRop2) &&& 0x80

theorem Rop2Split.read (h : Rop2Split o fields) (orderInfo) : Carries orderInfo 3 ∨
      (Carries orderInfo 3 ∨ o .backMode ≠ backmodeTransparent → Rop2Read o fields) := by
  by_cases hc : Carries orderInfo 3
  · exact .inl hc
  refine .inr fun hkeep => ⟨?_, ?_⟩
  · rw [h.1, BitVec.and_assoc, BitVec.and_self]
  have hzero : fields (.member .bRop2) &&& 0x80 = 0 :=
    not_not.mp fun hne => hkeep.resolve_left hc (h.2.mpr hne)
  rw [h.1, hzero, BitVec.and_assoc]
  exact BitVec.and_zero

/-- The `bRop2` byte after it is split. -/
def Rop2Parts (o : Order) (fields : Fields) : Prop :=
  o .bRop2 = fields (.member .bRop2) &&& 0x1F ∧ o .backMode = backModeOf (fields (.member .bRop2))

theorem splitRop2_spec (h : Rop2Read o fields) : Rop2Parts (splitRop2 o) fields := by
  refine ⟨?_, ?_⟩
  · rw [splitRop2, Order.set_self, Order.set_of_ne _ _ (by decide), h.1]
  · rw [splitRop2, Order.set_of_ne _ _ (by decide), Order.set_self, h.2, backModeOf]

theorem splitRop2_of_ne (hrop : m ≠ .bRop2) (hmode : m ≠ .backMode) : splitRop2 o m = o m := by
  rw [splitRop2, Order.set_of_ne _ _ hrop, Order.set_of_ne _ _ hmode]

theorem backModeOf_eq_transparent :
    backModeOf bRop2 = backmodeTransparent ↔ bRop2 &&& 0x80 ≠ 0 := by
  rw [backModeOf]
  split
  · next h => exact ⟨fun _ => h, fun _ => rfl⟩
  · next h => exact ⟨nofun, fun hne => absurd hne h⟩

theorem rop2Read_ignoresPlain : IgnoresPlain .polygonCb Rop2Read := by
  intro m hm _ o fields v y h
  have hne : .bRop2 ≠ m := (ne_of_special hm rfl).symm
  rw [Rop2Read, Order.set_of_ne _ _ hne, receive_member_of_ne _ _ hne]
  exact h

/-- The reader of `POLYGON_CB`: under `C` the byte is kept or carried. -/
theorem polygonCb_tracks {C : Prop} : Tracks orderInfo (Mid .polygonCb fun o fields =>
        HasBrush old data o fields ∧ (Carries orderInfo 3 ∨ (C → Rop2Read o fields)))
      (Mid .polygonCb fun o fields => (C → Rop2Parts o fields) ∧
        BrushRead orderInfo 6 old data o fields)
      OrderType.polygonCb.reader (format .polygonCb) := by
  have hignores : IgnoresBrush fun o fields => C → Rop2Read o fields := by
    intro o o' fields fields' ho hf h hC
    rw [Rop2Read, ho _ rfl, hf _ fun m hm => by rw [← Field.member.inj hm]; rfl]
    exact h hC
  refine (tracks_split_brush (rop2Read_ignoresPlain.imp C) hignores .byte 3 rfl rfl
    (fun _ _ h _ => by rw [Rop2Read, h]; exact ⟨rfl, rfl⟩) ((format .polygonCb).take 2)
    (((format .polygonCb).drop 3).take 3) rfl rfl fun hZ => tracks_checkedPoints hZ 12 13
    .numPoints ⟨rfl, rfl⟩ (by decide) ⟨by decide, by decide⟩ (by simp)).map fun o fields h => ?_
  have hbrush' : BrushRead orderInfo 6 old data (splitRop2 o) fields :=
    h.extra.2.congr (fun _ => splitRop2_of_ne (by simp) (by simp)) fun _ => rfl
  exact h.of_special (fun m hm => splitRop2_of_ne (ne_of_special hm rfl) (ne_of_special hm rfl))
    ⟨fun hC => splitRop2_spec (h.extra.1 hC), hbrush'⟩

/-! ## One order -/

/-- The first row of the pattern is the hatch, once there is a pattern. -/
def PatternKept (o : Order) (fields : Fields) : Prop :=
  fields (.member (.brush .data)) = 0 ∨
    o (.brush (.p8x8 0)) = fields (.member (.brush .hatch)) ∧ fields (.member (.brush .data)) = 1

/-- The derived members of a brush are those that it shall have. -/
structure BrushSent (t : OrderType) (o : Order) (fields : Fields) : Prop where
  cached : CacheBrush t fields → o (.brush .index) = fields (.member (.brush .hatch)) ∧
    getBmfBpp (fields (.member (.brush .style))) = some (o (.brush .bpp))
  pattern : PatternKept o fields
  data : OwnBrush t fields → o (.brush .data) = fields (.member (.brush .data))
  monochrome : OwnBrush t fields → o (.brush .bpp) ≤ 1

/-- What holds of the derived members between two orders. -/
def Rest : OrderType → Order → Fields → Prop
  | .opaqueRect | .multiOpaqueRect => ColorKept
  | .memblt => CacheIdSplit
  | .mem3blt => fun o fields => CacheIdSplit o fields ∧ PatternKept o fields
  | .polygonCb => fun o fields => Rop2Split o fields ∧ PatternKept o fields
  | .patblt | .multiPatblt | .glyphIndex | .ellipseCb => PatternKept
  | _ => fun _ _ => True

theorem expected_of_not_special (hm : special t m = false) :
    expected t fields m = some (fields (.member m)) := by
  cases m with
  | color | cacheId | colorIndex => exact if_neg (Bool.eq_false_iff.mp hm)
  | bRop2 | backMode => exact if_neg (of_decide_eq_false hm)
  | brush b =>
    cases b with
    | p8x8 i =>
      cases i with
      | zero => cases hm
      | succ i => rfl
    | index | bpp | data => cases hm
    | x | y | style | hatch => rfl
  | _ => rfl

/-- The members that an order shall have, from those that are not derived and the derived ones. -/
theorem follows_intro (hagree : ∀ m, special t m = false → o m = fields (.member m))
    (hcolor : t.colored = true → o .color = colorOf fields)
    (hcache : t.cached = true → CacheIdSplit o fields) (hrop : t = .polygonCb → Rop2Parts o fields)
    (hbrush : t.brushShift.isSome = true → BrushSent t o fields) : Follows t fields o := by
  refine ⟨fun m v h => ?_, fun hown => (hbrush hown.1).monochrome hown⟩
  by_cases hm : special t m = false
  · rw [expected_of_not_special hm] at h
    exact (hagree m hm).trans (some.inj h)
  rw [Bool.not_eq_false] at hm
  cases m with
  | color =>
    have ht : t.colored = true := hm
    rw [expected, if_pos ht] at h
    exact (hcolor ht).trans (some.inj h)
  | cacheId =>
    have ht : t.cached = true := hm
    rw [expected, if_pos ht] at h
    exact (hcache ht).1.trans (some.inj h)
  | colorIndex =>
    have ht : t.cached = true := hm
    rw [expected, if_pos ht] at h
    exact (hcache ht).2.trans (some.inj h)
  | bRop2 =>
    have ht : t = .polygonCb := of_decide_eq_true hm
    rw [expected, if_pos ht] at h
    exact (hrop ht).1.trans (some.inj h)
  | backMode =>
    have ht : t = .polygonCb := of_decide_eq_true hm
    rw [expected, if_pos ht] at h
    exact (hrop ht).2.trans (some.inj h)
  | brush b =>
    cases b with
    | index =>
      rw [expected, ite_none_right_eq_some] at h
      exact ((hbrush h.1.1).cached h.1).1.trans (some.inj h.2)
    | bpp =>
      rw [expected, ite_none_right_eq_some] at h
      exact some.inj (((hbrush h.1.1).cached h.1).2.symm.trans h.2)
    | data =>
      rw [expected, ite_none_right_eq_some] at h
      exact ((hbrush h.1.1).data h.1).trans (some.inj h.2)
    | p8x8 i =>
      cases i with
      | zero =>
        rw [expected, ite_none_right_eq_some] at h
        have hrow := (hbrush h.1.1).pattern.resolve_left (by rw [h.1.2]; decide)
        exact hrow.1.trans (some.inj h.2)
      | succ i => cases hm
    | x | y | style | hatch => cases hm
  | _ => cases hm

/-- The derived members of a brush after an order that keeps them. -/
theorem BrushRead.sent (ht : t.brushShift = some shift)
    (h : BrushRead orderInfo shift before (fields (.member (.brush .data))) o fields')
    (hbefore : PatternKept before fields) (hkeep : Keeps t orderInfo before fields') :
    BrushSent t o fields' where
  cached hcache := (if_pos hcache.2).mp h.cached
  pattern := by
    by_cases hc : Carries orderInfo (shift + 5)
    · exact .inr ⟨(h.carries hc).1, (h.carries hc).2.2⟩
    have homits := h.omits hc
    rcases (hkeep.pattern shift ht).resolve_left hc with hdata | hhatch
    · exact .inl hdata
    rcases hbefore with hzero | hrow
    · exact .inl (homits.2.2.trans hzero)
    · exact .inr ⟨homits.1.trans hhatch.symm, homits.2.2.trans hrow.2⟩
  data hown := by
    by_cases hc : Carries orderInfo (shift + 5)
    · exact (h.carries hc).2.1.trans (h.carries hc).2.2.symm
    · exact (h.omits hc).2.1.trans ((hkeep.data shift ht hown).resolve_left hc)
  monochrome hown := by
    have hbpp : o (.brush .bpp) = before (.brush .bpp) := (if_neg (not_not.mpr hown.2)).mp h.cached
    rw [hbpp]
    exact hkeep.bpp hown

/-- An order is read as it is on the wire, and when it keeps the derived members, the structure has
the members that it shall have. -/
def ReadAsSent (t : OrderType) (orderInfo : OrderInfo) (o : Order) (fields : Fields)
    (s s' : List UInt8) (o' : Order) : Prop :=
  ∃ p, carried orderInfo (format t) fields s = some (s', p) ∧
    (Keeps t orderInfo o (Sent.receiveAll fields p) →
      Mid t (Rest t) o' (Sent.receiveAll fields p) ∧ Follows t (Sent.receiveAll fields p) o')

theorem direct_read (ht : t.direct = true) (hsync : Mid t (Rest t) o fields)
    (hread : t.reader orderInfo s o = some (s', o')) : ReadAsSent t orderInfo o fields s s' o' := by
  obtain ⟨p, hp, hmid⟩ := direct_tracks ht ⟨hsync.agree, trivial⟩ hread
  refine ⟨p, hp, fun _ => ⟨⟨hmid.agree, ?_⟩, ?_⟩⟩
  · cases t with
    | dstblt | scrblt | drawNineGrid | multiDrawNineGrid | lineTo | saveBitmap | multiDstblt
    | multiScrblt | fastIndex | polygonSc | polyline | fastGlyph | ellipseSc => trivial
    | _ => cases ht
  · apply follows_intro hmid.agree
    all_goals
      intro h
      cases t <;> first | exact Bool.noConfusion ht | exact Bool.noConfusion h | cases h

theorem colored_read (ht : t.colored = true) (hrest : Rest t = ColorKept)
    (hsync : Mid t (Rest t) o fields) (hread : t.reader orderInfo s o = some (s', o')) :
    ReadAsSent t orderInfo o fields s s' o' := by
  rw [hrest] at hsync
  obtain ⟨p, hp, hmid⟩ := colored_tracks ht hsync hread
  refine ⟨p, hp, fun _ => ⟨by rwa [hrest], ?_⟩⟩
  apply follows_intro hmid.agree
  · exact fun _ => hmid.extra.1
  all_goals
    intro h
    cases t <;> first | exact Bool.noConfusion ht | exact Bool.noConfusion h | cases h

theorem brush_read (ht : t.brushShift = some shift) (hcached : t.cached = false)
    (hrop : t ≠ .polygonCb) (hrest : Rest t = PatternKept) (hsync : Mid t (Rest t) o fields)
    (hread : t.reader orderInfo s o = some (s', o')) : ReadAsSent t orderInfo o fields s s' o' := by
  rw [hrest] at hsync
  obtain ⟨p, hp, hmid⟩ :=
    brush_tracks ht hcached hrop o _ ⟨hsync.agree, trivial, ⟨rfl, rfl, rfl⟩, rfl⟩ hread
  refine ⟨p, hp, fun hkeep => ?_⟩
  have hbrush := hmid.extra.2.sent ht hsync.extra hkeep
  refine ⟨by rw [hrest]; exact ⟨hmid.agree, hbrush.pattern⟩, ?_⟩
  apply follows_intro hmid.agree
  · intro h
    cases t <;> first | exact Bool.noConfusion h | exact absurd ht (by simp [OrderType.brushShift])
  · exact fun h => absurd h (by simp [hcached])
  · exact fun h => absurd h hrop
  · exact fun _ => hbrush

theorem memblt_read (hsync : Mid .memblt (Rest .memblt) o fields)
    (hread : OrderType.memblt.reader orderInfo s o = some (s', o')) :
    ReadAsSent .memblt orderInfo o fields s s' o' := by
  have hsplit : CacheIdSplit o fields := hsync.extra
  obtain ⟨p, hp, hmid⟩ := memblt_tracks _ ⟨hsync.agree, trivial, hsplit.read orderInfo⟩ hread
  refine ⟨p, hp, fun hkeep => ?_⟩
  have hcache := hmid.extra (hkeep.cacheId rfl)
  refine ⟨⟨hmid.agree, hcache⟩, ?_⟩
  apply follows_intro hmid.agree
  · exact nofun
  · exact fun _ => hcache
  · exact nofun
  · exact nofun

theorem mem3blt_read (hsync : Mid .mem3blt (Rest .mem3blt) o fields)
    (hread : OrderType.mem3blt.reader orderInfo s o = some (s', o')) :
    ReadAsSent .mem3blt orderInfo o fields s s' o' := by
  have hsplit : CacheIdSplit o fields := hsync.extra.1
  obtain ⟨p, hp, hmid⟩ :=
    mem3blt_tracks ⟨hsync.agree, ⟨⟨rfl, rfl, rfl⟩, rfl⟩, hsplit.read orderInfo⟩ hread
  refine ⟨p, hp, fun hkeep => ?_⟩
  have hcache := hmid.extra.1 (hkeep.cacheId rfl)
  have hbrush := hmid.extra.2.sent rfl hsync.extra.2 hkeep
  refine ⟨⟨hmid.agree, hcache, hbrush.pattern⟩, ?_⟩
  apply follows_intro hmid.agree
  · exact nofun
  · exact fun _ => hcache
  · exact nofun
  · exact fun _ => hbrush

theorem polygonCb_read (hsync : Mid .polygonCb (Rest .polygonCb) o fields)
    (hread : OrderType.polygonCb.reader orderInfo s o = some (s', o')) :
    ReadAsSent .polygonCb orderInfo o fields s s' o' := by
  have hsplit : Rop2Split o fields := hsync.extra.1
  obtain ⟨p, hp, hmid⟩ :=
    polygonCb_tracks ⟨hsync.agree, ⟨⟨rfl, rfl, rfl⟩, rfl⟩, hsplit.read orderInfo⟩ hread
  refine ⟨p, hp, fun hkeep => ?_⟩
  have hparts := hmid.extra.1 (hkeep.bRop2 rfl)
  have hbrush := hmid.extra.2.sent rfl hsync.extra.2 hkeep
  have hmode : o' .backMode = backmodeTransparent ↔
      Sent.receiveAll fields p (.member .bRop2) &&& 0x80 ≠ 0 := by
    rw [hparts.2]
    exact backModeOf_eq_transparent
  refine ⟨⟨hmid.agree, ⟨hparts.1, hmode⟩, hbrush.pattern⟩, ?_⟩
  apply follows_intro hmid.agree
  · exact nofun
  · exact nofun
  · exact fun _ => hparts
  · exact fun _ => hbrush

/-- **One order**, of any type. -/
theorem reader_spec (hsync : Mid t (Rest t) o fields)
    (hread : t.reader orderInfo s o = some (s', o')) : ReadAsSent t orderInfo o fields s s' o' := by
  cases t with
  | dstblt | scrblt | drawNineGrid | multiDrawNineGrid | lineTo | saveBitmap | multiDstblt
  | multiScrblt | fastIndex | polygonSc | polyline | fastGlyph | ellipseSc =>
    exact direct_read rfl hsync hread
  | opaqueRect | multiOpaqueRect => exact colored_read rfl rfl hsync hread
  | patblt | multiPatblt | glyphIndex | ellipseCb =>
      exact brush_read rfl rfl (by decide) rfl hsync hread
  | memblt => exact memblt_read hsync hread
  | mem3blt => exact mem3blt_read hsync hread
  | polygonCb => exact polygonCb_read hsync hread

/-! ## Runs -/

theorem Wire.fields_push_self (w : Wire) (orderInfo) (t) (p) :
    (w.push (orderInfo, some (t, p))).fields t = Sent.receiveAll (w.fields t) p := by
  funext f
  show Sent.inForce (Sent.sentTo f (Function.update w.sent t (p :: w.sent t) t)) = _
  rw [Function.update_self]
  exact congrFun (Sent.inForce_sentTo_cons p (w.sent t)) f

theorem Wire.fields_push_of_ne (w : Wire) (orderInfo) (h : t' ≠ t)
    (p) : (w.push (orderInfo, some (t, p))).fields t' = w.fields t' := by
  funext f
  show Sent.inForce (Sent.sentTo f (Function.update w.sent t (p :: w.sent t) t')) = _
  rw [Function.update_of_ne h]
  rfl

theorem Rest.congr (h : Rest t o fields)
    (ho : ∀ m, m ≠ .brush .data → m ≠ .brush .bpp → o' m = o m) : Rest t o' fields := by
  have hpattern : PatternKept o fields → PatternKept o' fields := fun hp =>
    hp.imp_right fun hr => ⟨(ho _ (by decide) (by decide)).trans hr.1, hr.2⟩
  have hcolor : ColorKept o fields → ColorKept o' fields :=
    fun hc => ⟨(ho _ (by decide) (by decide)).trans hc.1, hc.2⟩
  have hcache : CacheIdSplit o fields → CacheIdSplit o' fields := fun hc =>
    ⟨(ho _ (by decide) (by decide)).trans hc.1, (ho _ (by decide) (by decide)).trans hc.2⟩
  have hrop : Rop2Split o fields → Rop2Split o' fields := by
    intro hr
    rw [Rop2Split, ho _ (by decide) (by decide), ho _ (by decide) (by decide)]
    exact hr
  cases t with
  | opaqueRect | multiOpaqueRect => exact hcolor h
  | memblt => exact hcache h
  | mem3blt => exact ⟨hcache h.1, hpattern h.2⟩
  | polygonCb => exact ⟨hrop h.1, hpattern h.2⟩
  | patblt | multiPatblt | glyphIndex | ellipseCb => exact hpattern h
  | _ => trivial

/-- The decoder's structures hold the fields in force. -/
structure InStep (primary : PrimaryUpdate) (w : Wire) : Prop where
  orderInfo : w.orderInfo = primary.orderInfo
  orders : ∀ t, Mid t (Rest t) (primary.orders t) (w.fields t)

theorem inStep_start : InStep updateResetState Wire.start where
  orderInfo := rfl
  orders t := by
    refine ⟨fun _ _ => rfl, ?_⟩
    have hcolor : ColorKept (updateResetState.orders t) (Wire.start.fields t) :=
      ⟨show (0 : Word) = 0 ||| 0 <<< 8 ||| 0 <<< 16 from by decide, fun _ => ⟨0, rfl⟩⟩
    have hpattern : PatternKept (updateResetState.orders t) (Wire.start.fields t) := .inl rfl
    have hcache : CacheIdSplit (updateResetState.orders t) (Wire.start.fields t) :=
      show (0 : Word) = 0 &&& 0xFF ∧ (0 : Word) = (0 : Word) >>> 8 from by decide
    have hrop : Rop2Split (updateResetState.orders t) (Wire.start.fields t) :=
      show (0 : Word) = 0 &&& 0x1F ∧ ((0 : Word) = backmodeTransparent ↔ (0 : Word) &&& 0x80 ≠ 0)
        from by decide
    cases t with
    | opaqueRect | multiOpaqueRect => exact hcolor
    | memblt => exact hcache
    | mem3blt => exact ⟨hcache, hpattern⟩
    | polygonCb => exact ⟨hrop, hpattern⟩
    | patblt | multiPatblt | glyphIndex | ellipseCb => exact hpattern
    | _ => trivial

theorem InStep.push (h : InStep primary w)
    (hmid : Mid t (Rest t) o (Sent.receiveAll (w.fields t) p)) (orderInfo) :
    InStep ⟨orderInfo, Function.update primary.orders t o⟩ (w.push (orderInfo, some (t, p))) where
  orderInfo := rfl
  orders t' := by
    by_cases ht : t' = t
    · subst ht
      rw [Wire.fields_push_self]
      simpa using hmid
    · rw [Wire.fields_push_of_ne w orderInfo ht]
      simpa [Function.update_of_ne ht] using h.orders t'

/-- **One order of a run.** -/
theorem updateRecvPrimaryOrder_spec (h : InStep primary w) {d : Delivery}
    (hrecv : updateRecvPrimaryOrder settings d.app d.flags d.s primary = some received) :
    ∃ next, w.order settings d.flags d.s = some next ∧
      ((∀ t p, next.2 = some (t, p) → Keeps t next.1 (primary.orders t) ((w.push next).fields t)) →
        InStep received.primary (w.push next) ∧ ∀ t o, received.handed = some (t, o) →
          (∃ p, next.2 = some (t, p)) ∧ Follows t ((w.push next).fields t) o) := by
  obtain ⟨⟨s, orderInfo⟩, hinfo, hrecv⟩ := bind_eq_some_iff.mp hrecv
  rw [Wire.order, h.orderInfo, hinfo]
  simp only [bind_eq_bind, bind_some] at hrecv ⊢
  split at hrecv
  · cases hrecv
  rcases htype : OrderType.ofNat? orderInfo.orderType with _ | t
  · simp only [htype] at hrecv ⊢
    cases hrecv
    exact ⟨(orderInfo, none), rfl, fun _ => ⟨⟨rfl, h.orders⟩, fun t o hh => absurd hh (by simp)⟩⟩
  simp only [htype] at hrecv ⊢
  obtain ⟨⟨s', o⟩, hread, hrecv⟩ := bind_eq_some_iff.mp hrecv
  obtain ⟨p, hp, hspec⟩ := reader_spec (h.orders t) hread
  simp only [hp]
  refine ⟨(orderInfo, some (t, p)), rfl, fun hkeep => ?_⟩
  have hkeep' := hkeep t p rfl
  rw [Wire.fields_push_self] at hkeep'
  obtain ⟨hmid, hfollows⟩ := hspec hkeep'
  split at hrecv
  · cases hrecv
    exact ⟨h.push hmid orderInfo, fun t o hh => absurd hh (by simp)⟩
  cases hrecv
  have hkeeps := d.app.draw_keeps t o
  have hdraw : Mid t (Rest t) (d.app.draw t o).2 (Sent.receiveAll (w.fields t) p) :=
    hmid.of_special (fun m hm => hkeeps m (ne_of_special hm rfl) (ne_of_special hm rfl))
      (hmid.extra.congr hkeeps)
  refine ⟨h.push hdraw orderInfo, fun t' o' hh => ?_⟩
  cases hh
  refine ⟨⟨p, rfl⟩, ?_⟩
  rw [Wire.fields_push_self]
  exact hfollows

/-- The orders of a run that keeps the derived members, from a decoder in step. -/
theorem InStep.run (ds) (h : InStep primary w) (hkeep : RunKeeps settings primary w ds) :
    RunFollows settings primary w ds := by
  induction ds generalizing primary w with
  | nil => trivial
  | cons d ds ih =>
  intro received hrecv
  obtain ⟨next, hnext, hspec⟩ := updateRecvPrimaryOrder_spec h hrecv
  obtain ⟨hstep, hrest⟩ := hkeep received hrecv next hnext
  obtain ⟨hin, hhanded⟩ := hspec hstep
  exact ⟨next, hnext, hhanded, ih hin hrest⟩

/-- **The orders follow what was last sent**: in a run in which no order omits a field whose derived
members the decoder does not keep, every order that is handed to its callback has the members that
the fields in force give. -/
theorem orders_follow_last_sent (settings : Settings) (ds : List Delivery)
    (hkeep : RunKeeps settings updateResetState Wire.start ds) :
    RunFollows settings updateResetState Wire.start ds :=
  inStep_start.run ds hkeep

def acceptAll : Callbacks where
  setBounds _ := true
  orderInfo _ := true
  draw _ o := (true, o)
  draw_keeps _ _ _ _ _ := rfl

def allAnnounced : Settings := ⟨fun _ => true, false⟩

/-- A `MEMBLT` order with the `cacheId` word `0x0305` and no other field. -/
def membltWithCacheId : Delivery := ⟨0x09, [0x0D, 0x01, 0x00, 0x05, 0x03], acceptAll⟩

/-- A `MEMBLT` order with the `cacheId` word `0x0305` and a change of `nLeftRect`. -/
def membltMoved : Delivery := ⟨0x11, [0x03, 0x00, 0x05, 0x03, 0x07], acceptAll⟩

/-- A `MEMBLT` order with a change of `nLeftRect` and without `cacheId`. -/
def membltWithoutCacheId : Delivery := ⟨0x11, [0x02, 0x00, 0x07], acceptAll⟩

/-- The first of these orders, as it is on the wire. -/
def membltSent : OrderInfo × Option (OrderType × Packet) :=
  (⟨13, 1, ⟨0, 0, 0, 0⟩, false⟩, some (.memblt, [(.member .cacheId, .set 0x0305)]))

/-- A `MEMBLT` order that carries the `cacheId` word keeps what is derived; it has no brush. -/
theorem keeps_memblt (h : Carries orderInfo 1) (before fields) :
    Keeps .memblt orderInfo before fields where
  cacheId _ := .inl h
  bRop2 ht := OrderType.noConfusion ht
  pattern _ ht := (some_ne_none _ ht.symm).elim
  data _ ht := (some_ne_none _ ht.symm).elim
  bpp hown := Bool.noConfusion hown.1

/-- Two orders that carry the `cacheId` word. -/
theorem orders_follow_last_sent_memblt :
    RunFollows allAnnounced updateResetState Wire.start [membltWithCacheId, membltMoved] := by
  apply orders_follow_last_sent
  intro received _ next hnext
  have hfirst : Wire.start.order allAnnounced 0x09 membltWithCacheId.s = some membltSent := rfl
  obtain rfl := some.inj (hfirst.symm.trans hnext)
  refine ⟨?_, ?_⟩
  · intro t p h
    cases h
    exact keeps_memblt (by decide) _ _
  intro received _ next hnext
  refine ⟨?_, trivial⟩
  have hsecond : (Wire.start.push membltSent).order allAnnounced 0x11 membltMoved.s =
      some (⟨13, 3, ⟨0, 0, 0, 0⟩, true⟩,
        some (.memblt, [(.member .cacheId, .set 0x0305), (.member .nLeftRect, .add 7)])) := rfl
  obtain rfl := some.inj (hsecond.symm.trans hnext)
  intro t p h
  cases h
  exact keeps_memblt (by decide) _ _

/-- The structure after the first of these orders. -/
def membltRead : Order := splitCacheId (Order.set (fun _ => 0) .cacheId 0x0305)

/-- An order without the `cacheId` word loses the colour index of the word that is in force. -/
theorem memblt_loses_colorIndex :
    ¬RunFollows allAnnounced updateResetState Wire.start
    [membltWithCacheId, membltWithoutCacheId] := by
  intro h
  have hfirst : updateRecvPrimaryOrder allAnnounced acceptAll 0x09 membltWithCacheId.s
    updateResetState =
      some ⟨[], ⟨⟨13, 1, ⟨0, 0, 0, 0⟩, false⟩,
        Function.update updateResetState.orders .memblt membltRead⟩,
        some (.memblt, membltRead), true⟩ := rfl
  obtain ⟨next, hnext, -, h⟩ := h _ hfirst
  have hsent : Wire.start.order allAnnounced 0x09 membltWithCacheId.s = some membltSent := rfl
  obtain rfl := some.inj (hsent.symm.trans hnext)
  obtain ⟨next, hnext, hhanded, -⟩ := h _ rfl
  have hsent' : (Wire.start.push membltSent).order allAnnounced 0x11 membltWithoutCacheId.s =
      some (⟨13, 2, ⟨0, 0, 0, 0⟩, true⟩, some (.memblt, [(.member .nLeftRect, .add 7)])) := rfl
  obtain rfl := some.inj (hsent'.symm.trans hnext)
  have hindex := (hhanded .memblt _ rfl).2.members .colorIndex 3 rfl
  exact absurd hindex (by decide)

end WBFreeRDP.Orders

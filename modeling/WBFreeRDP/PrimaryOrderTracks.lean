/-
# Reading the fields of a primary order

The readers of the decoder against the fields on the wire.
-/
import WBFreeRDP.PrimaryOrderFields
import Mathlib.Data.Nat.Bitwise

namespace WBFreeRDP.Orders

open List Nat Option

variable {t : OrderType} {orderInfo : OrderInfo} {P Q R X : Order → Fields → Prop}

/-! ## Flags and packets -/

/-- The flag of a field is set if the order carries it. -/
theorem orderFieldFlagIsSet_iff (orderInfo number) :
    orderFieldFlagIsSet orderInfo number = true ↔ Carries orderInfo number := by
  rw [orderFieldFlagIsSet, Carries, one_shiftLeft, and_two_pow]
  cases orderInfo.fieldFlags.testBit (number - 1) with
  | false => simp
  | true => simp

@[simp] theorem Order.setAll_nil (o : Order) : o.setAll [] = o := rfl

@[simp] theorem Order.setAll_cons (o : Order) (w) (writes) :
    o.setAll (w :: writes) = (o.set w.1 w.2).setAll writes := rfl

@[simp] theorem sets_nil : sets [] = [] := rfl

@[simp] theorem sets_cons (w writes) :
    sets (w :: writes) = (.member w.1, .set w.2) :: sets writes := rfl

variable {s : List UInt8} {p : Packet} {fields : Fields}

theorem carried_cons (hp : slot.parse orderInfo fields s = some (s1, p))
    (hq : carried orderInfo slots (Sent.receiveAll fields p) s1 = some (s2, q)) :
    carried orderInfo (slot :: slots) fields s = some (s2, p ++ q) := by
  simp [carried, hp, hq]

variable {s' : List UInt8}

theorem carried_singleton (hp : slot.parse orderInfo fields s = some (s', p)) :
    carried orderInfo [slot] fields s = some (s', p) := by
  simpa using carried_cons hp (show carried orderInfo [] _ s' = some (s', []) from rfl)

variable {a b : List Slot}

/-- Fields that are carried one after the other. -/
theorem carried_append (hp : carried orderInfo a fields s = some (s1, p))
    (hq : carried orderInfo b (Sent.receiveAll fields p) s1 = some (s2, q)) :
    carried orderInfo (a ++ b) fields s = some (s2, p ++ q) := by
  induction a generalizing fields s p with
  | nil =>
    obtain ⟨rfl, rfl⟩ : s = s1 ∧ [] = p := by simpa [carried] using hp
    exact hq
  | cons slot a ih =>
  obtain ⟨⟨s₀, p₀⟩, hslot, hp⟩ := bind_eq_some_iff.mp hp
  obtain ⟨⟨s', p'⟩, hp', hp⟩ := bind_eq_some_iff.mp hp
  obtain ⟨rfl, rfl⟩ : s' = s1 ∧ p₀ ++ p' = p := by simpa using hp
  rw [Sent.receiveAll_append] at hq
  rw [append_assoc]
  exact carried_cons hslot (ih hp' hq)

/-! ## Tracking -/

/-- A reader reads the fields of the slots and takes a structure and fields in `P` to ones in
`Q`. -/
def Tracks (orderInfo : OrderInfo) (P Q : Order → Fields → Prop) (r : OrderReader)
    (slots : List Slot) :
    Prop :=
  ∀ ⦃s o fields s' o'⦄, P o fields → r orderInfo s o = some (s', o') →
    ∃ p, carried orderInfo slots fields s = some (s', p) ∧ Q o' (Sent.receiveAll fields p)

theorem tracks_nil : Tracks orderInfo P P (allOf []) [] := by
  intro s o fields s' o' hP h
  obtain ⟨rfl, rfl⟩ : s = s' ∧ o = o' := by simpa [allOf] using h
  exact ⟨[], rfl, hP⟩

/-- Readers one after the other read the slots one after the other. -/
theorem Tracks.cons (hr : Tracks orderInfo P Q r a) (hrs : Tracks orderInfo Q R (allOf readers) b) :
    Tracks orderInfo P R (allOf (r :: readers)) (a ++ b) := by
  intro s o fields s' o' hP h
  rw [allOf] at h
  rcases hso : r orderInfo s o with _ | so
  · rw [hso] at h
    cases h
  rw [hso] at h
  obtain ⟨p, hp, hQ⟩ := hr hP hso
  obtain ⟨q, hq, hR⟩ := hrs hQ h
  refine ⟨p ++ q, carried_append hp hq, ?_⟩
  rw [Sent.receiveAll_append]
  exact hR

/-- Readers in two groups. -/
theorem allOf_append (readers readers' s o) : allOf (readers ++ readers') orderInfo s o =
      (allOf readers orderInfo s o).bind fun (s, o) => allOf readers' orderInfo s o := by
  induction readers generalizing s o with
  | nil => rfl
  | cons r readers ih =>
  rw [cons_append, allOf, allOf]
  cases r orderInfo s o with
  | none => rfl
  | some so => exact ih so.1 so.2

/-- Tracking goes on from one group of readers to the next. -/
theorem Tracks.append
    (hr : Tracks orderInfo P Q (allOf readers) a) (hrs : Tracks orderInfo Q R (allOf readers') b) :
    Tracks orderInfo P R (allOf (readers ++ readers')) (a ++ b) := by
  intro s o fields s' o' hP h
  rw [allOf_append] at h
  obtain ⟨so, hso, h⟩ := bind_eq_some_iff.mp h
  obtain ⟨p, hp, hQ⟩ := hr hP hso
  obtain ⟨q, hq, hR⟩ := hrs hQ h
  refine ⟨p ++ q, carried_append hp hq, ?_⟩
  rw [Sent.receiveAll_append]
  exact hR

/-! ## Members that agree with their fields -/

/-- The members that are derived from fields of other names or parts of fields. -/
def special (t : OrderType) : Member → Bool
  | .brush .index | .brush .bpp | .brush .data | .brush (.p8x8 0) => true
  | .color => t.colored
  | .cacheId | .colorIndex => t.cached
  | .bRop2 | .backMode => t = .polygonCb
  | _ => false

variable {m' : Member} {m : Member}

theorem ne_of_special (hm : special t m = false) (hm' : special t m' = true) : m ≠ m' := by
  rintro rfl
  exact Bool.noConfusion (hm.symm.trans hm')

/-- The structure of an order and the fields in force while the order is read: the members that are
not derived have the values of their fields, and `X` holds of the others. -/
structure Mid (t : OrderType) (X : Order → Fields → Prop) (o : Order) (fields : Fields) : Prop where
  agree : ∀ m, special t m = false → o m = fields (.member m)
  extra : X o fields

/-- `X` does not care about member `m` and its field. -/
def Stable (X : Order → Fields → Prop) (m : Member) : Prop :=
  ∀ o fields v y, X o fields → X (o.set m v) (Sent.receive fields (.member m, y))

variable {Y : Order → Fields → Prop}

theorem Stable.and (hX : Stable X m) (hY : Stable Y m) :
    Stable (fun o fields => X o fields ∧ Y o fields) m :=
  fun o fields v y h => ⟨hX o fields v y h.1, hY o fields v y h.2⟩

/-- A member that is not derived and that `X` does not care about. -/
def Free (t : OrderType) (X : Order → Fields → Prop) (m : Member) : Prop :=
  special t m = false ∧ Stable X m

@[simp] theorem Order.set_self (o : Order) (m) (v) : o.set m v m = v :=
  Function.update_self _ _ _

theorem Order.set_of_ne (o : Order) (v) (h : m' ≠ m) : o.set m v m' = o m' :=
  Function.update_of_ne h _ _

theorem Order.set_eq_self {o : Order} (h : o m = v) : o.set m v = o := by
  rw [Order.set, ← h, Function.update_eq_self]

theorem receive_member_of_ne (fields : Fields) (x) (h : m' ≠ m) :
    Sent.receive fields (.member m, x) (.member m') = fields (.member m') :=
  Sent.receive_of_ne fields fun he => h (Field.member.inj he).symm

variable {o : Order} {fields : Fields} {m : Member}

/-- A free member follows its field. -/
theorem Mid.receive (h : Mid t X o fields) (hm : Free t X m) (x) :
    Mid t X (o.set m (x.apply (o m))) (Sent.receive fields (.member m, x)) where
  agree m' hm' := by
    by_cases he : m' = m
    · subst he
      rw [Order.set_self, Sent.receive_self, h.agree m' hm.1]
    · rw [Order.set_of_ne o _ he, receive_member_of_ne fields x he]
      exact h.agree m' hm'
  extra := hm.2 o fields _ x h.extra

/-- Free members follow their fields. -/
theorem Mid.setAll (h : Mid t X o fields) (hw : ∀ w ∈ writes, Free t X w.1) :
    Mid t X (o.setAll writes) (Sent.receiveAll fields (sets writes)) := by
  induction writes generalizing o fields with
  | nil => exact h
  | cons w writes ih =>
    exact ih (h.receive (hw w mem_cons_self) (.set w.2)) fun w' hw' => hw w' (mem_cons_of_mem w hw')

/-! ## Fields that are read into their members -/

/-- The reader of a slot whose fields are read into their members. -/
def Slot.reader : Slot → OrderReader
  | value n kind (.member m) => readOrderField kind.read n m
  | coord n m => readOrderFieldCoord n m
  | twoBytes n m₁ m₂ => readOrderField2bytes n m₁ m₂
  | unused n kind => fun orderInfo s o =>
      (readOrderFieldLocal kind.read orderInfo n 0 s).map fun (_, s) => (s, o)
  | bytes n => readVariableBytes n
  | glyph n => readFastGlyphBytes n
  | _ => fun _ _ _ => none

/-- The members that such a slot is read into. -/
def Slot.Writes : Slot → Member → Prop
  | value _ _ f, m => f = .member m
  | coord _ m', m => m' = m
  | twoBytes _ m₁ m₂, m => m₁ = m ∨ m₂ = m
  | bytes _, m => m = .cbData ∨ ∃ i, m = .data i
  | glyph _, m => m = .cbData ∨ (∃ i, m = .data i) ∨ ∃ g, m = .glyphData g
  | _, _ => False

theorem byteWrites_fst (h : w ∈ byteWrites entry i bytes) : ∃ j ≥ i, w.1 = entry j := by
  induction bytes generalizing i with
  | nil => exact absurd h not_mem_nil
  | cons b bytes ih =>
  rcases mem_cons.mp h with rfl | h
  · exact ⟨i, le_rfl, rfl⟩
  · obtain ⟨j, hj, hw⟩ := ih h
    exact ⟨j, by omega, hw⟩

theorem readGlyphData_fst
    (h : readGlyphData sub = some writes) (hw : w ∈ writes) : ∃ g, w.1 = .glyphData g := by
  rw [readGlyphData] at h
  simp only [bind_eq_bind, bind_eq_some_iff] at h
  obtain ⟨⟨cacheIndex, sub1⟩, -, h⟩ := h
  split at h
  swap
  · cases h
    obtain rfl := mem_singleton.mp hw
    exact ⟨_, rfl⟩
  simp only [bind_eq_some_iff] at h
  obtain ⟨⟨x, sub2⟩, -, ⟨y, sub3⟩, -, ⟨cx, sub4⟩, -, ⟨cy, sub5⟩, -, h⟩ := h
  split at h
  · cases h
  cases h
  simp only [mem_cons] at hw
  rcases hw with rfl | rfl | rfl | rfl | rfl | rfl | hw
  iterate 6 exact ⟨_, rfl⟩
  obtain ⟨j, -, hj⟩ := byteWrites_fst hw
  exact ⟨_, hj⟩

theorem flag_eq_false (h : ¬Carries orderInfo number) :
    orderFieldFlagIsSet orderInfo number = false := by
  rw [← Bool.not_eq_true, orderFieldFlagIsSet_iff]
  exact h

/-- A reader of one field: an order without the field leaves the structure alone. -/
theorem tracks_field {body : List UInt8 → Order → Option (List UInt8 × Order)} (number)
    (hn : slot.number = number)
    (hr : ∀ s o, r orderInfo s o = if !orderFieldFlagIsSet orderInfo number then
      some (s, o) else body s o)
    (hread : ∀ s o fields s' o', P o fields → body s o = some (s', o') →
      ∃ p, slot.contents orderInfo fields s = some (s', p) ∧ P o' (Sent.receiveAll fields p)) :
    Tracks orderInfo P P r [slot] := by
  intro s o fields s' o' hP h
  rw [hr] at h
  by_cases hc : Carries orderInfo number
  · rw [(orderFieldFlagIsSet_iff orderInfo number).mpr hc] at h
    obtain ⟨p, hp, hP'⟩ := hread s o fields s' o' hP h
    have hparse : slot.parse orderInfo fields s = some (s', p) := by
      rw [Slot.parse, hn, if_pos hc, hp]
    exact ⟨p, carried_singleton hparse, hP'⟩
  · obtain ⟨rfl, rfl⟩ : s = s' ∧ o = o' := by simpa [flag_eq_false hc] using h
    have hparse : slot.parse orderInfo fields s = some (s, []) := by rw [Slot.parse, hn, if_neg hc]
    exact ⟨[], carried_singleton hparse, hP⟩

theorem tracks_value (hm : Free t X m) :
    Tracks orderInfo (Mid t X) (Mid t X) (readOrderField kind.read number m)
      [.value number kind (.member m)] := by
  refine tracks_field number rfl (fun _ _ => rfl) fun s o fields s' o' hP h => ?_
  obtain ⟨⟨v, s1⟩, hread, heq⟩ := map_eq_some_iff.mp h
  cases heq
  refine ⟨[(.member m, .set v)], ?_, hP.receive hm (.set v)⟩
  rw [Slot.contents, hread]
  rfl

theorem tracks_coord (hm : Free t X m) :
    Tracks orderInfo (Mid t X) (Mid t X) (readOrderFieldCoord number m) [.coord number m] := by
  refine tracks_field number rfl (fun _ _ => rfl) fun s o fields s' o' hP h => ?_
  obtain ⟨⟨v, s1⟩, hread, heq⟩ := map_eq_some_iff.mp h
  cases heq
  rw [updateReadCoord] at hread
  by_cases hd : orderInfo.deltaCoordinates = true
  · rw [if_pos hd, map_eq_some_iff] at hread
    obtain ⟨⟨d, s1⟩, hread, heq⟩ := hread
    cases heq
    refine ⟨[(.member m, .add d)], ?_, hP.receive hm (.add d)⟩
    rw [Slot.contents, if_pos hd, hread]
    rfl
  · rw [if_neg hd] at hread
    refine ⟨[(.member m, .set v)], ?_, hP.receive hm (.set v)⟩
    rw [Slot.contents, if_neg hd, hread]
    rfl

theorem tracks_twoBytes (h1 : Free t X m1) (h2 : Free t X m2) :
    Tracks orderInfo (Mid t X) (Mid t X) (readOrderField2bytes number m1 m2)
      [.twoBytes number m1 m2] := by
  refine tracks_field number rfl (fun _ _ => rfl) fun s o fields s' o' hP h => ?_
  simp only [bind_eq_bind, bind_eq_some_iff] at h
  obtain ⟨⟨v1, s1⟩, hread1, ⟨v2, s2⟩, hread2, heq⟩ := h
  cases heq
  have hw : ∀ w ∈ [(m1, v1), (m2, v2)], Free t X w.1 := by
    simp only [mem_cons, not_mem_nil, or_false]
    rintro w (rfl | rfl)
    · exact h1
    · exact h2
  refine ⟨sets [(m1, v1), (m2, v2)], ?_, hP.setAll hw⟩
  simp [Slot.contents, hread1, hread2]

theorem tracks_unused :
    Tracks orderInfo (Mid t X) (Mid t X) (Slot.unused number kind).reader
    [.unused number kind] := by
  refine tracks_field number rfl (fun _ _ => apply_ite (Option.map _) _ _ _)
    fun s o fields s' o' hP h => ?_
  obtain ⟨⟨v, s1⟩, hread, heq⟩ := map_eq_some_iff.mp h
  cases heq
  refine ⟨[], ?_, hP⟩
  rw [Slot.contents, hread]
  rfl

theorem tracks_bytes (hw : ∀ m, (Slot.bytes number).Writes m → Free t X m) :
    Tracks orderInfo (Mid t X) (Mid t X) (readVariableBytes number) [.bytes number] := by
  refine tracks_field number rfl (fun _ _ => rfl) fun s o fields s' o' hP h => ?_
  simp only [bind_eq_bind, bind_eq_some_iff] at h
  obtain ⟨⟨cbData, s1⟩, hread, h⟩ := h
  split at h
  · cases h
  next hlen =>
  cases h
  have hall : ∀ w ∈ (.cbData, cbData) :: byteWrites .data 0 (s1.take cbData.toNat),
      Free t X w.1 := by
    refine forall_mem_cons.mpr ⟨hw _ (.inl rfl), fun w hmem => ?_⟩
    obtain ⟨j, -, hj⟩ := byteWrites_fst hmem
    exact hw _ (.inr ⟨j, hj⟩)
  refine ⟨_, ?_, hP.setAll hall⟩
  simp [Slot.contents, hread, if_neg hlen]

theorem Order.setAll_append (o : Order) (a b) : o.setAll (a ++ b) = (o.setAll a).setAll b :=
  foldl_append

theorem tracks_glyph (hw : ∀ m, (Slot.glyph number).Writes m → Free t X m) :
    Tracks orderInfo (Mid t X) (Mid t X) (readFastGlyphBytes number) [.glyph number] := by
  refine tracks_field number rfl (fun _ _ => rfl) fun s o fields s' o' hP h => ?_
  simp only [bind_eq_bind, bind_eq_some_iff] at h
  obtain ⟨⟨cbData, s1⟩, hread, h⟩ := h
  split at h
  · cases h
  next hlen =>
  obtain ⟨writes, hglyph, h⟩ := bind_eq_some_iff.mp h
  cases h
  have hall : ∀ w ∈ (.cbData, cbData) :: byteWrites .data 0 (s1.take cbData.toNat) ++ writes,
      Free t X w.1 := by
    refine forall_mem_cons.mpr ⟨hw _ (.inl rfl), fun w hmem => ?_⟩
    rcases mem_append.mp hmem with hmem | hmem
    · obtain ⟨j, -, hj⟩ := byteWrites_fst hmem
      exact hw _ (.inr (.inl ⟨j, hj⟩))
    · exact hw _ (.inr (.inr (readGlyphData_fst hglyph hmem)))
  refine ⟨_, ?_, by simpa only [Order.setAll_append, Order.setAll_cons] using hP.setAll hall⟩
  simp [Slot.contents, hread, if_neg (not_or.mp hlen).1, hglyph]

/-- A slot with a reader of its own is tracked if its members are free. -/
theorem tracks_slot (slot) (hw : ∀ m, slot.Writes m → Free t X m) :
    Tracks orderInfo (Mid t X) (Mid t X) slot.reader [slot] := by
  cases slot with
  | value number kind f =>
    cases f with
    | member m => exact tracks_value (hw m rfl)
    | colorByte k => exact fun s o fields s' o' _ h => absurd h (by simp [Slot.reader])
  | coord number m => exact tracks_coord (hw m rfl)
  | twoBytes number m1 m2 => exact tracks_twoBytes (hw m1 (.inl rfl)) (hw m2 (.inr rfl))
  | unused number kind => exact tracks_unused
  | bytes number => exact tracks_bytes hw
  | glyph number => exact tracks_glyph hw
  | pattern number | rectangles number count | points number count =>
    exact fun s o fields s' o' _ h => absurd h (by simp [Slot.reader])

theorem tracks_slots (slots) (hw : ∀ slot ∈ slots, ∀ m, slot.Writes m → Free t X m) :
    Tracks orderInfo (Mid t X) (Mid t X) (allOf (slots.map Slot.reader)) slots := by
  induction slots with
  | nil => exact tracks_nil
  | cons slot slots ih =>
  exact (tracks_slot slot (hw slot mem_cons_self)).cons
    (ih fun slot' h => hw slot' (mem_cons_of_mem slot h))

/-! ## Counted fields -/

theorem Order.setAll_of_notMem (o : Order) (h : ∀ w ∈ writes, w.1 ≠ m) :
    o.setAll writes m = o m := by
  induction writes generalizing o with
  | nil => rfl
  | cons w writes ih =>
  rw [Order.setAll_cons, ih _ fun w' hw' => h w' (mem_cons_of_mem w hw'),
    Order.set_of_ne o _ (h w mem_cons_self).symm]

theorem rectWrites_fst (h : w ∈ rectWrites i rects) : ∃ j r, w.1 = .rectangles j r := by
  induction rects generalizing i with
  | nil => exact absurd h not_mem_nil
  | cons r rects ih =>
  simp only [rectWrites, mem_cons] at h
  rcases h with rfl | rfl | rfl | rfl | h
  iterate 4 exact ⟨i, _, rfl⟩
  exact ih h

theorem pointWrites_fst (h : w ∈ pointWrites i pts) : ∃ j r, w.1 = .points j r := by
  induction pts generalizing i with
  | nil => exact absurd h not_mem_nil
  | cons p pts ih =>
  simp only [pointWrites, mem_cons] at h
  rcases h with rfl | rfl | h
  iterate 2 exact ⟨i, _, rfl⟩
  exact ih h

variable {count : Member}

/-- A count is tracked once it is stored. -/
theorem readOrderFieldLocal_tracks (hm : Free t X count) (hP : Mid t X o fields)
    (h : readOrderFieldLocal readUint8 orderInfo number (o count) s = some (num, s')) :
    ∃ p, carried orderInfo [.value number .byte (.member count)] fields s = some (s', p) ∧
      Mid t X (o.set count num) (Sent.receiveAll fields p) := by
  refine (tracks_value hm : Tracks orderInfo (Mid t X) (Mid t X)
    (readOrderField Kind.byte.read number count) _) hP ?_
  rw [readOrderFieldLocal] at h
  rw [readOrderField]
  split at h
  · next hc =>
    cases h
    rw [if_pos hc, Order.set, Function.update_eq_self]
  · next hc =>
    rw [if_neg hc, Kind.read, h]
    rfl

/-- A count and a list of that length. -/
theorem tracks_counted {α : Type*}
    (read : List UInt8 → Option (Word × List UInt8))
    (list : ℕ → List UInt8 → Option (α × List UInt8))
    (writes : α → List (Member × Word)) (hcount : Free t X count) (hcb : Free t X .cbData)
    (hwrites : ∀ a, ∀ w ∈ writes a, Free t X w.1)
    (hcontents : ∀ fields s, slot.contents orderInfo fields s =
      (read s).bind fun (cbData, s) => (list (fields (.member count)).toNat s).bind fun (a, s) =>
        some (s, sets ((.cbData, cbData) :: writes a)))
    (hr : ∀ s o s' o', r orderInfo s o = some (s', o') →
      ∃ num s1, readOrderFieldLocal readUint8 orderInfo number (o count) s = some (num, s1) ∧
        ((¬Carries orderInfo slot.number ∧ s' = s1 ∧ o' = o.set count num) ∨
          (Carries orderInfo slot.number ∧ ∃ cbData s2 a, read s1 = some (cbData, s2) ∧
            list num.toNat s2 = some (a, s') ∧
            o' = ((o.set count num).set .cbData cbData).setAll (writes a)))) :
    Tracks orderInfo (Mid t X) (Mid t X) r [.value number .byte (.member count), slot] := by
  intro s o fields s' o' hP h
  obtain ⟨num, s1, hnum, hcases⟩ := hr s o s' o' h
  obtain ⟨p, hp, hP1⟩ := readOrderFieldLocal_tracks hcount hP hnum
  rcases hcases with ⟨hc, rfl, rfl⟩ | ⟨hc, cbData, s2, a, hread, hlist, rfl⟩
  · have hparse : slot.parse orderInfo (Sent.receiveAll fields p) s' = some (s', []) := by
      rw [Slot.parse, if_neg hc]
    refine ⟨p, ?_, hP1⟩
    simpa using carried_append hp (carried_singleton hparse)
  have hfield : Sent.receiveAll fields p (.member count) = num := by
    rw [← hP1.agree count hcount.1, Order.set_self]
  have hparse : slot.parse orderInfo (Sent.receiveAll fields p) s1 =
      some (s', sets ((.cbData, cbData) :: writes a)) := by
    simp [Slot.parse, if_pos hc, hcontents, hread, hfield, hlist]
  have hall : ∀ w ∈ (.cbData, cbData) :: writes a, Free t X w.1 :=
    forall_mem_cons.mpr ⟨hcb, hwrites a⟩
  refine ⟨p ++ sets ((.cbData, cbData) :: writes a), ?_, ?_⟩
  · exact carried_append hp (carried_singleton hparse)
  · rw [Sent.receiveAll_append]
    exact hP1.setAll hall

variable {o' : Order}

/-- The comparison of the counts after the rectangles changes nothing. -/
theorem readRectanglesThenCheck_eq (hne : count ≠ .cbData) (hrect : ∀ j r, count ≠ .rectangles j r)
    (h : readRectanglesThenCheck number list count orderInfo s o = some (s', o')) :
    readRectanglesField number list count orderInfo s o = some (s', o') := by
  simp only [readRectanglesThenCheck, bind_eq_bind, bind_eq_some_iff] at h
  obtain ⟨⟨num, s1⟩, hnum, h⟩ := h
  simp only [readRectanglesField, hnum, bind_eq_bind, bind_some]
  by_cases hc : orderFieldFlagIsSet orderInfo list = true
  swap
  · rw [if_neg hc] at h ⊢
    exact h
  rw [if_pos hc] at h ⊢
  simp only [bind_eq_some_iff, bind_some] at h
  obtain ⟨⟨cbData, s2⟩, hcb, ⟨rects, s3⟩, hrects, h⟩ := h
  have hkeep : (((o.set count num).set .cbData cbData).setAll (rectWrites 0 rects)) count =
      num := by
    rw [Order.setAll_of_notMem, Order.set_of_ne _ _ hne, Order.set_self]
    intro w hw he
    obtain ⟨j, r, hj⟩ := rectWrites_fst hw
    exact hrect j r (he.symm.trans hj)
  rw [hkeep, if_neg (BitVec.lt_irrefl num), Order.set_eq_self hkeep] at h
  rw [hcb, bind_some, hrects]
  exact h

/-- The comparison of the counts after the points changes nothing. -/
theorem readPointsThenCheck_eq
    (hstart : count ≠ .xStart ∧ count ≠ .yStart) (hpoint : ∀ j r, count ≠ .points j r)
    (h : readPointsThenCheck number list count orderInfo s o = some (s', o')) :
    readPointsField number list count orderInfo s o = some (s', o') := by
  simp only [readPointsThenCheck, bind_eq_bind, bind_eq_some_iff] at h
  obtain ⟨⟨num, s1⟩, hnum, h⟩ := h
  simp only [readPointsField, hnum, bind_eq_bind, bind_some]
  by_cases hc : orderFieldFlagIsSet orderInfo list = true
  swap
  · rw [if_neg hc] at h ⊢
    exact h
  rw [if_pos hc] at h ⊢
  split at h
  · cases h
  next hzero =>
  rw [if_neg hzero]
  obtain ⟨⟨cbData, s2⟩, hcb, h⟩ := bind_eq_some_iff.mp h
  simp only [Order.set_of_ne _ _ hstart.1.symm, Order.set_of_ne _ _ hstart.2.symm] at h
  rw [hcb, bind_some]
  split at h
  · cases h
  next hfits =>
  rw [if_neg hfits]
  simp only [bind_eq_some_iff, bind_some] at h
  obtain ⟨⟨pts, s3⟩, hpts, h⟩ := h
  have hkeep : (((o.set .cbData cbData).set count num).setAll (pointWrites 0 pts)) count = num := by
    rw [Order.setAll_of_notMem, Order.set_self]
    intro w hw he
    obtain ⟨j, r, hj⟩ := pointWrites_fst hw
    exact hpoint j r (he.symm.trans hj)
  rw [hkeep, if_neg (BitVec.lt_irrefl num), Order.set_eq_self hkeep] at h
  rw [hpts]
  exact h

theorem tracks_rectangles (hcount : Free t X count)
    (hcb : Free t X .cbData) (hne : count ≠ .cbData) (hw : ∀ j r, Free t X (.rectangles j r)) :
    Tracks orderInfo (Mid t X) (Mid t X) (readRectanglesField number list count)
      [.value number .byte (.member count), .rectangles list count] := by
  apply tracks_counted readUint16 updateReadDeltaRects (rectWrites 0) hcount hcb
  · intro rects w hmem
    obtain ⟨j, r, hj⟩ := rectWrites_fst hmem
    rw [hj]
    exact hw j r
  · exact fun _ _ => rfl
  intro s o s' o' h
  simp only [readRectanglesField, bind_eq_bind, bind_eq_some_iff] at h
  obtain ⟨⟨num, s1⟩, hnum, h⟩ := h
  refine ⟨num, s1, hnum, ?_⟩
  by_cases hc : Carries orderInfo list
  · rw [if_pos ((orderFieldFlagIsSet_iff orderInfo list).mpr hc)] at h
    simp only [bind_eq_some_iff, Order.set_of_ne _ _ hne, Order.set_self] at h
    obtain ⟨⟨cbData, s2⟩, hcb, ⟨rects, s3⟩, hrects, heq⟩ := h
    cases heq
    exact .inr ⟨hc, cbData, s2, rects, hcb, hrects, rfl⟩
  rw [if_neg (by rw [flag_eq_false hc]; exact Bool.false_ne_true)] at h
  split at h
  · cases h
  · cases h
    exact .inl ⟨hc, rfl, rfl⟩

theorem tracks_points (hcount : Free t X count)
    (hcb : Free t X .cbData) (hne : count ≠ .cbData) (hw : ∀ j r, Free t X (.points j r)) :
    Tracks orderInfo (Mid t X) (Mid t X) (readPointsField number list count)
      [.value number .byte (.member count), .points list count] := by
  apply tracks_counted readUint8 updateReadDeltaPoints (pointWrites 0) hcount hcb
  · intro pts w hmem
    obtain ⟨j, r, hj⟩ := pointWrites_fst hmem
    rw [hj]
    exact hw j r
  · exact fun _ _ => rfl
  intro s o s' o' h
  simp only [readPointsField, bind_eq_bind, bind_eq_some_iff] at h
  obtain ⟨⟨num, s1⟩, hnum, h⟩ := h
  refine ⟨num, s1, hnum, ?_⟩
  by_cases hc : Carries orderInfo list
  · rw [if_pos ((orderFieldFlagIsSet_iff orderInfo list).mpr hc)] at h
    split at h
    · cases h
    obtain ⟨⟨cbData, s2⟩, hcb, h⟩ := bind_eq_some_iff.mp h
    split at h
    · cases h
    simp only [bind_eq_some_iff, Order.set_self] at h
    obtain ⟨⟨pts, s3⟩, hpts, heq⟩ := h
    cases heq
    refine .inr ⟨hc, cbData, s2, pts, hcb, hpts, ?_⟩
    rw [Order.set, Order.set, Order.set, Order.set, Function.update_comm hne]
  · rw [if_neg (by rw [flag_eq_false hc]; exact Bool.false_ne_true)] at h
    split at h
    · cases h
    · cases h
      exact .inl ⟨hc, rfl, rfl⟩

theorem Tracks.of_imp (h : Tracks orderInfo P Q r slots)
    (himp : ∀ s o so, r' orderInfo s o = some so → r orderInfo s o = some so) :
    Tracks orderInfo P Q r' slots :=
  fun s o _ s' o' hP hr => h hP (himp s o (s', o') hr)

/-! ## The bytes of a colour -/

/-- The colour of the three bytes is kept up by the reader of each. -/
def ColorKept (o : Order) (fields : Fields) : Prop :=
  o .color = colorOf fields ∧ ∀ k, ∃ b : BitVec 8, fields (.colorByte k) = b.setWidth 32

/-- A byte of a colour is dropped by its own mask and kept by the other two. -/
theorem and_keep : ∀ c ∈ colorReaders, ∀ b : BitVec 8,
    b.setWidth 32 &&& c.2.2.1 = (if c.2.1 = 0 then 0#32 else b.setWidth 32) ∧
      b.setWidth 32 <<< 8 &&& c.2.2.1 = (if c.2.1 = 1 then 0#32 else b.setWidth 32 <<< 8) ∧
      b.setWidth 32 <<< 16 &&& c.2.2.1 = (if c.2.1 = 2 then 0#32 else b.setWidth 32 <<< 16) := by
  decide +kernel

/-- A byte of the colour goes to its place. -/
theorem colorOf_receive (hk : (number, k, keep, shift) ∈ colorReaders)
    (hbytes : ∀ j, ∃ b : BitVec 8, fields (.colorByte j) = b.setWidth 32) (v) :
    colorOf (Sent.receive fields (.colorByte k, .set v)) = colorOf fields &&&
      keep ||| v <<< shift := by
  obtain ⟨r, hr⟩ := hbytes 0
  obtain ⟨g, hg⟩ := hbytes 1
  obtain ⟨b, hb⟩ := hbytes 2
  have hother : ∀ i j : Fin 3, i ≠ j →
      Sent.receive fields (.colorByte i, .set v) (.colorByte j) = fields (.colorByte j) :=
    fun i j hij => Sent.receive_of_ne fields fun he => hij (Field.colorByte.inj he)
  rw [colorOf, colorOf, BitVec.and_or_distrib_right, BitVec.and_or_distrib_right, hr, hg, hb,
    (and_keep _ hk r).1, (and_keep _ hk g).2.1, (and_keep _ hk b).2.2]
  simp only [colorReaders, mem_cons, not_mem_nil, or_false] at hk
  rcases hk with ⟨-, rfl, rfl, rfl⟩ | ⟨-, rfl, rfl, rfl⟩ | ⟨-, rfl, rfl, rfl⟩
  · rw [hother 0 1 (by decide), hother 0 2 (by decide), hg, hb]
    simp [Sent.apply, BitVec.or_assoc, BitVec.or_comm]
  · rw [hother 1 0 (by decide), hother 1 2 (by decide), hr, hb]
    simp [Sent.apply, BitVec.or_assoc, BitVec.or_comm (v <<< 8)]
  · rw [hother 2 0 (by decide), hother 2 1 (by decide), hr, hg]
    simp [Sent.apply]

theorem readUint8_byte (h : readUint8 s = some (v, s')) : ∃ b : BitVec 8, v = b.setWidth 32 := by
  rw [readUint8, readLE] at h
  split at h
  · cases h
  next hlen =>
  obtain ⟨b, s, rfl⟩ : ∃ b l, s = b :: l := by
    cases s with
    | nil => exact absurd (show ([] : List UInt8).length < 1 from Nat.one_pos) hlen
    | cons b l => exact ⟨b, l, rfl⟩
  refine ⟨b.toBitVec, ?_⟩
  have hv := (Prod.mk.inj (some.inj h)).1
  rw [← hv]
  apply BitVec.eq_of_toNat_eq
  simp [leNat]

/-- The readers of the bytes of a colour keep it up. -/
theorem tracks_colorByte (ht : t.colored = true) (hk : (number, k, keep, shift) ∈ colorReaders) :
    Tracks orderInfo (Mid t ColorKept) (Mid t ColorKept) (readColorByte number keep shift)
      [.value number .byte (.colorByte k)] := by
  refine tracks_field number rfl (fun _ _ => rfl) fun s o fields s' o' hP h => ?_
  obtain ⟨⟨v, s1⟩, hread, heq⟩ := map_eq_some_iff.mp h
  cases heq
  refine ⟨[(.colorByte k, .set v)], ?_, ?_, ?_, ?_⟩
  · rw [Slot.contents, Kind.read, hread]
    rfl
  · intro m hm
    have hne : m ≠ .color := ne_of_special hm ht
    rw [Order.set_of_ne o _ hne]
    exact hP.agree m hm
  · rw [hP.extra.1]
    exact (colorOf_receive hk hP.extra.2 v).symm
  · intro j
    by_cases hj : k = j
    · subst hj
      obtain ⟨b, hb⟩ := readUint8_byte hread
      refine ⟨b, ?_⟩
      rw [Sent.receiveAll_cons, Sent.receiveAll_nil, Sent.receive_self]
      exact hb
    · obtain ⟨b, hb⟩ := hP.extra.2 j
      exact ⟨b, (Sent.receive_of_ne fields fun he => hj (Field.colorByte.inj he)).trans hb⟩

/-! ## Brushes -/

/-- The members of the brush. -/
def Member.isBrush : Member → Bool
  | .brush _ => true
  | _ => false

theorem ne_brush (h : m.isBrush = false) (b) : m ≠ .brush b := by
  rintro rfl
  cases h

/-- `X` does not care about the brush. -/
def IgnoresBrush (X : Order → Fields → Prop) : Prop :=
  ∀ o o' fields fields', (∀ m, m.isBrush = false → o' m = o m) →
    (∀ f, (∀ m, f = .member m → m.isBrush = false) → fields' f = fields f) →
    X o fields → X o' fields'

theorem IgnoresBrush.stable (hX : IgnoresBrush X) {b} : Stable X (.brush b) := by
  intro o fields v y h
  refine hX o _ fields _ (fun m hm => Order.set_of_ne _ _ (ne_brush hm b)) ?_ h
  intro f hf
  apply Sent.receive_of_ne
  rintro rfl
  exact ne_brush (hf (.brush b) rfl) b rfl

theorem IgnoresBrush.of_order (hX : IgnoresBrush X) (h : X o fields)
    (ho : ∀ m, m.isBrush = false → o' m = o m) : X o' fields :=
  hX o o' fields fields ho (fun _ _ => rfl) h

/-- `index` and `bpp` of a cached brush; for another brush `bpp` is what it was. -/
def CachedBrush (bpp : Word) (o : Order) (fields : Fields) : Prop :=
  if fields (.member (.brush .style)) &&& cachedBrush ≠ 0 then
    o (.brush .index) = fields (.member (.brush .hatch)) ∧
      getBmfBpp (fields (.member (.brush .style))) = some (o (.brush .bpp))
  else o (.brush .bpp) = bpp

/-- The first row of the pattern, the pointer to the rows, and whether rows were sent. -/
def HasRow (row pointer data : Word) (o : Order) (fields : Fields) : Prop :=
  o (.brush (.p8x8 0)) = row ∧ o (.brush .data) = pointer ∧ fields (.member (.brush .data)) = data

/-- The rows of a brush and its depth are those of the order `old`. -/
def HasBrush (old : Order) (data : Word) (o : Order) (fields : Fields) : Prop :=
  HasRow (old (.brush (.p8x8 0))) (old (.brush .data)) data o fields ∧
  o (.brush .bpp) = old (.brush .bpp)

/-- What the reader of a brush leaves, of an order that was `old`: `index` and `bpp` of a cached
brush, and the first row of the pattern, which is the hatch when the order carries a pattern and
what it was otherwise. -/
structure BrushRead (orderInfo : OrderInfo) (shift : ℕ) (old : Order) (data : Word) (o : Order)
    (fields : Fields) : Prop where
  cached : CachedBrush (old (.brush .bpp)) o fields
  carries : Carries orderInfo (shift + 5) → HasRow (fields (.member (.brush .hatch))) 1 1 o fields
  omits : ¬Carries orderInfo (shift + 5) →
    HasRow (old (.brush (.p8x8 0))) (old (.brush .data)) data o fields

/-- A brush has the five flags behind `shift`. -/
theorem orderFieldFlagIsSet_brush (orderInfo shift) (h : n ∈ [1, 2, 3, 4, 5]) :
    orderFieldFlagIsSet { orderInfo with fieldFlags := orderInfo.fieldFlags >>> shift &&& 0x1F } n =
      orderFieldFlagIsSet orderInfo (shift + n) := by
  have hn : 1 ≤ n ∧ n ≤ 5 := by
    simp only [mem_cons, not_mem_nil, or_false] at h
    omega
  rw [Bool.eq_iff_iff, orderFieldFlagIsSet_iff, orderFieldFlagIsSet_iff, Carries, Carries]
  have hmask : (0x1F : ℕ) = 2 ^ 5 - 1 := by decide
  rw [hmask, and_two_pow_sub_one_eq_mod, testBit_mod_two_pow, testBit_shiftRight,
    show shift + (n - 1) = shift + n - 1 by omega]
  simp [show n - 1 < 5 by omega]

theorem readOrderField_congr (read)
    (h : orderFieldFlagIsSet orderInfo n = orderFieldFlagIsSet orderInfo' n') (m)
    (s) (o) :
    readOrderField read n m orderInfo s o = readOrderField read n' m orderInfo' s o := by
  rw [readOrderField, readOrderField, h]

/-- The fields of a brush but the pattern. -/
def brushValueSlots (shift : ℕ) : List Slot :=
  [.value (shift + 1) .byte (.member (.brush .x)), .value (shift + 2) .byte (.member (.brush .y)),
    .value (shift + 3) .byte (.member (.brush .style)),
    .value (shift + 4) .byte (.member (.brush .hatch))]

theorem allOf_brushValues (orderInfo shift s o) :
    allOf [readOrderFieldByte 1 (.brush .x), readOrderFieldByte 2 (.brush .y),
        readOrderFieldByte 3 (.brush .style), readOrderFieldByte 4 (.brush .hatch)]
        { orderInfo with fieldFlags := orderInfo.fieldFlags >>> shift &&& 0x1F } s o =
      allOf ((brushValueSlots shift).map Slot.reader) orderInfo s o := by
  have hflag := fun n h => orderFieldFlagIsSet_brush orderInfo shift (n := n) h
  have h1 := readOrderField_congr readUint8 (hflag 1 (by simp))
  have h2 := readOrderField_congr readUint8 (hflag 2 (by simp))
  have h3 := readOrderField_congr readUint8 (hflag 3 (by simp))
  have h4 := readOrderField_congr readUint8 (hflag 4 (by simp))
  simp [allOf, brushValueSlots, Slot.reader, Kind.read, readOrderFieldByte, h1, h2, h3, h4]

theorem Mid.of_special (h : Mid t X o fields)
    (hkeep : ∀ m, special t m = false → o' m = o m) (hY : Y o' fields) : Mid t Y o' fields :=
  ⟨fun m hm => (hkeep m hm).trans (h.agree m hm), hY⟩

theorem getBmfBpp_ne_zero (h : getBmfBpp bmf = some bpp) : bpp ≠ 0 := by
  rw [getBmfBpp] at h
  split at h
  iterate 5
    · cases h
      decide
  cases h

/-- The members that are derived for a brush of the cache. -/
theorem setCachedBrush_spec (h : setCachedBrush o = some o') :
    (∀ m, m ≠ .brush .index → m ≠ .brush .bpp → o' m = o m) ∧
      if o (.brush .style) &&& cachedBrush ≠ 0 then o' (.brush .index) = o (.brush .hatch) ∧
        getBmfBpp (o (.brush .style)) = some (o' (.brush .bpp))
      else o' (.brush .bpp) = o (.brush .bpp) := by
  rw [setCachedBrush] at h
  split at h
  · next hc =>
    obtain ⟨bpp, hbpp, heq⟩ := bind_eq_some_iff.mp h
    cases heq
    rw [if_pos hc]
    refine ⟨?_, ?_, ?_⟩
    · intro m hindex hm
      rw [Order.set_of_ne _ _ hm, Order.set_of_ne _ _ hindex]
    · rw [Order.set_of_ne _ _ (by decide), Order.set_self]
    · rw [Order.set_self, if_neg (getBmfBpp_ne_zero hbpp), hbpp]
  · next hc =>
    cases h
    exact ⟨fun _ _ _ => rfl, by rw [if_neg hc]⟩

theorem CachedBrush.stable (h : m ∉ [.brush .style, .brush .hatch, .brush .index, .brush .bpp]) :
    Stable (CachedBrush bpp) m := by
  simp only [mem_cons, not_mem_nil, or_false, not_or] at h
  obtain ⟨hstyle, hhatch, hindex, hbpp⟩ := h
  intro o fields v y hX
  rw [CachedBrush, receive_member_of_ne _ _ (Ne.symm hstyle),
    receive_member_of_ne _ _ (Ne.symm hhatch),
    Order.set_of_ne _ _ (Ne.symm hindex), Order.set_of_ne _ _ (Ne.symm hbpp)]
  exact hX

theorem HasRow.stable (h : m ≠ .brush (.p8x8 0)) (h' : m ≠ .brush .data) :
    Stable (HasRow row pointer data) m := by
  intro o fields w y hX
  exact ⟨(Order.set_of_ne _ _ (Ne.symm h)).trans hX.1,
    (Order.set_of_ne _ _ (Ne.symm h')).trans hX.2.1,
    (receive_member_of_ne _ _ (Ne.symm h')).trans hX.2.2⟩

theorem HasBrush.stable (h : m ≠ .brush (.p8x8 0)) (h' : m ≠ .brush .data)
    (hbpp : m ≠ .brush .bpp) : Stable (HasBrush old data) m := by
  intro o fields w y hX
  exact ⟨HasRow.stable h h' o fields w y hX.1, (Order.set_of_ne _ _ (Ne.symm hbpp)).trans hX.2⟩

/-- A derived member may change where `X` allows it. -/
theorem Mid.receive_special (h : Mid t X o fields) (hm : special t m = true) (hX : Stable X m) (v)
    (x) : Mid t X (o.set m v) (Sent.receive fields (.member m, x)) where
  agree m' hm' := by
    have hne : m' ≠ m := ne_of_special hm' hm
    rw [Order.set_of_ne _ _ hne, receive_member_of_ne _ _ hne]
    exact h.agree m' hm'
  extra := hX o fields v x h.extra

/-- The rows of a pattern, the first of which is the hatch. -/
theorem tracks_pattern (hX : IgnoresBrush X) (orderInfo) (number)
    (h : Mid t (fun o fields => X o fields ∧ CachedBrush bpp o fields) o fields)
    (hread : readBrushPattern s o = some (s', o')) :
    ∃ p, (Slot.pattern number).contents orderInfo fields s = some (s', p) ∧
      Mid t (fun o fields => (X o fields ∧ CachedBrush bpp o fields) ∧
        HasRow (fields (.member (.brush .hatch))) 1 1 o fields) o' (Sent.receiveAll fields p) := by
  rw [readBrushPattern] at hread
  split at hread
  · cases hread
  next hlen =>
  obtain ⟨hatch, hchecked, heq⟩ := bind_eq_some_iff.mp hread
  cases heq
  generalize hrows : byteWrites (fun i => .brush (.p8x8 i)) 1 (s.take 7).reverse = rows at *
  have hstable : ∀ b : BrushMember, b ∉ [.style, .hatch, .index, .bpp] →
      Stable (fun o fields => X o fields ∧ CachedBrush bpp o fields) (.brush b) := by
    intro b hb
    refine hX.stable.and (CachedBrush.stable ?_)
    simpa using hb
  have hfree : ∀ w ∈ rows, Free t (fun o fields => X o fields ∧ CachedBrush bpp o fields) w.1 := by
    intro w hw
    obtain ⟨j, hj, hw⟩ := byteWrites_fst (hrows ▸ hw)
    obtain ⟨j, rfl⟩ := Nat.exists_eq_add_of_le' hj
    rw [hw]
    exact ⟨rfl, hstable _ (by simp)⟩
  have hmid := ((h.receive_special rfl (hstable .data (by simp)) 1 (.set 1)).setAll hfree)
  have hhatch : hatch = Sent.receiveAll fields (sets ((.brush .data, 1) :: rows))
      (.member (.brush .hatch)) := by
    rw [getCheckedUint8] at hchecked
    split at hchecked
    · rw [← some.inj hchecked]
      exact hmid.agree _ rfl
    · cases hchecked
  have hdata : Sent.receiveAll fields (sets ((.brush .data, 1) :: rows)) (.member (.brush .data)) =
      1 := by
    rw [sets_cons, Sent.receiveAll_cons, Sent.receiveAll_of_notMem]
    · rfl
    intro x hx
    obtain ⟨w, hw, rfl⟩ := mem_map.mp hx
    obtain ⟨j, -, hw⟩ := byteWrites_fst (hrows ▸ hw)
    rw [hw]
    simp
  refine ⟨sets ((.brush .data, 1) :: rows), ?_, hmid.of_special ?_ ⟨?_, ?_, ?_, hdata⟩⟩
  · rw [Slot.contents, if_neg hlen, hrows]
  · exact fun m hm => Order.set_of_ne _ _ (ne_of_special hm rfl)
  · refine ⟨hX.of_order hmid.extra.1 fun m hm => Order.set_of_ne _ _ (ne_brush hm _), ?_⟩
    exact hmid.extra.2
  · exact hhatch
  · rw [Order.set_of_ne _ _ (by decide), Order.setAll_of_notMem _ fun w hw => ?_]
    · exact Order.set_self _ _ _
    obtain ⟨j, -, hw⟩ := byteWrites_fst (hrows ▸ hw)
    rw [hw]
    simp

/-- **The reader of a brush.** -/
theorem tracks_brush (hX : IgnoresBrush X) (shift : ℕ) (old : Order) (data : Word) :
    Tracks orderInfo (Mid t fun o fields => X o fields ∧ HasBrush old data o fields)
      (Mid t fun o fields => X o fields ∧ BrushRead orderInfo shift old data o fields)
      (updateReadBrush shift) (brushSlots shift) := by
  intro s o fields s' o' hP h
  simp only [updateReadBrush, bind_eq_bind, bind_eq_some_iff] at h
  obtain ⟨⟨s1, o1⟩, hvalues, o2, hcached, h⟩ := h
  rw [allOf_brushValues] at hvalues
  rw [orderFieldFlagIsSet_brush orderInfo shift (by simp)] at h
  -- the four values, then the derived members of a cached brush
  have hfree : ∀ slot ∈ brushValueSlots shift, ∀ m, slot.Writes m →
      Free t (fun o fields => X o fields ∧ HasBrush old data o fields) m := by
    intro slot hslot m hm
    simp only [brushValueSlots, mem_cons, not_mem_nil, or_false] at hslot
    rcases hslot with rfl | rfl | rfl | rfl
    all_goals
      obtain rfl := Field.member.inj hm
      exact ⟨rfl, hX.stable.and (HasBrush.stable (by decide) (by decide) (by decide))⟩
  obtain ⟨p, hp, hP1⟩ := tracks_slots (brushValueSlots shift) hfree hP hvalues
  obtain ⟨hkeep, hlookup⟩ := setCachedBrush_spec hcached
  have hcachedBrush : CachedBrush (old (.brush .bpp)) o2 (Sent.receiveAll fields p) := by
    rw [CachedBrush, ← hP1.agree _ rfl, ← hP1.agree _ rfl, ← hP1.extra.2.2]
    exact hlookup
  have hX2 : X o2 (Sent.receiveAll fields p) :=
    hX.of_order hP1.extra.1 fun m hm => hkeep m (ne_brush hm _) (ne_brush hm _)
  have hP2 : Mid t (fun o fields => X o fields ∧ CachedBrush (old (.brush .bpp)) o fields) o2
      (Sent.receiveAll fields p) :=
    hP1.of_special (fun m hm => hkeep m (ne_of_special hm rfl) (ne_of_special hm rfl))
      ⟨hX2, hcachedBrush⟩
  rw [show brushSlots shift = brushValueSlots shift ++ [.pattern (shift + 5)] from rfl]
  by_cases hc : Carries orderInfo (shift + 5)
  · rw [if_pos ((orderFieldFlagIsSet_iff orderInfo _).mpr hc)] at h
    obtain ⟨q, hq, hP3⟩ := tracks_pattern hX orderInfo (shift + 5) hP2 h
    have hparse : (Slot.pattern (shift + 5)).parse orderInfo (Sent.receiveAll fields p) s1 =
        some (s', q) := by
      rw [Slot.parse, show (Slot.pattern (shift + 5)).number = shift + 5 from rfl, if_pos hc, hq]
    refine ⟨p ++ q, carried_append hp (carried_singleton hparse), ?_⟩
    rw [Sent.receiveAll_append]
    refine hP3.of_special (fun _ _ => rfl) ⟨hP3.extra.1.1, ?_⟩
    exact ⟨hP3.extra.1.2, fun _ => hP3.extra.2, fun hn => absurd hc hn⟩
  rw [if_neg (by rw [flag_eq_false hc]; exact Bool.false_ne_true)] at h
  cases h
  have hparse : (Slot.pattern (shift + 5)).parse orderInfo (Sent.receiveAll fields p) s1 =
      some (s1, []) := by
    rw [Slot.parse, show (Slot.pattern (shift + 5)).number = shift + 5 from rfl, if_neg hc]
  refine ⟨p, by simpa using carried_append hp (carried_singleton hparse), ?_⟩
  refine hP2.of_special (fun _ _ => rfl) ⟨hX2, ?_⟩
  refine ⟨hcachedBrush, fun hn => absurd hn hc, fun _ => ?_⟩
  rw [HasRow, hkeep _ (by decide) (by decide), hkeep _ (by decide) (by decide)]
  exact hP1.extra.2.1

end WBFreeRDP.Orders

/-
# What a primary drawing order says

The fields of an order on the wire, apart from the decoder: an order carries some of the fields of
its type, and every field that it does not carry keeps the value in force (`Sent.inForce`).
-/
import WBFreeRDP.LastSent
import WBFreeRDP.PrimaryOrders

namespace WBFreeRDP.Orders

/-! ## Fields on the wire -/

/-- A protocol field, or a part of one: mostly that of a member, and the three bytes of the colour
of `OPAQUE_RECT`, which are fields of their own. -/
inductive Field where
  | member (m : Member)
  | colorByte (k : Fin 3)
  deriving DecidableEq

/-- What one order carries. -/
abbrev Packet := List (Field × Sent Word)

/-- The values of the fields in force. -/
abbrev Fields := Field → Word

/-- The encodings of a single value. -/
inductive Kind where
  | byte | uint16 | int16 | uint32 | color

/-- Reads a single value. -/
def Kind.read : Kind → List UInt8 → Option (Word × List UInt8)
  | byte => readUint8
  | uint16 => readUint16
  | int16 => readInt16
  | uint32 => readUint32
  | color => updateReadColor

/-- A numbered field of an order type: a single value, a coordinate, two bytes, a value of which the
order has no member, the seven bytes of a brush pattern, rectangles and points in the count that is
in force, bytes, and the glyph of `FAST_GLYPH`. -/
inductive Slot where
  | value (number : ℕ) (kind : Kind) (f : Field)
  | coord (number : ℕ) (m : Member)
  | twoBytes (number : ℕ) (m₁ m₂ : Member)
  | unused (number : ℕ) (kind : Kind)
  | pattern (number : ℕ)
  | rectangles (number : ℕ) (count : Member)
  | points (number : ℕ) (count : Member)
  | bytes (number : ℕ)
  | glyph (number : ℕ)

/-- The number of a slot. -/
def Slot.number : Slot → ℕ
  | value n _ _ | coord n _ | twoBytes n _ _ | unused n _ | pattern n | rectangles n _ | points n _
  | bytes n | glyph n => n

/-- New values of members, as a packet carries them. -/
def sets (writes : List (Member × Word)) : Packet := writes.map fun w => (.member w.1, .set w.2)

def Slot.contents (orderInfo : OrderInfo) (fields : Fields) (s : List UInt8) :
    Slot → Option (List UInt8 × Packet)
  | value _ kind f => (kind.read s).map fun (v, s) => (s, [(f, .set v)])
  | coord _ m =>
      if orderInfo.deltaCoordinates then (readInt8 s).map fun (d, s) => (s, [(.member m, .add d)])
      else (readInt16 s).map fun (v, s) => (s, [(.member m, .set v)])
  | twoBytes _ m₁ m₂ => do
      let (v₁, s) ← readUint8 s
      let (v₂, s) ← readUint8 s
      some (s, sets [(m₁, v₁), (m₂, v₂)])
  | unused _ kind => (kind.read s).map fun (_, s) => (s, [])
  | pattern _ =>
      if s.length < 7 then none
      else
        some (s.drop 7,
          sets ((.brush .data, 1) :: byteWrites (fun i => .brush (.p8x8 i)) 1 (s.take 7).reverse))
  | rectangles _ count => do
      let (cbData, s) ← readUint16 s
      let (rects, s) ← updateReadDeltaRects (fields (.member count)).toNat s
      some (s, sets ((.cbData, cbData) :: rectWrites 0 rects))
  | points _ count => do
      let (cbData, s) ← readUint8 s
      let (pts, s) ← updateReadDeltaPoints (fields (.member count)).toNat s
      some (s, sets ((.cbData, cbData) :: pointWrites 0 pts))
  | bytes _ => do
      let (cbData, s) ← readUint8 s
      if s.length < cbData.toNat then none
      else
        some (s.drop cbData.toNat,
          sets ((.cbData, cbData) :: byteWrites .data 0 (s.take cbData.toNat)))
  | glyph _ => do
      let (cbData, s) ← readUint8 s
      if s.length < cbData.toNat then none
      else
        let writes ← readGlyphData (s.take cbData.toNat)
        some (s.drop cbData.toNat,
          sets ((.cbData, cbData) :: byteWrites .data 0 (s.take cbData.toNat) ++ writes))

/-- The order carries field `number`. -/
def Carries (orderInfo : OrderInfo) (number : ℕ) : Prop :=
  orderInfo.fieldFlags.testBit (number - 1) = true

instance (orderInfo : OrderInfo) (number : ℕ) : Decidable (Carries orderInfo number) :=
  inferInstanceAs (Decidable (_ = true))

def Slot.parse (orderInfo : OrderInfo) (fields : Fields) (s : List UInt8) (slot : Slot) :
    Option (List UInt8 × Packet) :=
  if Carries orderInfo slot.number then slot.contents orderInfo fields s else some (s, [])

/-- **The fields that an order carries**, of the given slots. -/
def carried (orderInfo : OrderInfo) : List Slot → Fields → List UInt8 → Option (List UInt8 × Packet)
  | [], _, s => some (s, [])
  | slot :: slots, fields, s => do
      let (s, p) ← slot.parse orderInfo fields s
      let (s, q) ← carried orderInfo slots (Sent.receiveAll fields p) s
      some (s, p ++ q)

def brushSlots (shift : ℕ) : List Slot :=
  [.value (shift + 1) .byte (.member (.brush .x)), .value (shift + 2) .byte (.member (.brush .y)),
    .value (shift + 3) .byte (.member (.brush .style)),
    .value (shift + 4) .byte (.member (.brush .hatch)), .pattern (shift + 5)]

def rectSlots : List Slot :=
  [.coord 1 .nLeftRect, .coord 2 .nTopRect, .coord 3 .nWidth, .coord 4 .nHeight]

/-- The three bytes of a colour that are fields of their own. -/
def colorSlots : List Slot :=
  [.value 5 .byte (.colorByte 0), .value 6 .byte (.colorByte 1), .value 7 .byte (.colorByte 2)]

/-- The three readers of a byte of the colour. -/
def colorReaders : List (ℕ × Fin 3 × Word × ℕ) :=
  [(5, 0, 0x00FFFF00, 0), (6, 1, 0x00FF00FF, 8), (7, 2, 0x0000FFFF, 16)]

def textSlots : List Slot :=
  [.coord 5 .bkLeft, .coord 6 .bkTop, .coord 7 .bkRight, .coord 8 .bkBottom, .coord 9 .opLeft,
    .coord 10 .opTop, .coord 11 .opRight, .coord 12 .opBottom, .coord 13 .x, .coord 14 .y]

/-- **The fields of the order types.** -/
def format : OrderType → List Slot
  | .dstblt => rectSlots ++ [.value 5 .byte (.member .bRop)]
  | .patblt =>
      rectSlots ++ [.value 5 .byte (.member .bRop), .value 6 .color (.member .backColor),
        .value 7 .color (.member .foreColor)] ++ brushSlots 7
  | .scrblt => rectSlots ++ [.value 5 .byte (.member .bRop), .coord 6 .nXSrc, .coord 7 .nYSrc]
  | .opaqueRect => rectSlots ++ colorSlots
  | .drawNineGrid =>
      [.coord 1 .srcLeft, .coord 2 .srcTop, .coord 3 .srcRight, .coord 4 .srcBottom,
        .value 5 .uint16 (.member .bitmapId)]
  | .multiDstblt =>
      rectSlots ++ [.value 5 .byte (.member .bRop), .value 6 .byte (.member .numRectangles),
        .rectangles 7 .numRectangles]
  | .multiPatblt =>
      rectSlots ++ [.value 5 .byte (.member .bRop), .value 6 .color (.member .backColor),
        .value 7 .color (.member .foreColor)] ++ brushSlots 7 ++
        [.value 13 .byte (.member .numRectangles), .rectangles 14 .numRectangles]
  | .multiScrblt =>
      rectSlots ++ [.value 5 .byte (.member .bRop), .coord 6 .nXSrc, .coord 7 .nYSrc,
        .value 8 .byte (.member .numRectangles), .rectangles 9 .numRectangles]
  | .multiOpaqueRect =>
      rectSlots ++ colorSlots ++
      [.value 8 .byte (.member .numRectangles), .rectangles 9 .numRectangles]
  | .multiDrawNineGrid =>
      [.coord 1 .srcLeft, .coord 2 .srcTop, .coord 3 .srcRight, .coord 4 .srcBottom,
        .value 5 .uint16 (.member .bitmapId), .value 6 .byte (.member .nDeltaEntries),
        .rectangles 7 .nDeltaEntries]
  | .lineTo =>
      [.value 1 .uint16 (.member .backMode), .coord 2 .nXStart, .coord 3 .nYStart, .coord 4 .nXEnd,
        .coord 5 .nYEnd, .value 6 .color (.member .backColor), .value 7 .byte (.member .bRop2),
        .value 8 .byte (.member .penStyle), .value 9 .byte (.member .penWidth),
        .value 10 .color (.member .penColor)]
  | .polyline =>
      [.coord 1 .xStart, .coord 2 .yStart, .value 3 .byte (.member .bRop2), .unused 4 .uint16,
        .value 5 .color (.member .penColor), .value 6 .byte (.member .numDeltaEntries),
        .points 7 .numDeltaEntries]
  | .memblt =>
      [.value 1 .uint16 (.member .cacheId), .coord 2 .nLeftRect,
        .coord 3 .nTopRect, .coord 4 .nWidth,
        .coord 5 .nHeight, .value 6 .byte (.member .bRop), .coord 7 .nXSrc, .coord 8 .nYSrc,
        .value 9 .uint16 (.member .cacheIndex)]
  | .mem3blt =>
      [.value 1 .uint16 (.member .cacheId), .coord 2 .nLeftRect,
        .coord 3 .nTopRect, .coord 4 .nWidth,
        .coord 5 .nHeight, .value 6 .byte (.member .bRop), .coord 7 .nXSrc, .coord 8 .nYSrc,
        .value 9 .color (.member .backColor),
        .value 10 .color (.member .foreColor)] ++ brushSlots 10 ++
        [.value 16 .uint16 (.member .cacheIndex)]
  | .saveBitmap =>
      [.value 1 .uint32 (.member .savedBitmapPosition), .coord 2 .nLeftRect, .coord 3 .nTopRect,
        .coord 4 .nRightRect, .coord 5 .nBottomRect, .value 6 .byte (.member .operation)]
  | .glyphIndex =>
      [.value 1 .byte (.member .cacheId), .value 2 .byte (.member .flAccel),
        .value 3 .byte (.member .ulCharInc), .value 4 .byte (.member .fOpRedundant),
        .value 5 .color (.member .backColor), .value 6 .color (.member .foreColor),
        .value 7 .int16 (.member .bkLeft), .value 8 .int16 (.member .bkTop),
        .value 9 .int16 (.member .bkRight), .value 10 .int16 (.member .bkBottom),
        .value 11 .int16 (.member .opLeft), .value 12 .int16 (.member .opTop),
        .value 13 .int16 (.member .opRight),
        .value 14 .int16 (.member .opBottom)] ++ brushSlots 14 ++
        [.value 20 .int16 (.member .x), .value 21 .int16 (.member .y), .bytes 22]
  | .fastIndex =>
      [.value 1 .byte (.member .cacheId), .twoBytes 2 .ulCharInc .flAccel,
        .value 3 .color (.member .backColor), .value 4 .color (.member .foreColor)] ++ textSlots ++
        [.bytes 15]
  | .fastGlyph =>
      [.value 1 .byte (.member .cacheId), .twoBytes 2 .ulCharInc .flAccel,
        .value 3 .color (.member .backColor), .value 4 .color (.member .foreColor)] ++ textSlots ++
        [.glyph 15]
  | .polygonSc =>
      [.coord 1 .xStart, .coord 2 .yStart, .value 3 .byte (.member .bRop2),
        .value 4 .byte (.member .fillMode), .value 5 .color (.member .brushColor),
        .value 6 .byte (.member .numPoints), .points 7 .numPoints]
  | .polygonCb =>
      [.coord 1 .xStart, .coord 2 .yStart, .value 3 .byte (.member .bRop2),
        .value 4 .byte (.member .fillMode), .value 5 .color (.member .backColor),
        .value 6 .color (.member .foreColor)] ++ brushSlots 6 ++
        [.value 12 .byte (.member .numPoints), .points 13 .numPoints]
  | .ellipseSc =>
      [.coord 1 .leftRect, .coord 2 .topRect, .coord 3 .rightRect, .coord 4 .bottomRect,
        .value 5 .byte (.member .bRop2), .value 6 .byte (.member .fillMode),
        .value 7 .color (.member .color)]
  | .ellipseCb =>
      [.coord 1 .leftRect, .coord 2 .topRect, .coord 3 .rightRect, .coord 4 .bottomRect,
        .value 5 .byte (.member .bRop2), .value 6 .byte (.member .fillMode),
        .value 7 .color (.member .backColor), .value 8 .color (.member .foreColor)] ++ brushSlots 8

/-! ## The expected structure -/

/-- The order types with a colour in three fields. -/
def OrderType.colored : OrderType → Bool
  | .opaqueRect | .multiOpaqueRect => true
  | _ => false

/-- The order types whose `cacheId` word is the cache number and the index of a colour table. -/
def OrderType.cached : OrderType → Bool
  | .memblt | .mem3blt => true
  | _ => false

/-- The field before the first of the five brush fields, for the order types with a brush. -/
def OrderType.brushShift : OrderType → Option ℕ
  | .patblt | .multiPatblt => some 7
  | .mem3blt => some 10
  | .glyphIndex => some 14
  | .polygonCb => some 6
  | .ellipseCb => some 8
  | _ => none

def colorOf (fields : Fields) : Word :=
  fields (.colorByte 0) ||| fields (.colorByte 1) <<< 8 ||| fields (.colorByte 2) <<< 16

/-- The background mode in a `bRop2` byte of `POLYGON_CB`. -/
def backModeOf (bRop2 : Word) : Word :=
  if bRop2 &&& 0x80 ≠ 0 then backmodeTransparent else backmodeOpaque

/-- The brush in force is one of the brush cache. -/
def CacheBrush (t : OrderType) (fields : Fields) : Prop :=
  t.brushShift.isSome ∧ fields (.member (.brush .style)) &&& cachedBrush ≠ 0

/-- The brush in force is not one of the brush cache. -/
def OwnBrush (t : OrderType) (fields : Fields) : Prop :=
  t.brushShift.isSome ∧ fields (.member (.brush .style)) &&& cachedBrush = 0

instance (t : OrderType) (fields : Fields) : Decidable (CacheBrush t fields) := instDecidableAnd

instance (t : OrderType) (fields : Fields) : Decidable (OwnBrush t fields) := instDecidableAnd

/-- **The members that the structure of an order shall have** while the given fields are in force:
mostly the field of the same name.  Some members are derived from a field:

* `color` of the two `OPAQUE_RECT` orders is made of its three bytes;
* `cacheId` and `colorIndex` of the `MEMBLT` orders are the low byte and the rest of the `cacheId`
  word;
* `bRop2` and `backMode` of `POLYGON_CB` are the low five bits and the high bit of the `bRop2` byte;
* `index` and `bpp` of a brush of the brush cache are its `hatch` and `style`, and `data` is looked
  up;
* `data` of another brush is null until rows of a pattern are sent, then its own rows (1), and
  nothing reads its `index`;
* the first row of a brush pattern is `hatch`, once the other rows were sent. -/
def expected (t : OrderType) (fields : Fields) : Member → Option Word
  | .color => if t.colored then some (colorOf fields) else some (fields (.member .color))
  | .cacheId =>
      if t.cached then some (fields (.member .cacheId) &&& 0xFF)
        else some (fields (.member .cacheId))
  | .colorIndex =>
      if t.cached then some (fields (.member .cacheId) >>> 8)
        else some (fields (.member .colorIndex))
  | .bRop2 =>
      if t = .polygonCb then some (fields (.member .bRop2) &&& 0x1F)
        else some (fields (.member .bRop2))
  | .backMode =>
      if t = .polygonCb then some (backModeOf (fields (.member .bRop2)))
      else some (fields (.member .backMode))
  | .brush .index => if CacheBrush t fields then some (fields (.member (.brush .hatch))) else none
  | .brush .bpp =>
      if CacheBrush t fields then getBmfBpp (fields (.member (.brush .style))) else none
  | .brush .data => if OwnBrush t fields then some (fields (.member (.brush .data))) else none
  | .brush (.p8x8 0) =>
      if t.brushShift.isSome ∧ fields (.member (.brush .data)) = 1 then
        some (fields (.member (.brush .hatch)))
      else none
  | m => some (fields (.member m))

/-- An order has the members that it shall have, and a brush that is not of the brush cache is
monochrome, whether its `bpp` is 1 or was never set. -/
structure Follows (t : OrderType) (fields : Fields) (o : Order) : Prop where
  members : ∀ m v, expected t fields m = some v → o m = v
  monochrome : OwnBrush t fields → o (.brush .bpp) ≤ 1

/-! ## Runs -/

/-- What was sent so far: the order type and the bounds in force, and the orders of each type, the
newest first. -/
structure Wire where
  orderInfo : OrderInfo
  sent : OrderType → List Packet

/-- Nothing was sent. -/
def Wire.start : Wire := ⟨updateResetState.orderInfo, fun _ => []⟩

def Wire.fields (w : Wire) (t : OrderType) : Fields :=
  fun f => Sent.inForce (Sent.sentTo f (w.sent t))

/-- The order on the wire, as its type, its header and its fields. -/
def Wire.order (settings : Settings) (flags : ℕ) (s : List UInt8) (w : Wire) :
    Option (OrderInfo × Option (OrderType × Packet)) := do
  let (s, orderInfo) ← readOrderInfo settings flags s w.orderInfo
  match OrderType.ofNat? orderInfo.orderType with
  | none => some (orderInfo, none)
  | some t =>
      let (_, p) ← carried orderInfo (format t) (w.fields t) s
      some (orderInfo, some (t, p))

def Wire.push (w : Wire) : OrderInfo × Option (OrderType × Packet) → Wire
  | (orderInfo, none) => ⟨orderInfo, w.sent⟩
  | (orderInfo, some (t, p)) => ⟨orderInfo, Function.update w.sent t (p :: w.sent t)⟩

/-- The derived members that the decoder keeps: it keeps the colour index of a `cacheId` word, and
the background mode of a `bRop2` byte, only when the order carries the field or the member is the
one that an omitted field gives; and the first row of a pattern follows a new hatch only when the
order carries the pattern.  A callback that looked up a brush of the cache leaves its `data` and
`bpp` in the structure: they are stale for a brush of another kind. -/
structure Keeps (t : OrderType) (orderInfo : OrderInfo) (before : Order) (fields : Fields) :
    Prop where
  cacheId : t.cached = true → Carries orderInfo 1 ∨ before .colorIndex = 0
  bRop2 : t = .polygonCb → Carries orderInfo 3 ∨ before .backMode ≠ backmodeTransparent
  pattern : ∀ shift, t.brushShift = some shift →
    Carries orderInfo (shift + 5) ∨ fields (.member (.brush .data)) = 0 ∨
      fields (.member (.brush .hatch)) = before (.brush (.p8x8 0))
  data : ∀ shift, t.brushShift = some shift → OwnBrush t fields →
    Carries orderInfo (shift + 5) ∨ before (.brush .data) = fields (.member (.brush .data))
  bpp : OwnBrush t fields → before (.brush .bpp) ≤ 1

/-- One order to be received: its control flags, its bytes, and what the callbacks do. -/
structure Delivery where
  flags : ℕ
  s : List UInt8
  app : Callbacks

/-- Every order of the run, up to the first that is not read, keeps the derived members. -/
def RunKeeps (settings : Settings) : PrimaryUpdate → Wire → List Delivery → Prop
  | _, _, [] => True
  | primary, w, d :: ds =>
      ∀ received, updateRecvPrimaryOrder settings d.app d.flags d.s primary = some received →
        ∀ next, w.order settings d.flags d.s = some next → (∀ t p, next.2 = some (t, p) →
            Keeps t next.1 (primary.orders t) ((w.push next).fields t)) ∧
          RunKeeps settings received.primary (w.push next) ds

/-- Every order of the run, up to the first that is not read, is an order on the wire, and is handed
to its callback with the members that it shall have. -/
def RunFollows (settings : Settings) : PrimaryUpdate → Wire → List Delivery → Prop
  | _, _, [] => True
  | primary, w, d :: ds =>
      ∀ received, updateRecvPrimaryOrder settings d.app d.flags d.s primary = some received →
        ∃ next, w.order settings d.flags d.s = some next ∧ (∀ t o, received.handed = some (t, o) →
            (∃ p, next.2 = some (t, p)) ∧ Follows t ((w.push next).fields t) o) ∧
          RunFollows settings received.primary (w.push next) ds

end WBFreeRDP.Orders

/-
# Primary drawing orders

Model of the decoder of primary drawing orders (`libfreerdp/core/orders.c`).  The decoder keeps one
structure for each order type; an order carries some of the fields of its type, and what it does not
carry is taken from the structure.
-/
import WBFreeRDP.ByteOrder

namespace WBFreeRDP.Orders

/-! ## The structures -/

/-- A member of 32 bits, signed or not. -/
abbrev Word := BitVec 32

/-- The members of `rdpBrush`.  `data` is a pointer: null is 0 and `p8x8` of the same brush is 1. -/
inductive BrushMember where
  | x | y | bpp | style | hatch | index | data
  | p8x8 (i : ℕ)
  deriving DecidableEq

/-- The members of `DELTA_RECT`. -/
inductive RectMember where
  | left | top | width | height
  deriving DecidableEq

/-- The members of `DELTA_POINT`. -/
inductive PointMember where
  | x | y
  deriving DecidableEq

/-- The members of `GLYPH_DATA_V2`. -/
inductive GlyphMember where
  | cacheIndex | x | y | cx | cy | cb
  | aj (i : ℕ)
  deriving DecidableEq

/-- The members of the structures of the order types, those of nested structures and arrays
included. -/
inductive Member where
  | backColor | backMode | bitmapId | bkBottom | bkLeft | bkRight | bkTop
      | bottomRect | bRop | bRop2
  | brushColor | cacheId | cacheIndex | cbData | color | colorIndex | fillMode
      | flAccel | fOpRedundant
  | foreColor | leftRect | nBottomRect | nDeltaEntries | nHeight | nLeftRect | nRightRect | nTopRect
  | numDeltaEntries | numPoints | numRectangles | nWidth | nXEnd | nXSrc | nXStart | nYEnd | nYSrc
  | nYStart | opBottom | operation | opLeft | opRight | opTop | penColor | penStyle | penWidth
  | rightRect | savedBitmapPosition | srcBottom | srcLeft | srcRight | srcTop | topRect | ulCharInc
  | x | xStart | y | yStart
  | brush (m : BrushMember)
  | rectangles (i : ℕ) (m : RectMember)
  | points (i : ℕ) (m : PointMember)
  | data (i : ℕ)
  | glyphData (m : GlyphMember)
  deriving DecidableEq

/-- The structure of an order type: a type uses the members that its C structure has, the others
stay zero. -/
abbrev Order := Member → Word

namespace Order

def set (o : Order) (m : Member) (v : Word) : Order := Function.update o m v

/-- Assignments to members, one after the other. -/
def setAll (o : Order) (writes : List (Member × Word)) : Order :=
  writes.foldl (fun o w => o.set w.1 w.2) o

end Order

/-- The primary order types. -/
inductive OrderType where
  | dstblt | patblt | scrblt | drawNineGrid | multiDrawNineGrid | lineTo | opaqueRect | saveBitmap
  | memblt | mem3blt | multiDstblt | multiPatblt | multiScrblt | multiOpaqueRect | fastIndex
  | polygonSc | polygonCb | polyline | fastGlyph | ellipseSc | ellipseCb | glyphIndex
  deriving DecidableEq

/-- The `ORDER_TYPE_*` numbers. -/
def OrderType.ofNat? : ℕ → Option OrderType
  | 0x00 => some .dstblt
  | 0x01 => some .patblt
  | 0x02 => some .scrblt
  | 0x07 => some .drawNineGrid
  | 0x08 => some .multiDrawNineGrid
  | 0x09 => some .lineTo
  | 0x0A => some .opaqueRect
  | 0x0B => some .saveBitmap
  | 0x0D => some .memblt
  | 0x0E => some .mem3blt
  | 0x0F => some .multiDstblt
  | 0x10 => some .multiPatblt
  | 0x11 => some .multiScrblt
  | 0x12 => some .multiOpaqueRect
  | 0x13 => some .fastIndex
  | 0x14 => some .polygonSc
  | 0x15 => some .polygonCb
  | 0x16 => some .polyline
  | 0x18 => some .fastGlyph
  | 0x19 => some .ellipseSc
  | 0x1A => some .ellipseCb
  | 0x1B => some .glyphIndex
  | _ => none

/-- `rdpBounds`. -/
structure Bounds where
  left : Word
  top : Word
  right : Word
  bottom : Word
  deriving DecidableEq

/-- `ORDER_INFO`, what the decoder keeps from order to order and the fields of the present one. -/
structure OrderInfo where
  orderType : ℕ
  fieldFlags : ℕ
  bounds : Bounds
  deltaCoordinates : Bool
  deriving DecidableEq

/-! ## Reading values -/

/-- `Stream_Read_UINT8` into a word. -/
def readUint8 (s : List UInt8) : Option (Word × List UInt8) :=
  (readLE 1 s).map fun (n, s) => (BitVec.ofNat 32 n, s)

/-- `Stream_Read_UINT16` into a word. -/
def readUint16 (s : List UInt8) : Option (Word × List UInt8) :=
  (readLE 2 s).map fun (n, s) => (BitVec.ofNat 32 n, s)

/-- `Stream_Read_UINT32`. -/
def readUint32 (s : List UInt8) : Option (Word × List UInt8) :=
  (readLE 4 s).map fun (n, s) => (BitVec.ofNat 32 n, s)

/-- `Stream_Read_INT8` into a word. -/
def readInt8 (s : List UInt8) : Option (Word × List UInt8) :=
  (readLE 1 s).map fun (n, s) => ((BitVec.ofNat 8 n).signExtend 32, s)

/-- `Stream_Read_INT16` into a word. -/
def readInt16 (s : List UInt8) : Option (Word × List UInt8) :=
  (readLE 2 s).map fun (n, s) => ((BitVec.ofNat 16 n).signExtend 32, s)

/-- `update_read_color`: three bytes, red first. -/
def updateReadColor (s : List UInt8) : Option (Word × List UInt8) :=
  (readLE 3 s).map fun (n, s) => (BitVec.ofNat 32 n, s)

/-- `update_read_coord`: a change of the coordinate in one byte, or its value in two. -/
def updateReadCoord (s : List UInt8) (coord : Word) (delta : Bool) : Option (Word × List UInt8) :=
  if delta then (readInt8 s).map fun (lsi8, s) => (coord + lsi8, s)
  else readInt16 s

def updateRead2byteUnsigned (s : List UInt8) : Option (Word × List UInt8) := do
  let (byte, s) ← readUint8 s
  if byte &&& 0x80 ≠ 0 then
    let (low, s) ← readUint8 s
    some ((byte &&& 0x7F) <<< 8 ||| low, s)
  else some (byte &&& 0x7F, s)

def updateRead2byteSigned (s : List UInt8) : Option (Word × List UInt8) := do
  let (byte, s) ← readUint8 s
  let negative := byte &&& 0x40 ≠ 0
  let value := byte &&& 0x3F
  if byte &&& 0x80 ≠ 0 then
    let (low, s) ← readUint8 s
    let value := value <<< 8 ||| low
    some (if negative then -value else value, s)
  else some (if negative then -value else value, s)

/-- `update_read_delta`. -/
def updateReadDelta (s : List UInt8) : Option (Word × List UInt8) := do
  let (byte, s) ← readUint8 s
  let uvalue := if byte &&& 0x40 ≠ 0 then byte ||| ~~~0x3F else byte &&& 0x3F
  if byte &&& 0x80 ≠ 0 then
    let (low, s) ← readUint8 s
    some (uvalue <<< 8 ||| low, s)
  else some (uvalue, s)

/-- `update_read_delta` where the zero bit of the value is clear; a value whose bit is set keeps
`old`. -/
def updateReadDeltaUnless (zeroBit : Bool) (old : Word) (s : List UInt8) :
    Option (Word × List UInt8) :=
  if zeroBit then some (old, s) else updateReadDelta s

/-- `DELTA_RECT`. -/
structure DeltaRect where
  left : Word
  top : Word
  width : Word
  height : Word

/-- The loop of `update_read_delta_rects`.  The rectangle before the first is all zeros. -/
def deltaRectsLoop (zeroBits : List UInt8) :
    ℕ → ℕ → ℕ → DeltaRect → List UInt8 → Option (List DeltaRect × List UInt8)
  | 0, _, _, _, s => some ([], s)
  | n + 1, i, flags, prev, s => do
      let flags := if i % 2 = 0 then (zeroBits.getD (i / 2) 0).toNat else flags
      let (left, s) ← updateReadDeltaUnless (flags.testBit 7) 0 s
      let (top, s) ← updateReadDeltaUnless (flags.testBit 6) 0 s
      let (width, s) ← updateReadDeltaUnless (flags.testBit 5) prev.width s
      let (height, s) ← updateReadDeltaUnless (flags.testBit 4) prev.height s
      let rect : DeltaRect := ⟨left + prev.left, top + prev.top, width, height⟩
      let (rects, s) ← deltaRectsLoop zeroBits n (i + 1) (flags <<< 4 % 256) rect s
      some (rect :: rects, s)

def updateReadDeltaRects (number : ℕ) (s : List UInt8) : Option (List DeltaRect × List UInt8) :=
  let zeroBitsSize := (number + 1) / 2
  if number > 45 then none
  else if s.length < zeroBitsSize then none
  else deltaRectsLoop (s.take zeroBitsSize) number 0 0 ⟨0, 0, 0, 0⟩ (s.drop zeroBitsSize)

/-- `DELTA_POINT`. -/
structure DeltaPoint where
  x : Word
  y : Word

/-- The loop of `update_read_delta_points`. -/
def deltaPointsLoop (zeroBits : List UInt8) :
    ℕ → ℕ → ℕ → List UInt8 → Option (List DeltaPoint × List UInt8)
  | 0, _, _, s => some ([], s)
  | n + 1, i, flags, s => do
      let flags := if i % 4 = 0 then (zeroBits.getD (i / 4) 0).toNat else flags
      let (x, s) ← updateReadDeltaUnless (flags.testBit 7) 0 s
      let (y, s) ← updateReadDeltaUnless (flags.testBit 6) 0 s
      let (points, s) ← deltaPointsLoop zeroBits n (i + 1) (flags <<< 2 % 256) s
      some (⟨x, y⟩ :: points, s)

def updateReadDeltaPoints (number : ℕ) (s : List UInt8) : Option (List DeltaPoint × List UInt8) :=
  let zeroBitsSize := (number + 3) / 4
  if s.length < zeroBitsSize then none
  else deltaPointsLoop (s.take zeroBitsSize) number 0 0 (s.drop zeroBitsSize)

/-- The rectangles of an array, from entry `i` on. -/
def rectWrites : ℕ → List DeltaRect → List (Member × Word)
  | _, [] => []
  | i, r :: rects =>
      (.rectangles i .left, r.left) :: (.rectangles i .top, r.top) ::
        (.rectangles i .width, r.width) ::
        (.rectangles i .height, r.height) :: rectWrites (i + 1) rects

/-- The points of an array, from entry `i` on. -/
def pointWrites : ℕ → List DeltaPoint → List (Member × Word)
  | _, [] => []
  | i, p :: points => (.points i .x, p.x) :: (.points i .y, p.y) :: pointWrites (i + 1) points

/-- The bytes of an array, from entry `i` on. -/
def byteWrites (entry : ℕ → Member) : ℕ → List UInt8 → List (Member × Word)
  | _, [] => []
  | i, b :: bytes => (entry i, BitVec.ofNat 32 b.toNat) :: byteWrites entry (i + 1) bytes

/-! ## Reading fields -/

/-- A reader of fields of an order. -/
abbrev OrderReader := OrderInfo → List UInt8 → Order → Option (List UInt8 × Order)

/-- Readers one after the other, up to the first that fails. -/
def allOf : List OrderReader → OrderReader
  | [], _, s, o => some (s, o)
  | r :: readers, orderInfo, s, o =>
      match r orderInfo s o with
      | none => none
      | some (s, o) => allOf readers orderInfo s o

def orderFieldFlagIsSet (orderInfo : OrderInfo) (number : ℕ) : Bool :=
  orderInfo.fieldFlags &&& 1 <<< (number - 1) ≠ 0

/-- The readers of a field with a single value: a field that is not there leaves its member
alone. -/
def readOrderField (read : List UInt8 → Option (Word × List UInt8)) (number : ℕ) (target : Member) :
    OrderReader := fun orderInfo s o =>
  if !orderFieldFlagIsSet orderInfo number then some (s, o)
  else (read s).map fun (v, s) => (s, o.set target v)

def readOrderFieldByte : ℕ → Member → OrderReader := readOrderField readUint8

def readOrderFieldUint16 : ℕ → Member → OrderReader := readOrderField readUint16

def readOrderFieldInt16 : ℕ → Member → OrderReader := readOrderField readInt16

def readOrderFieldUint32 : ℕ → Member → OrderReader := readOrderField readUint32

def readOrderFieldColor : ℕ → Member → OrderReader := readOrderField updateReadColor

def readOrderField2bytes (number : ℕ) (target1 target2 : Member) : OrderReader :=
  fun orderInfo s o =>
  if !orderFieldFlagIsSet orderInfo number then some (s, o)
  else do
    let (v1, s) ← readUint8 s
    let (v2, s) ← readUint8 s
    some (s, (o.set target1 v1).set target2 v2)

def readOrderFieldCoord (number : ℕ) (target : Member) : OrderReader := fun orderInfo s o =>
  if !orderFieldFlagIsSet orderInfo number then some (s, o)
  else (updateReadCoord s (o target) orderInfo.deltaCoordinates).map fun (v, s) =>
    (s, o.set target v)

/-- `read_order_field_byte` and `read_order_field_uint16` into a local variable, which starts as
`old`. -/
def readOrderFieldLocal (read : List UInt8 → Option (Word × List UInt8)) (orderInfo : OrderInfo)
    (number : ℕ) (old : Word) (s : List UInt8) : Option (Word × List UInt8) :=
  if !orderFieldFlagIsSet orderInfo number then some (old, s) else read s

/-- A byte of `color`, as `update_read_opaque_rect_order` reads it: the other two are kept. -/
def readColorByte (number : ℕ) (keep : Word) (shift : ℕ) : OrderReader := fun orderInfo s o =>
  if !orderFieldFlagIsSet orderInfo number then some (s, o)
  else (readUint8 s).map fun (byte, s) => (s, o.set .color (o .color &&& keep ||| byte <<< shift))

/-- `CACHED_BRUSH`. -/
def cachedBrush : Word := 0x80

/-- `get_bmf_bpp`. -/
def getBmfBpp (bmf : Word) : Option Word :=
  match (bmf &&& ~~~cachedBrush).toNat with
  | 1 => some 1
  | 3 => some 8
  | 4 => some 16
  | 5 => some 24
  | 6 => some 32
  | _ => none

/-- `get_checked_uint8`, which asserts that the value fits in a byte. -/
def getCheckedUint8 (value : Word) : Option Word := if value.toNat ≤ 255 then some value else none

/-- The `index` and `bpp` of a brush of the brush cache. -/
def setCachedBrush (o : Order) : Option Order :=
  if o (.brush .style) &&& cachedBrush ≠ 0 then do
    let bpp ← getBmfBpp (o (.brush .style))
    let o := o.set (.brush .index) (o (.brush .hatch))
    some (o.set (.brush .bpp) (if bpp = 0 then 1 else bpp))
  else some o

/-- The pattern bytes of a brush: seven are read, and the first row is the hatch. -/
def readBrushPattern (s : List UInt8) (o : Order) : Option (List UInt8 × Order) :=
  if s.length < 7 then none
  else do
    let o := o.set (.brush .data) 1
    let o := o.setAll (byteWrites (fun i => .brush (.p8x8 i)) 1 (s.take 7).reverse)
    let hatch ← getCheckedUint8 (o (.brush .hatch))
    some (s.drop 7, o.set (.brush (.p8x8 0)) hatch)

/-- `update_read_brush`, with the five field flags from bit `shift` on. -/
def updateReadBrush (shift : ℕ) : OrderReader := fun orderInfo s o =>
  let fieldFlags := { orderInfo with fieldFlags := orderInfo.fieldFlags >>> shift &&& 0x1F }
  do
    let (s, o) ← allOf [readOrderFieldByte 1 (.brush .x), readOrderFieldByte 2 (.brush .y),
      readOrderFieldByte 3 (.brush .style), readOrderFieldByte 4 (.brush .hatch)] fieldFlags s o
    let o ← setCachedBrush o
    if orderFieldFlagIsSet fieldFlags 5 then readBrushPattern s o else some (s, o)

/-- The count of the rectangles of a `MULTI_*` order and the rectangles: field `number` is the count
and field `list` the rectangles.  An order that carries no rectangles cannot raise the count. -/
def readRectanglesField (number list : ℕ) (count : Member) : OrderReader := fun orderInfo s o => do
  let (num, s) ← readOrderFieldLocal readUint8 orderInfo number (o count) s
  if orderFieldFlagIsSet orderInfo list then
    let o := o.set count num
    let (cbData, s) ← readUint16 s
    let o := o.set .cbData cbData
    let (rects, s) ← updateReadDeltaRects (o count).toNat s
    some (s, o.setAll (rectWrites 0 rects))
  else if num > o count then none
  else some (s, o.set count num)

def checkValFitsInt16 (value : Word) : Bool := -32768 ≤ value.toInt ∧ value.toInt ≤ 32767

/-- The count of the points of `POLYLINE` and `POLYGON_SC` and the points. -/
def readPointsField (number list : ℕ) (count : Member) : OrderReader := fun orderInfo s o => do
  let (num, s) ← readOrderFieldLocal readUint8 orderInfo number (o count) s
  if orderFieldFlagIsSet orderInfo list then
    if num = 0 then none
    else
      let (cbData, s) ← readUint8 s
      let o := o.set .cbData cbData
      if !checkValFitsInt16 (o .xStart) || !checkValFitsInt16 (o .yStart) then none
      else
        let o := o.set count num
        let (points, s) ← updateReadDeltaPoints (o count).toNat s
        some (s, o.setAll (pointWrites 0 points))
  else if num > o count then none
  else some (s, o.set count num)

/-- The field of variable length of `GLYPH_INDEX` and `FAST_INDEX`: a length byte and the bytes. -/
def readVariableBytes (number : ℕ) : OrderReader := fun orderInfo s o =>
  if !orderFieldFlagIsSet orderInfo number then some (s, o)
  else do
    let (cbData, s) ← readUint8 s
    if s.length < cbData.toNat then none
    else
      let o := o.set .cbData cbData
      some (s.drop cbData.toNat, o.setAll (byteWrites .data 0 (s.take cbData.toNat)))

/-- The glyph in the variable bytes of `FAST_GLYPH`: its index in the cache, and its bitmap when
there are more bytes. -/
def readGlyphData (sub : List UInt8) : Option (List (Member × Word)) := do
  let cbData := sub.length
  let (cacheIndex, sub) ← readUint8 sub
  if cbData > 1 then
    let (x, sub) ← updateRead2byteSigned sub
    let (y, sub) ← updateRead2byteSigned sub
    let (cx, sub) ← updateRead2byteUnsigned sub
    let (cy, sub) ← updateRead2byteUnsigned sub
    if cx = 0 || cy = 0 then none
    else
      some ((.glyphData .cacheIndex, cacheIndex) :: (.glyphData .x, x) :: (.glyphData .y, y) ::
        (.glyphData .cx, cx) :: (.glyphData .cy, cy) ::
        (.glyphData .cb, BitVec.ofNat 32 sub.length) ::
          byteWrites (fun i => .glyphData (.aj i)) 0 sub)
  else some [(.glyphData .cacheIndex, cacheIndex)]

/-- The field of variable length of `FAST_GLYPH`. -/
def readFastGlyphBytes (number : ℕ) : OrderReader := fun orderInfo s o =>
  if !orderFieldFlagIsSet orderInfo number then some (s, o)
  else do
    let (cbData, s) ← readUint8 s
    if s.length < cbData.toNat ∨ cbData = 0 then none
    else
      let o := o.set .cbData cbData
      let o := o.setAll (byteWrites .data 0 (s.take cbData.toNat))
      let glyph ← readGlyphData (s.take cbData.toNat)
      some (s.drop cbData.toNat, o.setAll glyph)

/-- The rectangles of `MULTI_PATBLT`, which compares the counts also when it read the rectangles. -/
def readRectanglesThenCheck (number list : ℕ) (count : Member) : OrderReader :=
  fun orderInfo s o => do
  let (num, s) ← readOrderFieldLocal readUint8 orderInfo number (o count) s
  let (s, o) ←
    if orderFieldFlagIsSet orderInfo list then do
      let (cbData, s) ← readUint16 s
      let o := (o.set count num).set .cbData cbData
      let (rects, s) ← updateReadDeltaRects (o count).toNat s
      some (s, o.setAll (rectWrites 0 rects))
    else some (s, o)
  if num > o count then none else some (s, o.set count num)

/-- The points of `POLYGON_CB`, which compares the counts also when it read the points. -/
def readPointsThenCheck (number list : ℕ) (count : Member) : OrderReader := fun orderInfo s o => do
  let (num, s) ← readOrderFieldLocal readUint8 orderInfo number (o count) s
  let (s, o) ←
    if orderFieldFlagIsSet orderInfo list then
      if num = 0 then none
      else do
        let (cbData, s) ← readUint8 s
        let o := (o.set .cbData cbData).set count num
        if !checkValFitsInt16 (o .xStart) || !checkValFitsInt16 (o .yStart) then none
        else do
          let (points, s) ← updateReadDeltaPoints (o count).toNat s
          some (s, o.setAll (pointWrites 0 points))
    else some (s, o)
  if num > o count then none else some (s, o.set count num)

/-! ## The order types -/

def updateReadDstbltOrder : OrderReader := allOf
  [readOrderFieldCoord 1 .nLeftRect, readOrderFieldCoord 2 .nTopRect, readOrderFieldCoord 3 .nWidth,
    readOrderFieldCoord 4 .nHeight, readOrderFieldByte 5 .bRop]

def updateReadPatbltOrder : OrderReader := allOf
  [readOrderFieldCoord 1 .nLeftRect, readOrderFieldCoord 2 .nTopRect, readOrderFieldCoord 3 .nWidth,
    readOrderFieldCoord 4 .nHeight, readOrderFieldByte 5 .bRop, readOrderFieldColor 6 .backColor,
    readOrderFieldColor 7 .foreColor, updateReadBrush 7]

def updateReadScrbltOrder : OrderReader := allOf
  [readOrderFieldCoord 1 .nLeftRect, readOrderFieldCoord 2 .nTopRect, readOrderFieldCoord 3 .nWidth,
    readOrderFieldCoord 4 .nHeight, readOrderFieldByte 5 .bRop, readOrderFieldCoord 6 .nXSrc,
    readOrderFieldCoord 7 .nYSrc]

def updateReadOpaqueRectOrder : OrderReader := allOf
  [readOrderFieldCoord 1 .nLeftRect, readOrderFieldCoord 2 .nTopRect, readOrderFieldCoord 3 .nWidth,
    readOrderFieldCoord 4 .nHeight, readColorByte 5 0x00FFFF00 0, readColorByte 6 0x00FF00FF 8,
    readColorByte 7 0x0000FFFF 16]

def updateReadDrawNineGridOrder : OrderReader := allOf
  [readOrderFieldCoord 1 .srcLeft, readOrderFieldCoord 2 .srcTop, readOrderFieldCoord 3 .srcRight,
    readOrderFieldCoord 4 .srcBottom, readOrderFieldUint16 5 .bitmapId]

def updateReadMultiDstbltOrder : OrderReader := allOf
  [readOrderFieldCoord 1 .nLeftRect, readOrderFieldCoord 2 .nTopRect, readOrderFieldCoord 3 .nWidth,
    readOrderFieldCoord 4 .nHeight, readOrderFieldByte 5 .bRop,
    readRectanglesField 6 7 .numRectangles]

def updateReadMultiPatbltOrder : OrderReader := allOf
  [readOrderFieldCoord 1 .nLeftRect, readOrderFieldCoord 2 .nTopRect, readOrderFieldCoord 3 .nWidth,
    readOrderFieldCoord 4 .nHeight, readOrderFieldByte 5 .bRop, readOrderFieldColor 6 .backColor,
    readOrderFieldColor 7 .foreColor, updateReadBrush 7,
    readRectanglesThenCheck 13 14 .numRectangles]

def updateReadMultiScrbltOrder : OrderReader := allOf
  [readOrderFieldCoord 1 .nLeftRect, readOrderFieldCoord 2 .nTopRect, readOrderFieldCoord 3 .nWidth,
    readOrderFieldCoord 4 .nHeight, readOrderFieldByte 5 .bRop, readOrderFieldCoord 6 .nXSrc,
    readOrderFieldCoord 7 .nYSrc, readRectanglesField 8 9 .numRectangles]

def updateReadMultiOpaqueRectOrder : OrderReader := allOf
  [readOrderFieldCoord 1 .nLeftRect, readOrderFieldCoord 2 .nTopRect, readOrderFieldCoord 3 .nWidth,
    readOrderFieldCoord 4 .nHeight, readColorByte 5 0x00FFFF00 0, readColorByte 6 0x00FF00FF 8,
    readColorByte 7 0x0000FFFF 16, readRectanglesField 8 9 .numRectangles]

def updateReadMultiDrawNineGridOrder : OrderReader := allOf
  [readOrderFieldCoord 1 .srcLeft, readOrderFieldCoord 2 .srcTop, readOrderFieldCoord 3 .srcRight,
    readOrderFieldCoord 4 .srcBottom, readOrderFieldUint16 5 .bitmapId,
    readRectanglesField 6 7 .nDeltaEntries]

def updateReadLineToOrder : OrderReader := allOf
  [readOrderFieldUint16 1 .backMode, readOrderFieldCoord 2 .nXStart, readOrderFieldCoord 3 .nYStart,
    readOrderFieldCoord 4 .nXEnd, readOrderFieldCoord 5 .nYEnd, readOrderFieldColor 6 .backColor,
    readOrderFieldByte 7 .bRop2, readOrderFieldByte 8 .penStyle, readOrderFieldByte 9 .penWidth,
    readOrderFieldColor 10 .penColor]

/-- The `word` of `update_read_polyline_order`, which is read and dropped. -/
def skipOrderFieldUint16 (number : ℕ) : OrderReader := fun orderInfo s o =>
  (readOrderFieldLocal readUint16 orderInfo number 0 s).map fun (_, s) => (s, o)

def updateReadPolylineOrder : OrderReader := allOf
  [readOrderFieldCoord 1 .xStart, readOrderFieldCoord 2 .yStart, readOrderFieldByte 3 .bRop2,
    skipOrderFieldUint16 4, readOrderFieldColor 5 .penColor, readPointsField 6 7 .numDeltaEntries]

/-- The colour table index and the cache number, from the word that was read into `cacheId`. -/
def splitCacheId (o : Order) : Order :=
  let o := o.set .colorIndex (o .cacheId >>> 8)
  o.set .cacheId (o .cacheId &&& 0xFF)

def updateReadMembltOrder : OrderReader := fun orderInfo s o =>
  (allOf
    [readOrderFieldUint16 1 .cacheId, readOrderFieldCoord 2 .nLeftRect,
      readOrderFieldCoord 3 .nTopRect,
      readOrderFieldCoord 4 .nWidth, readOrderFieldCoord 5 .nHeight, readOrderFieldByte 6 .bRop,
      readOrderFieldCoord 7 .nXSrc, readOrderFieldCoord 8 .nYSrc,
      readOrderFieldUint16 9 .cacheIndex]
    orderInfo s o).map fun (s, o) => (s, splitCacheId o)

def updateReadMem3bltOrder : OrderReader := fun orderInfo s o =>
  (allOf
    [readOrderFieldUint16 1 .cacheId, readOrderFieldCoord 2 .nLeftRect,
      readOrderFieldCoord 3 .nTopRect,
      readOrderFieldCoord 4 .nWidth, readOrderFieldCoord 5 .nHeight, readOrderFieldByte 6 .bRop,
      readOrderFieldCoord 7 .nXSrc, readOrderFieldCoord 8 .nYSrc, readOrderFieldColor 9 .backColor,
      readOrderFieldColor 10 .foreColor, updateReadBrush 10, readOrderFieldUint16 16 .cacheIndex]
    orderInfo s o).map fun (s, o) => (s, splitCacheId o)

def updateReadSaveBitmapOrder : OrderReader := allOf
  [readOrderFieldUint32 1 .savedBitmapPosition, readOrderFieldCoord 2 .nLeftRect,
    readOrderFieldCoord 3 .nTopRect, readOrderFieldCoord 4 .nRightRect,
    readOrderFieldCoord 5 .nBottomRect, readOrderFieldByte 6 .operation]

def updateReadGlyphIndexOrder : OrderReader := allOf
  [readOrderFieldByte 1 .cacheId, readOrderFieldByte 2 .flAccel, readOrderFieldByte 3 .ulCharInc,
    readOrderFieldByte 4 .fOpRedundant, readOrderFieldColor 5 .backColor,
    readOrderFieldColor 6 .foreColor,
    readOrderFieldInt16 7 .bkLeft, readOrderFieldInt16 8 .bkTop, readOrderFieldInt16 9 .bkRight,
    readOrderFieldInt16 10 .bkBottom, readOrderFieldInt16 11 .opLeft, readOrderFieldInt16 12 .opTop,
    readOrderFieldInt16 13 .opRight, readOrderFieldInt16 14 .opBottom, updateReadBrush 14,
    readOrderFieldInt16 20 .x, readOrderFieldInt16 21 .y, readVariableBytes 22]

def updateReadFastIndexOrder : OrderReader := allOf
  [readOrderFieldByte 1 .cacheId, readOrderField2bytes 2 .ulCharInc .flAccel,
    readOrderFieldColor 3 .backColor, readOrderFieldColor 4 .foreColor,
    readOrderFieldCoord 5 .bkLeft,
    readOrderFieldCoord 6 .bkTop, readOrderFieldCoord 7 .bkRight, readOrderFieldCoord 8 .bkBottom,
    readOrderFieldCoord 9 .opLeft, readOrderFieldCoord 10 .opTop, readOrderFieldCoord 11 .opRight,
    readOrderFieldCoord 12 .opBottom, readOrderFieldCoord 13 .x, readOrderFieldCoord 14 .y,
    readVariableBytes 15]

/-- The check of the cache number in `update_read_fast_glyph_order`. -/
def checkGlyphCacheId : OrderReader := fun _ s o => if o .cacheId > 9 then none else some (s, o)

def updateReadFastGlyphOrder : OrderReader := allOf
  [readOrderFieldByte 1 .cacheId, checkGlyphCacheId, readOrderField2bytes 2 .ulCharInc .flAccel,
    readOrderFieldColor 3 .backColor, readOrderFieldColor 4 .foreColor,
    readOrderFieldCoord 5 .bkLeft,
    readOrderFieldCoord 6 .bkTop, readOrderFieldCoord 7 .bkRight, readOrderFieldCoord 8 .bkBottom,
    readOrderFieldCoord 9 .opLeft, readOrderFieldCoord 10 .opTop, readOrderFieldCoord 11 .opRight,
    readOrderFieldCoord 12 .opBottom, readOrderFieldCoord 13 .x, readOrderFieldCoord 14 .y,
    readFastGlyphBytes 15]

def updateReadPolygonScOrder : OrderReader := allOf
  [readOrderFieldCoord 1 .xStart, readOrderFieldCoord 2 .yStart, readOrderFieldByte 3 .bRop2,
    readOrderFieldByte 4 .fillMode, readOrderFieldColor 5 .brushColor,
    readPointsField 6 7 .numPoints]

def backmodeTransparent : Word := 0x0001

/-- `BACKMODE_OPAQUE`. -/
def backmodeOpaque : Word := 0x0002

/-- The background mode and the raster operation, from the byte that was read into `bRop2`. -/
def splitRop2 (o : Order) : Order :=
  let o := o.set .backMode (if o .bRop2 &&& 0x80 ≠ 0 then backmodeTransparent else backmodeOpaque)
  o.set .bRop2 (o .bRop2 &&& 0x1F)

def updateReadPolygonCbOrder : OrderReader := fun orderInfo s o =>
  (allOf
    [readOrderFieldCoord 1 .xStart, readOrderFieldCoord 2 .yStart, readOrderFieldByte 3 .bRop2,
      readOrderFieldByte 4 .fillMode, readOrderFieldColor 5 .backColor,
      readOrderFieldColor 6 .foreColor, updateReadBrush 6, readPointsThenCheck 12 13 .numPoints]
    orderInfo s o).map fun (s, o) => (s, splitRop2 o)

def updateReadEllipseScOrder : OrderReader := allOf
  [readOrderFieldCoord 1 .leftRect, readOrderFieldCoord 2 .topRect,
    readOrderFieldCoord 3 .rightRect,
    readOrderFieldCoord 4 .bottomRect, readOrderFieldByte 5 .bRop2, readOrderFieldByte 6 .fillMode,
    readOrderFieldColor 7 .color]

def updateReadEllipseCbOrder : OrderReader := allOf
  [readOrderFieldCoord 1 .leftRect, readOrderFieldCoord 2 .topRect,
    readOrderFieldCoord 3 .rightRect,
    readOrderFieldCoord 4 .bottomRect, readOrderFieldByte 5 .bRop2, readOrderFieldByte 6 .fillMode,
    readOrderFieldColor 7 .backColor, readOrderFieldColor 8 .foreColor, updateReadBrush 8]

/-- The `switch` of `read_primary_order`. -/
def OrderType.reader : OrderType → OrderReader
  | .dstblt => updateReadDstbltOrder
  | .patblt => updateReadPatbltOrder
  | .scrblt => updateReadScrbltOrder
  | .opaqueRect => updateReadOpaqueRectOrder
  | .drawNineGrid => updateReadDrawNineGridOrder
  | .multiDstblt => updateReadMultiDstbltOrder
  | .multiPatblt => updateReadMultiPatbltOrder
  | .multiScrblt => updateReadMultiScrbltOrder
  | .multiOpaqueRect => updateReadMultiOpaqueRectOrder
  | .multiDrawNineGrid => updateReadMultiDrawNineGridOrder
  | .lineTo => updateReadLineToOrder
  | .polyline => updateReadPolylineOrder
  | .memblt => updateReadMembltOrder
  | .mem3blt => updateReadMem3bltOrder
  | .saveBitmap => updateReadSaveBitmapOrder
  | .glyphIndex => updateReadGlyphIndexOrder
  | .fastIndex => updateReadFastIndexOrder
  | .fastGlyph => updateReadFastGlyphOrder
  | .polygonSc => updateReadPolygonScOrder
  | .polygonCb => updateReadPolygonCbOrder
  | .ellipseSc => updateReadEllipseScOrder
  | .ellipseCb => updateReadEllipseCbOrder

/-! ## Receiving an order -/

/-- The entries of `settings->OrderSupport` that primary orders need. -/
inductive NegIndex where
  | dstblt | patblt | scrblt | memblt | mem3blt | drawNineGrid | lineTo
      | multiDrawNineGrid | opaqueRect
  | saveBitmap | multiDstblt | multiPatblt | multiOpaqueRect | fastIndex | polygonSc
      | polygonCb | polyline
  | fastGlyph | ellipseSc | ellipseCb | glyphIndex

/-- The settings that the decoder reads. -/
structure Settings where
  orderSupport : NegIndex → Bool
  allowUnanouncedOrdersFromServer : Bool

/-- The condition of `check_primary_order_supported`.  `MULTI_SCRBLT` goes by the entry of
`MULTI_DSTBLT`. -/
def orderCondition (settings : Settings) : OrderType → Bool
  | .dstblt => settings.orderSupport .dstblt
  | .scrblt => settings.orderSupport .scrblt
  | .drawNineGrid => settings.orderSupport .drawNineGrid
  | .multiDrawNineGrid => settings.orderSupport .multiDrawNineGrid
  | .lineTo => settings.orderSupport .lineTo
  | .patblt | .opaqueRect => settings.orderSupport .opaqueRect || settings.orderSupport .patblt
  | .saveBitmap => settings.orderSupport .saveBitmap
  | .memblt => settings.orderSupport .memblt
  | .mem3blt => settings.orderSupport .mem3blt
  | .multiDstblt => settings.orderSupport .multiDstblt
  | .multiPatblt => settings.orderSupport .multiPatblt
  | .multiScrblt => settings.orderSupport .multiDstblt
  | .multiOpaqueRect => settings.orderSupport .multiOpaqueRect
  | .fastIndex => settings.orderSupport .fastIndex
  | .polygonSc => settings.orderSupport .polygonSc
  | .polygonCb => settings.orderSupport .polygonCb
  | .polyline => settings.orderSupport .polyline
  | .fastGlyph => settings.orderSupport .fastGlyph
  | .ellipseSc => settings.orderSupport .ellipseSc
  | .ellipseCb => settings.orderSupport .ellipseCb
  | .glyphIndex => settings.orderSupport .glyphIndex

def checkPrimaryOrderSupported (settings : Settings) (orderType : ℕ) : Bool :=
  (OrderType.ofNat? orderType).any (orderCondition settings) ||
    settings.allowUnanouncedOrdersFromServer

def getPrimaryDrawingOrderFieldBytes (orderType : ℕ) : Option ℕ :=
  match OrderType.ofNat? orderType with
  | some .dstblt | some .scrblt | some .drawNineGrid | some .multiDrawNineGrid | some .opaqueRect
  | some .saveBitmap | some .multiDstblt | some .polygonSc | some .polyline
      | some .ellipseSc => some 1
  | some .patblt | some .lineTo | some .memblt | some .multiPatblt | some .multiScrblt
  | some .multiOpaqueRect | some .fastIndex | some .polygonCb | some .fastGlyph
      | some .ellipseCb => some 2
  | some .mem3blt | some .glyphIndex => some 3
  | none => if orderType ≤ 27 then some 0 else none

/-- `update_read_field_flags`; `fieldBytes` is a byte, which wraps. -/
def updateReadFieldFlags (s : List UInt8) (flags fieldBytes : ℕ) : Option (ℕ × List UInt8) :=
  let fieldBytes := if flags &&& 0x40 ≠ 0 then (fieldBytes + 255) % 256 else fieldBytes
  let fieldBytes :=
    if flags &&& 0x80 ≠ 0 then if fieldBytes > 1 then fieldBytes - 2 else 0 else fieldBytes
  if s.length < fieldBytes then none
  else
    some ((List.range fieldBytes).foldl
      (fun fieldFlags i => fieldFlags ||| (s.getD i 0).toNat <<< (i * 8) &&& 0xFFFFFFFF) 0,
      s.drop fieldBytes)

/-- One coordinate of `update_read_bounds`. -/
def readBound (flags value delta : ℕ) (coord : Word) (s : List UInt8) :
    Option (Word × List UInt8) :=
  if flags &&& value ≠ 0 then updateReadCoord s coord false
  else if flags &&& delta ≠ 0 then updateReadCoord s coord true
  else some (coord, s)

/-- `update_read_bounds`. -/
def updateReadBounds (s : List UInt8) (bounds : Bounds) : Option (Bounds × List UInt8) := do
  let (flags, s) ← readLE 1 s
  let (left, s) ← readBound flags 0x01 0x10 bounds.left s
  let (top, s) ← readBound flags 0x02 0x20 bounds.top s
  let (right, s) ← readBound flags 0x04 0x40 bounds.right s
  let (bottom, s) ← readBound flags 0x08 0x80 bounds.bottom s
  some (⟨left, top, right, bottom⟩, s)

/-- The part of `update_recv_primary_order` before the fields: the order type, the field flags, the
bounds, and whether the coordinates are changes. -/
def readOrderInfo (settings : Settings) (flags : ℕ) (s : List UInt8) (orderInfo : OrderInfo) :
    Option (List UInt8 × OrderInfo) := do
  let (orderType, s) ← if flags &&& 0x08 ≠ 0 then readLE 1 s else some (orderInfo.orderType, s)
  if !checkPrimaryOrderSupported settings orderType then none
  else
    let field ← getPrimaryDrawingOrderFieldBytes orderType
    let (fieldFlags, s) ← updateReadFieldFlags s flags field
    let (bounds, s) ←
      if flags &&& 0x04 ≠ 0 ∧ flags &&& 0x20 = 0 then updateReadBounds s orderInfo.bounds
      else some (orderInfo.bounds, s)
    some (s, ⟨orderType, fieldFlags, bounds, flags &&& 0x10 ≠ 0⟩)

/-- The callbacks that receive an order.  A callback that is not set returns the default.  The
callback of an order type may change the brush's `data` and `bpp` in the structure that it is
handed, as those that look up a cached brush do, and no other member that the decoder reads. -/
structure Callbacks where
  setBounds : Option Bounds → Bool
  orderInfo : OrderInfo → Bool
  draw : OrderType → Order → Bool × Order
  draw_keeps : ∀ t o m, m ≠ .brush .data → m ≠ .brush .bpp → (draw t o).2 m = o m

/-- What the decoder keeps: `primary->order_info` and the structures of the order types. -/
structure PrimaryUpdate where
  orderInfo : OrderInfo
  orders : OrderType → Order

/-- The state after `update_reset_state`. -/
def updateResetState : PrimaryUpdate where
  orderInfo := ⟨1, 0, ⟨0, 0, 0, 0⟩, false⟩
  orders := fun _ _ => 0

/-- An order that was read: what is left of the stream, the decoder afterwards, the order handed to
its callback, and the result. -/
structure Received where
  rest : List UInt8
  primary : PrimaryUpdate
  handed : Option (OrderType × Order)
  rc : Bool

/-- `update_recv_primary_order`.  A failure of a reader and of the first `SetBounds` is `none`; once
the fields are read the decoder's state is the new one whatever the callbacks return. -/
def updateRecvPrimaryOrder (settings : Settings) (app : Callbacks) (flags : ℕ) (s : List UInt8)
    (primary : PrimaryUpdate) : Option Received := do
  let (s, orderInfo) ← readOrderInfo settings flags s primary.orderInfo
  if flags &&& 0x04 ≠ 0 ∧ !app.setBounds (some orderInfo.bounds) then none
  else
    let clearBounds (rc : Bool) := if flags &&& 0x04 ≠ 0 then rc && app.setBounds none else rc
    match OrderType.ofNat? orderInfo.orderType with
    | none =>
        -- the type is not known, which is no failure
        some ⟨s, ⟨orderInfo, primary.orders⟩, none, clearBounds (app.orderInfo orderInfo)⟩
    | some t =>
        let (s, o) ← t.reader orderInfo s (primary.orders t)
        if !app.orderInfo orderInfo then
          some ⟨s, ⟨orderInfo, Function.update primary.orders t o⟩, none, false⟩
        else
          some ⟨s, ⟨orderInfo, Function.update primary.orders t (app.draw t o).2⟩, some (t, o),
            clearBounds (app.draw t o).1⟩

end WBFreeRDP.Orders

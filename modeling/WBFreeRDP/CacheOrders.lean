/-
# Cache orders

Model of the writer and the reader of colour table cache orders (`libfreerdp/core/orders.c`).  The
writer sends three bytes for a colour, the reader takes four.
-/
import WBFreeRDP.PrimaryOrders

namespace WBFreeRDP.Orders

/-- `CACHE_COLOR_TABLE_ORDER`. -/
structure CacheColorTableOrder where
  cacheIndex : Word
  numberColors : Word
  colorTable : Vector Word 256

/-- `update_read_color_quad`, which is `update_read_colorref`: red first, and a byte without use. -/
def updateReadColorQuad : StateT (List UInt8) Option Word
  | red :: green :: blue :: _ :: s => some (BitVec.ofNat 32 (leNat [red, green, blue]), s)
  | _ => none

/-- `update_write_color_quad`: the high byte first. -/
def updateWriteColorQuad (color : Word) : List UInt8 := beBytes 3 color.toNat

def updateReadCacheColorTableOrder (s : List UInt8) :
    Option (CacheColorTableOrder × List UInt8) := do
  let (cacheIndex, s) ← readUint8 s
  let (numberColors, s) ← readUint16 s
  if numberColors ≠ 256 then none
  else if s.length < 4 * numberColors.toNat then none
  else
    let (colorTable, s) ← (Vector.replicate 256 ()).mapM (fun _ => updateReadColorQuad) s
    some (⟨cacheIndex, numberColors, colorTable⟩, s)

/-- `update_write_cache_color_table_order`: the bytes of an order, if it can be sent. -/
def updateWriteCacheColorTableOrder (order : CacheColorTableOrder) : Option (List UInt8) :=
  if order.numberColors ≠ 256 then none
  -- the assertion of `get_checked_uint8`
  else if 255 < order.cacheIndex.toNat then none
  else
    some (leBytes 1 order.cacheIndex.toNat ++ (leBytes 2 order.numberColors.toNat ++
      order.colorTable.toList.flatMap updateWriteColorQuad))

/-- The reader turns down what the writer sent: 768 bytes are no table. -/
theorem updateReadCacheColorTableOrder_written
    (h : updateWriteCacheColorTableOrder order = some bytes) :
    updateReadCacheColorTableOrder bytes = none := by
  unfold updateWriteCacheColorTableOrder at h
  split_ifs at h with hnumber hindex
  rw [not_not] at hnumber
  obtain rfl := Option.some.inj h
  have hlength : (order.colorTable.toList.flatMap updateWriteColorQuad).length = 768 := by
    simp only [List.length_flatMap, updateWriteColorQuad, beBytes_length, List.map_const',
      List.sum_replicate_nat, Vector.length_toList]
  have hfirst := readLE_leBytes (show order.cacheIndex.toNat < 256 ^ 1 by omega)
  have hsecond := readLE_leBytes (show (256 : Word).toNat < 256 ^ 2 by decide)
  simp only [updateReadCacheColorTableOrder, readUint8, readUint16, hnumber,
    hfirst, hsecond, hlength, Option.map_some, Option.bind_eq_bind, Option.bind_some]
  rfl

/-- **No colour table is read back**: an order comes back as it was sent only if it is not sent,
since its table has not 256 colours or its index takes more than a byte. -/
theorem cache_color_table_read_back_iff (order : CacheColorTableOrder) :
    (∀ bytes, updateWriteCacheColorTableOrder order = some bytes →
      ∃ rest, updateReadCacheColorTableOrder bytes = some (order, rest)) ↔
    order.numberColors ≠ 256 ∨ 255 < order.cacheIndex.toNat := by
  constructor
  swap
  · intro hrefused bytes hwrite
    unfold updateWriteCacheColorTableOrder at hwrite
    split_ifs at hwrite with hnumber hindex
    exact absurd hrefused (not_or.mpr ⟨hnumber, hindex⟩)
  intro hback
  by_contra hsent
  obtain ⟨hnumber, hindex⟩ := not_or.mp hsent
  obtain ⟨bytes, hwrite⟩ : ∃ bytes, updateWriteCacheColorTableOrder order = some bytes := by
    rw [updateWriteCacheColorTableOrder, if_neg hnumber, if_neg hindex]
    exact ⟨_, rfl⟩
  obtain ⟨rest, hread⟩ := hback bytes hwrite
  rw [updateReadCacheColorTableOrder_written hwrite] at hread
  cases hread

def blackTable : CacheColorTableOrder := ⟨0, 256, Vector.replicate 256 0⟩

theorem blackTable_not_read_back :
    ∃ bytes, updateWriteCacheColorTableOrder blackTable = some bytes ∧
      updateReadCacheColorTableOrder bytes = none :=
  ⟨_, rfl, @updateReadCacheColorTableOrder_written blackTable _ rfl⟩

end WBFreeRDP.Orders

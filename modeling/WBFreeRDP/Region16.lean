/-
# Regions

The regions of `codec/region.c`: sets of points, kept as rectangles sorted into bands and the
smallest rectangle around them.

The rectangles are read one by one up to the end of the array or of the band, so that a pointer into
the array is the list of the rectangles from there on.
-/
import WBFreeRDP.RectBands

namespace WBFreeRDP.Region16

open Bands

/-- `REGION16`.  A region without data and one with no rectangles are alike. -/
structure Region where
  extents : Rect
  rects : List Rect
  deriving DecidableEq, Repr

/-- `region16_init`, and what `region16_clear` leaves. -/
def init : Region := ⟨⟨0, 0, 0, 0⟩, []⟩

/-- `rectangle_is_empty`. -/
def rectangleIsEmpty (rect : Rect) : Prop := rect.left ≥ rect.right ∨ rect.top ≥ rect.bottom

instance (rect : Rect) : Decidable (rectangleIsEmpty rect) := inferInstanceAs (Decidable (_ ∨ _))

def rectanglesIntersection (r1 r2 : Rect) : Option Rect :=
  let dst : Rect :=
    ⟨max r1.left r2.left, max r1.top r2.top, min r1.right r2.right, min r1.bottom r2.bottom⟩
  if dst.left < dst.right ∧ dst.top < dst.bottom then some dst else none

def rectanglesIntersects (r1 r2 : Rect) : Bool := (rectanglesIntersection r1 r2).isSome

def copyItems (newTop newBottom : ℕ) (items : List Rect) : List Rect :=
  items.map fun src => ⟨src.left, newTop, src.right, newBottom⟩

/-- The left side of the joined item: `startOverlap->left`. -/
def startOverlap (refY : ℕ) (unionRect : Rect) : List Rect → ℕ
  | [] => unionRect.left
  | s :: _ => if s.top = refY ∧ s.left < unionRect.left then s.left else unionRect.left

/-- The right side of the joined item, `endOverlap->right`, and the source behind it. -/
def endOverlap (refY : ℕ) (unionRect : Rect) : List Rect → ℕ × List Rect
  | [] => (unionRect.right, [])
  | s :: src =>
    if s.top = refY ∧ s.left < unionRect.right then (s.right, src) else (unionRect.right, s :: src)

/-- `region16_copy_band_with_union`: the items added to the destination, and the next band. -/
def copyBandWithUnion (src : List Rect) (newTop newBottom : ℕ) (unionRect : Option Rect) :
    List Rect × List Rect :=
  match src with
  | [] => ([], [])
  | first :: _ =>
    let refY := first.top
    match unionRect with
    | some unionRect =>
      -- items before unionRect
      let before := src.takeWhile fun s => s.top = refY ∧ s.right < unionRect.left
      let src := src.dropWhile fun s => s.top = refY ∧ s.right < unionRect.left
      -- items overlapping with unionRect
      let start := startOverlap refY unionRect src
      let src := src.dropWhile fun s => s.top = refY ∧ s.right < unionRect.right
      let (right, src) := endOverlap refY unionRect src
      (copyItems newTop newBottom before ++ ⟨start, newTop, right, newBottom⟩ ::
          copyItems newTop newBottom (src.takeWhile fun s => s.top = refY),
        src.dropWhile fun s => s.top = refY)
    | none =>
      (copyItems newTop newBottom (src.takeWhile fun s => s.top = refY),
        src.dropWhile fun s => s.top = refY)

/-- The loop of `rectangle_contained_in_band`. -/
def containedLoop (refY : ℕ) (rect : Rect) : List Rect → Bool
  | [] => false
  | item :: band =>
    if item.top = refY ∧ item.left ≤ rect.left then
      if rect.right ≤ item.right then true else containedLoop refY rect band
    else false

def rectangleContainedInBand (band : List Rect) (rect : Rect) : Bool :=
  match band with
  | [] => false
  | first :: _ =>
    if first.top > rect.top ∨ rect.bottom > first.bottom then false
    else containedLoop first.top rect band

/-- The items for a band of the source that starts with `currentBand`, the next band, and
`topInterBand`. -/
def unionBand (rect currentBand : Rect) (src : List Rect) : List Rect × List Rect × ℕ :=
  if currentBand.bottom ≤ rect.top ∨ rect.bottom ≤ currentBand.top ∨
      rectangleContainedInBand src rect then
    let (items, nextBand) := copyBandWithUnion src currentBand.top currentBand.bottom none
    (items, nextBand, rect.top)
  else
    let topSplit :=
      if rect.top > currentBand.top then
        (copyBandWithUnion src currentBand.top rect.top none).1
      else []
    let mergeTop := if rect.top > currentBand.top then rect.top else currentBand.top
    let mergeBottom := if rect.bottom < currentBand.bottom then rect.bottom else currentBand.bottom
    let (merged, nextBand) := copyBandWithUnion src mergeTop mergeBottom (some rect)
    if rect.bottom < currentBand.bottom then
      let (bottomSplit, nextBand) := copyBandWithUnion src mergeBottom currentBand.bottom none
      (topSplit ++ merged ++ bottomSplit, nextBand, currentBand.bottom)
    else (topSplit ++ merged, nextBand, currentBand.bottom)

/-- The piece of the rectangle between the current band and the next one. -/
def interBand (rect currentBand : Rect) (nextBand : List Rect) (topInterBand : ℕ) : List Rect :=
  match nextBand with
  | [] => []
  | next :: _ =>
    if next.top ≠ currentBand.bottom ∧ rect.bottom > currentBand.bottom ∧ rect.top < next.top then
      [⟨rect.left, topInterBand, rect.right, min next.top rect.bottom⟩]
    else []

/-- The loop of `region16_union_rect` over the bands. -/
def unionLoop (rect : Rect) : ℕ → List Rect → Option (List Rect)
  | _, [] => some []
  | 0, _ :: _ => none
  | fuel + 1, currentBand :: src =>
    let (items, nextBand, topInterBand) := unionBand rect currentBand (currentBand :: src)
    (unionLoop rect fuel nextBand).map fun below =>
      items ++ interBand rect currentBand nextBand topInterBand ++ below

/-- `next_band`: the items of the first band, and the band behind it. -/
def nextBand (band : List Rect) : List Rect × List Rect :=
  match band with
  | [] => ([], [])
  | first :: _ =>
      (band.takeWhile fun s => s.top = first.top, band.dropWhile fun s => s.top = first.top)

/-- `band_match` of the items of a band with the band behind it, whose top is `refBand2`. -/
def bandMatch (refBand2 : ℕ) : List Rect → List Rect → Bool
  | [], [] => true
  | [], item2 :: _ => item2.top ≠ refBand2
  | _ :: _, [] => false
  | item1 :: band1, item2 :: band2 =>
    if item2.top = refBand2 then
      if item1.left ≠ item2.left ∨ item1.right ≠ item2.right then false
      else bandMatch refBand2 band1 band2
    else false

/-- The loop of `region16_simplify_bands` from a band on. -/
def simplifyLoop : ℕ → List Rect → Option (List Rect)
  | 0, _ => none
  | fuel + 1, band =>
    match nextBand band with
    | (band1, []) => some band1
    | (band1, second :: band2) =>
      if band1.head?.map Rect.bottom = some second.top ∧
          bandMatch second.top band1 (second :: band2) then
        -- band1 goes on to the bottom of band2, and band2 is overridden
        let band1' := band1.map fun tmp => { tmp with bottom := second.bottom }
        simplifyLoop fuel (band1' ++ (second :: band2).drop band1.length)
      else (simplifyLoop fuel (second :: band2)).map fun below => band1 ++ below

def simplifyBands (region : Region) : Option Region :=
  if region.rects.length < 2 then some region
  else
    (simplifyLoop (region.rects.length + 1) region.rects).map fun rects =>
      { region with rects := rects }

/-- `region16_union_rect`: the new destination. -/
def unionRect (src : Region) (rect : Rect) : Option Region :=
  if src.rects = [] then some ⟨rect, [rect]⟩
  else do
    let above : List Rect :=
      if rect.top < src.extents.top then
        [⟨rect.left, rect.top, rect.right, min src.extents.top rect.bottom⟩]
      else []
    let items ← unionLoop rect src.rects.length src.rects
    let below : List Rect :=
      if src.extents.bottom < rect.bottom then
        [⟨rect.left, max src.extents.bottom rect.top, rect.right, rect.bottom⟩]
      else []
    simplifyBands
      ⟨⟨min rect.left src.extents.left, min rect.top src.extents.top,
          max rect.right src.extents.right, max rect.bottom src.extents.bottom⟩,
        above ++ items ++ below⟩

/-- The loop of `region16_intersects_rect`. -/
def intersectsLoop (arg2 : Rect) : List Rect → Bool
  | [] => false
  | rect :: src =>
    if arg2.bottom > rect.top then
      if rectanglesIntersects rect arg2 then true else intersectsLoop arg2 src
    else false

def intersectsRect (src : Region) (arg2 : Rect) : Bool :=
  if src.rects = [] then false
  else if src.rects.length = 1 then rectanglesIntersects src.extents arg2
  else if rectanglesIntersects src.extents arg2 = false then false
  else intersectsLoop arg2 src.rects

def growExtents (newExtents common : Rect) : Rect :=
  if rectangleIsEmpty newExtents then common
  else
    ⟨min common.left newExtents.left, min common.top newExtents.top,
      max common.right newExtents.right, max common.bottom newExtents.bottom⟩

/-- The loop of `region16_intersect_rect`, with the rectangles found so far and the extents. -/
def intersectLoop (rect : Rect) (nbRects : ℕ) : List Rect → List Rect → Rect → Option Region
  | [], items, newExtents => some ⟨newExtents, items⟩
  | srcPtr :: src, items, newExtents =>
    if rect.bottom > srcPtr.top then
      if items.length > nbRects then none
      else
        match rectanglesIntersection srcPtr rect with
        | some common =>
          intersectLoop rect nbRects src (items ++ [common]) (growExtents newExtents common)
        | none => intersectLoop rect nbRects src items newExtents
    else some ⟨newExtents, items⟩

/-- `region16_intersect_rect`: the new destination. -/
def intersectRect (src : Region) (rect : Rect) : Option Region :=
  if src.rects = [] then some init
  else if src.rects.length = 1 then
    match rectanglesIntersection src.extents rect with
    | some common => unionRect init common
    | none => some init
  else do
    let region ← intersectLoop rect src.rects.length src.rects [] ⟨0, 0, 0, 0⟩
    simplifyBands region

/-! ## Sequences of calls -/

/-- A call on regions that are known by their numbers.  The source may be the destination: all of it
is read before the destination is written, but for the extents, whose fields are read one by one
where they are written. -/
inductive Op where
  | unionRect (dst src : ℕ) (rect : Rect)
  | intersectRect (dst src : ℕ) (rect : Rect)
  | copy (dst src : ℕ)
  | clear (dst : ℕ)
  deriving DecidableEq, Repr

def Op.run (op : Op) (regions : ℕ → Region) : Option (ℕ → Region) :=
  match op with
  | .unionRect dst src rect =>
      (Region16.unionRect (regions src) rect).map (Function.update regions dst)
  | .intersectRect dst src rect =>
    (Region16.intersectRect (regions src) rect).map (Function.update regions dst)
  | .copy dst src => some (Function.update regions dst (regions src))
  | .clear dst => some (Function.update regions dst init)

def run : List Op → (ℕ → Region) → Option (ℕ → Region)
  | [], regions => some regions
  | op :: ops, regions => (op.run regions).bind (run ops)

def Op.Ok : Op → Prop
  | .unionRect _ _ rect => rect.Proper
  | _ => True

end WBFreeRDP.Region16

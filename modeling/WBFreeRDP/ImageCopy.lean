/-
# Copies within an image

`freerdp_image_copy` of `codec/color.c` for a source and a destination in the same buffer, with one
row step, one format and no flags.
-/
import Mathlib.Tactic.Ring
import WBFreeRDP.History

namespace WBFreeRDP.ImageCopy

open History List

/-! ## Blocks -/

/-- Blocks of `n` cells have no cell in common. -/
def Apart (n i j : ℕ) : Prop := i + n ≤ j ∨ j + n ≤ i

theorem write_apart (m : Memory UInt8) (h : Apart n i j) (hk : k < n) (hl : l.length = n) :
    write m i l (j + k) = m (j + k) := by
  rcases h with h | h
  · exact write_above l m i _ (by omega)
  · exact write_below l m i _ (by omega)

def memmove (m : Memory UInt8) (dst src n : ℕ) : Option (Memory UInt8) :=
  some (write m dst (read m src n))

/-- `memcpy`, which is undefined for blocks that overlap. -/
def memcpy (m : Memory UInt8) (dst src n : ℕ) : Option (Memory UInt8) :=
  if dst + n ≤ src ∨ src + n ≤ dst then memmove m dst src n else none

/-! ## The copy -/

def int32Max : ℕ := 2 ^ 31 - 1

/-- The arguments. -/
structure Copy where
  bytesPerPixel : ℕ
  step : ℕ
  xDst : ℕ
  yDst : ℕ
  width : ℕ
  height : ℕ
  xSrc : ℕ
  ySrc : ℕ

namespace Copy

variable (c : Copy)

-- a step of 0 stands for rows without a gap
def dstStep : ℕ := if c.step = 0 then (c.xDst + c.width) * c.bytesPerPixel else c.step
def srcStep : ℕ := if c.step = 0 then (c.xSrc + c.width) * c.bytesPerPixel else c.step

def dstLine (y : ℕ) : ℕ := (y + c.yDst) * c.dstStep + c.xDst * c.bytesPerPixel
def srcLine (y : ℕ) : ℕ := (y + c.ySrc) * c.srcStep + c.xSrc * c.bytesPerPixel

def copyDstWidth : ℕ := c.width * c.bytesPerPixel

/-- `overlapping`: the rows of one rectangle begin or end within those of the other one. -/
def overlapping : Bool :=
  let srcstart := c.srcStep * c.ySrc
  let srcend := srcstart + c.srcStep * c.height
  let dststart := c.dstStep * c.yDst
  let dstend := dststart + c.dstStep * c.height
  srcstart ≤ dststart ∧ dststart < srcend ∨ srcstart < dstend ∧ dstend ≤ srcend

/-- A loop over rows. -/
def lines (copyLine : Memory UInt8 → ℕ → ℕ → ℕ → Option (Memory UInt8)) :
    List ℕ → Memory UInt8 → Option (Memory UInt8)
  | [], m => some m
  | y :: ys, m => (copyLine m (c.dstLine y) (c.srcLine y) c.copyDstWidth).bind (lines copyLine ys)

/-- `freerdp_image_copy_overlap`, by the direction of the copy. -/
def imageCopyOverlap (m : Memory UInt8) : Option (Memory UInt8) :=
  if c.yDst < c.ySrc then c.lines memcpy (range c.height) m
  else if c.yDst > c.ySrc then c.lines memcpy (range c.height).reverse m
  else if c.xSrc > c.xDst then c.lines memmove (range c.height) m
  else if c.xSrc < c.xDst then c.lines memmove (range c.height).reverse m
  else some m

/-- `freerdp_image_copy`: `none` if an assertion fails or `memcpy` is undefined. -/
def imageCopy (m : Memory UInt8) : Option (Bool × Memory UInt8) :=
  if c.height > int32Max ∨ c.width > int32Max then some (false, m)
  else if c.width = 0 ∨ c.height = 0 then some (true, m)
  else if c.bytesPerPixel = 0 then some (false, m)
  else if c.dstStep / c.bytesPerPixel < c.xDst + c.width ∨
    c.srcStep / c.bytesPerPixel < c.xSrc + c.width then
    none
  else
    -- without an overlap `generic_image_copy_no_overlap_memcpy` copies row by row
    (if c.overlapping then c.imageCopyOverlap m else c.lines memcpy (range c.height) m).map
      ((true, ·))

/-! ## As through a temporary image -/

/-- The destination rows have what the source rows had, and nothing else changed. -/
structure Copied (ys : List ℕ) (m m' : Memory UInt8) : Prop where
  inside : ∀ y ∈ ys, ∀ k < c.copyDstWidth, m' (c.dstLine y + k) = m (c.srcLine y + k)
  outside : ∀ i, (∀ y ∈ ys, i < c.dstLine y ∨ c.dstLine y + c.copyDstWidth ≤ i) → m' i = m i

variable {c}

theorem Copied.of_reverse (h : c.Copied ys.reverse m m') : c.Copied ys m m' :=
  ⟨fun y hy => h.inside y (mem_reverse.mpr hy),
    fun i hi => h.outside i fun y hy => hi y (mem_reverse.mp hy)⟩

/-- **Rows are copied as through a temporary image if none is overwritten before it is read.** -/
theorem lines_copied (hcopy : ∀ m, ∀ y ∈ ys, copyLine m (c.dstLine y) (c.srcLine y) c.copyDstWidth =
      memmove m (c.dstLine y) (c.srcLine y) c.copyDstWidth)
    (hys : ys.Pairwise fun y' y => Apart c.copyDstWidth (c.dstLine y') (c.srcLine y) ∧
      Apart c.copyDstWidth (c.dstLine y') (c.dstLine y)) (m) :
    ∃ m', c.lines copyLine ys m = some m' ∧ c.Copied ys m m' := by
  induction ys generalizing m with
  | nil => exact ⟨m, rfl, nofun, fun _ _ => rfl⟩
  | cons y ys ih =>
  obtain ⟨hfirst, hys⟩ := pairwise_cons.mp hys
  have hl := length_read m c.copyDstWidth (c.srcLine y)
  obtain ⟨m', hlines, hin, hout⟩ := ih (fun m z hz => hcopy m z (.tail _ hz)) hys
    (write m (c.dstLine y) (read m (c.srcLine y) c.copyDstWidth))
  refine ⟨m', ?_, ?_, ?_⟩
  · rw [lines, hcopy m y (.head _)]
    exact hlines
  · intro z hz k hk
    rcases mem_cons.mp hz with rfl | hz
    · rw [hout, write_read_apply m _ _ _ _ hk]
      intro z' hz'
      have hapart := (hfirst z' hz').2
      unfold Apart at hapart
      omega
    · rw [hin z hz k hk, write_apart m (hfirst z hz).1 hk hl]
  · intro i hi
    rw [hout i fun z hz => hi z (.tail _ hz)]
    rcases hi y (.head _) with hi | hi
    · exact write_below _ m _ i hi
    · exact write_above _ m _ i (hl.symm ▸ hi)

theorem row_apart {step : ℕ} (hij : i ≠ j) (ha : a + n ≤ step) (hb : b + n ≤ step) :
    Apart n (i * step + a) (j * step + b) := by
  rcases Nat.lt_or_gt_of_ne hij with hij | hij
  · obtain ⟨d, rfl⟩ := Nat.exists_eq_add_of_lt hij
    have : (i + d + 1) * step = i * step + d * step + step := by ring
    exact .inl (by omega)
  · obtain ⟨d, rfl⟩ := Nat.exists_eq_add_of_lt hij
    have : (j + d + 1) * step = j * step + d * step + step := by ring
    exact .inr (by omega)

/-- Rows that are not recognized as overlapping are different. -/
theorem ne_of_not_overlapping (hstep : c.srcStep = c.dstStep) (hpos : 0 < c.dstStep)
    (h : ¬ c.overlapping = true) (hy' : y' < c.height) (hy : y < c.height) :
    y' + c.yDst ≠ y + c.ySrc := by
  intro heq
  apply h
  rw [overlapping, hstep, decide_eq_true_iff]
  simp only [← Nat.mul_add, Nat.mul_le_mul_left_iff hpos, Nat.mul_lt_mul_left hpos]
  omega

end Copy

open Copy

/-- An order of the rows is safe if none is overwritten before it is read. -/
theorem lines_safe {c : Copy} (hsrcStep : c.srcStep = c.step) (hdstStep : c.dstStep = c.step)
    (hsrc : c.xSrc * c.bytesPerPixel + c.width * c.bytesPerPixel ≤ c.step)
    (hdst : c.xDst * c.bytesPerPixel + c.width * c.bytesPerPixel ≤ c.step) (m)
    (hcopy : copyLine = memmove ∨ copyLine = memcpy ∧ c.yDst ≠ c.ySrc)
    (hys : ys.Pairwise (fun y' y => y' ≠ y ∧ y' + c.yDst ≠ y + c.ySrc)) :
    ∃ m', c.lines copyLine ys m = some m' ∧ c.Copied ys m m' := by
  refine lines_copied (fun m y _ => ?_) (hys.imp fun {y' y} hne => ?_) m
  · rcases hcopy with rfl | ⟨rfl, hne⟩
    · rfl
    · rw [memcpy, if_pos]
      rw [dstLine, srcLine, hsrcStep, hdstStep]
      exact row_apart (by omega) hdst hsrc
  · rw [dstLine, srcLine, dstLine, hsrcStep, hdstStep]
    exact ⟨row_apart hne.2 hdst hsrc, row_apart (by omega) hdst hdst⟩

/-- A copy of at most `INT32_MAX` columns and rows, for any overlap. -/
theorem imageCopy_copied (c : Copy) (m : Memory UInt8)
    (hsize : c.width ≤ int32Max ∧ c.height ≤ int32Max) (hformat : 0 < c.bytesPerPixel)
    (hsrc : (c.xSrc + c.width) * c.bytesPerPixel ≤ c.step)
    (hdst : (c.xDst + c.width) * c.bytesPerPixel ≤ c.step) :
    ∃ m', c.imageCopy m = some (true, m') ∧ c.Copied (range c.height) m m' := by
  rw [imageCopy, if_neg (by omega)]
  by_cases hempty : c.width = 0 ∨ c.height = 0
  · refine ⟨m, if_pos hempty, fun y hy k hk => ?_, fun _ _ => rfl⟩
    rw [mem_range] at hy
    rcases hempty with h0 | h0
    · rw [copyDstWidth, h0, Nat.zero_mul] at hk
      omega
    · omega
  rw [if_neg hempty, if_neg (Nat.ne_of_gt hformat)]
  have hstep : 0 < c.step := by
    have := Nat.mul_pos (show 0 < c.xSrc + c.width by omega) hformat
    omega
  have hsrcStep : c.srcStep = c.step := if_neg (Nat.ne_of_gt hstep)
  have hdstStep : c.dstStep = c.step := if_neg (Nat.ne_of_gt hstep)
  rw [hsrcStep, hdstStep,
    if_neg (by rw [Nat.div_lt_iff_lt_mul hformat, Nat.div_lt_iff_lt_mul hformat]; omega)]
  rw [Nat.add_mul] at hsrc hdst
  have hlines {copyLine ys} := @lines_safe copyLine ys c hsrcStep hdstStep hsrc hdst m
  have hdown := @pairwise_lt_range c.height
  have hup : (range c.height).reverse.Pairwise (fun y' y => y < y') := pairwise_reverse.mpr hdown
  suffices h : ∃ m', (if c.overlapping = true then c.imageCopyOverlap m
      else c.lines memcpy (range c.height) m) = some m' ∧ c.Copied (range c.height) m m' by
    obtain ⟨m', hm', hcopied⟩ := h
    exact ⟨m', by rw [hm']; rfl, hcopied⟩
  split_ifs with hover
  · unfold imageCopyOverlap
    split_ifs with h1 h2 h3 h4
    · exact hlines (.inr ⟨rfl, by omega⟩) (hdown.imp fun hlt => by omega)
    · obtain ⟨m', hm', hcopied⟩ := hlines (.inr ⟨rfl, by omega⟩) (hup.imp fun hlt => by omega)
      exact ⟨m', hm', hcopied.of_reverse⟩
    · exact hlines (.inl rfl) (hdown.imp fun hlt => by omega)
    · obtain ⟨m', hm', hcopied⟩ := hlines (.inl rfl) (hup.imp fun hlt => by omega)
      exact ⟨m', hm', hcopied.of_reverse⟩
    · refine ⟨m, rfl, fun y _ k _ => ?_, fun _ _ => rfl⟩
      rw [dstLine, srcLine, hsrcStep, hdstStep, show c.xDst = c.xSrc by omega,
        show c.yDst = c.ySrc by omega]
  · have hne : ∀ y' y, y' < c.height → y < c.height → y' + c.yDst ≠ y + c.ySrc := fun _ _ =>
      ne_of_not_overlapping (hsrcStep.trans hdstStep.symm) (hdstStep ▸ hstep) hover
    refine hlines (.inr ⟨rfl, fun heq => ?_⟩) (hdown.imp_of_mem fun hy' hy hlt => ?_)
    · exact hne 0 0 (by omega) (by omega) (by omega)
    · exact ⟨by omega, hne _ _ (mem_range.mp hy') (mem_range.mp hy)⟩

/-- **A copy within an image is done as through a temporary one**, for any overlap, if width and
height are at most `INT32_MAX`; a wider or higher one is refused and copies nothing. -/
theorem image_copy_through_temporary (c : Copy) (m : Memory UInt8) (hformat : 0 < c.bytesPerPixel)
    (hsrc : (c.xSrc + c.width) * c.bytesPerPixel ≤ c.step)
    (hdst : (c.xDst + c.width) * c.bytesPerPixel ≤ c.step) :
    (c.width ≤ int32Max ∧ c.height ≤ int32Max →
      ∃ m', c.imageCopy m = some (true, m') ∧ c.Copied (range c.height) m m') ∧
    (int32Max < c.width ∨ int32Max < c.height → c.imageCopy m = some (false, m)) :=
  ⟨fun hsize => imageCopy_copied c m hsize hformat hsrc hdst, fun hlarge => if_pos hlarge.symm⟩

/-- Two pixels of a row are moved by one, and a row of `2 ^ 31` pixels is refused. -/
theorem image_copy_through_temporary_two :
    (∃ m', Copy.imageCopy ⟨1, 4, 1, 0, 2, 1, 0, 0⟩ ⟨UInt8.ofNat⟩ = some (true, m') ∧
      Copied ⟨1, 4, 1, 0, 2, 1, 0, 0⟩ (range 1) ⟨UInt8.ofNat⟩ m') ∧
    Copy.imageCopy ⟨1, 2 ^ 31, 0, 0, 2 ^ 31, 1, 0, 0⟩ ⟨UInt8.ofNat⟩ = some (false, ⟨UInt8.ofNat⟩) :=
  ⟨(image_copy_through_temporary ⟨1, 4, 1, 0, 2, 1, 0, 0⟩ ⟨UInt8.ofNat⟩ (by decide) (by decide)
      (by decide)).1 ⟨by decide, by decide⟩,
    (image_copy_through_temporary ⟨1, 2 ^ 31, 0, 0, 2 ^ 31, 1, 0, 0⟩ ⟨UInt8.ofNat⟩ (by decide)
      (by decide) (by decide)).2 (.inl (by decide))⟩

/-- A row that is wider than `INT32_MAX` is not copied. -/
theorem wide_copy_refused : ∃ (c : Copy) (m : Memory UInt8), 0 < c.bytesPerPixel ∧
    (c.xSrc + c.width) * c.bytesPerPixel ≤ c.step ∧ (c.xDst + c.width) * c.bytesPerPixel ≤ c.step ∧
    c.imageCopy m = some (false, m) ∧ ¬ c.Copied (range c.height) m m := by
  refine ⟨⟨1, 2 ^ 31 + 1, 1, 0, 2 ^ 31, 1, 0, 0⟩, set (fill 0) 0 1, by decide, by decide, by decide,
    if_pos (by decide), fun h => ?_⟩
  exact absurd (h.inside 0 (by decide) 0 (by decide)) (by decide)

end WBFreeRDP.ImageCopy

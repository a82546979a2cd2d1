/-
# Tiles of a progressive surface

`progressive.c` keeps the tiles of a surface in one table.  A tile block is stored in its tile,
which enters the region and the list of updated tiles; callbacks then decode the tiles of the
region, and `update_tiles` copies the listed tiles and clears their dirty flags.
-/
import Mathlib.Data.List.Range
import Mathlib.Data.BitVec

namespace WBFreeRDP.Progressive

open Function List Nat

/-- A tile block: its place and all that its decoding reads. -/
structure Block (α : Type) where
  (xIdx yIdx : ℕ)
  payload : α

/-- `RFX_PROGRESSIVE_TILE`: the last block stored in it, what decoding it leaves, and the dirty
flag. -/
structure Tile (α δ : Type) where
  block : Block α
  data : δ
  dirty : Bool

/-- `PROGRESSIVE_SURFACE_CONTEXT`, with the first `numUpdatedTiles` entries of
`updatedTileIndices`. -/
structure Surface (α δ : Type) where
  (gridWidth gridHeight gridSize tilesSize : ℕ)
  tiles : ℕ → Tile α δ
  frameId : ℕ
  updated : List ℕ

/-- The count of tiles of a region, and those it has. -/
structure Region where
  numTiles : ℕ
  tiles : List ℕ

variable {α δ : Type}

namespace Surface

/-- `progressive_surface_context_new`, with the tiles of `progressive_tile_new`, for the sizes of a
surface, which are `UINT16`. -/
def new (block : Block α) (data : δ) (width height : UInt16) : Surface α δ :=
  let gridWidth := (width.toNat + (64 - width.toNat % 64)) / 64
  let gridHeight := (height.toNat + (64 - height.toNat % 64)) / 64
  ⟨gridWidth, gridHeight, gridWidth * gridHeight, gridWidth * gridHeight,
    fun _ => ⟨block, data, false⟩, 0, []⟩

/-- `progressive_allocate_tile_cache` for a surface that has tiles: 1024 more until there are
`min`. -/
def allocateTileCache (s : Surface α δ) (min : ℕ) : Surface α δ :=
  let gridSize := s.gridSize + 1024 * ((min - s.gridSize + 1023) / 1024)
  { s with gridSize, tilesSize := gridSize }

def reserve (s : Surface α δ) : Surface α δ :=
  if s.gridSize ≤ s.updated.length then s.allocateTileCache (s.updated.length + 1) else s

def zIdx (s : Surface α δ) (b : Block α) : ℕ := b.yIdx * s.gridWidth + b.xIdx

def tileReplace (s : Surface α δ) (r : Region) (b : Block α) : Bool × Surface α δ × Region :=
  let z := s.zIdx b
  let t := { s.tiles z with block := b }
  if s.tilesSize ≤ z then (false, s, r)
  else if r.numTiles ≤ r.tiles.length then (false, { s with tiles := update s.tiles z t }, r)
  else
    let r := { r with tiles := r.tiles ++ [z] }
    if t.dirty then (true, { s with tiles := update s.tiles z t }, r)
    else
      (true, { s.reserve with
        tiles := update s.tiles z { t with dirty := true }, updated := s.updated ++ [z] }, r)

/-- `progressive_decompress` begins: a new frame empties the list. -/
def frame (s : Surface α δ) (frameId : ℕ) : Surface α δ :=
  if s.frameId ≠ frameId then { s with frameId, updated := [] } else s

/-- The loop of `update_tiles`, which copied the first `n` of the listed tiles. -/
def updateTiles (s : Surface α δ) (n : ℕ) : Surface α δ :=
  { s with tiles := fun i => if i ∈ s.updated.take n then { s.tiles i with dirty := false }
    else s.tiles i }

/-- The callbacks of a region leave new data. -/
def decoded (s : Surface α δ) (data : ℕ → δ) : Surface α δ :=
  { s with tiles := fun i => { s.tiles i with data := data i } }

/-- What the run so far must have left for a call: for a new frame no dirty tile, and for the same
frame no listed tile that is not dirty. -/
def Settled (s : Surface α δ) (frameId : ℕ) : Prop :=
  if s.frameId ≠ frameId then ∀ i, (s.tiles i).dirty = false else ∀ i ∈ s.updated, (s.tiles i).dirty

end Surface

open Surface

/-! ## Runs -/

/-- The states of the calls on a surface `s₀`, parsing or done, whose tile blocks are all in `P` and
that all begin settled.  Parsing may stop at any point. -/
inductive Run (P : Block α → Prop) (s₀ : Surface α δ) : Bool → Surface α δ → Region → Prop
  | start (r : Region) : Run P s₀ false s₀ r
  | call {parsing s r} (h : Run P s₀ parsing s r) {frameId : ℕ} (hs : s.Settled frameId) :
    Run P s₀ true (s.frame frameId) r
  | region {s r} (h : Run P s₀ true s r) (numTiles : ℕ) : Run P s₀ true s ⟨numTiles, []⟩
  | tile {s r} (h : Run P s₀ true s r) {b : Block α} (hb : P b) :
    Run P s₀ true (s.tileReplace r b).2.1 (s.tileReplace r b).2.2
  | decoded {s r} (h : Run P s₀ true s r) (data : ℕ → δ) : Run P s₀ true (s.decoded data) r
  | updateTiles {s r} (h : Run P s₀ true s r) (n : ℕ) : Run P s₀ false (s.updateTiles n) r

/-- The table has the tiles of the grid, dirty tiles are listed, no tile twice, each with a block of
`P` that belongs there; and while parsing, the listed tiles are dirty. -/
structure Listed (P : Block α → Prop) (s₀ : Surface α δ) (parsing : Bool) (s : Surface α δ) :
    Prop where
  grid : s.gridWidth = s₀.gridWidth ∧ s.gridHeight = s₀.gridHeight
  size : s.gridSize = s.gridWidth * s.gridHeight ∧ s.tilesSize = s.gridSize
  dirty : ∀ i, (s.tiles i).dirty → i ∈ s.updated
  nodup : s.updated.Nodup
  block : ∀ i ∈ s.updated, i < s.tilesSize ∧ s.zIdx (s.tiles i).block = i ∧ P (s.tiles i).block
  parsing : parsing → ∀ i ∈ s.updated, (s.tiles i).dirty

variable {P : Block α → Prop} {s₀ s : Surface α δ} {r : Region} {b : Block α} {parsing : Bool}

theorem Listed.frame {frameId} (h : Listed P s₀ parsing s) (hs : s.Settled frameId) :
    Listed P s₀ true (s.frame frameId) := by
  unfold Settled at hs
  unfold Surface.frame
  split_ifs at hs ⊢ with hf
  · refine ⟨h.grid, h.size, fun i hi => ?_, .nil, fun _ hi => (nomatch hi),
      fun _ _ hi => (nomatch hi)⟩
    rw [hs i] at hi
    cases hi
  · exact ⟨h.grid, h.size, h.dirty, h.nodup, h.block, fun _ => hs⟩

theorem Listed.room (h : Listed P s₀ parsing s) (hz : z < s.tilesSize) (hmem : z ∉ s.updated) :
    s.updated.length < s.gridSize := by
  have hsub : (z :: s.updated).Subperm (List.range s.tilesSize) :=
    (List.nodup_cons.mpr ⟨hmem, h.nodup⟩).subperm fun i hi => List.mem_range.mpr
      ((List.mem_cons.mp hi).elim (fun hi => hi ▸ hz) fun hi => (h.block i hi).1)
  have hlen := hsub.length_le
  rw [length_range, h.size.2] at hlen
  exact hlen

/-- A block in its tile, whose flag tells whether the new list has it. -/
theorem Listed.put {updated} (h : Listed P s₀ true s) (hb : P b) (hz : s.zIdx b < s.tilesSize)
    {dirty : Bool} (hdirty : dirty ↔ s.zIdx b ∈ updated) (hnodup : updated.Nodup)
    (hmem : ∀ i, i ≠ s.zIdx b → (i ∈ updated ↔ i ∈ s.updated)) : Listed P s₀ true { s with
      tiles := update s.tiles (s.zIdx b) ⟨b, (s.tiles (s.zIdx b)).data, dirty⟩, updated } := by
  refine ⟨h.grid, h.size, fun i hi => ?_, hnodup, fun i hi => ?_, fun _ i hi => ?_⟩
  all_goals
    by_cases hiz : i = s.zIdx b
    · subst hiz
      simp only [update_self] at hi ⊢
      first | exact hdirty.mp hi | exact ⟨hz, rfl, hb⟩ | exact hdirty.mpr hi
    simp only [update_of_ne hiz] at hi ⊢
    first
    | exact (hmem i hiz).mpr (h.dirty i hi)
    | exact h.block i ((hmem i hiz).mp hi)
    | exact h.parsing rfl i ((hmem i hiz).mp hi)

theorem Listed.tileReplace (h : Listed P s₀ true s) (hb : P b) :
    Listed P s₀ true (s.tileReplace r b).2.1 := by
  have hflag : (s.tiles (s.zIdx b)).dirty ↔ s.zIdx b ∈ s.updated := ⟨h.dirty _, h.parsing rfl _⟩
  unfold Surface.tileReplace
  dsimp only
  split_ifs with hz hn hdirty
  · exact h
  iterate 2 exact h.put hb (Nat.lt_of_not_le hz) hflag h.nodup fun _ _ => .rfl
  · rw [reserve, if_neg (Nat.not_le_of_lt (h.room (Nat.lt_of_not_le hz) (hflag.not.mp hdirty)))]
    refine h.put hb (Nat.lt_of_not_le hz) (by simp) ?_ fun i hi => by simp [hi]
    exact (List.perm_append_singleton _ _).nodup_iff.mpr
      (List.nodup_cons.mpr ⟨hflag.not.mp hdirty, h.nodup⟩)

/-- **Every run keeps the list.** -/
theorem Run.listed (h : Run P s₀ parsing s r) (h₀ : Listed P s₀ false s₀) :
    Listed P s₀ parsing s := by
  induction h with
  | start => exact h₀
  | call _ hs ih => exact ih.frame hs
  | region _ _ ih => exact ih
  | tile _ hb ih => exact ih.tileReplace hb
  | decoded _ _ ih => exact ⟨ih.grid, ih.size, ih.dirty, ih.nodup, ih.block, ih.parsing⟩
  | updateTiles _ n ih =>
  refine ⟨ih.grid, ih.size, fun i hi => ih.dirty i ?_, ih.nodup, fun i hi => ?_, fun h => nomatch h⟩
  · unfold Surface.updateTiles at hi
    dsimp only at hi
    split_ifs at hi
    exact hi
  · unfold Surface.updateTiles
    dsimp only
    split_ifs <;> exact ih.block i hi

theorem listed_new (block) (data : δ) (width height) :
    Listed P (.new block data width height) false (.new block data width height) :=
  ⟨⟨rfl, rfl⟩, ⟨rfl, rfl⟩, fun _ hi => (nomatch hi), .nil, fun _ hi => (nomatch hi),
    fun h => nomatch h⟩

variable {block : Block α} {data : δ} {width height : UInt16}

/-- **No update is lost** on a surface whose calls begin settled. -/
theorem dirty_tiles_listed (h : Run (fun _ => True) (.new block data width height) parsing s r) :
    (∀ i, (s.tiles i).dirty → i ∈ s.updated) ∧ s.updated.Nodup ∧
    s.tilesSize = s.gridWidth * s.gridHeight :=
  have hs := h.listed (listed_new ..)
  ⟨hs.dirty, hs.nodup, hs.size.2.trans hs.size.1⟩

/-- The first tile of a surface is listed. -/
theorem dirty_tiles_listed_first :
    let s := ((new ⟨0, 0, ()⟩ () 64 64).frame 1).tileReplace ⟨1, []⟩ ⟨0, 0, ()⟩
    ∀ i, (s.2.1.tiles i).dirty → i ∈ s.2.1.updated :=
  (dirty_tiles_listed (((Run.start ⟨1, []⟩).call ((if_pos (by decide)).mpr fun _ => rfl)).tile
    trivial)).1

/-- A call that failed leaves a dirty tile, which the next frame drops from the list; and a tile of
the frame before, copied and sent again, is listed twice. -/
theorem dirty_tile_lost :
    let s := ((new ⟨0, 0, ()⟩ () 64 64).frame 1).tileReplace ⟨1, []⟩ ⟨0, 0, ()⟩
    ((s.2.1.frame 2).tiles 0).dirty = true ∧ (s.2.1.frame 2).updated = [] ∧
      (((s.2.1.updateTiles 1).frame 1).tileReplace ⟨1, []⟩ ⟨0, 0, ()⟩).2.1.updated = [0, 0] := by
  decide

/-- **Accepted tiles lie in the grid** where every block lies in its width: the index tells the
place, and the corners of the listed tiles are 16-bit numbers. -/
theorem tiles_in_grid (hw : width.toNat ≤ 32766) (hh : height.toNat ≤ 32766)
    (h : Run (·.xIdx < (width.toNat + (64 - width.toNat % 64)) / 64)
      (.new block data width height) true s r) :
    s.gridWidth = (width.toNat + (64 - width.toNat % 64)) / 64 ∧
      (∀ b, b.xIdx < s.gridWidth → (s.tileReplace r b).1 = true → b.yIdx < s.gridHeight) ∧
      (∀ b b' : Block α, b.xIdx < s.gridWidth → b'.xIdx < s.gridWidth → s.zIdx b = s.zIdx b' →
        b.xIdx = b'.xIdx ∧ b.yIdx = b'.yIdx) ∧
      ∀ i ∈ s.updated, (s.tiles i).block.xIdx * 64 < 2 ^ 16 ∧
      (s.tiles i).block.yIdx * 64 < 2 ^ 16 := by
  have hs := h.listed (listed_new ..)
  have hrow (b : Block α) (hz : s.zIdx b < s.tilesSize) : b.yIdx < s.gridHeight := by
    rw [hs.size.2, hs.size.1, Nat.mul_comm s.gridWidth] at hz
    exact Nat.lt_of_mul_lt_mul_right (Nat.lt_of_le_of_lt (Nat.le_add_right _ _) hz)
  refine ⟨hs.grid.1, fun b hb hacc => hrow b (Nat.lt_of_not_le fun hz => ?_),
    fun b b' hx hx' hz => ?_, fun i hi => ?_⟩
  · rw [Surface.tileReplace, if_pos hz] at hacc
    cases hacc
  · rw [zIdx, zIdx] at hz
    have hmod := congrArg (· % s.gridWidth) hz
    simp only [mul_add_mod_self_right, mod_eq_of_lt hx, mod_eq_of_lt hx'] at hmod
    exact ⟨hmod, Nat.eq_of_mul_eq_mul_right (zero_lt_of_lt hx) (by omega)⟩
  · obtain ⟨hlt, hz, hx⟩ := hs.block i hi
    have hy := hrow _ (hz.symm ▸ hlt)
    have hheight : s.gridHeight = (height.toNat + (64 - height.toNat % 64)) / 64 := hs.grid.2
    omega

/-- The last tile of a grid of two by two. -/
theorem tiles_in_grid_last : let s := (new (⟨0, 0, ()⟩ : Block Unit) () 64 64).frame 1
    (s.tileReplace ⟨1, []⟩ ⟨1, 1, ()⟩).1 = true ∧ 1 < s.gridHeight :=
  ⟨by decide, (tiles_in_grid (show (64 : UInt16).toNat ≤ 32766 by decide)
    (show (64 : UInt16).toNat ≤ 32766 by decide)
    ((Run.start ⟨1, []⟩).call ((if_pos (by decide)).mpr fun _ => rfl))).2.1 ⟨1, 1,
    ()⟩ (by decide) (by decide)⟩

/-- The third tile of a row of two is accepted, as the first of the next row. -/
theorem tileReplace_outside : let s := new (⟨0, 0, ()⟩ : Block Unit) () 64 64
    s.gridWidth = 2 ∧ (s.tileReplace ⟨1, []⟩ ⟨2, 0, ()⟩).1 = true ∧
    s.zIdx ⟨2, 0, ()⟩ = s.zIdx ⟨0, 1, ()⟩ := by
  decide

/-! ## Callbacks -/

/-- `progressive_process_tiles_tile_work_callback`: decoding reads and writes its own tile. -/
def callback (decode : Block α → δ → δ) (s : Surface α δ) (i : ℕ) : Surface α δ :=
  { s with
    tiles := update s.tiles i { s.tiles i with data := decode (s.tiles i).block (s.tiles i).data } }

/-- The first loop of `progressive_process_tiles`, where no tile is refused. -/
def collect (s : Surface α δ) (r : Region) : List (Block α) → Option (Surface α δ × Region)
  | [] => some (s, r)
  | b :: blocks => match s.tileReplace r b with
    | (true, s, r) => collect s r blocks
    | _ => none

/-- The blocks stored and decoded one after the other. -/
def inOrder (decode : Block α → δ → δ) (s : Surface α δ) (r : Region) : List (Block α) → Surface α δ
  | [] => s
  | b :: blocks =>
    inOrder decode (callback decode (s.tileReplace r b).2.1 (s.zIdx b))
      (s.tileReplace r b).2.2 blocks

variable {decode : Block α → δ → δ} {s' : Surface α δ} {r' : Region}
    {blocks : List (Block α)} {i : ℕ}

instance : RightCommutative (callback decode) where
  right_comm s i j := by
    by_cases h : i = j
    · rw [h]
    · simp only [callback, update_of_ne h, update_of_ne (Ne.symm h), update_comm h]

/-- A block that is accepted enters its tile, and the grid stays. -/
theorem tileReplace_accepted (h : s.tileReplace r b = (true, s', r')) :
    s'.zIdx = s.zIdx ∧ r'.tiles = r.tiles ++ [s.zIdx b] := by
  unfold tileReplace reserve at h
  dsimp only at h
  split_ifs at h <;> cases h <;> exact ⟨rfl, rfl⟩

theorem tileReplace_callback (hi : i ≠ s.zIdx b) : (callback decode s i).tileReplace r b =
    ((s.tileReplace r b).1, callback decode (s.tileReplace r b).2.1 i,
      (s.tileReplace r b).2.2) := by
  have hz : (callback decode s i).zIdx b = s.zIdx b := rfl
  have hres : (callback decode s i).reserve = callback decode s.reserve i ∧
      s.reserve.tiles = s.tiles := by
    show (if s.gridSize ≤ s.updated.length then _ else _) = _ ∧ _
    unfold reserve
    split_ifs <;> exact ⟨rfl, rfl⟩
  unfold tileReplace
  rw [hz, hres.1]
  simp only [callback, update_of_ne hi.symm]
  split_ifs
  all_goals simp only [update_of_ne hi, update_comm hi]

/-- **The tiles of a region, and their callbacks.**  A callback of another tile may run before the
blocks come, so those of the region may wait until all blocks are stored. -/
theorem collect_spec (h : collect s r blocks = some (s', r')) :
    r'.tiles = r.tiles ++ blocks.map s.zIdx ∧
    (∀ i ∉ blocks.map s.zIdx, collect (callback decode s i) r blocks =
      some (callback decode s' i, r')) ∧ ((blocks.map s.zIdx).Nodup →
        (blocks.map s.zIdx).foldl (callback decode) s' = inOrder decode s r blocks) := by
  induction blocks generalizing s r s' with
  | nil =>
    cases h
    exact ⟨(append_nil _).symm, fun _ _ => rfl, fun _ => rfl⟩
  | cons b blocks ih =>
  rw [collect] at h
  split at h
  swap
  · cases h
  rename_i s₁ r₁ heq
  obtain ⟨hz, htiles⟩ := tileReplace_accepted heq
  obtain ⟨htiles', hcallback, -⟩ := ih h
  rw [hz] at htiles' hcallback
  refine ⟨by rw [htiles', htiles, append_assoc]; rfl, fun i hi => ?_, fun hnodup => ?_⟩
  · rw [map_cons, mem_cons, not_or] at hi
    rw [collect, tileReplace_callback hi.1, heq]
    exact hcallback i hi.2
  · rw [map_cons, List.nodup_cons] at hnodup
    have hlater := (ih (hcallback _ hnodup.1)).2.2
    rw [show (callback decode s₁ _).zIdx = s.zIdx from hz] at hlater
    rw [map_cons, foldl_cons, inOrder, heq, hlater hnodup.2]

/-- **The work items of a region are independent** exactly where its blocks name no tile twice. -/
theorem callbacks_independent_iff {n : ℕ} (h : collect s ⟨n, []⟩ blocks = some (s', r')) :
    (r'.tiles.Nodup ∧ ∀ order : List ℕ, order.Perm r'.tiles →
      order.foldl (callback decode) s' = inOrder decode s ⟨n, []⟩ blocks) ↔
      (blocks.map s.zIdx).Nodup := by
  obtain ⟨htiles, -, hfold⟩ := @collect_spec _ _ _ _ decode _ _ _ h
  rw [htiles, nil_append]
  refine ⟨And.left, fun hnodup => ⟨hnodup, fun order horder => ?_⟩⟩
  rw [horder.foldl_eq, hfold hnodup]

/-- Two tiles, the second decoded first. -/
theorem callbacks_independent_two : let s := new (⟨0, 0, ()⟩ : Block Unit) 0 64 64
    let s' := (s.tileReplace ⟨2, []⟩ ⟨0, 0, ()⟩).2.1.tileReplace ⟨2, [0]⟩ ⟨1, 0, ()⟩
    [1, 0].foldl (callback fun _ n => n + 1) s'.2.1 =
      inOrder (fun _ n => n + 1) s ⟨2, []⟩ [⟨0, 0, ()⟩, ⟨1, 0, ()⟩] := by
  intro s s'
  have h : collect s ⟨2, []⟩ [⟨0, 0, ()⟩, ⟨1, 0, ()⟩] = some s'.2 := rfl
  exact ((callbacks_independent_iff h).mpr (by decide)).2 [1, 0] (by decide)

/-- A tile named twice is decoded twice from its second block. -/
theorem callbacks_same_tile : let s := new (⟨0, 0, 1⟩ : Block ℕ) 0 64 64
    let decode := fun b n => n + b.payload
    (collect s ⟨2, []⟩ [⟨0, 0, 1⟩, ⟨0, 0, 2⟩]).map (fun (s, r) =>
      (r.tiles, ((r.tiles.foldl (callback decode) s).tiles 0).data)) = some ([0, 0], 4) ∧
      ((inOrder decode s ⟨2, []⟩ [⟨0, 0, 1⟩, ⟨0, 0, 2⟩]).tiles 0).data = 3 := by
  decide

end WBFreeRDP.Progressive

/-
# The scanners of a planar plane

Three functions of `planar.c` read a run-length coded plane: `planar_skip_plane_rle` measures it,
`planar_decompress_plane_rle_only` decodes it to a plane of its own and
`planar_decompress_plane_rle` into one channel of an image.
-/
import Mathlib.Data.List.GetD
import WBFreeRDP.History
import WBFreeRDP.PlanarLossless

namespace WBFreeRDP.Planar

open History List Nat Option

/-! ## The decoder into an image -/

/-- Where a plane goes: the stride of the image, the place of its first pixel and its channel. -/
structure Target where
  nDstStep : ℕ
  nXDst : ℕ
  nYDst : ℕ
  nChannel : ℕ

/-- The address of the first pixel of line `y`. -/
def Target.offset (t : Target) (y : ℕ) : ℕ := (t.nYDst + y) * t.nDstStep + 4 * t.nXDst + t.nChannel

/-- The image, and the addresses that were written to, one after the other. -/
structure Canvas where
  data : Memory UInt8
  written : List ℕ

/-- A byte is stored. -/
def Canvas.store (c : Canvas) (a : ℕ) (b : UInt8) : Canvas := ⟨set c.data a b, c.written ++ [a]⟩

/-- `pixel` after a raw byte; `previousScanline` is the address of the line before. -/
def channelRawPixel (previousScanline : Option ℕ) (b : UInt8) : ℤ :=
  match previousScanline with
  | none => b.toNat
  | some _ => unfoldDelta b

/-- The byte that is stored at column `x`. -/
def channelPixel (previousScanline : Option ℕ) (c : Canvas) (x : ℕ) (pixel : ℤ) : UInt8 :=
  match previousScanline with
  | none => clamp pixel
  | some previous => clamp ((c.data (previous + 4 * x)).toNat + pixel)

/-- The raw loop of a line that starts at `base`, from column `x` on. -/
def storeRaw (previousScanline : Option ℕ) (base : ℕ) : List UInt8 → Canvas → ℕ → ℤ → Canvas × ℤ
  | [], c, _, pixel => (c, pixel)
  | b :: raw, c, x, _ =>
    let pixel := channelRawPixel previousScanline b
    storeRaw previousScanline base raw
      (c.store (base + 4 * x) (channelPixel previousScanline c x pixel)) (x + 1) pixel

/-- The run loop. -/
def storeRun (previousScanline : Option ℕ) (base : ℕ) (pixel : ℤ) : ℕ → Canvas → ℕ → Canvas
  | 0, c, _ => c
  | n + 1, c, x =>
    storeRun previousScanline base pixel n
      (c.store (base + 4 * x) (channelPixel previousScanline c x pixel)) (x + 1)

/-- One scan line of `planar_decompress_plane_rle`.  Its bound compares four times the column, plus
the number of pixels to come, with four times the width. -/
def decompressLine (previousScanline : Option ℕ) (base nWidth : ℕ) :
    ℕ → List UInt8 → Canvas → ℕ → ℤ → Option (Canvas × List UInt8)
  | 0, src, c, _, _ => some (c, src)
  | fuel + 1, src, c, x, pixel =>
    if x < nWidth then
      match src with
      | [] => none
      | controlByte :: src =>
        let (nRunLength, cRawBytes) := readControlByte controlByte
        if 4 * x + (cRawBytes + nRunLength) > 4 * nWidth then none
        else if src.length < cRawBytes then none
        else
          let (c, pixel) := storeRaw previousScanline base (src.take cRawBytes) c x pixel
          decompressLine previousScanline base nWidth fuel (src.drop cRawBytes)
            (storeRun previousScanline base pixel nRunLength c (x + cRawBytes))
            (x + cRawBytes + nRunLength) pixel
    else some (c, src)

/-- The line that the `k`-th scan line of the source goes to. -/
def lineAt (nHeight : ℕ) (vFlip : Bool) (k : ℕ) : ℕ := if vFlip then nHeight - 1 - k else k

/-- The scan lines of `planar_decompress_plane_rle` from the `k`-th on, `n` of them. -/
def decompressLines (t : Target) (nWidth nHeight : ℕ) (vFlip : Bool) :
    ℕ → ℕ → Option ℕ → List UInt8 → Canvas → Option (Canvas × List UInt8)
  | 0, _, _, src, c => some (c, src)
  | n + 1, k, previousScanline, src, c =>
    let base := t.offset (lineAt nHeight vFlip k)
    -- every round of a line uses up a control byte
    match decompressLine previousScanline base nWidth (src.length + 1) src c 0 0 with
    | none => none
    | some (c, src) => decompressLines t nWidth nHeight vFlip n (k + 1) (some base) src c

/-- `planar_decompress_plane_rle`: the return value and, unless it is an error, the image; `none`
for a failed assertion. -/
def planarDecompressPlaneRle (src : List UInt8) (data : Memory UInt8) (t : Target)
    (nWidth nHeight : ℕ) (vFlip : Bool) : Option (ℤ × Option Canvas) :=
  if nHeight > int32Max ∨ nWidth > int32Max ∨ t.nDstStep > int32Max then none
  else
    match decompressLines t nWidth nHeight vFlip nHeight 0 none src ⟨data, []⟩ with
    | none => some (-1, none)
    | some (c, rest) => some (toInt32 ((src.length : ℤ) - rest.length), some c)

/-! ## The scan of a plane -/

/-- The control bytes of a line from column `x` on: what is left of the source. -/
def scanLine (nWidth : ℕ) : ℕ → List UInt8 → ℕ → Option (List UInt8)
  | 0, src, _ => some src
  | fuel + 1, src, x =>
    if x < nWidth then
      match src with
      | [] => none
      | controlByte :: src =>
        let (nRunLength, cRawBytes) := readControlByte controlByte
        if x + (cRawBytes + nRunLength) > nWidth then none
        else if src.length < cRawBytes then none
        else scanLine nWidth fuel (src.drop cRawBytes) (x + cRawBytes + nRunLength)
    else some src

/-- **The control bytes of a plane**, with counters that do not wrap around: what is left of the
source, `none` where a line gets too long or the source ends. -/
def scanLines (nWidth : ℕ) : ℕ → List UInt8 → Option (List UInt8)
  | 0, src => some src
  | n + 1, src => (scanLine nWidth (src.length + 1) src 0).bind (scanLines nWidth n)

variable {w : ℕ}

/-- **What a scan leaves** does not depend on what is behind it, and so not on its fuel. -/
theorem scanLine_used : ∀ {src rest} {x}, src.length < fuel →
    scanLine w fuel src x = some rest → ∃ used, src = used ++ rest ∧
      ∀ fuel' tail, used.length < fuel' → scanLine w fuel' (used ++ tail) x = some tail := by
  induction fuel with
  | zero => intro src rest x hfuel _; exact absurd hfuel (not_lt_zero _)
  | succ fuel ih =>
  intro src rest x hfuel h
  unfold scanLine at h
  by_cases hx : x < w
  · rw [if_pos hx] at h
    rcases src with _ | ⟨controlByte, src⟩
    · cases h
    simp only at h
    generalize hread : readControlByte controlByte = control at h
    obtain ⟨run, raw⟩ := control
    split_ifs at h with hwide hshort
    rw [length_cons] at hfuel
    obtain ⟨used, hused, hscan⟩ := ih (by rw [length_drop]; omega) h
    refine ⟨controlByte :: (src.take raw ++ used), ?_, fun fuel' tail hfuel' => ?_⟩
    · rw [cons_append, append_assoc, ← hused, take_append_drop]
    have htake : (src.take raw).length = raw := by
      rw [length_take]
      omega
    rw [length_cons, length_append] at hfuel'
    obtain ⟨fuel', rfl⟩ : ∃ k, fuel' = k + 1 := ⟨fuel' - 1, by omega⟩
    rw [cons_append]
    unfold scanLine
    rw [if_pos hx]
    simp only [hread]
    rw [if_neg hwide, if_neg (by simp only [length_append]; omega), append_assoc, drop_left' htake]
    exact hscan fuel' tail (by omega)
  · rw [if_neg hx] at h
    cases h
    refine ⟨[], rfl, fun fuel' tail hfuel' => ?_⟩
    obtain ⟨fuel', rfl⟩ : ∃ k, fuel' = k + 1 := ⟨fuel' - 1, by omega⟩
    unfold scanLine
    rw [if_neg hx, nil_append]

/-- What the scan of a plane leaves does not depend on what is behind it. -/
theorem scanLines_used (n) : ∀ {src rest}, scanLines w n src = some rest →
    ∃ used, src = used ++ rest ∧ ∀ tail, scanLines w n (used ++ tail) = some tail := by
  induction n with
  | zero =>
    intro src rest h
    cases h
    exact ⟨[], rfl, fun tail => rfl⟩
  | succ n ih =>
  intro src rest h
  obtain ⟨mid, hline, hlines⟩ := bind_eq_some_iff.mp h
  obtain ⟨used, rfl, hscan⟩ := scanLine_used (lt_succ_self _) hline
  obtain ⟨used', rfl, hscan'⟩ := ih hlines
  refine ⟨used ++ used', (append_assoc _ _ _).symm, fun tail => ?_⟩
  rw [scanLines, append_assoc, hscan _ _ (by rw [length_append]; omega), bind_some, hscan']

/-! ## The decoder and the measuring reader scan -/

section Decode

variable (prev : Option (List UInt8))

theorem length_decodeRaw (raw) : ∀ line pixel,
    (decodeRaw prev raw line pixel).1.length = line.length + raw.length := by
  induction raw with
  | nil => intro line pixel; rfl
  | cons b raw ih =>
  intro line pixel
  rw [decodeRaw, ih, length_append, length_singleton, length_cons]
  omega

theorem length_decodeRun (pixel n) : ∀ line : List UInt8,
    (decodeRun prev pixel n line).length = line.length + n := by
  induction n with
  | zero => intro line; rfl
  | succ n ih =>
  intro line
  rw [decodeRun, ih, length_append, length_singleton]
  omega

theorem length_round (raw n line pixel) :
    (decodeRun prev (decodeRaw prev raw line pixel).2 n (decodeRaw prev raw line pixel).1).length =
      line.length + raw.length + n := by
  rw [length_decodeRun, length_decodeRaw]

/-- **The decoder of a line reads what the scan reads**, whatever the values are. -/
theorem decodeLine_scan (w fuel : ℕ) : ∀ src line pixel,
    (decodeLine prev w fuel src line pixel).map Prod.snd = scanLine w fuel src line.length := by
  induction fuel with
  | zero => intro src line pixel; rfl
  | succ fuel ih =>
  intro src line pixel
  unfold decodeLine scanLine
  by_cases hx : line.length < w
  swap
  · rw [if_neg hx, if_neg hx]
    rfl
  rw [if_pos hx, if_pos hx]
  rcases src with _ | ⟨controlByte, src⟩
  · rfl
  generalize readControlByte controlByte = control
  simp only
  split_ifs with hwide hshort
  · rfl
  · rfl
  · rw [ih, length_round, length_take, Nat.min_eq_left (by omega)]

theorem decodeLine_length (w fuel) : ∀ {src line line' rest} {pixel},
    src.length < fuel → line.length ≤ w →
    decodeLine prev w fuel src line pixel = some (line', rest) →
      line'.length = w := by
  induction fuel with
  | zero => intro src line line' rest pixel hfuel; exact absurd hfuel (not_lt_zero _)
  | succ fuel ih =>
  intro src line line' rest pixel hfuel hle h
  unfold decodeLine at h
  by_cases hx : line.length < w
  swap
  · rw [if_neg hx] at h
    cases h
    omega
  rw [if_pos hx] at h
  rcases src with _ | ⟨controlByte, src⟩
  · cases h
  generalize readControlByte controlByte = control at h
  simp only at h
  split_ifs at h with hwide hshort
  rw [length_cons] at hfuel
  refine ih (by rw [length_drop]; omega) ?_ h
  rw [length_round, length_take]
  omega

end Decode

/-- **The decoder of a plane reads what the scan reads.** -/
theorem decodeLines_scan (w n : ℕ) : ∀ (prev : Option (List UInt8)) (src dst : List UInt8),
    (decodeLines w n prev src dst).map Prod.snd = scanLines w n src := by
  induction n with
  | zero => intro prev src dst; rfl
  | succ n ih =>
  intro prev src dst
  have hline := decodeLine_scan prev w (src.length + 1) src [] 0
  rw [length_nil] at hline
  rw [decodeLines, scanLines, ← hline]
  cases decodeLine prev w (src.length + 1) src [] 0 with
  | none => rfl
  | some p => exact ih (some p.1) p.2 (dst ++ p.1)

theorem readControlByte_le (controlByte) :
    (readControlByte controlByte).1 ≤ 47 ∧ (readControlByte controlByte).2 ≤ 15 := by
  have hrun : planarControlByteRunLength controlByte ≤ 15 := and_le_right
  have hraw : planarControlByteRawBytes controlByte ≤ 15 := and_le_right
  unfold readControlByte
  simp only
  split_ifs
  iterate 2 exact ⟨by omega, zero_le _⟩
  · exact ⟨by omega, hraw⟩

variable {src : List UInt8}

/-- **The measuring reader** counts what a scan reads, as long as the scan is inside of the
source. -/
theorem skipLine_scan (hsize : src.length < 2 ^ 32) (hw : w ≤ int32Max) :
    ∀ {fuel' x used} {rest}, used ≤ src.length →
      (src.drop used).length < fuel → (src.drop used).length < fuel' → x ≤ w →
      scanLine w fuel (src.drop used) x = some rest →
      skipLine src w fuel' x used = some (src.length - rest.length) := by
  have hint : int32Max = 2 ^ 31 - 1 := rfl
  induction fuel with
  | zero => intro fuel' x used rest _ hfuel; exact absurd hfuel (not_lt_zero _)
  | succ fuel ih =>
  intro fuel' x used rest hused hfuel hfuel' hx h
  obtain ⟨fuel', rfl⟩ : ∃ k, fuel' = k + 1 := ⟨fuel' - 1, by omega⟩
  unfold scanLine at h
  rw [skipLine]
  by_cases hlt : x < w
  swap
  · rw [if_neg hlt] at h ⊢
    cases h
    rw [length_drop, Nat.sub_sub_self hused]
  rw [if_pos hlt] at h ⊢
  rcases hdrop : src.drop used with _ | ⟨controlByte, tail⟩
  · rw [hdrop] at h
    cases h
  have hget : src[used]? = some controlByte := by
    rw [← List.head?_drop, hdrop]
    rfl
  have htail : tail = src.drop (used + 1) := by
    rw [← tail_drop, hdrop]
    rfl
  have hlen : tail.length + used + 1 = src.length := by
    have := congrArg List.length hdrop
    rw [length_drop, length_cons] at this
    omega
  rw [hdrop] at h hfuel hfuel'
  rw [hget]
  have hbound := readControlByte_le controlByte
  generalize readControlByte controlByte = control at h hbound ⊢
  simp only at h hbound ⊢
  split_ifs at h with hwide hshort
  rw [uint32, uint32, mod_eq_of_lt (by omega), mod_eq_of_lt (by omega),
    if_neg (by omega), if_neg (by omega)]
  rw [htail, drop_drop] at h
  rw [length_cons] at hfuel hfuel'
  refine ih (by omega) ?_ ?_ (by omega) ?_
  · rw [length_drop]
    omega
  · rw [length_drop]
    omega
  · exact h

/-- The measuring reader counts what the scan of a plane reads. -/
theorem skipLines_scan (hsize : src.length < 2 ^ 32) (hw : w ≤ int32Max)
    (n) : ∀ {used} {rest}, used ≤ src.length → scanLines w n (src.drop used) = some rest →
      skipLines src w n used = some (src.length - rest.length) := by
  induction n with
  | zero =>
    intro used rest hused h
    cases h
    rw [skipLines, length_drop, Nat.sub_sub_self hused]
  | succ n ih =>
  intro used rest hused h
  obtain ⟨mid, hline, hlines⟩ := bind_eq_some_iff.mp h
  obtain ⟨consumed, hdrop, -⟩ := scanLine_used (lt_succ_self _) hline
  have hfuel := Nat.le_mul_of_pos_left (src.length + 1) (show 0 < w + 1 by omega)
  rw [skipLines, skipLine_scan hsize hw hused (lt_succ_self _)
    (by rw [length_drop]; omega) (zero_le w) hline]
  -- what is left after the line is a part of the source from its place on
  have hmid : mid = src.drop (src.length - mid.length) := by
    have hlen := congrArg List.length hdrop
    rw [length_drop, length_append] at hlen
    have hrest : (src.drop used).drop consumed.length = mid := by
      rw [hdrop, drop_left]
    rw [← hrest, drop_drop, length_drop]
    congr 1
    omega
  refine ih (sub_le _ _) ?_
  rwa [← hmid]

/-! ## The same line in the image -/

/-- The bytes `px` were stored from column `x` on into a line that starts at `base`, and nothing
else. -/
structure Drawn (base x : ℕ) (px : List UInt8) (c c' : Canvas) : Prop where
  written : c'.written = c.written ++ (List.range' x px.length).map fun i => base + 4 * i
  inside : ∀ i < px.length, c'.data (base + 4 * (x + i)) = px.getD i 0
  outside : ∀ a, (∀ i, x ≤ i → i < x + px.length → a ≠ base + 4 * i) → c'.data a = c.data a

theorem Drawn.refl (base x c) : Drawn base x [] c c :=
  ⟨(append_nil _).symm, nofun, fun _ _ => rfl⟩

theorem drawn_store (base x b c) : Drawn base x [b] c (c.store (base + 4 * x) b) := by
  refine ⟨rfl, fun i hi => ?_, fun a ha => ?_⟩
  · obtain rfl : i = 0 := by simpa using hi
    exact set_self c.data _ b
  · exact set_of_ne c.data (ha x le_rfl (by simp)) b

theorem Drawn.trans (h : Drawn base x px c c')
    (h' : Drawn base (x + px.length) qx c' c'') : Drawn base x (px ++ qx) c c'' := by
  constructor
  · rw [h'.written, h.written, length_append, ← range'_append_1, map_append, append_assoc]
  · intro i hi
    rw [length_append] at hi
    by_cases hlt : i < px.length
    · rw [h'.outside _ (fun j hj _ => by omega), h.inside i hlt, getD_append _ _ _ _ hlt]
    have := h'.inside (i - px.length) (by omega)
    rw [show x + px.length + (i - px.length) = x + i by omega] at this
    rw [this, getD_append_right _ _ _ _ (by omega)]
  · intro a ha
    rw [length_append] at ha
    rw [h'.outside a fun i hi hi' => ha i (by omega) (by omega),
      h.outside a fun i hi hi' => ha i hi (by omega)]

/-- The previous line of the decoder is the one in the image. -/
def SameLine (w : ℕ) (c : Canvas) : Option (List UInt8) → Option ℕ → Prop
  | none, none => True
  | some line, some previous => ∀ x < w, c.data (previous + 4 * x) = line.getD x 0
  | _, _ => False

def Apart (w base : ℕ) (pb : Option ℕ) : Prop :=
  ∀ previous ∈ pb, ∀ x < w, ∀ i < w, previous + 4 * x ≠ base + 4 * i

theorem SameLine.drawn {prev} (h : SameLine w c prev pb)
    (hapart : Apart w base pb) (hd : Drawn base x px c c') (hx : x + px.length ≤ w) :
    SameLine w c' prev pb := by
  rcases prev with _ | line
  · cases pb with
    | none => trivial
    | some previous => exact h
  rcases pb with _ | previous
  · exact h
  intro j hj
  rw [hd.outside _ fun i _ hi => hapart previous rfl j hj i (by omega)]
  exact h j hj

theorem SameLine.pixels {prev} (h : SameLine w c prev pb) :
    (∀ b, channelRawPixel pb b = rawPixel prev b) ∧
      ∀ x < w, ∀ pixel, channelPixel pb c x pixel = storedPixel prev x pixel := by
  rcases prev with _ | line
  · cases pb with
    | none => exact ⟨fun _ => rfl, fun _ _ _ => rfl⟩
    | some previous => exact absurd h id
  rcases pb with _ | previous
  · exact absurd h id
  refine ⟨fun _ => rfl, fun x hx pixel => ?_⟩
  simp only [channelPixel, storedPixel]
  rw [h x hx]

theorem storeRaw_spec {prev} (hapart : Apart w base pb) (raw) :
    ∀ line {c} pixel, SameLine w c prev pb →
      line.length + raw.length ≤ w → ∃ px c', px.length = raw.length ∧
        (decodeRaw prev raw line pixel).1 = line ++ px ∧
        storeRaw pb base raw c line.length pixel = (c', (decodeRaw prev raw line pixel).2) ∧
        Drawn base line.length px c c' := by
  induction raw with
  | nil =>
    intro line c pixel _ _
    exact ⟨[], c, rfl, (append_nil line).symm, rfl, .refl base line.length c⟩
  | cons b raw ih =>
  intro line c pixel h hlen
  rw [length_cons] at hlen
  obtain ⟨hraw, hpixel⟩ := h.pixels
  have hpixel := hpixel line.length (by omega)
  have hfirst := drawn_store base line.length
    (storedPixel prev line.length (rawPixel prev b)) c
  obtain ⟨px, c', hpx, hdec, hstore, hdrawn⟩ :=
    ih (line ++ [storedPixel prev line.length (rawPixel prev b)]) (rawPixel prev b)
      (h.drawn hapart hfirst (by simp; omega)) (by simp; omega)
  rw [length_append] at hstore hdrawn
  refine ⟨storedPixel prev line.length (rawPixel prev b) :: px, c', ?_, ?_, ?_, ?_⟩
  · rw [length_cons, length_cons, hpx]
  · rw [decodeRaw, hdec, append_assoc, singleton_append]
  · rw [storeRaw, hraw, hpixel]
    exact hstore
  · exact hfirst.trans hdrawn

theorem storeRun_spec {prev} (hapart : Apart w base pb) (pixel) (n) :
    ∀ line {c}, SameLine w c prev pb → line.length + n ≤ w →
      ∃ px c', px.length = n ∧ decodeRun prev pixel n line = line ++ px ∧
        storeRun pb base pixel n c line.length = c' ∧ Drawn base line.length px c c' := by
  induction n with
  | zero =>
    intro line c _ _
    exact ⟨[], c, rfl, (append_nil line).symm, rfl, .refl base line.length c⟩
  | succ n ih =>
  intro line c h hlen
  have hpixel := h.pixels.2 line.length (by omega) pixel
  have hfirst := drawn_store base line.length (storedPixel prev line.length pixel) c
  obtain ⟨px, c', hpx, hdec, hstore, hdrawn⟩ :=
    ih (line ++ [storedPixel prev line.length pixel])
      (h.drawn hapart hfirst (by simp; omega)) (by simp; omega)
  rw [length_append] at hstore hdrawn
  refine ⟨storedPixel prev line.length pixel :: px, c', ?_, ?_, ?_, ?_⟩
  · rw [length_cons, hpx]
  · rw [decodeRun, hdec, append_assoc, singleton_append]
  · rw [storeRun, hpixel]
    exact hstore
  · exact hfirst.trans hdrawn

/-- **A line of the plane is drawn**: the decoder into the image reads the same control bytes and
stores the bytes of the line. -/
theorem decompressLine_spec {prev} (hapart : Apart w base pb) :
    ∀ {src line line' rest} {c} {pixel}, SameLine w c prev pb →
      line.length ≤ w → decodeLine prev w fuel src line pixel = some (line', rest) →
      ∃ px c', line' = line ++ px ∧ line'.length ≤ w ∧
        decompressLine pb base w fuel src c line.length pixel = some (c', rest) ∧
        Drawn base line.length px c c' := by
  induction fuel with
  | zero =>
    intro src line line' rest c pixel _ hle h
    cases h
    exact ⟨[], c, (append_nil line).symm, hle, rfl, .refl base line.length c⟩
  | succ fuel ih =>
  intro src line line' rest c pixel hsame hle h
  unfold decodeLine at h
  unfold decompressLine
  by_cases hx : line.length < w
  swap
  · rw [if_neg hx] at h ⊢
    cases h
    exact ⟨[], c, (append_nil line).symm, hle, rfl, .refl base line.length c⟩
  rw [if_pos hx] at h ⊢
  rcases src with _ | ⟨controlByte, src⟩
  · cases h
  simp only at h ⊢
  generalize readControlByte controlByte = control at h
  obtain ⟨run, raw⟩ := control
  split_ifs at h with hwide hshort
  have htake : (src.take raw).length = raw := by
    rw [length_take]
    omega
  obtain ⟨px, c1, hpx, hdec, hstore, hdrawn⟩ :=
    storeRaw_spec hapart (src.take raw) line pixel hsame (by omega)
  rw [htake] at hpx
  have hsame1 := hsame.drawn hapart hdrawn (by omega)
  obtain ⟨qx, c2, hqx, hrun, hstore2, hdrawn2⟩ :=
    storeRun_spec hapart (decodeRaw prev (src.take raw) line pixel).2 run (line ++ px) hsame1
      (by rw [length_append]; omega)
  rw [length_append, hpx] at hstore2 hdrawn2
  have hsame2 := hsame1.drawn hapart hdrawn2 (by omega)
  rw [hdec, hrun] at h
  obtain ⟨rx, c3, hline, hle', hstore3, hdrawn3⟩ := ih hsame2
    (by simp only [length_append]; omega) h
  simp only [length_append, hpx, hqx] at hstore3 hdrawn3
  refine ⟨px ++ qx ++ rx, c3, ?_, hle', ?_, ?_⟩
  · rw [hline]
    simp only [append_assoc]
  · rw [if_neg (by omega), if_neg hshort, hstore]
    simp only [hstore2]
    exact hstore3
  · refine (hdrawn.trans (by rwa [hpx])).trans ?_
    rwa [length_append, hpx, hqx, ← add_assoc]

/-! ## The same plane in the image -/

def lineAddresses (t : Target) (w y : ℕ) : List ℕ :=
  (List.range' 0 w).map fun x => t.offset y + 4 * x

variable {t : Target}

/-- Lines that are a stride apart have no address in common. -/
theorem Target.offset_apart (hstep : 4 * w ≤ t.nDstStep)
    (hne : y ≠ y') (hx : x < w) (hx' : x' < w) :
    t.offset y + 4 * x ≠ t.offset y' + 4 * x' := by
  have hlt (a b : ℕ) (h : a < b) : t.offset a + t.nDstStep ≤ t.offset b := by
    have := mul_le_mul_right t.nDstStep (show t.nYDst + a + 1 ≤ t.nYDst + b by omega)
    rw [succ_mul] at this
    unfold Target.offset
    omega
  rcases lt_or_gt_of_ne hne with h | h
  · have := hlt y y' h
    omega
  · have := hlt y' y h
    omega

theorem lineAt_ne (vFlip) (hj : j < h) (hk : k < h) (hne : j ≠ k) :
    lineAt h vFlip j ≠ lineAt h vFlip k := by
  unfold lineAt
  cases vFlip with
  | false => exact hne
  | true =>
  simp only [if_true]
  omega

/-- What `n` scan lines from the `k`-th on have put into the image: the bytes `px`, each at its
place, and nothing else. -/
structure Painted (t : Target) (w h : ℕ) (vFlip : Bool) (k n : ℕ)
    (px : List UInt8) (c c' : Canvas) : Prop where
  length : px.length = w * n
  written : c'.written = c.written ++
    (List.range' k n).flatMap fun j => lineAddresses t w (lineAt h vFlip j)
  inside : ∀ j < n, ∀ x < w, c'.data (t.offset (lineAt h vFlip (k + j)) + 4 * x) =
      px.getD (w * j + x) 0
  outside : ∀ a, (∀ j < n, ∀ x < w, a ≠ t.offset (lineAt h vFlip (k + j)) + 4 * x) →
      c'.data a = c.data a

theorem Painted.cons (hstep : 4 * w ≤ t.nDstStep) (hk : k + n < h) (hline : line.length = w)
    (hd : Drawn (t.offset (lineAt h vFlip k)) 0 line c c1)
    (hp : Painted t w h vFlip (k + 1) n px c1 c') :
    Painted t w h vFlip k (n + 1) (line ++ px) c c' := by
  constructor
  · rw [length_append, hline, hp.length, mul_succ, add_comm]
  · rw [hp.written, hd.written, hline, append_assoc]
    rfl
  · intro j hj x hx
    rcases j with _ | j
    · -- the lines behind it leave the first line alone
      rw [Nat.mul_zero, zero_add, getD_append _ _ _ _ (by omega),
        hp.outside _ fun j hj x' hx' => Target.offset_apart hstep
          (lineAt_ne vFlip (by omega) (by omega) (by omega)) hx hx']
      have := hd.inside x (by omega)
      rwa [zero_add] at this
    have := hp.inside j (by omega) x hx
    rw [show k + 1 + j = k + (j + 1) by omega] at this
    rw [this, mul_succ, getD_append_right _ _ _ _ (by omega), hline,
      show w * j + w + x - w = w * j + x by omega]
  · intro a ha
    rw [hp.outside a fun j hj x hx => by
      have := ha (j + 1) (by omega) x hx
      rwa [show k + (j + 1) = k + 1 + j by omega] at this]
    refine hd.outside a fun i _ hi => ?_
    have := ha 0 (by omega) i (by omega)
    rwa [add_zero] at this

/-- **The plane is painted**: the decoder into the image reads the control bytes that the decoder of
the plane reads, and each scan line goes to its line. -/
theorem decompressLines_spec (vFlip : Bool) (hstep : 4 * w ≤ t.nDstStep)
    (n : ℕ) : ∀ {k : ℕ} {prev : Option (List UInt8)} {pb : Option ℕ}
    {src dst plane rest : List UInt8}
      {c : Canvas}, k + n ≤ h → SameLine w c prev pb →
      (∀ previous ∈ pb, ∃ j < k, previous = t.offset (lineAt h vFlip j)) →
      decodeLines w n prev src dst = some (plane, rest) → ∃ px c', plane = dst ++ px ∧
        decompressLines t w h vFlip n k pb src c = some (c', rest) ∧
        Painted t w h vFlip k n px c c' := by
  induction n with
  | zero =>
    intro k prev pb src dst plane rest c _ _ _ hdec
    cases hdec
    refine ⟨[], c, (append_nil dst).symm, rfl, rfl, (append_nil _).symm, nofun, fun _ _ => rfl⟩
  | succ n ih =>
  intro k prev pb src dst plane rest c hk hsame hpb hdec
  rw [decodeLines] at hdec
  rcases hline : decodeLine prev w (src.length + 1) src [] 0 with _ | p
  · rw [hline] at hdec
    cases hdec
  obtain ⟨line, mid⟩ := p
  rw [hline] at hdec
  have hempty : ([] : List UInt8).length ≤ w := zero_le w
  have hlen := decodeLine_length prev w _ (lt_succ_self _) hempty hline
  have hapart : Apart w (t.offset (lineAt h vFlip k)) pb := by
    intro previous hprevious x hx i hi
    obtain ⟨j, hj, rfl⟩ := hpb previous hprevious
    exact Target.offset_apart hstep (lineAt_ne vFlip (by omega) (by omega) (by omega)) hx hi
  obtain ⟨px, c1, hpx, -, hdecompress, hdrawn⟩ := decompressLine_spec hapart hsame hempty hline
  subst hpx
  -- the line that was drawn is the previous one of the next
  have hsame1 : SameLine w c1 (some line) (some (t.offset (lineAt h vFlip k))) := by
    intro x hx
    have := hdrawn.inside x (by omega)
    rwa [length_nil, zero_add] at this
  obtain ⟨px, c', hplane, hlines, hpainted⟩ := ih (k := k + 1) (by omega) hsame1
    (fun previous hprevious => ⟨k, lt_succ_self k, by cases hprevious; rfl⟩) hdec
  refine ⟨line ++ px, c', ?_, ?_, ?_⟩
  · rw [hplane, append_assoc]
  · rw [decompressLines]
    simp only [length_nil] at hdecompress
    simp only [hdecompress]
    exact hlines
  · exact Painted.cons hstep (by omega) hlen hdrawn hpainted

/-! ## The three scanners -/

/-- **The scanners agree** on the first `n` bytes of a source: both decoders succeed and use all of
them, the decoder into the image writes the pixels of every line and nothing else, and the two have
decoded the same plane. -/
def ScannersAgree (src : List UInt8) (n w h : ℕ) (t : Target) (vFlip : Bool) (data : Memory UInt8) :
    Prop :=
  ∃ plane c, planarDecompressPlaneRleOnly (src.take n) w h = some ((n : ℤ), plane) ∧
    planarDecompressPlaneRle (src.take n) data t w h vFlip = some ((n : ℤ), some c) ∧
    Painted t w h vFlip 0 h plane ⟨data, []⟩ c

theorem toInt32_of_le (h : n ≤ int32Max) : toInt32 n = n := by
  have hint : int32Max = 2 ^ 31 - 1 := rfl
  unfold toInt32
  rw [Int.bmod_eq_of_le (by omega) (by omega)]

/-- A source that the scan uses up is decoded to a plane and into the image. -/
theorem agree_of_scan (hw : w ≤ int32Max)
    (hh : h ≤ int32Max) (hmax : t.nDstStep ≤ int32Max) (hstep : 4 * w ≤ t.nDstStep) (vFlip)
    (data) (hn : n ≤ int32Max) (hlen : (src.take n).length = n)
    (hscan : scanLines w h (src.take n) = some []) : ScannersAgree src n w h t vFlip data := by
  rw [← decodeLines_scan w h none (src.take n) []] at hscan
  obtain ⟨⟨plane, rest⟩, hdec, hrest⟩ := map_eq_some_iff.mp hscan
  obtain rfl : rest = [] := hrest
  obtain ⟨px, c, hpx, hlines, hpainted⟩ := decompressLines_spec vFlip hstep h
    (le_of_eq (zero_add h)) (show SameLine w ⟨data, []⟩ none none from trivial)
    (fun _ hprevious => by cases hprevious) hdec
  subst hpx
  have hvalue : toInt32 (((src.take n).length : ℤ) - ([] : List UInt8).length) = n := by
    rw [hlen, length_nil, cast_zero, Int.sub_zero, toInt32_of_le hn]
  refine ⟨plane, c, ?_, ?_, hpainted⟩
  · rw [planarDecompressPlaneRleOnly, if_neg (by omega), hdec]
    simp only [hvalue]
  · rw [planarDecompressPlaneRle, if_neg (by omega), hlines]
    simp only [hvalue]

/-- **The three planar scanners.**  If `planar_skip_plane_rle` returns `n` on a source, then the two
decoders succeed on the first `n` bytes, use all of them, stay inside of their lines and give the
same plane, exactly if the control bytes of the plane end inside of the source when the position in
it does not wrap around. -/
theorem scanners_agree_iff {src : List UInt8} {n w h : ℕ} {t : Target} (hsize : src.length < 2 ^ 32)
    (hw : w ≤ int32Max) (hh : h ≤ int32Max) (hmax : t.nDstStep ≤ int32Max)
    (hstep : 4 * w ≤ t.nDstStep) (hskip : planarSkipPlaneRle src w h = n) (vFlip : Bool)
    (data : Memory UInt8) : ScannersAgree src n w h t vFlip data ↔ (scanLines w h src).isSome := by
  constructor
  · rintro ⟨plane, c, honly, -, -⟩
    rw [planarDecompressPlaneRleOnly, if_neg (by omega)] at honly
    have hscan := decodeLines_scan w h none (src.take n) []
    rcases hdec : decodeLines w h none (src.take n) [] with _ | p
    · rw [hdec] at honly
      simp only [some.injEq, Prod.mk.injEq] at honly
      omega
    rw [hdec] at hscan
    obtain ⟨used, hused, hall⟩ := scanLines_used h hscan.symm
    rw [← take_append_drop n src, hused, append_assoc, hall]
    rfl
  intro hsome
  obtain ⟨rest, hrest⟩ := isSome_iff_exists.mp hsome
  obtain ⟨used, hused, hall⟩ := scanLines_used h hrest
  have hlines := skipLines_scan hsize hw h (zero_le _)
    (show scanLines w h (src.drop 0) = _ from hrest)
  have hlen : src.length - rest.length = used.length := by
    rw [hused, length_append, Nat.add_sub_cancel]
  rw [planarSkipPlaneRle, hlines] at hskip
  simp only at hskip
  -- the measuring reader has returned the number of bytes that the scan has used
  have hn : n = used.length ∧ used.length ≤ int32Max := by
    split_ifs at hskip
    omega
  have htake : src.take n = used := by
    rw [hused, hn.1, take_left]
  refine agree_of_scan hw hh hmax hstep vFlip data (by omega) ?_ ?_
  · rw [htake, hn.1]
  · have := hall []
    rwa [append_nil, ← htake] at this

/-- Two lines of two bytes, painted from the bottom, with a byte behind them. -/
theorem scanners_agree_two_lines :
    ScannersAgree [0x20, 5, 7, 0x20, 1, 2, 9] 6 2 2 ⟨8, 0, 0, 1⟩ true (fill 0) :=
  (scanners_agree_iff (by decide) (by decide) (by decide) (by decide) (by decide)
    (show planarSkipPlaneRle [0x20, 5, 7, 0x20, 1, 2, 9] 2 2 = (6 : ℕ) by decide) true (fill 0)).mpr
    (by decide)

/-- The measuring reader passes over control bytes that stand for nothing. -/
theorem skipLine_zeros (hsize : src.length < 2 ^ 32) (hx : x < w)
    (hw : w < 2 ^ 32) (hm : m < src.length) (hzero : ∀ i < m, src[i]? = some 0) (fuel k) :
    ∀ used, used + k ≤ m → skipLine src w (fuel + k) x used = skipLine src w fuel x (used + k) := by
  induction k with
  | zero => intro used _; rfl
  | succ k ih =>
  intro used hused
  have hread : readControlByte 0 = (0, 0) := by decide
  rw [← add_assoc, skipLine, if_pos hx, hzero used (by omega)]
  simp only [hread, add_zero]
  rw [uint32, uint32, mod_eq_of_lt (by omega), mod_eq_of_lt (by omega), if_neg (by omega),
    if_neg (by omega), ih (used + 1) (by omega), add_assoc, add_comm 1]

/-- At the end of a source of 2^32 - 1 bytes the position wraps around. -/
theorem skip_wraps (hm : m + 2 = 2 ^ 32) :
    planarSkipPlaneRle (replicate m 0 ++ [0xF0]) 15 1 = (14 : ℕ) := by
  have hlen : (replicate m (0 : UInt8) ++ [0xF0]).length = m + 1 := by simp
  have hzero (i : ℕ) (hi : i < m) : (replicate m (0 : UInt8) ++ [0xF0])[i]? = some 0 := by
    rw [List.getElem?_append_left (by simpa using hi), List.getElem?_replicate, if_pos hi]
  have hlast : (replicate m (0 : UInt8) ++ [0xF0])[m]? = some 0xF0 := by
    simp
  have hline := skipLine_zeros (by omega) (show 0 < 15 by omega) (by omega)
    (show m < (replicate m (0 : UInt8) ++ [0xF0]).length by omega) hzero (15 * (m + 2) + 2) m 0
    (by omega)
  have hread : readControlByte 0xF0 = (0, 15) := by decide
  rw [zero_add, skipLine, if_pos (by omega), hlast] at hline
  simp only [hread] at hline
  have hused : uint32 (m + 1 + 15) = 14 := by
    unfold uint32
    omega
  rw [hused, show uint32 (0 + 15 + 0) = 15 from rfl, if_neg (by omega), if_neg (by omega)] at hline
  rw [planarSkipPlaneRle, skipLines, hlen,
    show (15 + 1) * (m + 1 + 1) = 15 * (m + 2) + 2 + m by omega, hline]
  rfl

/-- **The scanners do not agree** on a source of 2^32 - 1 bytes: control bytes that stand for
nothing and at the very end one of 15 raw bytes.  The measuring reader returns 14, and no plane is
in the first 14 bytes. -/
theorem scanners_disagree : ∃ (src : List UInt8) (n w h : ℕ) (t : Target) (vFlip : Bool)
    (data : Memory UInt8), src.length < 2 ^ 32 ∧ w ≤ int32Max ∧ h ≤ int32Max ∧
    t.nDstStep ≤ int32Max ∧ 4 * w ≤ t.nDstStep ∧ planarSkipPlaneRle src w h = n ∧
    ¬ ScannersAgree src n w h t vFlip data := by
  obtain ⟨m, hm⟩ : ∃ m, m + 2 = 2 ^ 32 := ⟨2 ^ 32 - 2, by omega⟩
  refine ⟨replicate m 0 ++ [0xF0], 14, 15, 1, ⟨60, 0, 0, 0⟩, false, fill 0, ?_, by decide,
    by decide, by decide, by decide, skip_wraps hm, ?_⟩
  · rw [length_append, length_replicate, length_singleton]
    omega
  rintro ⟨plane, c, honly, -⟩
  have htake : (replicate m (0 : UInt8) ++ [0xF0]).take 14 = replicate 14 0 := by
    rw [take_append_of_le_length (by rw [length_replicate]; omega), take_replicate,
      Nat.min_eq_left (by omega)]
  have hfails : planarDecompressPlaneRleOnly (replicate 14 0) 15 1 = some (-1, []) := by decide
  rw [htake, hfails] at honly
  simp only [some.injEq, Prod.mk.injEq] at honly
  exact absurd honly.1 (by decide)

end WBFreeRDP.Planar

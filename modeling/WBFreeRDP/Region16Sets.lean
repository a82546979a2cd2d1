/-
# Regions are sets of points

What the calls of `codec/region.c` do to the points of a region.
-/
import WBFreeRDP.Region16
import Mathlib.Data.List.TakeWhile

namespace WBFreeRDP.Region16

open Bands
open List hiding Disjoint

/-! ## Copying a band -/

section Copy

variable {top : ℕ} (bottom : ℕ) {rest : List Rect}

theorem copyItems_strip (newTop newBottom row) :
    copyItems newTop newBottom (strip top bottom row) = strip newTop newBottom row := by
  rw [copyItems, strip, map_map]
  rfl

theorem scan_band (row) (hrest : ∀ r ∈ rest, r.top ≠ top) :
    (strip top bottom row ++ rest).takeWhile (fun s => s.top = top) = strip top bottom row ∧
      (strip top bottom row ++ rest).dropWhile (fun s => s.top = top) = rest := by
  have hfalse : ∀ r ∈ rest, decide (r.top = top) = false := by
    intro r hr
    exact decide_eq_false (hrest r hr)
  have hq : ∀ s : ℕ × ℕ, decide ((⟨s.1, top, s.2, bottom⟩ : Rect).top = top) = true := by
    intro s
    exact decide_eq_true rfl
  rw [(span_strip row hq hfalse).1, (span_strip row hq hfalse).2,
    takeWhile_eq_self_iff.mpr (by simp), dropWhile_eq_nil_iff.mpr (by simp)]
  exact ⟨rfl, rfl⟩

theorem scan_right (row) (hrest : ∀ r ∈ rest, r.top ≠ top) (x) :
    (strip top bottom row ++ rest).takeWhile (fun s => s.top = top ∧ s.right < x) =
        strip top bottom (row.takeWhile fun s => s.2 < x) ∧
      (strip top bottom row ++ rest).dropWhile (fun s => s.top = top ∧ s.right < x) =
        strip top bottom (row.dropWhile fun s => s.2 < x) ++ rest := by
  have hfalse : ∀ r ∈ rest, decide (r.top = top ∧ r.right < x) = false := by
    intro r hr
    exact decide_eq_false fun h => hrest r hr h.1
  have hq : ∀ s : ℕ × ℕ, decide ((⟨s.1, top, s.2, bottom⟩ : Rect).top = top ∧
      (⟨s.1, top, s.2, bottom⟩ : Rect).right < x) = decide (s.2 < x) := by
    simp
  exact span_strip row hq hfalse

/-- **A band is copied.** -/
theorem copyBandWithUnion_none (hne : row ≠ []) (hrest : ∀ r ∈ rest, r.top ≠ top)
    (newTop newBottom : ℕ) :
    copyBandWithUnion (strip top bottom row ++ rest) newTop newBottom none =
      (strip newTop newBottom row, rest) := by
  obtain ⟨s, row, rfl⟩ := exists_cons_of_ne_nil hne
  obtain ⟨htake, hdrop⟩ := scan_band bottom (s :: row) hrest
  rw [strip_cons, cons_append] at htake hdrop ⊢
  simp only [copyBandWithUnion, htake, hdrop]
  rw [← strip_cons, copyItems_strip]

theorem startOverlap_strip (hrest : ∀ r ∈ rest, r.top ≠ top) (u) (row) :
    startOverlap top u (strip top bottom row ++ rest) = spanStart u.left row := by
  cases row with
  | nil =>
    cases rest with
    | nil => rfl
    | cons r rest =>
    rw [strip_nil, nil_append, startOverlap, if_neg fun h => hrest r mem_cons_self h.1]
    rfl
  | cons s row => simp [startOverlap, spanStart]

theorem endOverlap_strip (hrest : ∀ r ∈ rest, r.top ≠ top) (u) (row) :
    endOverlap top u (strip top bottom row ++ rest) =
      ((spanEnd u.right row).1, strip top bottom (spanEnd u.right row).2 ++ rest) := by
  rcases row with _ | ⟨s, row⟩
  · cases rest with
    | nil => rfl
    | cons r rest =>
      rw [strip_nil, nil_append, endOverlap, if_neg fun h => hrest r mem_cons_self h.1]
      rfl
  rw [strip_cons, cons_append, endOverlap, spanEnd]
  by_cases h : s.1 < u.right
  · rw [if_pos ⟨rfl, h⟩, if_pos h]
  · rw [if_neg fun h' => h h'.2, if_neg h]
    rfl

/-- **A band is copied with a rectangle joined to it.** -/
theorem copyBandWithUnion_some (hne : row ≠ []) (hrest : ∀ r ∈ rest, r.top ≠ top)
    (newTop newBottom : ℕ) (u : Rect) :
    copyBandWithUnion (strip top bottom row ++ rest) newTop newBottom (some u) =
      (strip newTop newBottom (insertSpan u.left u.right row), rest) := by
  obtain ⟨s, tail, rfl⟩ := exists_cons_of_ne_nil hne
  obtain ⟨htake, hdrop⟩ := scan_right bottom (s :: tail) hrest u.left
  have hdrop' := (scan_right bottom ((s :: tail).dropWhile fun s => s.2 < u.left) hrest u.right).2
  have hend := endOverlap_strip bottom hrest u
    (((s :: tail).dropWhile fun s => s.2 < u.left).dropWhile fun s => s.2 < u.right)
  obtain ⟨hband, hbehind⟩ := scan_band bottom
    (spanEnd u.right
      (((s :: tail).dropWhile fun s => s.2 < u.left).dropWhile fun s => s.2 < u.right)).2 hrest
  rw [insertSpan_eq, strip_append, strip_cons]
  rw [strip_cons, cons_append] at htake hdrop ⊢
  simp only [copyBandWithUnion, htake, hdrop, startOverlap_strip bottom hrest, hdrop', hend, hband,
    hbehind, copyItems_strip]

end Copy

/-! ## Pieces of a union -/

/-- `out` has, between the lines `lo` and `hi`, the points of `S` and those of the rectangle. -/
structure Joins (rect : Rect) (lo hi : ℕ) (S : Set (ℕ × ℕ)) (out : List Rect) : Prop where
  banded : Banded out
  within : Within lo hi out
  mem_iff : ∀ p, p ∈ points out ↔ p ∈ S ∨ (p ∈ rect.points ∧ lo ≤ p.2 ∧ p.2 < hi)

section Pieces

variable {rect : Rect}

theorem Joins.append (h : Joins rect lo mid S out) (h' : Joins rect mid hi T out') (hlo : lo ≤ mid)
    (hhi : mid ≤ hi) : Joins rect lo hi (S ∪ T) (out ++ out') where
  banded := h.banded.append h'.banded h.within h'.within
  within := (h.within.mono (le_refl _) hhi).append (h'.within.mono hlo (le_refl _))
  mem_iff p := by
    rw [points_append, Set.mem_union, h.mem_iff, h'.mem_iff]
    constructor
    · rintro ((hp | hp) | hp | hp)
      · exact .inl (.inl hp)
      · exact .inr ⟨hp.1, by omega⟩
      · exact .inl (.inr hp)
      · exact .inr ⟨hp.1, by omega⟩
    rintro ((hp | hp) | ⟨hp, h1, h2⟩)
    · exact .inl (.inl hp)
    · exact .inr (.inl hp)
    rcases lt_or_ge p.2 mid with hmid | hmid
    · exact .inl (.inr ⟨hp, h1, hmid⟩)
    · exact .inr (.inr ⟨hp, hmid, h2⟩)

theorem joins_nil (h : hi ≤ rect.top ∨ rect.bottom ≤ lo ∨ hi ≤ lo) : Joins rect lo hi ∅ [] where
  banded := banded_nil
  within := within_nil lo hi
  mem_iff p := by
    rw [points_nil]
    constructor
    · intro hp
      exact .inl hp
    rintro (hp | ⟨⟨_, hp⟩, hlo, hhi⟩)
    · exact hp
    · omega

theorem joins_piece (hrect : rect.Proper) (ht : t = max lo rect.top)
    (hb : b = min hi rect.bottom) (hlt : t < b) :
    Joins rect lo hi ∅ [⟨rect.left, t, rect.right, b⟩] where
  banded := banded_singleton ⟨hrect.1, hlt⟩
  within := by
    intro r hr
    rw [mem_singleton] at hr
    rw [hr]
    show lo ≤ t ∧ b ≤ hi
    omega
  mem_iff p := by
    rw [points_cons, points_nil, Set.union_empty]
    simp only [Rect.points, Set.mem_ofPred_eq, Set.mem_empty_iff_false, false_or]
    omega

/-- A row that is copied where the rectangle has no points, or none of its own. -/
theorem joins_copy (hrow : Row row) (hlt : lo < hi)
    (h : ∀ p ∈ rect.points, lo ≤ p.2 → p.2 < hi → p ∈ points (strip lo hi row)) :
    Joins rect lo hi (points (strip lo hi row)) (strip lo hi row) where
  banded := hrow.banded hlt
  within := within_strip lo hi row
  mem_iff p := by
    constructor
    · intro hp
      exact .inl hp
    rintro (hp | ⟨hp, hlo, hhi⟩)
    · exact hp
    · exact h p hp hlo hhi

/-- A row with the rectangle joined, where the rectangle goes from line to line. -/
theorem joins_merge (hrow : Row row) (hrect : rect.Proper) (hlt : lo < hi)
    (htop : rect.top ≤ lo) (hbottom : hi ≤ rect.bottom) :
    Joins rect lo hi (points (strip lo hi row))
      (strip lo hi (insertSpan rect.left rect.right row)) where
  banded := (insertSpan_spec hrect.1 hrow).1.banded hlt
  within := within_strip lo hi _
  mem_iff p := by
    rw [mem_points_strip, mem_points_strip, (insertSpan_spec hrect.1 hrow).2.2]
    constructor
    · rintro ⟨hx | hx, hlo, hhi⟩
      · exact .inr ⟨⟨hx, by omega⟩, hlo, hhi⟩
      · exact .inl ⟨hx, hlo, hhi⟩
    · rintro (⟨hx, hlo, hhi⟩ | ⟨⟨hx, _⟩, hlo, hhi⟩)
      · exact ⟨.inr hx, hlo, hhi⟩
      · exact ⟨.inl hx, hlo, hhi⟩

/-- A row between two lines is the row above and the row below a line between them. -/
theorem points_strip_split (row) (hlo : lo ≤ mid) (hhi : mid ≤ hi) :
    points (strip lo hi row) = points (strip lo mid row) ∪ points (strip mid hi row) := by
  ext p
  rw [Set.mem_union, mem_points_strip, mem_points_strip, mem_points_strip]
  constructor
  · rintro ⟨hx, h1, h2⟩
    rcases lt_or_ge p.2 mid with hmid | hmid
    · exact .inl ⟨hx, h1, hmid⟩
    · exact .inr ⟨hx, hmid, h2⟩
  · rintro (⟨hx, h1, h2⟩ | ⟨hx, h1, h2⟩)
    · exact ⟨hx, h1, by omega⟩
    · exact ⟨hx, by omega, h2⟩

/-- A row copied to lines of which the rectangle has no point, or to none. -/
theorem joins_split (hrow : Row row) (hle : lo ≤ hi)
    (h : hi ≤ rect.top ∨ rect.bottom ≤ lo ∨ hi ≤ lo) :
    Joins rect lo hi (points (strip lo hi row)) (if lo < hi then strip lo hi row else []) := by
  by_cases hlt : lo < hi
  · rw [if_pos hlt]
    refine joins_copy hrow hlt ?_
    rintro p ⟨_, hp⟩ hlo hhi
    omega
  have hempty : points (strip lo hi row) = ∅ := by
    ext p
    rw [mem_points_strip]
    constructor
    · omega
    · rintro ⟨⟩
  rw [if_neg hlt, hempty]
  exact joins_nil h

end Pieces

variable {rect : Rect}

/-- A rectangle that an item of the band contains is in the band. -/
theorem containedLoop_spec (h : containedLoop refY rect band = true) :
    ∃ item ∈ band, item.top = refY ∧ item.left ≤ rect.left ∧ rect.right ≤ item.right := by
  induction band with
  | nil => cases h
  | cons item band ih =>
  rw [containedLoop] at h
  split_ifs at h with h1 h2
  · exact ⟨item, mem_cons_self, h1.1, h1.2, h2⟩
  · obtain ⟨item', hmem, hitem⟩ := ih h
    exact ⟨item', mem_cons_of_mem _ hmem, hitem⟩

section Band

variable {rest : List Rect} {rect : Rect}

theorem rectangleContainedInBand_spec (hne : row ≠ []) (hrest : ∀ r ∈ rest, r.top ≠ top)
    (h : rectangleContainedInBand (strip top bottom row ++ rest) rect = true) :
    (top ≤ rect.top ∧ rect.bottom ≤ bottom) ∧ ∃ s ∈ row, s.1 ≤ rect.left ∧ rect.right ≤ s.2 := by
  obtain ⟨s, tail, rfl⟩ := exists_cons_of_ne_nil hne
  rw [strip_cons, cons_append, rectangleContainedInBand] at h
  split_ifs at h with hout
  refine ⟨by simp only [not_or] at hout; omega, ?_⟩
  obtain ⟨item, hmem, htop, hitem⟩ := containedLoop_spec h
  rw [← cons_append, ← strip_cons] at hmem
  rcases mem_append.mp hmem with hrow | hlow
  · obtain ⟨t, ht, rfl⟩ := mem_map.mp hrow
    exact ⟨t, ht, hitem⟩
  · exact absurd htop (hrest item hlow)

/-- **The items for one band of the source.** -/
theorem unionBand_spec (hrow : Row row) (hne : row ≠ []) (hlt : top < bottom)
    (hrest : ∀ r ∈ rest, r.top ≠ top) (hrect : rect.Proper) (first : Rect) (htop : first.top = top)
    (hbottom : first.bottom = bottom) : ∃ items topInterBand,
      unionBand rect first (strip top bottom row ++ rest) = (items, rest, topInterBand) ∧
      Joins rect top bottom (points (strip top bottom row)) items ∧
      (bottom < rect.bottom → topInterBand = max bottom rect.top) := by
  have hcopy := copyBandWithUnion_none bottom hne hrest
  rw [unionBand, htop, hbottom]
  by_cases hout : bottom ≤ rect.top ∨ rect.bottom ≤ top ∨
      rectangleContainedInBand (strip top bottom row ++ rest) rect = true
  · rw [if_pos hout, hcopy]
    refine ⟨_, _, rfl, joins_copy hrow hlt ?_, ?_⟩
    · rintro p ⟨hx, hy⟩ hlo hhi
      rcases hout with h | h | h
      · omega
      · omega
      · obtain ⟨_, s, hs, hs1, hs2⟩ := rectangleContainedInBand_spec hne hrest h
        exact mem_points_strip.mpr ⟨⟨s, hs, by omega⟩, hlo, hhi⟩
    rcases hout with h | h | h
    · omega
    · omega
    · have := (rectangleContainedInBand_spec hne hrest h).1
      omega
  rw [if_neg hout]
  -- the lines of the merge zone
  set mergeTop := if rect.top > top then rect.top else top with hmt
  set mergeBottom := if rect.bottom < bottom then rect.bottom else bottom with hmb
  have hmt' : mergeTop = max top rect.top := by
    rw [hmt]
    split <;> omega
  have hmb' : mergeBottom = min bottom rect.bottom := by
    rw [hmb]
    split <;> omega
  have hproper := hrect.2
  have htopSplit : Joins rect top mergeTop (points (strip top mergeTop row)) _ :=
    joins_split hrow (by omega) (by omega)
  have hmerge : Joins rect mergeTop mergeBottom (points (strip mergeTop mergeBottom row)) _ :=
    joins_merge hrow hrect (by omega) (by omega) (by omega)
  have hbottomSplit : Joins rect mergeBottom bottom (points (strip mergeBottom bottom row)) _ :=
    joins_split hrow (by omega) (by omega)
  have hjoins := (htopSplit.append hmerge (by omega) (by omega)).append hbottomSplit (by omega)
    (by omega)
  rw [← points_strip_split row (by omega) (by omega),
    ← points_strip_split row (by omega) (by omega)] at hjoins
  have hif : (if top < mergeTop then strip top mergeTop row else []) =
      if rect.top > top then strip top rect.top row else [] := by
    by_cases h : rect.top > top
    · rw [if_pos (by omega), if_pos h, hmt, if_pos h]
    · rw [if_neg (by omega), if_neg h]
  rw [hif] at hjoins
  simp only [hcopy, copyBandWithUnion_some bottom hne hrest]
  by_cases hb : rect.bottom < bottom
  · rw [if_pos hb]
    rw [if_pos (show mergeBottom < bottom by omega)] at hjoins
    exact ⟨_, bottom, rfl, hjoins, by omega⟩
  · rw [if_neg hb]
    rw [if_neg (show ¬ mergeBottom < bottom by omega), append_nil] at hjoins
    exact ⟨_, bottom, rfl, hjoins, by omega⟩

end Band

/-! ## The union -/

theorem interBand_spec {next} (rest) (hrect : rect.Proper) (hle : first.bottom ≤ next.top)
    (htop : first.bottom < rect.bottom → topInterBand = max first.bottom rect.top) :
    Joins rect first.bottom next.top ∅ (interBand rect first (next :: rest) topInterBand) := by
  have hproper := hrect.2
  rw [interBand]
  by_cases h : next.top ≠ first.bottom ∧ rect.bottom > first.bottom ∧ rect.top < next.top
  · rw [if_pos h]
    have ht := htop h.2.1
    exact joins_piece hrect ht rfl (by omega)
  · rw [if_neg h]
    exact joins_nil (by omega)

/-- **The loop over the bands.**  Between the first and the last line of the source, the result has
the points of the source and those of the rectangle. -/
theorem unionLoop_spec (hrect : rect.Proper)
    (h : Banded (first :: src)) (hfuel : (first :: src).length ≤ fuel) :
    ∃ out, unionLoop rect fuel (first :: src) = some out ∧
      Joins rect first.top (lastBottom (first :: src)) (points (first :: src)) out := by
  induction fuel generalizing first src with
  | zero => cases hfuel
  | succ fuel ih =>
  obtain ⟨row, rest, hsrc, hne, hrow, hrest, hbelow⟩ := h.split
  have hlt := (h.proper first mem_cons_self).2
  have htops : ∀ r ∈ rest, r.top ≠ first.top := by
    intro r hr
    have := hbelow r hr
    omega
  obtain ⟨items, topInterBand, hband, hjoins, htop⟩ :=
    unionBand_spec hrow hne hlt htops hrect first rfl rfl
  rw [unionLoop, hsrc, hband]
  rcases rest with _ | ⟨next, rest⟩
  · refine ⟨items, ?_, ?_⟩
    · simp [unionLoop, interBand]
    · rw [append_nil, lastBottom_strip hne]
      exact hjoins
  have hlen : (next :: rest).length ≤ fuel := by
    have := congrArg List.length hsrc
    rw [length_append, strip, length_map] at this
    have := length_pos_iff.mpr hne
    omega
  obtain ⟨out, hloop, hout⟩ := ih hrest hlen
  have hnext := hbelow next mem_cons_self
  have hlast := hrest.bottom_le_lastBottom next mem_cons_self
  have hproper := (hrest.proper next mem_cons_self).2
  refine ⟨items ++ interBand rect first (next :: rest) topInterBand ++ out, ?_, ?_⟩
  · simp only [hloop, Option.map_some]
  have hgap := interBand_spec rest hrect hnext htop
  have hall := (hjoins.append hgap hlt.le hnext).append hout (by omega) (by omega)
  rw [Set.union_empty] at hall
  rw [lastBottom_append_of_ne_nil (cons_ne_nil _ _), points_append]
  exact hall

/-! ## Simplifying -/

theorem nextBand_strip (bottom) (hne : row ≠ []) (hrest : ∀ r ∈ rest, r.top ≠ top) :
    nextBand (strip top bottom row ++ rest) = (strip top bottom row, rest) := by
  obtain ⟨s, tail, rfl⟩ := exists_cons_of_ne_nil hne
  obtain ⟨htake, hdrop⟩ := scan_band bottom (s :: tail) hrest
  rw [strip_cons, cons_append] at htake hdrop ⊢
  rw [nextBand, htake, hdrop]

theorem bandMatch_strip (hrest : ∀ r ∈ rest, r.top ≠ top')
    (h : bandMatch top' (strip top bottom row) (strip top' bottom' row' ++ rest) = true) :
    row = row' := by
  induction row generalizing row' with
  | nil =>
    cases row' with
    | nil => rfl
    | cons s' row' => simp [bandMatch] at h
  | cons s row ih =>
  rcases row' with _ | ⟨s', row'⟩
  · cases rest with
    | nil => simp [bandMatch] at h
    | cons r rest =>
      rw [strip_cons, strip_nil, nil_append, bandMatch, if_neg (hrest r mem_cons_self)] at h
      cases h
  rw [strip_cons, strip_cons, cons_append, bandMatch, if_pos rfl] at h
  split_ifs at h with hs
  simp only [not_or, not_not] at hs
  rw [ih h, Prod.ext hs.1 hs.2]

theorem map_bottom_strip (top bottom newBottom row) :
    (strip top bottom row).map (fun tmp => { tmp with bottom := newBottom }) =
      strip top newBottom row := by
  rw [strip, map_map]
  rfl

variable {l : List Rect}

/-- **The loop over the bands** keeps the points and the bands. -/
theorem simplifyLoop_spec (h : Banded l) (hne : l ≠ []) (hfuel : l.length < fuel) :
    ∃ out, simplifyLoop fuel l = some out ∧ Banded out ∧ points out = points l ∧
      ∀ lo hi, Within lo hi l → Within lo hi out := by
  induction fuel generalizing l with
  | zero => cases hfuel
  | succ fuel ih =>
  obtain ⟨first, tail, rfl⟩ := exists_cons_of_ne_nil hne
  obtain ⟨row, rest, hl, hrowne, hrow, hrest, hbelow⟩ := h.split
  have hlt := (h.proper first mem_cons_self).2
  have hlen := congrArg List.length hl
  rw [length_append] at hlen
  have hpos : 0 < (strip first.top first.bottom row).length := by
    rw [strip, length_map]
    exact length_pos_iff.mpr hrowne
  have htops : ∀ r ∈ rest, r.top ≠ first.top := by
    intro r hr
    have := hbelow r hr
    omega
  rw [hl, simplifyLoop, nextBand_strip first.bottom hrowne htops]
  rcases rest with _ | ⟨second, below⟩
  · rw [append_nil]
    exact ⟨_, rfl, hrow.banded hlt, rfl, fun _ _ h => h⟩
  obtain ⟨row', rest', hrest', hrowne', hrow', hbanded, hbelow'⟩ := hrest.split
  have hlt' := (hrest.proper second mem_cons_self).2
  have htops' : ∀ r ∈ rest', r.top ≠ second.top := by
    intro r hr
    have := hbelow' r hr
    omega
  dsimp only
  by_cases hmatch : (strip first.top first.bottom row).head?.map Rect.bottom = some second.top ∧
      bandMatch second.top (strip first.top first.bottom row) (second :: below) = true
  · -- both bands become one, from the top of the first to the bottom of the second
    rw [if_pos hmatch]
    obtain ⟨htouch, hitems⟩ := hmatch
    have hbottom : first.bottom = second.top := by
      obtain ⟨s, tail, rfl⟩ := exists_cons_of_ne_nil hrowne
      exact Option.some.inj htouch
    rw [hrest'] at hitems
    obtain rfl := bandMatch_strip htops' hitems
    have hdrop : (second :: below).drop (strip first.top first.bottom row).length = rest' := by
      rw [hrest']
      refine drop_left' ?_
      rw [strip, strip, length_map, length_map]
    have hlen' := congrArg List.length hrest'
    rw [length_append] at hlen'
    have hw : Within second.bottom (lastBottom rest') rest' := by
      intro r hr
      exact ⟨hbelow' r hr, hbanded.bottom_le_lastBottom r hr⟩
    have hjoined : Banded (strip first.top second.bottom row ++ rest') :=
      (hrow.banded (by omega)).append hbanded (within_strip _ _ _) hw
    have hshorter : (strip first.top second.bottom row ++ rest').length < fuel := by
      rw [length_append]
      simp only [strip, length_map] at hlen hlen' hpos ⊢
      omega
    obtain ⟨out, hloop, hbout, hpout, hwout⟩ := ih hjoined (by simp [strip, hrowne]) hshorter
    refine ⟨out, ?_, hbout, ?_, ?_⟩
    · rw [map_bottom_strip, hdrop, hloop]
    · rw [hpout, hrest', points_append, points_append, points_append, ← Set.union_assoc,
        hbottom, ← points_strip_split row (by omega) hlt'.le]
    intro lo hi hwithin
    refine hwout lo hi (Within.append ?_ ?_)
    · have hfirst := hwithin first (hl ▸ mem_cons_self)
      have hsecond := hwithin second (mem_append_right _ mem_cons_self)
      exact (within_strip _ _ _).mono hfirst.1 hsecond.2
    · intro r hr
      refine hwithin r (mem_append_right _ ?_)
      rw [hrest']
      exact mem_append_right _ hr
  · rw [if_neg hmatch]
    obtain ⟨out, hloop, hbout, hpout, hwout⟩ := ih hrest (cons_ne_nil _ _) (by omega)
    have hw : Within first.bottom (lastBottom (second :: below)) (second :: below) := by
      intro r hr
      exact ⟨hbelow r hr, hrest.bottom_le_lastBottom r hr⟩
    refine ⟨strip first.top first.bottom row ++ out, by rw [hloop]; rfl,
      (hrow.banded hlt).append hbout (within_strip _ _ _) (hwout _ _ hw), ?_, ?_⟩
    · rw [points_append, points_append, hpout]
    intro lo hi hwithin
    refine Within.append ?_ (hwout lo hi ?_)
    · intro r hr
      exact hwithin r (mem_append_left _ hr)
    · intro r hr
      exact hwithin r (mem_append_right _ hr)

/-! ## The invariant -/

def Region.points (region : Region) : Set (ℕ × ℕ) := Bands.points region.rects

/-- **The invariant of a region.**  Its rectangles are not empty and sorted into bands, and the
extents are the smallest rectangle around its points; those of an empty region are clear. -/
structure Region.Valid (region : Region) : Prop where
  banded : Banded region.rects
  empty : region.rects = [] → region.extents = ⟨0, 0, 0, 0⟩
  bounds : region.rects ≠ [] → Bounds region.extents region.points

theorem init_valid : init.Valid := ⟨banded_nil, fun _ => rfl, fun h => absurd rfl h⟩

/-- `region16_simplify_bands` keeps the points, and the extents. -/
theorem simplifyBands_spec (h : region.Valid) :
    ∃ region', simplifyBands region = some region' ∧ region'.Valid ∧
    region'.points = region.points := by
  unfold simplifyBands
  by_cases hlen : region.rects.length < 2
  · exact ⟨region, if_pos hlen, h, rfl⟩
  rw [if_neg hlen]
  have hne : region.rects ≠ [] := by
    intro h0
    rw [h0] at hlen
    exact hlen (by decide)
  obtain ⟨out, hloop, hbanded, hpoints, _⟩ := simplifyLoop_spec h.banded hne (Nat.lt_succ_self _)
  have hbounds := h.bounds hne
  refine ⟨{ region with rects := out }, by rw [hloop]; rfl, ⟨hbanded, ?_, ?_⟩, hpoints⟩
  · rintro rfl
    obtain ⟨p, hp, _⟩ := hbounds.left
    rw [Region.points, ← hpoints, points_nil] at hp
    cases hp
  · intro _
    show Bounds region.extents (Bands.points out)
    rw [hpoints]
    exact hbounds

/-- **The pieces of the union.**  The piece above the source, the bands, and the piece below it. -/
theorem union_pieces (hrect : rect.Proper)
    (hle : top ≤ bottom) (hitems : Joins rect top bottom S items) :
    Joins rect (min rect.top top) (max rect.bottom bottom) S ((if rect.top < top then
          [⟨rect.left, rect.top, rect.right, min top rect.bottom⟩] else []) ++ items ++
        if bottom < rect.bottom then [⟨rect.left, max bottom rect.top, rect.right, rect.bottom⟩]
        else []) := by
  have hproper := hrect.2
  have habove : Joins rect (min rect.top top) top ∅
      (if rect.top < top then [⟨rect.left, rect.top, rect.right, min top rect.bottom⟩]
        else []) := by
    by_cases ht : rect.top < top
    · rw [if_pos ht]
      exact joins_piece hrect (by omega) rfl (by omega)
    · rw [if_neg ht]
      exact joins_nil (by omega)
  have hbelow : Joins rect bottom (max rect.bottom bottom) ∅
      (if bottom < rect.bottom then [⟨rect.left, max bottom rect.top, rect.right, rect.bottom⟩]
      else []) := by
    by_cases hb : bottom < rect.bottom
    · rw [if_pos hb]
      exact joins_piece hrect rfl (by omega) (by omega)
    · rw [if_neg hb]
      exact joins_nil (by omega)
  have hall := (habove.append hitems (by omega) hle).append hbelow (by omega) (by omega)
  rwa [Set.empty_union, Set.union_empty] at hall

variable {src : Region}

/-- **`region16_union_rect` is the union.** -/
theorem unionRect_spec (h : src.Valid) (hrect : rect.Proper) :
    ∃ dst, unionRect src rect = some dst ∧ dst.Valid ∧ dst.points = src.points ∪ rect.points := by
  unfold unionRect
  by_cases hempty : src.rects = []
  · rw [if_pos hempty]
    have hpoints : Bands.points [rect] = rect.points := by
      rw [points_cons, points_nil, Set.union_empty]
    refine ⟨_, rfl, ⟨banded_singleton hrect, by simp, ?_⟩, ?_⟩
    · intro _
      show Bounds rect (Bands.points [rect])
      rw [hpoints]
      exact hrect.bounds
    · rw [Region.points, Region.points, hempty, hpoints, points_nil, Set.empty_union]
  obtain ⟨extents, rects⟩ := src
  obtain ⟨first, tail, rfl⟩ := exists_cons_of_ne_nil hempty
  have hbanded : Banded (first :: tail) := h.banded
  have hbounds : Bounds extents (Bands.points (first :: tail)) := h.bounds hempty
  obtain ⟨htop, hbottom⟩ := hbounds.lines hbanded
  obtain ⟨items, hloop, hitems⟩ := unionLoop_spec hrect hbanded (le_refl _)
  rw [← htop, ← hbottom] at hitems
  have hpieces := union_pieces hrect hbounds.proper.2.le hitems
  set pieces := (if rect.top < extents.top then
      [(⟨rect.left, rect.top, rect.right, min extents.top rect.bottom⟩ : Rect)]
    else []) ++ items ++ if extents.bottom < rect.bottom then
      [⟨rect.left, max extents.bottom rect.top, rect.right, rect.bottom⟩]
    else [] with hset
  -- all of the rectangle lies between the lines
  have hpoints : Bands.points pieces = Bands.points (first :: tail) ∪ rect.points := by
    ext p
    rw [hpieces.mem_iff]
    refine or_congr Iff.rfl ⟨fun hp => hp.1, ?_⟩
    intro hp
    obtain ⟨_, hp1, hp2⟩ := id hp
    exact ⟨hp, by omega, by omega⟩
  have hvalid : Region.Valid ⟨rect.hull extents, pieces⟩ := by
    have hb : Bounds (rect.hull extents) (Bands.points pieces) := by
      rw [hpoints, Set.union_comm]
      exact hrect.bounds.union hbounds
    refine ⟨hpieces.banded, ?_, fun _ => hb⟩
    intro h0
    obtain ⟨p, hp, _⟩ := hb.left
    rw [show pieces = [] from h0, points_nil] at hp
    cases hp
  obtain ⟨dst, hdst, hdstValid, hdstPoints⟩ := simplifyBands_spec hvalid
  refine ⟨dst, ?_, hdstValid, hdstPoints.trans hpoints⟩
  simp only [hloop]
  exact hdst

/-! ## The intersection -/

theorem rectanglesIntersection_some (h : rectanglesIntersection r s = some c) :
    c.Proper ∧ c.points = r.points ∩ s.points ∧ c.top = max r.top s.top ∧
      c.bottom = min r.bottom s.bottom ∧ c.left = max r.left s.left ∧
      c.right = min r.right s.right := by
  unfold rectanglesIntersection at h
  dsimp only at h
  split_ifs at h with hlt
  cases h
  refine ⟨hlt, ?_, rfl, rfl, rfl, rfl⟩
  ext p
  simp only [Rect.points, Set.mem_inter_iff, Set.mem_ofPred_eq]
  omega

theorem rectanglesIntersection_none (h : rectanglesIntersection r s = none) :
    r.points ∩ s.points = ∅ := by
  unfold rectanglesIntersection at h
  dsimp only at h
  split_ifs at h with hlt
  rw [Set.eq_empty_iff_forall_notMem]
  rintro p ⟨⟨hx, hy⟩, hx', hy'⟩
  omega

theorem rectanglesIntersects_iff :
    rectanglesIntersects r s = true ↔ (r.points ∩ s.points).Nonempty := by
  rw [rectanglesIntersects]
  rcases h : rectanglesIntersection r s with _ | c
  · rw [rectanglesIntersection_none h]
    simp
  obtain ⟨hproper, hpoints, _⟩ := rectanglesIntersection_some h
  rw [← hpoints]
  obtain ⟨p, hp, _⟩ := hproper.bounds.left
  exact iff_of_true rfl ⟨p, hp⟩

/-- The rectangles of a list clipped to a rectangle, but for those that have nothing in it. -/
def clip (rect : Rect) (l : List Rect) : List Rect :=
  l.filterMap fun r => rectanglesIntersection r rect

theorem clip_cons_none (h : rectanglesIntersection r rect = none) (l) :
    clip rect (r :: l) = clip rect l := by
  simp only [clip, filterMap_cons, h]

theorem clip_cons_some (h : rectanglesIntersection r rect = some c)
    (l) : clip rect (r :: l) = c :: clip rect l := by
  simp only [clip, filterMap_cons, h]

theorem points_clip (rect l) : Bands.points (clip rect l) = Bands.points l ∩ rect.points := by
  induction l with
  | nil => simp [clip]
  | cons r l ih =>
  rw [points_cons, Set.union_inter_distrib_right, ← ih]
  rcases h : rectanglesIntersection r rect with _ | c
  · rw [rectanglesIntersection_none h, Set.empty_union, clip_cons_none h]
  · rw [clip_cons_some h, points_cons, (rectanglesIntersection_some h).2.1]

theorem clip_banded (h : Banded l) : Banded (clip rect l) where
  proper c hc := by
    obtain ⟨r, _, hr⟩ := mem_filterMap.mp hc
    exact (rectanglesIntersection_some hr).1
  sorted := by
    refine pairwise_filterMap.mpr (h.sorted.imp ?_)
    intro r s hrs c hc d hd
    obtain ⟨_, _, hct, hcb, _, hcr⟩ := rectanglesIntersection_some hc
    obtain ⟨_, _, hdt, hdb, hdl, _⟩ := rectanglesIntersection_some hd
    rcases hrs with ⟨ht, hb, hr⟩ | hrs
    · exact .inl ⟨by omega, by omega, by omega⟩
    · exact .inr (by omega)

theorem clip_below (h : Banded (first :: l))
    (hle : ¬ rect.bottom > first.top) : clip rect (first :: l) = [] := by
  rw [clip, filterMap_eq_nil_iff]
  intro r hr
  have htop := h.top_le r hr
  rcases hc : rectanglesIntersection r rect with _ | c
  · rfl
  obtain ⟨hproper, _, hct, hcb, _⟩ := rectanglesIntersection_some hc
  have := hproper.2
  omega

/-- The extents that go with the rectangles found so far. -/
def ExtentsOk (extents : Rect) (items : List Rect) : Prop :=
  (items = [] ∧ extents = ⟨0, 0, 0, 0⟩) ∨ Bounds extents (Bands.points items)

theorem ExtentsOk.grow (h : ExtentsOk extents items) (hc : common.Proper) :
    ExtentsOk (growExtents extents common) (items ++ [common]) := by
  right
  rw [points_append, points_cons, points_nil, Set.union_empty, growExtents]
  rcases h with ⟨rfl, rfl⟩ | h
  · rw [points_nil, Set.empty_union]
    exact hc.bounds
  have hproper := h.proper
  rw [if_neg (by rw [rectangleIsEmpty]; have := hproper.1; have := hproper.2; omega),
    Set.union_comm]
  exact hc.bounds.union h

/-- **The loop of `region16_intersect_rect`** clips the rectangles. -/
theorem intersectLoop_spec (rect : Rect) (nbRects : ℕ) {src : List Rect} (h : Banded src)
    (items : List Rect) (extents : Rect) (hlen : items.length + src.length ≤ nbRects)
    (hext : ExtentsOk extents items) : ∃ extents', intersectLoop rect nbRects src items extents =
        some ⟨extents', items ++ clip rect src⟩ ∧ ExtentsOk extents' (items ++ clip rect src) := by
  induction src generalizing items extents with
  | nil =>
    refine ⟨extents, ?_, ?_⟩
    · rw [intersectLoop, clip, filterMap_nil, append_nil]
    · rwa [clip, filterMap_nil, append_nil]
  | cons first src ih =>
  rw [length_cons] at hlen
  rw [intersectLoop]
  by_cases hb : rect.bottom > first.top
  swap
  · rw [if_neg hb, clip_below h hb, append_nil]
    exact ⟨extents, rfl, hext⟩
  rw [if_pos hb, if_neg (by omega)]
  have hsrc : Banded src := (Banded.of_append (l := [first]) h).2
  rcases hc : rectanglesIntersection first rect with _ | common
  · rw [clip_cons_none hc]
    exact ih hsrc items extents (by omega) hext
  obtain ⟨extents', hloop, hext'⟩ := ih hsrc (items ++ [common])
    (growExtents extents common) (by rw [length_append]; simp only [length_singleton]; omega)
    (hext.grow (rectanglesIntersection_some hc).1)
  rw [append_assoc] at hloop hext'
  rw [clip_cons_some hc]
  exact ⟨extents', hloop, hext'⟩

theorem Region.Valid.extents_singleton (h : src.Valid)
    (hr : src.rects = [r]) : src.extents = r ∧ src.points = r.points := by
  have hpoints : src.points = r.points := by
    rw [Region.points, hr, points_cons, points_nil, Set.union_empty]
  have hproper := h.banded.proper r (by rw [hr]; exact mem_cons_self)
  have hb := h.bounds (by rw [hr]; exact cons_ne_nil _ _)
  rw [hpoints] at hb
  exact ⟨hb.unique hproper.bounds, hpoints⟩

/-- **`region16_intersect_rect` is the intersection.** -/
theorem intersectRect_spec (h : src.Valid) (rect : Rect) :
    ∃ dst, intersectRect src rect = some dst ∧ dst.Valid ∧
    dst.points = src.points ∩ rect.points := by
  have hinit : init.points = ∅ := points_nil
  unfold intersectRect
  by_cases hempty : src.rects = []
  · rw [if_pos hempty]
    refine ⟨init, rfl, init_valid, ?_⟩
    rw [hinit, Region.points, hempty, points_nil, Set.empty_inter]
  rw [if_neg hempty]
  by_cases hone : src.rects.length = 1
  · rw [if_pos hone]
    obtain ⟨r, hr⟩ := length_eq_one_iff.mp hone
    obtain ⟨hext, hpoints⟩ := h.extents_singleton hr
    rw [hext, hpoints]
    rcases hc : rectanglesIntersection r rect with _ | common
    · exact ⟨init, rfl, init_valid, by rw [hinit, rectanglesIntersection_none hc]⟩
    obtain ⟨hproper, hcpoints, _⟩ := rectanglesIntersection_some hc
    obtain ⟨dst, hdst, hvalid, hdpoints⟩ := unionRect_spec init_valid hproper
    exact ⟨dst, hdst, hvalid, by rw [hdpoints, hinit, Set.empty_union, hcpoints]⟩
  rw [if_neg hone]
  obtain ⟨extents, hloop, hext⟩ := intersectLoop_spec rect src.rects.length h.banded []
    ⟨0, 0, 0, 0⟩ (by simp) (.inl ⟨rfl, rfl⟩)
  rw [nil_append] at hloop hext
  have hvalid : Region.Valid ⟨extents, clip rect src.rects⟩ := by
    refine ⟨clip_banded h.banded, ?_, ?_⟩
    · intro h0
      have h0 : clip rect src.rects = [] := h0
      rcases hext with ⟨_, h0'⟩ | hb
      · exact h0'
      obtain ⟨p, hp, _⟩ := hb.left
      rw [h0, points_nil] at hp
      cases hp
    · intro hne
      rcases hext with ⟨h0, _⟩ | hb
      · exact absurd h0 hne
      · exact hb
  obtain ⟨dst, hdst, hdvalid, hdpoints⟩ := simplifyBands_spec hvalid
  refine ⟨dst, ?_, hdvalid, ?_⟩
  · simp only [hloop]
    exact hdst
  · rw [hdpoints]
    exact points_clip rect src.rects

theorem intersectsLoop_iff (arg2) {src} (h : Banded src) :
    intersectsLoop arg2 src = true ↔ (Bands.points src ∩ arg2.points).Nonempty := by
  induction src with
  | nil => simp [intersectsLoop]
  | cons first src ih =>
  have hsrc : Banded src := (Banded.of_append (l := [first]) h).2
  rw [intersectsLoop, points_cons, Set.union_inter_distrib_right, Set.union_nonempty]
  by_cases hb : arg2.bottom > first.top
  · rw [← ih hsrc, ← rectanglesIntersects_iff]
    split_ifs with hi
    · exact iff_of_true rfl (.inl hi)
    · simp [hi]
  · rw [if_neg hb, ← Set.union_nonempty, ← Set.union_inter_distrib_right, ← points_cons,
      ← points_clip, clip_below h hb]
    simp

/-- **`region16_intersects_rect` tells whether the intersection has points.** -/
theorem intersectsRect_iff (h : src.Valid) (arg2 : Rect) :
    intersectsRect src arg2 = true ↔ (src.points ∩ arg2.points).Nonempty := by
  unfold intersectsRect
  by_cases hempty : src.rects = []
  · rw [Region.points, hempty]
    simp
  rw [if_neg hempty]
  by_cases hone : src.rects.length = 1
  · rw [if_pos hone]
    obtain ⟨r, hr⟩ := length_eq_one_iff.mp hone
    obtain ⟨hext, hpoints⟩ := h.extents_singleton hr
    rw [hext, hpoints]
    exact rectanglesIntersects_iff
  rw [if_neg hone]
  by_cases hout : rectanglesIntersects src.extents arg2 = false
  · rw [if_pos hout]
    refine iff_of_false Bool.false_ne_true ?_
    rintro ⟨p, hp, hp'⟩
    have hin := rectanglesIntersects_iff.mpr ⟨p, (h.bounds hempty).subset hp, hp'⟩
    rw [hout] at hin
    cases hin
  · rw [if_neg hout]
    exact intersectsLoop_iff arg2 h.banded

/-! ## Sequences of calls -/

variable {regions : ℕ → Region}

theorem Op.run_valid {op : Op} (hop : op.Ok) (h : ∀ i, (regions i).Valid) :
    ∃ regions', op.run regions = some regions' ∧ ∀ i, (regions' i).Valid := by
  have hupdate : ∀ dst {region}, region.Valid →
      ∀ i, (Function.update regions dst region i).Valid := by
    intro dst region hregion i
    by_cases hi : i = dst
    · rw [hi, Function.update_self]
      exact hregion
    · rw [Function.update_of_ne hi]
      exact h i
  cases op with
  | unionRect dst src rect =>
    obtain ⟨region, hrun, hvalid, _⟩ := unionRect_spec (h src) hop
    exact ⟨_, by rw [Op.run, hrun, Option.map_some], hupdate dst hvalid⟩
  | intersectRect dst src rect =>
    obtain ⟨region, hrun, hvalid, _⟩ := intersectRect_spec (h src) rect
    exact ⟨_, by rw [Op.run, hrun, Option.map_some], hupdate dst hvalid⟩
  | copy dst src => exact ⟨_, rfl, hupdate dst (h src)⟩
  | clear dst => exact ⟨_, rfl, hupdate dst init_valid⟩

theorem run_valid (hops : ∀ op ∈ ops, op.Ok) (h : ∀ i, (regions i).Valid) :
    ∃ regions', run ops regions = some regions' ∧ ∀ i, (regions' i).Valid := by
  induction ops generalizing regions with
  | nil => exact ⟨regions, rfl, h⟩
  | cons op ops ih =>
  obtain ⟨regions1, hrun, h1⟩ := Op.run_valid (hops op mem_cons_self) h
  obtain ⟨regions2, hrun', h2⟩ := ih (fun o ho => hops o (mem_cons_of_mem _ ho)) h1
  exact ⟨regions2, by rw [run, hrun, Option.bind_some, hrun'], h2⟩

/-- **Regions are sets of points.**  In every state that calls reach from regions that were
initialised, the rectangles of a region are not empty, have no point in common, are sorted into
bands and have the extents as bounds; the union and the intersection with a rectangle are those of
the points, and `region16_intersects_rect` tells whether the intersection has points. -/
theorem region16_is_point_set (ops : List Op) (hops : ∀ op ∈ ops, op.Ok) :
    ∃ regions, run ops (fun _ => init) = some regions ∧ ∀ i, (regions i).Valid ∧
      (regions i).rects.Pairwise (fun r s => Disjoint r.points s.points) ∧
      (∀ rect, rect.Proper → ∃ dst, unionRect (regions i) rect = some dst ∧ dst.Valid ∧
        dst.points = (regions i).points ∪ rect.points) ∧
      (∀ rect, ∃ dst, intersectRect (regions i) rect = some dst ∧ dst.Valid ∧
        dst.points = (regions i).points ∩ rect.points) ∧
      ∀ rect, intersectsRect (regions i) rect = true ↔
      ((regions i).points ∩ rect.points).Nonempty := by
  obtain ⟨regions, hrun, h⟩ := run_valid hops (fun _ => init_valid)
  refine ⟨regions, hrun, ?_⟩
  intro i
  exact ⟨h i, (h i).banded.disjoint, fun _ => unionRect_spec (h i), intersectRect_spec (h i),
    intersectsRect_iff (h i)⟩

/-- Two rectangles that overlap, and the first one cut out again. -/
def overlapOps : List Op :=
  [.unionRect 0 0 ⟨0, 0, 4, 4⟩, .unionRect 0 0 ⟨2, 2, 6, 6⟩, .copy 1 0,
    .intersectRect 0 0 ⟨0, 0, 4, 4⟩]

theorem region16_is_point_set_overlap :
    (run overlapOps fun _ => init).map (fun regions => (regions 0, (regions 1).rects)) =
      some (⟨⟨0, 0, 4, 4⟩, [⟨0, 0, 4, 4⟩]⟩, [⟨0, 0, 4, 2⟩, ⟨0, 2, 6, 4⟩, ⟨2, 4, 6, 6⟩]) ∧
    ∃ regions, run overlapOps (fun _ => init) = some regions ∧ ∀ i, (regions i).Valid ∧
      (regions i).rects.Pairwise (fun r s => Disjoint r.points s.points) ∧
      (∀ rect, rect.Proper → ∃ dst, unionRect (regions i) rect = some dst ∧ dst.Valid ∧
        dst.points = (regions i).points ∪ rect.points) ∧
      (∀ rect, ∃ dst, intersectRect (regions i) rect = some dst ∧ dst.Valid ∧
        dst.points = (regions i).points ∩ rect.points) ∧
      ∀ rect, intersectsRect (regions i) rect = true ↔
      ((regions i).points ∩ rect.points).Nonempty :=
  ⟨by decide +kernel, region16_is_point_set overlapOps (by
    intro op hop
    simp only [overlapOps, mem_cons, not_mem_nil, or_false] at hop
    rcases hop with rfl | rfl | rfl | rfl
    · exact ⟨by decide, by decide⟩
    · exact ⟨by decide, by decide⟩
    · trivial
    · trivial)⟩

/-! ## Runs on sets of points -/

/-- What a call is for: regions are sets of points. -/
def Op.onSets : Op → (ℕ → Set (ℕ × ℕ)) → ℕ → Set (ℕ × ℕ)
  | .unionRect dst src rect, sets => Function.update sets dst (sets src ∪ rect.points)
  | .intersectRect dst src rect, sets => Function.update sets dst (sets src ∩ rect.points)
  | .copy dst src, sets => Function.update sets dst (sets src)
  | .clear dst, sets => Function.update sets dst ∅

/-- **Step lemma.** -/
theorem Op.run_onSets {op : Op} (hop : op.Ok) (h : ∀ i, (regions i).Valid)
    (hrun : op.run regions = some regions') :
    (fun i => (regions' i).points) = op.onSets fun i => (regions i).points := by
  have hupdate (dst region) : (fun i => (Function.update regions dst region i).points) =
      Function.update (fun i => (regions i).points) dst region.points :=
    Function.comp_update Region.points regions dst region
  cases op with
  | unionRect dst src rect =>
    obtain ⟨region, hsome, -, hpoints⟩ := unionRect_spec (h src) hop
    rw [Op.run, hsome] at hrun
    cases hrun
    rw [hupdate, hpoints]
    rfl
  | intersectRect dst src rect =>
    obtain ⟨region, hsome, -, hpoints⟩ := intersectRect_spec (h src) rect
    rw [Op.run, hsome] at hrun
    cases hrun
    rw [hupdate, hpoints]
    rfl
  | copy dst src =>
    cases hrun
    exact hupdate dst _
  | clear dst =>
    cases hrun
    exact (hupdate dst _).trans (by rw [show init.points = ∅ from points_nil]; rfl)

/-- **Calls on regions are calls on sets of points**: every sequence of calls succeeds, and leaves
regions whose points, and whose answers to `region16_intersects_rect`, are those of the sets. -/
theorem run_refines_sets (ops : List Op) (hops : ∀ op ∈ ops, op.Ok) (regions : ℕ → Region)
    (h : ∀ i, (regions i).Valid) :
    ∃ regions', run ops regions = some regions' ∧ ∀ i,
      (regions' i).points =
        ops.foldl (fun sets op => op.onSets sets) (fun i => (regions i).points) i ∧
      ∀ rect, intersectsRect (regions' i) rect = true ↔
        (ops.foldl (fun sets op => op.onSets sets) (fun i => (regions i).points) i ∩
          rect.points).Nonempty := by
  obtain ⟨regions', hrun, hvalid⟩ := run_valid hops h
  have hpoints : (fun i => (regions' i).points) =
      ops.foldl (fun sets op => op.onSets sets) fun i => (regions i).points := by
    induction ops generalizing regions with
    | nil => cases hrun; rfl
    | cons op ops ih =>
    obtain ⟨regions1, hrun1, h1⟩ := Op.run_valid (hops op mem_cons_self) h
    rw [run, hrun1] at hrun
    rw [ih (fun o ho => hops o (mem_cons_of_mem _ ho)) regions1 h1 hrun,
      Op.run_onSets (hops op mem_cons_self) h hrun1, foldl_cons]
  refine ⟨regions', hrun, fun i => ⟨congrFun hpoints i, fun rect => ?_⟩⟩
  rw [← congrFun hpoints i]
  exact intersectsRect_iff (hvalid i) rect

/-- A rectangle joined to the first region and copied to the second. -/
theorem run_refines_sets_copy :
    let ops : List Op := [.unionRect 0 0 ⟨0, 0, 4, 4⟩, .copy 1 0]
    ∃ regions, run ops (fun _ => init) = some regions ∧
    (regions 1).points = (∅ ∪ Rect.points ⟨0, 0, 4, 4⟩) := by
  have hinit : init.points = ∅ := points_nil
  obtain ⟨regions, hrun, h⟩ := run_refines_sets [.unionRect 0 0 ⟨0, 0, 4, 4⟩, .copy 1 0]
    (by simp [Op.Ok, Rect.Proper]) (fun _ => init) fun _ => init_valid
  exact ⟨regions, hrun, by rw [(h 1).1, ← hinit]; rfl⟩

end WBFreeRDP.Region16

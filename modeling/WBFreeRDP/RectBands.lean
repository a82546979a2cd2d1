/-
# Rectangles in bands

A set of points given by rectangles that are sorted into bands: the rectangles of a band have the
same top and bottom and follow each other from left to right, and the bands follow each other from
top to bottom.
-/
import Mathlib.Data.Set.Lattice
import Mathlib.Order.CompletePartialOrder
import Mathlib.Data.List.Pairwise

namespace Bands

open List hiding Disjoint

/-! ## Rectangles -/

/-- A rectangle; the right and the bottom side do not belong to it. -/
structure Rect where
  left : ℕ
  top : ℕ
  right : ℕ
  bottom : ℕ
  deriving DecidableEq, Repr

variable {r : Rect}

namespace Rect

def points (r : Rect) : Set (ℕ × ℕ) :=
  {p | (r.left ≤ p.1 ∧ p.1 < r.right) ∧ (r.top ≤ p.2 ∧ p.2 < r.bottom)}

def Proper (r : Rect) : Prop := r.left < r.right ∧ r.top < r.bottom

instance (r : Rect) : Decidable r.Proper := inferInstanceAs (Decidable (_ ∧ _))

/-- The smallest rectangle around two others. -/
def hull (r s : Rect) : Rect :=
  ⟨min r.left s.left, min r.top s.top, max r.right s.right, max r.bottom s.bottom⟩

/-- `r` comes before `s` in its band, or in a band above. -/
def Before (r s : Rect) : Prop :=
  (r.top = s.top ∧ r.bottom = s.bottom ∧ r.right ≤ s.left) ∨ r.bottom ≤ s.top

instance (r s : Rect) : Decidable (r.Before s) := inferInstanceAs (Decidable (_ ∨ _))

theorem Before.disjoint (h : r.Before s) : Disjoint r.points s.points := by
  rw [Set.disjoint_left]
  rintro p ⟨⟨_, hr⟩, ⟨_, hb⟩⟩ ⟨⟨hl, _⟩, ⟨ht, _⟩⟩
  rcases h with ⟨_, _, h⟩ | h <;> omega

end Rect

def points (l : List Rect) : Set (ℕ × ℕ) := {p | ∃ r ∈ l, p ∈ r.points}

@[simp] theorem points_nil : points [] = ∅ := by
  ext p
  simp [points]

@[simp] theorem points_cons (r l) : points (r :: l) = r.points ∪ points l := by
  ext p
  simp [points]

@[simp] theorem points_append (l m) : points (l ++ m) = points l ∪ points m := by
  ext p
  simp [points, or_and_right, exists_or]

/-- The rectangles are proper and sorted into bands. -/
structure Banded (l : List Rect) : Prop where
  proper : ∀ r ∈ l, r.Proper
  sorted : l.Pairwise Rect.Before

theorem banded_nil : Banded [] := ⟨by simp, List.Pairwise.nil⟩

theorem banded_singleton (h : r.Proper) : Banded [r] := ⟨by simpa using h, pairwise_singleton _ _⟩

variable {l m : List Rect}

theorem Banded.of_append (h : Banded (l ++ m)) : Banded l ∧ Banded m := by
  have hs := pairwise_append.mp h.sorted
  refine ⟨⟨?_, hs.1⟩, ⟨?_, hs.2.1⟩⟩
  · intro r hr
    exact h.proper r (mem_append_left _ hr)
  · intro r hr
    exact h.proper r (mem_append_right _ hr)

def Within (lo hi : ℕ) (l : List Rect) : Prop := ∀ r ∈ l, lo ≤ r.top ∧ r.bottom ≤ hi

theorem within_nil (lo hi : ℕ) : Within lo hi [] := by
  intro r hr
  cases hr

theorem Within.append (hl : Within lo hi l) (hm : Within lo hi m) : Within lo hi (l ++ m) := by
  intro r hr
  rcases mem_append.mp hr with h | h
  · exact hl r h
  · exact hm r h

theorem Within.mono (h : Within lo hi l) (hlo : lo' ≤ lo) (hhi : hi ≤ hi') : Within lo' hi' l := by
  intro r hr
  have := h r hr
  omega

theorem Banded.append (hl : Banded l) (hm : Banded m)
    (hlo : Within lo mid l) (hhi : Within mid hi m) : Banded (l ++ m) where
  proper r hr := (mem_append.mp hr).elim (hl.proper r) (hm.proper r)
  sorted := by
    refine pairwise_append.mpr ⟨hl.sorted, hm.sorted, ?_⟩
    intro r hr s hs
    exact .inr ((hlo r hr).2.trans (hhi s hs).1)

theorem Banded.disjoint (h : Banded l) : l.Pairwise fun r s => Disjoint r.points s.points :=
  h.sorted.imp Rect.Before.disjoint

/-! ## Bounds -/

/-- `e` is the smallest rectangle around the points: they lie in it, and some of them on each of its
sides. -/
structure Bounds (e : Rect) (S : Set (ℕ × ℕ)) : Prop where
  subset : S ⊆ e.points
  left : ∃ p ∈ S, p.1 = e.left
  top : ∃ p ∈ S, p.2 = e.top
  right : ∃ p ∈ S, p.1 + 1 = e.right
  bottom : ∃ p ∈ S, p.2 + 1 = e.bottom

theorem Rect.Proper.bounds (h : r.Proper) : Bounds r r.points := by
  obtain ⟨hx, hy⟩ := h
  refine ⟨subset_rfl, ⟨(r.left, r.top), ?_, rfl⟩, ⟨(r.left, r.top), ?_, rfl⟩,
    ⟨(r.right - 1, r.top), ?_, ?_⟩, ⟨(r.left, r.bottom - 1), ?_, ?_⟩⟩
  all_goals simp only [points, Set.mem_ofPred_eq]; omega

theorem Bounds.proper (h : Bounds e S) : e.Proper := by
  obtain ⟨p, hp, _⟩ := h.left
  obtain ⟨⟨h1, h2⟩, h3, h4⟩ := h.subset hp
  exact ⟨by omega, by omega⟩

theorem Bounds.union (hS : Bounds e S) (hT : Bounds f T) : Bounds (e.hull f) (S ∪ T) := by
  constructor
  · rintro p (hp | hp)
    · obtain ⟨⟨h1, h2⟩, h3, h4⟩ := hS.subset hp
      simp only [Rect.points, Rect.hull, Set.mem_ofPred_eq]
      omega
    · obtain ⟨⟨h1, h2⟩, h3, h4⟩ := hT.subset hp
      simp only [Rect.points, Rect.hull, Set.mem_ofPred_eq]
      omega
  · obtain ⟨p, hp, hpe⟩ := hS.left
    obtain ⟨q, hq, hqe⟩ := hT.left
    rcases le_total e.left f.left with h | h
    · exact ⟨p, .inl hp, by rw [hpe, Rect.hull, min_eq_left h]⟩
    · exact ⟨q, .inr hq, by rw [hqe, Rect.hull, min_eq_right h]⟩
  · obtain ⟨p, hp, hpe⟩ := hS.top
    obtain ⟨q, hq, hqe⟩ := hT.top
    rcases le_total e.top f.top with h | h
    · exact ⟨p, .inl hp, by rw [hpe, Rect.hull, min_eq_left h]⟩
    · exact ⟨q, .inr hq, by rw [hqe, Rect.hull, min_eq_right h]⟩
  · obtain ⟨p, hp, hpe⟩ := hS.right
    obtain ⟨q, hq, hqe⟩ := hT.right
    rcases le_total f.right e.right with h | h
    · exact ⟨p, .inl hp, by rw [hpe, Rect.hull, max_eq_left h]⟩
    · exact ⟨q, .inr hq, by rw [hqe, Rect.hull, max_eq_right h]⟩
  · obtain ⟨p, hp, hpe⟩ := hS.bottom
    obtain ⟨q, hq, hqe⟩ := hT.bottom
    rcases le_total f.bottom e.bottom with h | h
    · exact ⟨p, .inl hp, by rw [hpe, Rect.hull, max_eq_left h]⟩
    · exact ⟨q, .inr hq, by rw [hqe, Rect.hull, max_eq_right h]⟩

theorem Bounds.unique (he : Bounds e S) (hf : Bounds f S) : e = f := by
  have hle : ∀ {e f}, Bounds e S → Bounds f S →
      f.left ≤ e.left ∧ f.top ≤ e.top ∧ e.right ≤ f.right ∧ e.bottom ≤ f.bottom := by
    intro e f he hf
    obtain ⟨p, hp, hpe⟩ := he.left
    obtain ⟨q, hq, hqe⟩ := he.top
    obtain ⟨r, hr, hre⟩ := he.right
    obtain ⟨s, hs, hse⟩ := he.bottom
    have h1 := (hf.subset hp).1.1
    have h2 := (hf.subset hq).2.1
    have h3 := (hf.subset hr).1.2
    have h4 := (hf.subset hs).2.2
    omega
  have h := hle he hf
  have h' := hle hf he
  rcases e with ⟨_, _, _, _⟩
  rcases f with ⟨_, _, _, _⟩
  simp only at h h'
  simp only [Rect.mk.injEq]
  omega

/-! ## Rows -/

/-- Intervals that follow each other from left to right, each given by its ends. -/
structure Row (row : List (ℕ × ℕ)) : Prop where
  proper : ∀ s ∈ row, s.1 < s.2
  sorted : row.Pairwise fun s t => s.2 ≤ t.1

/-- The columns of a row of spans. -/
def cover (row : List (ℕ × ℕ)) : Set ℕ := {x | ∃ s ∈ row, s.1 ≤ x ∧ x < s.2}

/-- A row of spans as the rectangles of a band. -/
def strip (top bottom : ℕ) (row : List (ℕ × ℕ)) : List Rect :=
  row.map fun s => ⟨s.1, top, s.2, bottom⟩

@[simp] theorem strip_nil (top bottom) : strip top bottom [] = [] := rfl

@[simp] theorem strip_cons (top bottom s row) :
    strip top bottom (s :: row) = ⟨s.1, top, s.2, bottom⟩ :: strip top bottom row := rfl

@[simp] theorem strip_append (top bottom a b) :
    strip top bottom (a ++ b) = strip top bottom a ++ strip top bottom b :=
  map_append

variable {row : List (ℕ × ℕ)}

theorem mem_cover_cons : x ∈ cover (s :: row) ↔ (s.1 ≤ x ∧ x < s.2) ∨ x ∈ cover row := by
  simp [cover]

theorem row_nil : Row [] := ⟨by simp, List.Pairwise.nil⟩

theorem row_cons : Row (s :: row) ↔ s.1 < s.2 ∧ (∀ t ∈ row, s.2 ≤ t.1) ∧ Row row := by
  constructor
  · rintro ⟨hp, hs⟩
    obtain ⟨hfirst, hrest⟩ := pairwise_cons.mp hs
    exact ⟨hp s mem_cons_self, hfirst, fun t ht => hp t (mem_cons_of_mem _ ht), hrest⟩
  · rintro ⟨hs, hfirst, hrow⟩
    exact ⟨forall_mem_cons.mpr ⟨hs, hrow.proper⟩, pairwise_cons.mpr ⟨hfirst, hrow.sorted⟩⟩

theorem mem_points_strip :
    p ∈ points (strip top bottom row) ↔ p.1 ∈ cover row ∧ top ≤ p.2 ∧ p.2 < bottom := by
  induction row with
  | nil => simp [cover]
  | cons s row ih =>
  rw [strip_cons, points_cons, Set.mem_union, mem_cover_cons]
  simp only [Rect.points, Set.mem_ofPred_eq]
  tauto

theorem within_strip (top bottom row) : Within top bottom (strip top bottom row) := by
  intro r hr
  obtain ⟨s, _, rfl⟩ := mem_map.mp hr
  exact ⟨le_refl _, le_refl _⟩

theorem Row.banded (h : Row row) (hlt : top < bottom) : Banded (strip top bottom row) where
  proper r hr := by
    obtain ⟨s, hs, rfl⟩ := mem_map.mp hr
    exact ⟨h.proper s hs, hlt⟩
  sorted := pairwise_map.mpr (h.sorted.imp fun hst => .inl ⟨rfl, rfl, hst⟩)

/-! ## An interval joined with a row -/

/-- The interval from `start` to `right` takes in all that begins before its end. -/
def absorb (start right : ℕ) : List (ℕ × ℕ) → List (ℕ × ℕ)
  | [] => [(start, right)]
  | s :: row =>
    if s.2 < right then absorb start right row
    else if s.1 < right then (start, s.2) :: row
    else (start, right) :: s :: row

/-- The interval from `left` to `right` joined with a row. -/
def insertSpan (left right : ℕ) : List (ℕ × ℕ) → List (ℕ × ℕ)
  | [] => [(left, right)]
  | s :: row =>
    if s.2 < left then s :: insertSpan left right row
    else absorb (if s.1 < left then s.1 else left) right (s :: row)

/-- What absorbing gives: a row from `start` on, with the interval and the row in it. -/
theorem absorb_spec (hlt : start < right) (h : Row row) (hstart : ∀ s ∈ row, start ≤ s.1) :
    Row (absorb start right row) ∧ (∀ s ∈ absorb start right row, start ≤ s.1) ∧
      ∀ x, x ∈ cover (absorb start right row) ↔ (start ≤ x ∧ x < right) ∨ x ∈ cover row := by
  induction row with
  | nil =>
    refine ⟨row_cons.mpr ⟨hlt, by simp, row_nil⟩, by simp [absorb], ?_⟩
    intro x
    rw [absorb, mem_cover_cons]
  | cons s row ih =>
  obtain ⟨hs, hfirst, hrow⟩ := row_cons.mp h
  obtain ⟨hstart1, hstart2⟩ := forall_mem_cons.mp hstart
  rw [absorb]
  by_cases hr : s.2 < right
  · -- the interval has `s` inside
    rw [if_pos hr]
    obtain ⟨hrow', hlow, hcover⟩ := ih hrow hstart2
    refine ⟨hrow', hlow, ?_⟩
    intro x
    rw [hcover, mem_cover_cons]
    constructor
    · rintro (hx | hx)
      · exact .inl hx
      · exact .inr (.inr hx)
    · rintro (hx | hx | hx)
      · exact .inl hx
      · exact .inl (by omega)
      · exact .inr hx
  rw [if_neg hr]
  by_cases hl : s.1 < right
  · -- the interval ends in `s`
    rw [if_pos hl]
    refine ⟨row_cons.mpr ⟨by omega, hfirst, hrow⟩, forall_mem_cons.mpr ⟨le_refl _, hstart2⟩, ?_⟩
    intro x
    rw [mem_cover_cons, mem_cover_cons]
    constructor
    · rintro (hx | hx)
      · rcases lt_or_ge x right with hxr | hxr
        · exact .inl ⟨hx.1, hxr⟩
        · exact .inr (.inl (by omega))
      · exact .inr (.inr hx)
    · rintro (hx | hx | hx)
      · exact .inl (by omega)
      · exact .inl (by omega)
      · exact .inr hx
  · rw [if_neg hl]
    refine ⟨row_cons.mpr ⟨hlt, ?_, h⟩, forall_mem_cons.mpr ⟨le_refl _, hstart⟩, ?_⟩
    · refine forall_mem_cons.mpr ⟨by omega, ?_⟩
      intro t ht
      have := hfirst t ht
      omega
    · intro x
      rw [mem_cover_cons]

/-- **An interval joined with a row** gives a row with both in it. -/
theorem insertSpan_spec (hlt : left < right) (h : Row row) : Row (insertSpan left right row) ∧
      (∀ s ∈ insertSpan left right row, left ≤ s.1 ∨ ∃ t ∈ row, t.1 ≤ s.1) ∧
      ∀ x, x ∈ cover (insertSpan left right row) ↔ (left ≤ x ∧ x < right) ∨ x ∈ cover row := by
  induction row with
  | nil =>
    refine ⟨row_cons.mpr ⟨hlt, by simp, row_nil⟩, by simp [insertSpan], ?_⟩
    intro x
    rw [insertSpan, mem_cover_cons]
  | cons s row ih =>
  obtain ⟨hs, hfirst, hrow⟩ := row_cons.mp h
  rw [insertSpan]
  by_cases hbefore : s.2 < left
  · rw [if_pos hbefore]
    obtain ⟨hrow', hlow, hcover⟩ := ih hrow
    refine ⟨row_cons.mpr ⟨hs, ?_, hrow'⟩, ?_, ?_⟩
    · intro t ht
      rcases hlow t ht with hleft | ⟨u, hu, hut⟩
      · omega
      · exact (hfirst u hu).trans hut
    · refine forall_mem_cons.mpr ⟨.inr ⟨s, mem_cons_self, le_refl _⟩, ?_⟩
      intro t ht
      rcases hlow t ht with hleft | ⟨u, hu, hut⟩
      · exact .inl hleft
      · exact .inr ⟨u, mem_cons_of_mem _ hu, hut⟩
    · intro x
      rw [mem_cover_cons, hcover, mem_cover_cons]
      tauto
  rw [if_neg hbefore]
  set start := if s.1 < left then s.1 else left with hstart
  have hle : start ≤ left ∧ start ≤ s.1 ∧ (start = left ∨ start = s.1) := by
    rw [hstart]
    split <;> omega
  have hall : ∀ t ∈ s :: row, start ≤ t.1 := by
    refine forall_mem_cons.mpr ⟨hle.2.1, ?_⟩
    intro t ht
    have := hfirst t ht
    omega
  obtain ⟨hrow', hlow, hcover⟩ := absorb_spec (show start < right by omega) h hall
  refine ⟨hrow', ?_, ?_⟩
  · intro t ht
    have hst := hlow t ht
    rcases hle.2.2 with heq | heq
    · exact .inl (heq ▸ hst)
    · exact .inr ⟨s, mem_cons_self, heq ▸ hst⟩
  intro x
  rw [hcover, mem_cover_cons]
  constructor
  · rintro (hx | hx | hx)
    · rcases lt_or_ge x left with hxl | hxl
      · exact .inr (.inl (by omega))
      · exact .inl ⟨hxl, hx.2⟩
    · exact .inr (.inl hx)
    · exact .inr (.inr hx)
  · rintro (hx | hx | hx)
    · exact .inl (by omega)
    · exact .inr (.inl hx)
    · exact .inr (.inr hx)

/-- Where the joined interval begins, in front of the items that are not left of it. -/
def spanStart (left : ℕ) : List (ℕ × ℕ) → ℕ
  | [] => left
  | s :: _ => if s.1 < left then s.1 else left

/-- Where the joined interval ends, in front of the items that do not end inside, and what is behind
it. -/
def spanEnd (right : ℕ) : List (ℕ × ℕ) → ℕ × List (ℕ × ℕ)
  | [] => (right, [])
  | s :: row => if s.1 < right then (s.2, row) else (right, s :: row)

theorem absorb_eq (start right row) : absorb start right row =
      (start, (spanEnd right (row.dropWhile fun s => s.2 < right)).1) ::
        (spanEnd right (row.dropWhile fun s => s.2 < right)).2 := by
  induction row with
  | nil => rfl
  | cons s row ih =>
  rw [absorb]
  by_cases h : s.2 < right
  · rw [if_pos h, dropWhile_cons_of_pos (by simpa using h), ih]
  · rw [if_neg h, dropWhile_cons_of_neg (by simpa using h), spanEnd]
    split <;> rfl

/-- **Joining in three scans.**  The items left of the interval, the joined interval, and the items
behind it. -/
theorem insertSpan_eq (left right : ℕ) (row : List (ℕ × ℕ)) : insertSpan left right row =
      (row.takeWhile fun s => s.2 < left) ++ (spanStart left (row.dropWhile fun s => s.2 < left),
          (spanEnd right ((row.dropWhile fun s => s.2 < left).dropWhile fun s => s.2 < right)).1) ::
        (spanEnd right ((row.dropWhile fun s => s.2 < left).dropWhile fun s => s.2 < right)).2 := by
  induction row with
  | nil => rfl
  | cons s row ih =>
  rw [insertSpan]
  by_cases h : s.2 < left
  · rw [if_pos h, dropWhile_cons_of_pos (by simpa using h),
      takeWhile_cons_of_pos (by simpa using h), ih]
    rfl
  rw [if_neg h, dropWhile_cons_of_neg (by simpa using h),
    takeWhile_cons_of_neg (by simpa using h), absorb_eq]
  rfl

/-! ## Scanning a band -/

section Scan

variable {rest : List Rect}

theorem span_strip (row) (hq : ∀ s : ℕ × ℕ, P ⟨s.1, top, s.2, bottom⟩ = q s)
    (hrest : ∀ r ∈ rest, P r = false) :
    (strip top bottom row ++ rest).takeWhile P = strip top bottom (row.takeWhile q) ∧
      (strip top bottom row ++ rest).dropWhile P = strip top bottom (row.dropWhile q) ++ rest := by
  induction row with
  | nil =>
    cases rest with
    | nil => exact ⟨rfl, rfl⟩
    | cons r rest => simp [hrest r mem_cons_self]
  | cons s row ih =>
  rw [strip_cons, cons_append, takeWhile_cons, takeWhile_cons, dropWhile_cons, dropWhile_cons, hq s,
    ih.1, ih.2]
  cases q s <;> exact ⟨rfl, rfl⟩

end Scan

/-! ## The first band -/

/-- **The first band of a list** and the bands below it. -/
theorem Banded.split (h : Banded (r :: l)) :
    ∃ row rest, r :: l = strip r.top r.bottom row ++ rest ∧ row ≠ [] ∧ Row row ∧ Banded rest ∧
      ∀ s ∈ rest, r.bottom ≤ s.top := by
  induction l generalizing r with
  | nil =>
    have hr := h.proper r mem_cons_self
    exact ⟨[(r.left, r.right)], [], rfl, cons_ne_nil _ _,
      row_cons.mpr ⟨hr.1, by simp, row_nil⟩, banded_nil, by simp⟩
  | cons s l ih =>
  obtain ⟨hfirst, _⟩ := pairwise_cons.mp h.sorted
  have hr := h.proper r mem_cons_self
  have hl : Banded (s :: l) := (Banded.of_append (l := [r]) h).2
  rcases hfirst s mem_cons_self with ⟨htop, hbot, hright⟩ | hbelow
  · -- `s` is in the band of `r`
    obtain ⟨row, rest, heq, _, hrow, hrest, hlow⟩ := ih hl
    rw [← htop, ← hbot] at heq
    rw [← hbot] at hlow
    refine ⟨(r.left, r.right) :: row, rest, by rw [heq]; rfl, cons_ne_nil _ _,
      row_cons.mpr ⟨hr.1, ?_, hrow⟩, hrest, hlow⟩
    intro t ht
    have hmem : (⟨t.1, r.top, t.2, r.bottom⟩ : Rect) ∈ s :: l := by
      rw [heq]
      exact mem_append_left _ (mem_map_of_mem ht)
    rcases hfirst _ hmem with ⟨_, _, hlt⟩ | hlt
    · exact hlt
    · exact absurd hr.2 (Nat.not_lt.mpr hlt)
  · -- the band of `r` ends here, and all that follows is below it
    refine ⟨[(r.left, r.right)], s :: l, rfl, cons_ne_nil _ _,
      row_cons.mpr ⟨hr.1, by simp, row_nil⟩, hl, forall_mem_cons.mpr ⟨hbelow, ?_⟩⟩
    intro t ht
    have hs := hl.proper s mem_cons_self
    rcases (pairwise_cons.mp hl.sorted).1 t ht with ⟨heq, _, _⟩ | hlt
    · omega
    · have := hs.2
      omega

/-! ## The last band -/

/-- The lower edge of the last band. -/
def lastBottom (l : List Rect) : ℕ := (l.getLast?.map Rect.bottom).getD 0

theorem lastBottom_append_of_ne_nil (h : m ≠ []) : lastBottom (l ++ m) = lastBottom m := by
  rw [lastBottom, lastBottom, List.getLast?_append, List.getLast?_eq_some_getLast h]
  rfl

theorem lastBottom_strip (h : row ≠ []) : lastBottom (strip top bottom row) = bottom := by
  rw [lastBottom, strip, List.getLast?_map, List.getLast?_eq_some_getLast h]
  rfl

theorem exists_bottom_eq_lastBottom (h : l ≠ []) : ∃ r ∈ l, r.bottom = lastBottom l := by
  refine ⟨l.getLast h, getLast_mem h, ?_⟩
  rw [lastBottom, List.getLast?_eq_some_getLast h]
  rfl

theorem Banded.top_le (h : Banded (first :: l)) : ∀ r ∈ first :: l, first.top ≤ r.top := by
  refine forall_mem_cons.mpr ⟨le_refl _, ?_⟩
  intro r hr
  have hlt := (h.proper first mem_cons_self).2
  rcases (pairwise_cons.mp h.sorted).1 r hr with ⟨heq, _, _⟩ | hle
  · exact heq.le
  · omega

theorem Banded.bottom_le_lastBottom (h : Banded l) : ∀ r ∈ l, r.bottom ≤ lastBottom l := by
  intro r hr
  rcases eq_nil_or_concat l with rfl | ⟨l, last, rfl⟩
  · cases hr
  rw [concat_eq_append] at h hr ⊢
  have hlast : lastBottom (l ++ [last]) = last.bottom := by
    rw [lastBottom, List.getLast?_concat]
    rfl
  rw [hlast]
  rcases mem_append.mp hr with hmem | hmem
  · have hpair := (pairwise_append.mp h.sorted).2.2 r hmem last (mem_singleton_self _)
    have hproper := (h.proper last mem_concat_self).2
    rcases hpair with ⟨_, heq, _⟩ | hle
    · exact heq.le
    · omega
  · rw [mem_singleton] at hmem
    rw [hmem]

theorem Bounds.lines (h : Banded (first :: l)) (hb : Bounds e (points (first :: l))) :
    e.top = first.top ∧ e.bottom = lastBottom (first :: l) := by
  constructor
  · obtain ⟨p, ⟨r, hr, hp⟩, htop⟩ := hb.top
    have hle := h.top_le r hr
    have hproper := h.proper first mem_cons_self
    have hcorner : (first.left, first.top) ∈ points (first :: l) :=
      ⟨first, mem_cons_self, ⟨le_refl _, hproper.1⟩, le_refl _, hproper.2⟩
    have hin := (hb.subset hcorner).2.1
    have hp' := hp.2.1
    omega
  obtain ⟨p, ⟨r, hr, hp⟩, hbottom⟩ := hb.bottom
  have hle := h.bottom_le_lastBottom r hr
  obtain ⟨last, hlast, heq⟩ := exists_bottom_eq_lastBottom (cons_ne_nil first l)
  have hproper := h.proper last hlast
  have hcorner : (last.left, last.bottom - 1) ∈ points (first :: l) :=
    ⟨last, hlast, ⟨le_refl _, hproper.1⟩, Nat.le_sub_one_of_lt hproper.2,
      Nat.sub_one_lt_of_lt hproper.2⟩
  have hin := (hb.subset hcorner).2.2
  have hp' := hp.2.2
  omega

end Bands

/-
# Sliding windows

The window of an LZ77 code holds the last elements of what was sent.  A match copies elements at a
distance, one at a time, so that it may reach into what it has just copied.  A window of fixed
length is kept in a ring: `put` writes elements round and round, and the cells from the next place
on are the window, the oldest element first.
-/
import Mathlib.Data.List.GetD
import WBFreeRDP.Ring

namespace SlidingWindow

open List Nat

variable {α : Type*}

/-! ## Windows -/

/-- A window after more elements: as many of the oldest ones are dropped. -/
def slide (w l : List α) : List α := (w ++ l).drop l.length

@[simp] theorem length_slide (w l : List α) : (slide w l).length = w.length := by
  simp [slide]

variable (w : List α)

@[simp] theorem slide_nil : slide w [] = w := by
  simp [slide]

theorem slide_append (w a b : List α) : slide w (a ++ b) = slide (slide w a) b := by
  have hle : a.length ≤ (w ++ a).length := by simp
  unfold slide
  rw [length_append, ← append_assoc, ← drop_drop, drop_append_of_le_length hle]

theorem slide_of_le {w l : List α} (h : w.length ≤ l.length) :
    slide w l = l.drop (l.length - w.length) := by
  unfold slide
  rw [drop_append, drop_of_length_le h, nil_append]

theorem slide_eq_slide_drop (v w l : List α) (hvw : v.length = w.length) (h : w.length ≤ l.length) :
    slide v (l.drop (l.length - w.length)) = slide w l := by
  have hlen : (l.drop (l.length - w.length)).length = w.length := by
    rw [length_drop]
    omega
  rw [slide_of_le h, slide_of_le (by omega), hlen, hvw, Nat.sub_self, drop_zero]

/-! ## Copies -/

section Copies

variable [Inhabited α]

/-- The element at distance `d` from the end. -/
def back (w : List α) (d : ℕ) : α := w.getD (w.length - d) default

/-- `n` elements copied one at a time at distance `d`. -/
def copyBack : List α → ℕ → ℕ → List α
  | _, _, 0 => []
  | w, d, n + 1 => back w d :: copyBack (slide w [back w d]) d n

@[simp] theorem copyBack_zero (d) : copyBack w d 0 = [] := rfl

@[simp] theorem length_copyBack (n) : ∀ (w : List α) (d : ℕ), (copyBack w d n).length = n := by
  induction n with
  | zero => intro w d; rfl
  | succ n ih => intro w d; rw [copyBack, length_cons, ih]

theorem getD_slide_singleton (a i) :
    (slide w [a]).getD i default = (w ++ [a]).getD (i + 1) default := by
  simp [slide]

/-- **A copy repeats the last `d` elements of the window.** -/
theorem copyBack_eq_map (n : ℕ) : ∀ {w : List α} {d : ℕ}, 0 < d → d ≤ w.length →
    copyBack w d n = (range n).map fun i => w.getD (w.length - d + i % d) default := by
  induction n with
  | zero => intro w d _ _; rfl
  | succ n ih =>
  intro w d hpos hle
  rw [copyBack, ih hpos (by rw [length_slide]; exact hle), range_succ_eq_map, map_cons, map_map]
  congr 1
  apply map_congr_left
  intro i _
  rw [Function.comp_apply, getD_slide_singleton, length_slide]
  have hmod : i % d < d := mod_lt i hpos
  by_cases hlast : i % d + 1 = d
  · -- the element that was copied first comes round again
    have hround : (i + 1) % d = 0 := by
      rw [← mod_add_mod, hlast, mod_self]
    rw [hround, show w.length - d + i % d + 1 = w.length by omega,
      getD_append_right _ _ _ _ (Nat.le_refl _), Nat.sub_self]
    rfl
  · have hnext : (i + 1) % d = i % d + 1 := by
      rw [← mod_add_mod, mod_eq_of_lt (by omega)]
    rw [hnext, ← Nat.add_assoc, getD_append _ _ _ _ (by omega)]

theorem take_copyBack (hpos : 0 < d) (hle : d ≤ w.length) (hmn : m ≤ n) :
    (copyBack w d n).take m = copyBack w d m := by
  rw [copyBack_eq_map n hpos hle, copyBack_eq_map m hpos hle, ← map_take, take_range,
    Nat.min_eq_left hmn]

/-- **A copy of whole rounds is extended by its own beginning.** -/
theorem copyBack_double (hpos : 0 < d) (hle : d ≤ w.length) (hround : d ∣ m)
    (hnm : n ≤ m) : copyBack w d m ++ (copyBack w d m).take n = copyBack w d (m + n) := by
  rw [take_copyBack w hpos hle hnm, copyBack_eq_map m hpos hle, copyBack_eq_map n hpos hle,
    copyBack_eq_map (m + n) hpos hle, range_add, map_append, map_map]
  congr 1
  apply map_congr_left
  intro i _
  obtain ⟨c, rfl⟩ := hround
  rw [Function.comp_apply, mul_add_mod]

theorem copyBack_eq_take (hpos : 0 < d) (hle : d ≤ w.length) (hnd : n ≤ d) :
    copyBack w d n = (w.drop (w.length - d)).take n := by
  apply ext_getElem
  · rw [length_copyBack, length_take, length_drop]
    omega
  intro i hi hi'
  rw [length_copyBack] at hi
  simp only [copyBack_eq_map n hpos hle, getElem_map, getElem_range, getElem_take,
    getElem_drop, mod_eq_of_lt (show i < d by omega)]
  rw [getD_eq_getElem _ _ (by omega)]

end Copies

/-! ## Rings -/

open History Ring

/-- The window that a ring holds: all of its cells, from the next place on. -/
def contents (h : Memory α) (size index : ℕ) : List α := cells h size index size

variable (h : Memory α)

@[simp] theorem length_contents (size index) : (contents h size index).length = size :=
  length_cells h size index size

/-- Elements written one after the other, round and round. -/
def put (size : ℕ) : Memory α → ℕ → List α → Memory α
  | h, _, [] => h
  | h, index, a :: l => put size (set h (index % size) a) (index + 1) l

theorem put_append (size) (a b : List α) : ∀ h index,
    put size h index (a ++ b) = put size (put size h index a) (index + a.length) b := by
  induction a with
  | nil => intro h index; rfl
  | cons x a ih =>
  intro h index
  rw [cons_append, put, ih, put, length_cons, Nat.add_assoc, Nat.add_comm 1]

theorem put_mod (size) (l : List α) : ∀ h index,
    put size h (index % size) l = put size h index l := by
  induction l with
  | nil => intro h index; rfl
  | cons a l ih =>
  intro h index
  rw [put, put, mod_mod, ← ih _ (index % size + 1), ← ih _ (index + 1), mod_add_mod]

theorem put_eq_write {size} (l : List α) : ∀ h index,
    index + l.length ≤ size → put size h index l = write h index l := by
  induction l with
  | nil => intro h index _; rfl
  | cons a l ih =>
  intro h index hle
  rw [length_cons] at hle
  rw [put, write_cons, mod_eq_of_lt (by omega), ih _ _ (by omega)]

theorem contents_set {size} (hsize : 0 < size) (index) (a) :
    contents (set h (index % size) a) size (index + 1) = slide (contents h size index) [a] := by
  obtain ⟨m, rfl⟩ : ∃ m, size = m + 1 := ⟨size - 1, by omega⟩
  have hothers : cells (set h (index % (m + 1)) a) (m + 1) (index + 1) m =
      cells h (m + 1) (index + 1) m := by
    apply cells_set_of_forall_ne
    intro k hk heq
    refine mod_ne_mod index (show 0 < 1 + k by omega) (show 1 + k < 0 + (m + 1) by omega) ?_
    rw [Nat.add_zero, ← Nat.add_assoc, heq]
  have hlast : cells (set h (index % (m + 1)) a) (m + 1) (index + 1 + m) 1 = [a] := by
    rw [cells_succ, cells_zero, Nat.add_assoc, Nat.add_comm 1 m, add_mod_right, set_self]
  unfold contents slide
  rw [cells_add _ _ _ m 1, hothers, hlast, cells_succ, cons_append, length_singleton,
    drop_succ_cons, drop_zero]

/-- **A ring that is written to slides.** -/
theorem contents_put {size} (hsize : 0 < size) (l : List α) : ∀ h index,
    contents (put size h index l) size (index + l.length) = slide (contents h size index) l := by
  induction l with
  | nil => intro h index; rw [slide_nil]; rfl
  | cons a l ih =>
  intro h index
  rw [put, length_cons, Nat.add_comm l.length 1, ← Nat.add_assoc, ih, contents_set h hsize,
    ← slide_append, singleton_append]

theorem contents_mod (size index) :
    contents h size (index % size) = contents h size index := cells_mod h size index size

/-- The last `d` elements of the window stand in the ring behind one another. -/
theorem drop_contents {size} (hle : d ≤ size) :
    (contents h size index).drop (size - d) = cells h size (index + size - d) d := by
  unfold contents
  conv_lhs => rw [show size = (size - d) + d by omega, cells_add]
  rw [show size - d + d = size by omega, drop_left' (length_cells _ _ _ _), Nat.add_sub_assoc hle]

end SlidingWindow

/-
# Rings

A ring is a stretch of a memory whose cells are taken round and round: behind the last cell comes
the first one again.  A queue kept in a ring is read off by `cells`, and what is written behind it
is appended to it.
-/
import WBFreeRDP.History

namespace Ring

open History List Nat

variable {α : Type*}

/-- The cells of a ring, from `start` on. -/
def cells (h : Memory α) (size start n : ℕ) : List α :=
  (List.range n).map fun k => h ((start + k) % size)

variable (h : Memory α)

variable (size start n : ℕ)

@[simp] theorem length_cells : (cells h size start n).length = n := by
  simp [cells]

@[simp] theorem cells_zero (size start) : cells h size start 0 = [] := rfl

theorem cells_congr {size size' start start' n}
    (heq : ∀ k < n, g ((start + k) % size) = h ((start' + k) % size')) :
    cells g size start n = cells h size' start' n := by
  apply map_congr_left
  intro k hk
  exact heq k (mem_range.mp hk)

theorem cells_add (size start m n) :
    cells h size start (m + n) = cells h size start m ++ cells h size (start + m) n := by
  unfold cells
  rw [range_add, map_append, map_map]
  congr 1
  apply map_congr_left
  intro k _
  rw [Function.comp_apply, Nat.add_assoc]

theorem cells_succ :
    cells h size start (n + 1) = h (start % size) :: cells h size (start + 1) n := by
  rw [Nat.add_comm, cells_add]
  rfl

theorem cells_mod : cells h size (start % size) n = cells h size start n := by
  apply cells_congr
  intro k _
  rw [mod_add_mod]

theorem cells_eq_read {size n} : ∀ {start}, start + n ≤ size →
    cells h size start n = read h start n := by
  induction n with
  | zero => intro start _; rfl
  | succ n ih =>
  intro start hle
  rw [cells_succ, History.read, ih (by omega), mod_eq_of_lt (by omega)]

theorem mod_ne_mod (start) {size a b : ℕ} (hab : a < b) (hba : b < a + size) :
    (start + a) % size ≠ (start + b) % size := by
  intro heq
  have hdvd : size ∣ (start + b) - (start + a) :=
    dvd_of_mod_eq_zero (sub_mod_eq_zero_of_mod_eq heq.symm)
  have := le_of_dvd (by omega) hdvd
  omega

/-- **Writing behind the queue appends.** -/
theorem cells_write {size start n i : ℕ} (l : List α) (hi : i = (start + n) % size)
    (hend : i + l.length ≤ size) (hroom : n + l.length ≤ size) :
    cells (write h i l) size start (n + l.length) = cells h size start n ++ l := by
  rw [cells_add]
  congr 1
  swap
  · rw [← cells_mod, ← hi, cells_eq_read _ hend, read_write]
  apply cells_congr
  intro k hk
  by_cases hbelow : (start + k) % size < i
  · exact write_below l h i _ hbelow
  by_cases habove : i + l.length ≤ (start + k) % size
  · exact write_above l h i _ habove
  -- a cell of the queue is not among those written
  exfalso
  obtain ⟨j, hj⟩ : ∃ j, (start + k) % size = i + j := ⟨(start + k) % size - i, by omega⟩
  refine mod_ne_mod start (show k < n + j by omega) (show n + j < k + size by omega) ?_
  rw [hj, ← Nat.add_assoc, add_mod, ← hi, mod_eq_of_lt (show j < size by omega),
    mod_eq_of_lt (by omega)]

theorem cells_set_of_forall_ne {size start n i} (a) (hne : ∀ k < n, (start + k) % size ≠ i) :
    cells (set h i a) size start n = cells h size start n := by
  apply cells_congr
  intro k hk
  exact set_of_ne h (hne k hk) a

end Ring

/-
# Histories

A history is a memory that a sender and a receiver fill alike.  The receiver of a back-reference
copies cell by cell, so that source and target may overlap; the sender compares the bytes of its
packet with cells of its own memory.
-/
import Mathlib.Data.List.Basic

namespace History

open List Nat

variable {α : Type*}

/-! ## Cells -/

/-- A memory: a cell for every index. -/
structure Memory (α : Type*) where
  cell : ℕ → α

instance : CoeFun (Memory α) fun _ => ℕ → α := ⟨Memory.cell⟩

def fill (a : α) : Memory α := ⟨fun _ => a⟩

/-- One cell is set. -/
def set (h : Memory α) (i : ℕ) (a : α) : Memory α := ⟨Function.update h.cell i a⟩

@[simp] theorem fill_apply (a : α) (i) : fill a i = a := rfl

@[simp] theorem set_self (h i) (a : α) : set h i a i = a := by
  simp [set]

theorem set_of_ne (h) (hji : j ≠ i) (a : α) : set h i a j = h j := by
  simp [set, hji]

/-! ## Writing -/

/-- The list `l` written from cell `i` on. -/
def write : Memory α → ℕ → List α → Memory α
  | h, _, [] => h
  | h, i, a :: l => write (set h i a) (i + 1) l

@[simp] theorem write_nil (h : Memory α) (i) : write h i [] = h := rfl

theorem write_cons (h i a) (l : List α) : write h i (a :: l) = write (set h i a) (i + 1) l := rfl

theorem write_append (a b : List α) : ∀ h i,
    write h i (a ++ b) = write (write h i a) (i + a.length) b := by
  induction a with
  | nil => intro h i; rfl
  | cons x a ih =>
  intro h i
  rw [cons_append, write_cons, write_cons, ih, length_cons, Nat.add_right_comm, Nat.add_assoc]

theorem write_below (l : List α) : ∀ h i j, j < i → write h i l j = h j := by
  induction l with
  | nil => intro h i j _; rfl
  | cons a l ih =>
  intro h i j hj
  rw [write_cons, ih _ _ _ (lt_succ_of_lt hj), set_of_ne _ (Nat.ne_of_lt hj)]

theorem write_above (l : List α) : ∀ h i j, i + l.length ≤ j → write h i l j = h j := by
  induction l with
  | nil => intro h i j _; rfl
  | cons a l ih =>
  intro h i j hj
  rw [length_cons] at hj
  rw [write_cons, ih _ _ _ (by omega), set_of_ne _ (by omega)]

/-! ## Reading -/

/-- The `n` cells from cell `i` on. -/
def read (h : Memory α) : ℕ → ℕ → List α
  | _, 0 => []
  | i, n + 1 => h i :: read h (i + 1) n

@[simp] theorem length_read (h : Memory α) (n) : ∀ i, (read h i n).length = n := by
  induction n with
  | zero => intro i; rfl
  | succ n ih => intro i; rw [read, length_cons, ih]

variable {g h : Memory α}

theorem read_congr (n) : ∀ i, (∀ j, i ≤ j → j < i + n → g j = h j) → read g i n = read h i n := by
  induction n with
  | zero => intro i _; rfl
  | succ n ih =>
  intro i heq
  rw [read, read, heq i (Nat.le_refl i) (by omega),
    ih (i + 1) fun j h1 h2 => heq j (by omega) (by omega)]

theorem read_shift_congr (n) : ∀ i j, (∀ k < n, g (i + k) = h (j + k)) →
    read g i n = read h j n := by
  induction n with
  | zero => intro i j _; rfl
  | succ n ih =>
  intro i j heq
  have hfirst : g i = h j := heq 0 (succ_pos n)
  have hrest : read g (i + 1) n = read h (j + 1) n := by
    apply ih
    intro k hk
    rw [Nat.add_assoc, Nat.add_assoc, Nat.add_comm 1]
    exact heq (k + 1) (by omega)
  rw [read, read, hfirst, hrest]

/-- Two memories read the same exactly when the cells agree. -/
theorem read_eq_iff (n) : ∀ i, read g i n = read h i n ↔ ∀ j, i ≤ j → j < i + n → g j = h j := by
  induction n with
  | zero =>
    intro i
    exact ⟨fun _ j h1 h2 => by omega, fun _ => rfl⟩
  | succ n ih =>
  intro i
  refine ⟨fun heq j hij hj => ?_, read_congr (n + 1) i⟩
  obtain ⟨hfirst, hrest⟩ := List.cons.inj heq
  rcases Nat.eq_or_lt_of_le hij with rfl | hlt
  · exact hfirst
  · exact (ih (i + 1)).mp hrest j hlt (by omega)

theorem read_add (h : Memory α) (m n) : ∀ i, read h i (m + n) = read h i m ++ read h (i + m) n := by
  induction m with
  | zero => intro i; rw [Nat.zero_add]; rfl
  | succ m ih =>
  intro i
  rw [succ_add, read, read, ih, cons_append, Nat.add_assoc, Nat.add_comm 1 m]

theorem read_write_of_disjoint (h i n j) (l : List α)
    (hd : i + n ≤ j ∨ j + l.length ≤ i) : read (write h j l) i n = read h i n := by
  refine read_congr n i fun k hk hkn => ?_
  rcases hd with hd | hd
  · exact write_below l h j k (by omega)
  · exact write_above l h j k (by omega)

/-- **What was written is read.** -/
theorem read_write (l : List α) : ∀ h i, read (write h i l) i l.length = l := by
  induction l with
  | nil => intro h i; rfl
  | cons a l ih =>
  intro h i
  rw [length_cons, read, write_cons, ih, write_below _ _ _ _ (lt_succ_self i), set_self]

variable {n : ℕ}

theorem read_write_part (h i) (l : List α) (hle : a + n ≤ l.length) :
    read (write h i l) (i + a) n = (l.drop a).take n := by
  have hall := read_write l h i
  rw [show l.length = a + (n + (l.length - a - n)) by omega, read_add, read_add] at hall
  have hdrop : l.drop a = read (write h i l) (i + a) n ++
      read (write h i l) (i + a + n) (l.length - a - n) := by
    conv_lhs => rw [← hall]
    exact drop_left' (length_read _ _ _)
  rw [hdrop, take_left' (length_read _ _ _)]

theorem write_take_below (h i) (l : List α) (ha : a ≤ l.length)
    (hj : j < i + a) : write h i (l.take a) j = write h i l j := by
  conv_rhs => rw [← take_append_drop a l, write_append]
  rw [length_take, Nat.min_eq_left ha, write_below _ _ _ _ hj]

/-- A cell of a stretch that was copied from another memory. -/
theorem write_read_apply (g : Memory α) (n) : ∀ h i s {k}, k < n →
    write h i (read g s n) (i + k) = g (s + k) := by
  induction n with
  | zero => intro h i s k hk; exact absurd hk (Nat.not_lt_zero k)
  | succ n ih =>
  intro h i s k hk
  cases k with
  | zero => exact (write_below _ _ _ _ (lt_succ_self i)).trans (set_self h i _)
  | succ k =>
  rw [show i + (k + 1) = i + 1 + k by omega, show s + (k + 1) = s + 1 + k by omega]
  exact ih _ _ _ (by omega)

/-! ## Copying -/

/-- `n` cells copied one by one from `src` to `dst`. -/
def copy : Memory α → ℕ → ℕ → ℕ → Memory α
  | h, _, _, 0 => h
  | h, dst, src, n + 1 => copy (set h dst (h src)) (dst + 1) (src + 1) n

theorem copy_below (n) : ∀ (h : Memory α) (dst src : ℕ) {j : ℕ}, j < dst →
    copy h dst src n j = h j := by
  induction n with
  | zero => intro h dst src j _; rfl
  | succ n ih =>
  intro h dst src j hj
  rw [copy, ih _ _ _ (by omega), set_of_ne _ (by omega)]

theorem copy_ahead (n) : ∀ (h : Memory α) {dst src : ℕ}, dst < src → ∀ {i : ℕ}, i < n →
    copy h dst src n (dst + i) = h (src + i) := by
  induction n with
  | zero => intro h dst src _ i hi; exact absurd hi (Nat.not_lt_zero i)
  | succ n ih =>
  intro h dst src hlt i hi
  rw [copy]
  cases i with
  | zero => exact (copy_below n _ _ _ (lt_succ_self dst)).trans (set_self h dst _)
  | succ i =>
  rw [show dst + (i + 1) = dst + 1 + i by omega, show src + (i + 1) = src + 1 + i by omega,
    ih _ (by omega) (by omega), set_of_ne _ (by omega)]

/-- Copying cell by cell from `src` to `dst` gives the list. -/
def Spells : Memory α → ℕ → ℕ → List α → Prop
  | _, _, _, [] => True
  | h, dst, src, a :: l => h src = a ∧ Spells (set h dst a) (dst + 1) (src + 1) l

/-- **Copying what spells a list writes the list.** -/
theorem Spells.copy_eq : ∀ {h} {dst src}, Spells h dst src l →
    copy h dst src l.length = write h dst l := by
  induction l with
  | nil => intro h dst src _; rfl
  | cons a l ih =>
  intro h dst src hs
  obtain ⟨rfl, hl⟩ := hs
  rw [length_cons, copy, write_cons, ih hl]

theorem Spells.append : ∀ {h} {dst src}, Spells h dst src a →
    Spells (write h dst a) (dst + a.length) (src + a.length) b → Spells h dst src (a ++ b) := by
  induction a with
  | nil => intro h dst src _ hb; exact hb
  | cons x a ih =>
  intro h dst src ha hb
  obtain ⟨hx, ha⟩ := ha
  refine ⟨hx, ih ha ?_⟩
  rwa [show dst + 1 + a.length = dst + (a.length + 1) by omega,
    show src + 1 + a.length = src + (a.length + 1) by omega]

/-! ## Checked accesses -/

/-- Load a cell of a memory that has `size` cells. -/
def load? (size : ℕ) (h : Memory α) (i : ℕ) : Option α := if i < size then some (h i) else none

/-- Store into a cell of a memory that has `size` cells. -/
def store? (size : ℕ) (h : Memory α) (i : ℕ) (a : α) : Option (Memory α) :=
  if i < size then some (set h i a) else none

/-- `n` cells copied one by one, every access checked. -/
def copy? (size : ℕ) : Memory α → ℕ → ℕ → ℕ → Option (Memory α)
  | h, _, _, 0 => some h
  | h, dst, src, n + 1 =>
    (load? size h src).bind fun a =>
      (store? size h dst a).bind fun h => copy? size h (dst + 1) (src + 1) n

/-- A copy between stretches of the memory passes its checks. -/
theorem copy?_eq {size} (n) : ∀ (h : Memory α) {dst src : ℕ}, dst + n ≤ size →
    src + n ≤ size → copy? size h dst src n = some (copy h dst src n) := by
  induction n with
  | zero => intro h dst src _ _; rfl
  | succ n ih =>
  intro h dst src hdst hsrc
  rw [copy?, load?, if_pos (by omega), Option.bind_some, store?, if_pos (by omega)]
  exact ih _ (by omega) (by omega)

/-! ## Two memories -/

/-- The two memories have the same first `n` cells. -/
def Agree (n : ℕ) (g h : Memory α) : Prop := ∀ j < n, g j = h j

theorem Agree.set (hag : Agree n g h) (i) (a) :
    Agree n (History.set g i a) (History.set h i a) := by
  intro j hj
  by_cases hji : j = i
  · rw [hji, set_self, set_self]
  · rw [set_of_ne _ hji, set_of_ne _ hji, hag j hj]

theorem Agree.write (l : List α) : ∀ {g h}, Agree n g h → ∀ i,
    Agree n (History.write g i l) (History.write h i l) := by
  induction l with
  | nil => intro g h hag i; exact hag
  | cons a l ih => intro g h hag i; exact ih (hag.set i a) (i + 1)

/-- What the sender has compared holds in the receiver's memory. -/
theorem Spells.congr : ∀ {g h : Memory α} {dst src : ℕ}, Agree n g h →
    src + l.length ≤ n → Spells g dst src l → Spells h dst src l := by
  induction l with
  | nil => intro g h dst src _ _ _; trivial
  | cons a l ih =>
  intro g h dst src hag hn hs
  obtain ⟨hx, hl⟩ := hs
  rw [length_cons] at hn
  exact ⟨by rw [← hag src (by omega), hx], ih (hag.set dst a) (by omega) hl⟩

theorem Agree.succ (hag : Agree n g h) : Agree (n + 1) g (History.set h n (g n)) := by
  intro j hj
  by_cases hjn : j = n
  · rw [hjn, set_self]
  · rw [set_of_ne _ hjn, hag j (by omega)]

theorem Agree.copy {g : Memory α} (n) : ∀ {h} {dst src}, Agree dst g h →
    src < dst → (∀ k < n, g (src + k) = g (dst + k)) → Agree (dst + n) g (copy h dst src n) := by
  induction n with
  | zero => intro h dst src hag _ _; exact hag
  | succ n ih =>
  intro h dst src hag hsrc hg
  have hfirst : h src = g dst := (hag src hsrc).symm.trans (hg 0 (succ_pos n))
  rw [History.copy, hfirst, Nat.add_comm n, ← Nat.add_assoc]
  refine ih hag.succ (by omega) fun k hk => ?_
  have := hg (k + 1) (by omega)
  rwa [Nat.add_assoc, Nat.add_assoc, Nat.add_comm 1]

/-- Writing what the other memory has behind the cells that agree. -/
theorem Agree.write_read (hag : Agree n g h) (k) :
    Agree (n + k) g (History.write h n (read g n k)) := by
  intro j hj
  by_cases hjn : j < n
  · rw [write_below _ _ _ _ hjn, hag j hjn]
  have := write_read_apply g k h n n (show j - n < k by omega)
  rw [show n + (j - n) = j by omega] at this
  exact this.symm

theorem Agree.read_eq (hag : Agree n g h) (hle : i + m ≤ n) : read g i m = read h i m :=
  read_congr m i fun j _ hj => hag j (by omega)

end History

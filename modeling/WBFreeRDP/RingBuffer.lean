/-
# The byte ring buffer

`ringbuffer.c`: a buffer of bytes that grows when it would become full and goes back to its initial
size when little is left in it.

New memory has any contents: every operation that may allocate is given what it finds there.
-/
import WBFreeRDP.Ring

namespace WBFreeRDP

open History Ring List Nat

/-! ## The code -/

/-- A `RingBuffer`. -/
structure RingBuffer where
  initialSize : ℕ
  freeSize : ℕ
  size : ℕ
  readPtr : ℕ
  writePtr : ℕ
  buffer : Memory UInt8

namespace RingBuffer

/-- `ringbuffer_init`. -/
def init (initialSize : ℕ) (fresh : Memory UInt8) : RingBuffer :=
  ⟨initialSize, initialSize, initialSize, 0, 0, fresh⟩

/-- `ringbuffer_used`. -/
def used (rb : RingBuffer) : ℕ := rb.size - rb.freeSize

/-- `realloc` of the standard library: what both blocks have is kept. -/
def resized (rb : RingBuffer) (targetSize : ℕ) (fresh : Memory UInt8) : Memory UInt8 :=
  ⟨fun j => if j < rb.size ∧ j < targetSize then rb.buffer j else fresh j⟩

/-- The heads and the contents of the buffer after `ringbuffer_realloc`. -/
def relaid (rb : RingBuffer) (targetSize : ℕ) (fresh : Memory UInt8) : RingBuffer :=
  if rb.writePtr = rb.readPtr then
    { rb with readPtr := 0, writePtr := 0, buffer := resized rb targetSize fresh }
  else if rb.writePtr ≥ rb.readPtr ∧ rb.writePtr < targetSize then
    { rb with buffer := resized rb targetSize fresh }
  else
    let newData :=
      if rb.readPtr < rb.writePtr then write fresh 0 (read rb.buffer rb.readPtr (used rb))
      else
        let newData := write fresh 0 (read rb.buffer rb.readPtr (rb.size - rb.readPtr))
        if rb.writePtr ≠ 0 then
          write newData (rb.size - rb.readPtr) (read rb.buffer 0 rb.writePtr)
        else newData
    { rb with writePtr := rb.size - rb.freeSize, readPtr := 0, buffer := newData }

/-- `ringbuffer_realloc`. -/
def realloc (rb : RingBuffer) (targetSize : ℕ) (fresh : Memory UInt8) : RingBuffer :=
  { relaid rb targetSize fresh with
    freeSize := rb.freeSize + targetSize - rb.size
    size := targetSize }

/-- The bytes are written into a buffer that has room for them; the write may be split in two. -/
def put (rb : RingBuffer) (data : List UInt8) : RingBuffer :=
  let sz := data.length
  let toWrite := if rb.size - rb.writePtr < sz then rb.size - rb.writePtr else sz
  { rb with
    buffer := write (write rb.buffer rb.writePtr (data.take toWrite)) 0 (data.drop toWrite)
    writePtr := (rb.writePtr + sz) % rb.size
    freeSize := rb.freeSize - sz }

/-- `ringbuffer_write`. -/
def writeBytes (rb : RingBuffer) (data : List UInt8) (fresh : Memory UInt8) : RingBuffer :=
  if rb.freeSize ≤ data.length then put (realloc rb (rb.size + data.length) fresh) data
  else put rb data

/-- `ringbuffer_peek`: the chunks it returns. -/
def peek (rb : RingBuffer) (sz : ℕ) : List (List UInt8) :=
  if sz < 1 then []
  else
    let remaining := if used rb < sz then used rb else sz
    let toRead := if rb.readPtr + remaining > rb.size then rb.size - rb.readPtr else remaining
    (if toRead ≠ 0 then [read rb.buffer rb.readPtr toRead] else []) ++
      (if remaining - toRead ≠ 0 then [read rb.buffer 0 (remaining - toRead)] else [])

def commitReadBytes (rb : RingBuffer) (sz : ℕ) (fresh : Memory UInt8) : RingBuffer :=
  if sz < 1 then rb
  else
    let rb := { rb with readPtr := (rb.readPtr + sz) % rb.size, freeSize := rb.freeSize + sz }
    if rb.size ≠ rb.initialSize ∧ used rb < rb.initialSize / 2 then realloc rb rb.initialSize fresh
    else rb

/-! ## The invariant -/

/-- The heads are inside the buffer, the write head is behind what is stored, and a byte is free. -/
structure Inv (rb : RingBuffer) : Prop where
  initial_pos : 0 < rb.initialSize
  free_pos : 0 < rb.freeSize
  free_le : rb.freeSize ≤ rb.size
  read_lt : rb.readPtr < rb.size
  write_eq : rb.writePtr = (rb.readPtr + used rb) % rb.size

def stored (rb : RingBuffer) : List UInt8 := cells rb.buffer rb.size rb.readPtr (used rb)

@[simp] theorem length_stored (rb) : (stored rb).length = used rb := length_cells _ _ _ _

theorem inv_init {initialSize} (h : 0 < initialSize) (fresh) : Inv (init initialSize fresh) := by
  refine ⟨h, h, Nat.le_refl _, h, ?_⟩
  simp [init, used]

theorem stored_init (initialSize fresh) : stored (init initialSize fresh) = [] := by
  simp [stored, init, used]

variable {rb : RingBuffer}

theorem Inv.used_lt (h : Inv rb) : used rb < rb.size := by
  have := h.free_pos
  have := h.free_le
  unfold used
  omega

theorem Inv.write_lt (h : Inv rb) : rb.writePtr < rb.size := by
  rw [h.write_eq]
  exact mod_lt _ (by have := h.read_lt; omega)

/-- Where the write head is: behind the read head, or it has wrapped. -/
theorem Inv.heads (h : Inv rb) : rb.writePtr = rb.readPtr + used rb ∨
      rb.writePtr + rb.size = rb.readPtr + used rb ∧ rb.writePtr < rb.readPtr := by
  have hr := h.read_lt
  have hu := h.used_lt
  have hw := h.write_eq
  by_cases hwrap : rb.readPtr + used rb < rb.size
  · left
    rw [hw, mod_eq_of_lt hwrap]
  rw [mod_eq_sub_mod (by omega), mod_eq_of_lt (by omega)] at hw
  omega

/-- **The heads meet exactly when the buffer is empty.** -/
theorem Inv.heads_eq_iff (h : Inv rb) : rb.readPtr = rb.writePtr ↔ stored rb = [] := by
  have hr := h.read_lt
  rw [← length_eq_zero_iff, length_stored]
  rcases h.heads with hh | ⟨hh, hlt⟩
  · omega
  · omega

/-! ## Reallocation -/

/-- What is stored behind the read head, in the order of the cells. -/
theorem Inv.stored_eq (h : Inv rb) : stored rb =
      if rb.readPtr ≤ rb.writePtr then read rb.buffer rb.readPtr (used rb)
      else read rb.buffer rb.readPtr (rb.size - rb.readPtr) ++ read rb.buffer 0 rb.writePtr := by
  have hr := h.read_lt
  unfold stored
  rcases h.heads with hh | ⟨hh, hlt⟩
  · have hw := h.write_lt
    rw [if_pos (by omega), cells_eq_read _ (by omega)]
  rw [if_neg (by omega), show used rb = (rb.size - rb.readPtr) + rb.writePtr by omega, cells_add,
    cells_eq_read _ (by omega), ← cells_mod _ _ (_ + _),
    show rb.readPtr + (rb.size - rb.readPtr) = rb.size by omega, mod_self,
    cells_eq_read _ (by omega)]

/-- A realloc of the standard library keeps the bytes of a stretch that is in both blocks. -/
theorem read_resized (fresh) (hsize : i + n ≤ rb.size) (htarget : i + n ≤ targetSize) :
    read (resized rb targetSize fresh) i n = read rb.buffer i n := by
  apply read_congr
  intro j _ hj
  exact if_pos ⟨by omega, by omega⟩

/-- Where the heads are in the new block, and what is behind the read head. -/
theorem Inv.laid (h : Inv rb) (hfit : used rb < targetSize) (fresh) :
    let laid := relaid rb targetSize fresh
    laid.writePtr = laid.readPtr + used rb ∧ laid.writePtr < targetSize ∧
      laid.initialSize = rb.initialSize ∧ read laid.buffer laid.readPtr (used rb) = stored rb := by
  have hstored := h.stored_eq
  unfold relaid
  by_cases hempty : rb.writePtr = rb.readPtr
  · have hnil := h.heads_eq_iff.mp hempty.symm
    have hzero : used rb = 0 := by rw [← length_stored, hnil, length_nil]
    rw [if_pos hempty, hnil, hzero]
    exact ⟨rfl, by simp only; omega, rfl, rfl⟩
  rw [if_neg hempty]
  by_cases hstay : rb.writePtr ≥ rb.readPtr ∧ rb.writePtr < targetSize
  · have hw := h.write_lt
    rw [if_pos hstay]
    rw [if_pos hstay.1] at hstored
    rcases h.heads with hh | ⟨-, hlt⟩
    · refine ⟨hh, hstay.2, rfl, ?_⟩
      simp only
      rw [hstored]
      exact read_resized fresh (by omega) (by omega)
    · omega
  rw [if_neg hstay]
  refine ⟨(Nat.zero_add _).symm, hfit, rfl, ?_⟩
  by_cases hlin : rb.readPtr < rb.writePtr
  · rw [if_pos hlin, hstored, if_pos (by omega)]
    have := read_write (read rb.buffer rb.readPtr (used rb)) fresh 0
    rwa [length_read] at this
  rcases h.heads with hh | ⟨hh, hlt⟩
  · omega
  rw [if_neg (by omega)] at hstored
  generalize hfirst : read rb.buffer rb.readPtr (rb.size - rb.readPtr) = first at hstored ⊢
  have hlength : first.length = rb.size - rb.readPtr := by rw [← hfirst, length_read]
  have hall : write fresh 0 (first ++ read rb.buffer 0 rb.writePtr) =
      if rb.writePtr ≠ 0 then
        write (write fresh 0 first) (rb.size - rb.readPtr) (read rb.buffer 0 rb.writePtr)
      else write fresh 0 first := by
    rw [write_append, hlength, Nat.zero_add]
    split_ifs with h0
    · rfl
    · rw [not_not.mp h0]
      rfl
  rw [if_neg hlin, ← hall, ← hstored, show used rb = (stored rb).length from
    (length_stored rb).symm]
  exact read_write (stored rb) fresh 0

/-- **Reallocation** keeps what is stored, in a buffer of the new size. -/
theorem Inv.realloc (h : Inv rb) (targetSize : ℕ) (hfit : used rb < targetSize)
    (fresh : Memory UInt8) :
    Inv (RingBuffer.realloc rb targetSize fresh) ∧
      stored (RingBuffer.realloc rb targetSize fresh) = stored rb ∧
      (RingBuffer.realloc rb targetSize fresh).size = targetSize ∧
      used (RingBuffer.realloc rb targetSize fresh) = used rb := by
  obtain ⟨hw, hwlt, hinit, hread⟩ := h.laid hfit fresh
  have hfree := h.free_le
  have hdef : used rb = rb.size - rb.freeSize := rfl
  have hfree' : (RingBuffer.realloc rb targetSize fresh).freeSize = targetSize - used rb := by
    change rb.freeSize + targetSize - rb.size = _
    omega
  have hused : used (RingBuffer.realloc rb targetSize fresh) = used rb := by
    change targetSize - (rb.freeSize + targetSize - rb.size) = _
    omega
  refine ⟨⟨hinit.symm ▸ h.initial_pos, by omega, hfree' ▸ sub_le _ _,
    Nat.lt_of_le_of_lt (hw ▸ le_add_right _ _) hwlt, ?_⟩, ?_, rfl, hused⟩
  · rw [hused]
    exact hw.trans (mod_eq_of_lt (hw ▸ hwlt)).symm
  · rw [← hread, stored, hused]
    exact cells_eq_read _ (hw ▸ Nat.le_of_lt hwlt)

/-! ## Operations -/

theorem Inv.put (h : Inv rb) (hroom : data.length < rb.freeSize) :
    Inv (put rb data) ∧ stored (RingBuffer.put rb data) = stored rb ++ data := by
  have hr := h.read_lt
  have hw := h.write_lt
  have hfree := h.free_le
  have hdef : used rb = rb.size - rb.freeSize := rfl
  have hused : used (RingBuffer.put rb data) = used rb + data.length := by
    change rb.size - (rb.freeSize - data.length) = _
    omega
  constructor
  · refine ⟨h.initial_pos, ?_, ?_, hr, ?_⟩
    · change 0 < rb.freeSize - data.length
      omega
    · change rb.freeSize - data.length ≤ rb.size
      omega
    rw [hused]
    change (rb.writePtr + data.length) % rb.size = (rb.readPtr + (used rb + data.length)) % rb.size
    rw [h.write_eq, mod_add_mod, Nat.add_assoc]
  unfold stored
  rw [hused]
  simp only [RingBuffer.put]
  obtain ⟨n, hn⟩ : ∃ n, n = if rb.size - rb.writePtr < data.length then rb.size - rb.writePtr
      else data.length := ⟨_, rfl⟩
  rw [← hn]
  have hle : n ≤ data.length ∧ rb.writePtr + n ≤ rb.size := by
    rw [hn]
    split_ifs <;> omega
  have htake : (data.take n).length = n := length_take_of_le hle.1
  have hfirst := cells_write rb.buffer (data.take n) h.write_eq (by omega) (by omega)
  rw [htake] at hfirst
  by_cases hone : n = data.length
  · rw [drop_eq_nil_of_le (by omega), write_nil, ← hone, hfirst, hone, take_length]
  -- the first part has reached the end of the buffer
  have hend : rb.writePtr + n = rb.size := by
    rw [hn] at hone ⊢
    split_ifs at hone ⊢ <;> omega
  have hzero : 0 = (rb.readPtr + (used rb + n)) % rb.size := by
    rw [← Nat.add_assoc, ← mod_add_mod, ← h.write_eq, hend, mod_self]
  have hdrop : (data.drop n).length = data.length - n := length_drop
  have hsecond := cells_write (write rb.buffer rb.writePtr (data.take n)) (data.drop n) hzero
    (by omega) (by omega)
  rw [hdrop, hfirst, append_assoc, take_append_drop,
    show used rb + n + (data.length - n) = used rb + data.length by omega] at hsecond
  exact hsecond

/-- **Writing appends.** -/
theorem Inv.writeBytes (h : Inv rb) (data : List UInt8) (fresh : Memory UInt8) :
    Inv (writeBytes rb data fresh) ∧
      stored (RingBuffer.writeBytes rb data fresh) = stored rb ++ data := by
  have hu := h.used_lt
  unfold RingBuffer.writeBytes
  split_ifs with hfull
  · obtain ⟨hinv, hstored, hsize, hused⟩ := h.realloc (rb.size + data.length)
      (by omega) fresh
    rw [used] at hused
    rw [← hstored]
    exact hinv.put (by omega)
  · exact h.put (by omega)

theorem take_stored (rb) (hn : n ≤ used rb) :
    (stored rb).take n = cells rb.buffer rb.size rb.readPtr n := by
  unfold stored
  rw [← Nat.add_sub_cancel' hn, cells_add]
  exact take_left' (length_cells _ _ _ _)

/-- **Peeking** returns the first bytes in two chunks at most. -/
theorem Inv.peek (h : Inv rb) (sz : ℕ) :
    (peek rb sz).length ≤ 2 ∧ (RingBuffer.peek rb sz).flatten = (stored rb).take sz := by
  have hr := h.read_lt
  have hu := h.used_lt
  unfold RingBuffer.peek
  by_cases hsz : sz < 1
  · rw [show sz = 0 by omega]
    exact ⟨by simp, rfl⟩
  rw [if_neg hsz]
  simp only
  obtain ⟨n, hn⟩ : ∃ n, n = if used rb < sz then used rb else sz := ⟨_, rfl⟩
  have hle : n ≤ used rb := by
    rw [hn]
    split_ifs <;> omega
  have htake : (stored rb).take sz = (stored rb).take n := by
    rw [hn]
    split_ifs with hlt
    · rw [take_of_length_le (by rw [length_stored]; omega),
        take_of_length_le (Nat.le_of_eq (length_stored rb))]
    · rfl
  rw [htake, take_stored rb hle, ← hn]
  by_cases hwrap : rb.readPtr + n > rb.size
  · rw [if_pos hwrap, if_pos (by omega), if_pos (by omega)]
    refine ⟨Nat.le_refl 2, ?_⟩
    rw [show cells rb.buffer rb.size rb.readPtr n =
      cells rb.buffer rb.size rb.readPtr ((rb.size - rb.readPtr) + (n - (rb.size - rb.readPtr))) by
        rw [Nat.add_sub_cancel' (by omega)], cells_add, cells_eq_read _ (by omega),
      ← cells_mod _ _ (_ + _), show rb.readPtr + (rb.size - rb.readPtr) = rb.size by omega,
      mod_self, cells_eq_read _ (by omega)]
    simp
  · rw [if_neg hwrap, cells_eq_read _ (by omega)]
    by_cases hzero : n = 0
    · rw [hzero]
      exact ⟨by simp, rfl⟩
    · rw [if_pos hzero]
      exact ⟨by simp, by simp⟩

/-- **Committing** drops the first bytes. -/
theorem Inv.commitReadBytes (h : Inv rb) (hsz : sz ≤ used rb) (fresh : Memory UInt8) :
    Inv (commitReadBytes rb sz fresh) ∧
      stored (RingBuffer.commitReadBytes rb sz fresh) = (stored rb).drop sz := by
  unfold RingBuffer.commitReadBytes
  by_cases hpos : sz < 1
  · rw [show sz = 0 by omega]
    exact ⟨h, rfl⟩
  simp only
  have hdef : used rb = rb.size - rb.freeSize := rfl
  have hused : used { rb with
      readPtr := (rb.readPtr + sz) % rb.size, freeSize := rb.freeSize + sz } = used rb - sz := by
    change rb.size - (rb.freeSize + sz) = _
    omega
  have hstored : stored { rb with
      readPtr := (rb.readPtr + sz) % rb.size, freeSize := rb.freeSize + sz } =
      (stored rb).drop sz := by
    unfold stored
    rw [hused]
    conv_rhs => rw [← Nat.add_sub_cancel' hsz, cells_add, drop_left' (length_cells _ _ _ _)]
    rw [cells_mod]
  have hinv : Inv { rb with
      readPtr := (rb.readPtr + sz) % rb.size, freeSize := rb.freeSize + sz } := by
    refine ⟨h.initial_pos, ?_, ?_, mod_lt _ (by omega), ?_⟩
    · simp only
      omega
    · simp only
      omega
    rw [hused]
    rw [h.write_eq, mod_add_mod]
    congr 1
    omega
  split_ifs with hshrink
  · obtain ⟨hinv', hstored', -, -⟩ := hinv.realloc rb.initialSize
      (by omega) fresh
    exact ⟨hinv', hstored'.trans hstored⟩
  · exact ⟨hinv, hstored⟩

/-! ## Runs -/

/-- What is done to a ring buffer. -/
inductive Op where
  | write (data : List UInt8)
  | peek (sz : ℕ)
  | commit (sz : ℕ)

/-- A buffer with what was written to it and what was committed of the bytes that were peeked. -/
structure Trace where
  rb : RingBuffer
  written : List UInt8
  committed : List UInt8

/-- One operation. -/
def step (t : Trace) (op : Op) (fresh : Memory UInt8) : Trace :=
  match op with
  | .write data => { t with rb := writeBytes t.rb data fresh, written := t.written ++ data }
  | .peek _ => t
  | .commit sz =>
    { t with
      rb := commitReadBytes t.rb sz fresh
      committed := t.committed ++ (peek t.rb sz).flatten }

/-- Operations one after the other, each with the contents of the memory it may allocate. -/
def run : List (Op × Memory UInt8) → Trace → Trace
  | [], t => t
  | (op, fresh) :: ops, t => run ops (step t op fresh)

/-- No more than what is stored is committed. -/
def Permitted : List (Op × Memory UInt8) → Trace → Prop
  | [], _ => True
  | (op, fresh) :: ops, t =>
      (∀ sz, op = .commit sz → sz ≤ used t.rb) ∧ Permitted ops (step t op fresh)

/-- The invariant of a run. -/
structure Fifo (t : Trace) : Prop where
  inv : Inv t.rb
  order : t.committed ++ stored t.rb = t.written

/-- **Step lemma.** -/
theorem Fifo.step (h : Fifo t) (hop : ∀ sz, op = .commit sz → sz ≤ used t.rb)
    (fresh : Memory UInt8) : Fifo (step t op fresh) := by
  cases op with
  | write data =>
    obtain ⟨hinv, hstored⟩ := h.inv.writeBytes data fresh
    refine ⟨hinv, ?_⟩
    simp only [RingBuffer.step]
    rw [hstored, ← append_assoc, h.order]
  | peek sz => exact h
  | commit sz =>
  obtain ⟨hinv, hstored⟩ := h.inv.commitReadBytes (hop sz rfl) fresh
  refine ⟨hinv, ?_⟩
  simp only [RingBuffer.step]
  rw [hstored, (h.inv.peek sz).2, append_assoc, take_append_drop, h.order]

/-- **Run lemma.** -/
theorem Fifo.run (ops : List (Op × Memory UInt8)) : ∀ {t}, Fifo t → Permitted ops t →
    Fifo (run ops t) := by
  induction ops with
  | nil => intro t h _; exact h
  | cons op ops ih =>
  intro t h hp
  obtain ⟨op, fresh⟩ := op
  exact ih (h.step hp.1 fresh) hp.2

/-- **The ring buffer is a queue.** After any operations on a new buffer what was committed and what
is stored is what was written; `ringbuffer_used` is the number of stored bytes, a peek returns the
first of them in two chunks at most, a byte is always free, and the heads meet exactly when nothing
is stored. -/
theorem ringbuffer_fifo (initialSize : ℕ) (hsize : 1 ≤ initialSize) (fresh : Memory UInt8)
    (ops : List (Op × Memory UInt8)) (hops : Permitted ops ⟨init initialSize fresh, [], []⟩) :
    let t := run ops ⟨init initialSize fresh, [], []⟩
    t.committed ++ stored t.rb = t.written ∧ used t.rb = (stored t.rb).length ∧
      (∀ sz, (peek t.rb sz).length ≤ 2 ∧
        (peek t.rb sz).flatten = (stored t.rb).take (min sz (used t.rb))) ∧
      used t.rb + 1 ≤ t.rb.size ∧
      (t.rb.readPtr = t.rb.writePtr ↔ stored t.rb = []) := by
  have hstart : Fifo ⟨init initialSize fresh, [], []⟩ :=
    ⟨inv_init hsize fresh, by rw [nil_append, stored_init]⟩
  obtain ⟨hinv, horder⟩ := hstart.run ops hops
  refine ⟨horder, (length_stored _).symm, fun sz => ?_, hinv.used_lt, hinv.heads_eq_iff⟩
  obtain ⟨htwo, hflat⟩ := hinv.peek sz
  refine ⟨htwo, ?_⟩
  rw [hflat, ← length_stored, ← take_take, take_length]

/-- A write that makes a buffer of two bytes grow, and a commit that takes it back. -/
theorem ringbuffer_fifo_grow :
    let ops : List (Op × Memory UInt8) := [(.write [1, 2, 3], fill 0), (.peek 2, fill 0),
      (.commit 3, fill 0)]
    Permitted ops ⟨init 2 (fill 0), [], []⟩ ∧
      (run ops ⟨init 2 (fill 0), [], []⟩).committed ++
      stored (run ops ⟨init 2 (fill 0), [], []⟩).rb =
        (run ops ⟨init 2 (fill 0), [], []⟩).written := by
  intro ops
  have hops : Permitted ops ⟨init 2 (fill 0), [], []⟩ := by
    refine ⟨fun sz h => (by cases h), fun sz h => (by cases h), fun sz h => ?_, trivial⟩
    cases h
    decide
  exact ⟨hops, (ringbuffer_fifo 2 (by decide) (fill 0) ops hops).1⟩

/-! ## Linear writes -/

/-- The heads of an empty buffer are put to its front. -/
def rewound (rb : RingBuffer) : RingBuffer :=
  if rb.writePtr = rb.readPtr then { rb with writePtr := 0, readPtr := 0 } else rb

/-- `ringbuffer_ensure_linear_write`, which returns a pointer to the write head. -/
def ensureLinearWrite (rb : RingBuffer) (sz : ℕ) (fresh : Memory UInt8) : RingBuffer :=
  let rb := rewound
    (if rb.freeSize < sz then realloc rb (rb.size + sz - rb.freeSize + 32) fresh else rb)
  if rb.writePtr + sz < rb.size then rb
  else
    { rb with
      buffer := write rb.buffer 0 (read rb.buffer rb.readPtr (rb.writePtr - rb.readPtr))
      readPtr := 0
      writePtr := rb.size - rb.freeSize }

def commitWrittenBytes (rb : RingBuffer) (sz : ℕ) : Bool × RingBuffer :=
  if sz < 1 then (true, rb)
  else if rb.writePtr + sz > rb.size then (false, rb)
  else (true, { rb with writePtr := (rb.writePtr + sz) % rb.size, freeSize := rb.freeSize - sz })

/-- A linear write for `sz` bytes of which the bytes `data` are stored and committed. -/
def linearWrite (rb : RingBuffer) (sz : ℕ) (data : List UInt8) (fresh : Memory UInt8) :
    RingBuffer :=
  let rb := ensureLinearWrite rb sz fresh
  (commitWrittenBytes { rb with buffer := write rb.buffer rb.writePtr data } data.length).2

theorem commitWrittenBytes_eq_put (h : Inv rb) (hroom : rb.writePtr + data.length ≤ rb.size) :
    (commitWrittenBytes { rb with buffer := write rb.buffer rb.writePtr data } data.length).2 =
      put rb data := by
  simp only [put]
  rw [if_neg (by omega), take_length, drop_length, commitWrittenBytes]
  split_ifs with hnone hover
  · rw [length_eq_zero_iff.mp (Nat.lt_one_iff.mp hnone), length_nil, Nat.add_zero,
      mod_eq_of_lt h.write_lt]
    rfl
  · exact absurd hover (Nat.not_lt.mpr hroom)
  · rfl

theorem Inv.rewound (h : Inv rb) : Inv (rewound rb) ∧ stored (RingBuffer.rewound rb) = stored rb ∧
      (RingBuffer.rewound rb).freeSize = rb.freeSize := by
  unfold RingBuffer.rewound
  split_ifs with hempty
  swap
  · exact ⟨h, rfl, rfl⟩
  have hnil := h.heads_eq_iff.mp hempty.symm
  have hused : used rb = 0 := by rw [← length_stored, hnil, length_nil]
  refine ⟨⟨h.initial_pos, h.free_pos, h.free_le, Nat.lt_of_le_of_lt (zero_le _) h.read_lt, ?_⟩,
    ?_, rfl⟩
  · change 0 = (0 + used rb) % rb.size
    rw [hused, zero_mod]
  · rw [hnil]
    exact length_eq_zero_iff.mp ((length_stored _).trans hused)

/-- **The bytes that are stored stay**, and there is room behind them. -/
theorem Inv.ensureLinearWrite (h : Inv rb) (sz : ℕ) (fresh : Memory UInt8) :
    let rb' := ensureLinearWrite rb sz fresh
    Inv rb' ∧ stored rb' = stored rb ∧ rb'.writePtr + sz ≤ rb'.size ∧
      rb'.freeSize = if rb.freeSize < sz then sz + 32 else rb.freeSize := by
  unfold RingBuffer.ensureLinearWrite
  obtain ⟨hinv, hstored, hfree⟩ :
      let grown := if rb.freeSize < sz then
        RingBuffer.realloc rb (rb.size + sz - rb.freeSize + 32) fresh else rb
      Inv grown ∧ stored grown = stored rb ∧
        grown.freeSize = if rb.freeSize < sz then sz + 32 else rb.freeSize := by
    have hlt := h.used_lt
    split_ifs with hsmall
    · obtain ⟨hinv, hstored, -, -⟩ := h.realloc (rb.size + sz - rb.freeSize + 32) (by omega) fresh
      refine ⟨hinv, hstored, ?_⟩
      change rb.freeSize + (rb.size + sz - rb.freeSize + 32) - rb.size = sz + 32
      omega
    · exact ⟨h, rfl, rfl⟩
  obtain ⟨h', hstored', hfree'⟩ := hinv.rewound
  rw [← hstored, ← hstored', ← hfree, ← hfree']
  have hsz : sz ≤ (if rb.freeSize < sz then sz + 32 else rb.freeSize) := by
    split_ifs <;> omega
  rw [← hfree, ← hfree'] at hsz
  generalize RingBuffer.rewound _ = wound at h' hsz ⊢
  have hused : used wound = wound.size - wound.freeSize := rfl
  have hlt := h'.used_lt
  have hread := h'.read_lt
  simp only
  split_ifs with hlin
  · exact ⟨h', rfl, Nat.le_of_lt hlin, rfl⟩
  have hle := h'.free_le
  -- the bytes do not wrap, or the room would be in front of them
  obtain hh : wound.writePtr = wound.readPtr + used wound := h'.heads.resolve_right (by omega)
  refine ⟨⟨h'.initial_pos, h'.free_pos, hle, by simp only; omega, ?_⟩, ?_, by simp only; omega, rfl⟩
  · change used wound = (0 + used wound) % wound.size
    rw [Nat.zero_add, mod_eq_of_lt hlt]
  have hall := read_write (read wound.buffer wound.readPtr (used wound)) wound.buffer 0
  rw [length_read] at hall
  rw [h'.stored_eq, if_pos (by omega), ← hall, hh, Nat.add_sub_cancel_left]
  exact cells_eq_read _ (by rw [Nat.zero_add]; exact Nat.le_of_lt hlt)

/-- A call, or a linear write. -/
inductive LinearOp where
  | op (op : Op)
  | linear (sz : ℕ) (data : List UInt8)

def linearStep (t : Trace) : LinearOp × Memory UInt8 → Trace
  | (.op op, fresh) => step t op fresh
  | (.linear sz data, fresh) =>
    { t with rb := linearWrite t.rb sz data fresh, written := t.written ++ data }

/-- No more is committed than there is, and a linear write leaves a byte free. -/
def LinearPermitted : List (LinearOp × Memory UInt8) → Trace → Prop
  | [], _ => True
  | op :: ops, t => (match op.1 with
      | .op op => ∀ sz, op = .commit sz → sz ≤ used t.rb
      | .linear sz data => data.length ≤ sz ∧ (sz ≤ t.rb.freeSize → data.length < t.rb.freeSize)) ∧
    LinearPermitted ops (linearStep t op)

/-- **Linear writes lose nothing** as long as each leaves a byte free: what was committed and what
is stored is what was written. -/
theorem linear_writes_keep (initialSize : ℕ) (hsize : 1 ≤ initialSize) (fresh : Memory UInt8)
    (ops : List (LinearOp × Memory UInt8))
    (hops : LinearPermitted ops ⟨init initialSize fresh, [], []⟩) :
    Fifo (ops.foldl linearStep ⟨init initialSize fresh, [], []⟩) := by
  have hrun : ∀ ops t, Fifo t → LinearPermitted ops t → Fifo (ops.foldl linearStep t) := by
    intro ops
    induction ops with
    | nil => exact fun _ h _ => h
    | cons op ops ih =>
    rintro t h ⟨hop, hops⟩
    refine ih _ ?_ hops
    obtain ⟨op | ⟨sz, data⟩, fresh⟩ := op
    · exact h.step hop fresh
    obtain ⟨hinv, hstored, hroom, hfree⟩ := h.inv.ensureLinearWrite sz fresh
    have hput := @Inv.put _ data hinv (by rw [hfree]; split_ifs <;> omega)
    rw [← commitWrittenBytes_eq_put hinv (by omega), hstored] at hput
    refine ⟨hput.1, ?_⟩
    rw [linearStep, ← h.order, append_assoc, ← hput.2]
    rfl
  exact hrun ops _ ⟨inv_init hsize fresh, stored_init _ _⟩ hops

/-- A linear write of two bytes into a buffer of three. -/
theorem linear_writes_keep_two :
    Fifo ([(.linear 2 [1, 2], fill 0), (.op (.write [3]), fill 0)].foldl
    linearStep ⟨init 3 (fill 0), [], []⟩) :=
  linear_writes_keep 3 (by decide) _ _ ⟨by decide, nofun, trivial⟩

/-- A linear write that fills the buffer: the next write takes it for an empty one. -/
theorem full_buffer_loses : ¬ Fifo ([(.linear 2 [1, 2], fill 0), (.op (.write [3]), fill 0)].foldl
    linearStep ⟨init 2 (fill 0), [], []⟩) := fun h => absurd h.order (by decide)

end RingBuffer

end WBFreeRDP

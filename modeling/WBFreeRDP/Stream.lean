/-
# The byte stream of the runtime library

`wStream` is the buffer every part of the library reads from and writes to: an allocated
block of bytes, a position inside it and the length of its valid part.  Only what the
receive path and the framing of a message use is here.
-/
import Mathlib.Data.BitVec

namespace WBFreeRDP

open List

/-- The largest `int`. -/
def intMax : ℕ := 2 ^ 31 - 1

/-- The largest `SSIZE_T`. -/
def ssizeMax : ℕ := 2 ^ 63 - 1

/-- The largest `size_t`. -/
def sizeMax : ℕ := 2 ^ 64 - 1

/-- A `wStream`: the allocated bytes (their number is the capacity), the position of the
pointer and the length.  The pointer never leaves the allocated block. -/
structure WStream where
  buffer : List UInt8
  position : ℕ
  length : ℕ
  position_le : position ≤ buffer.length

namespace WStream

/-- `Stream_Capacity`. -/
def capacity (s : WStream) : ℕ := s.buffer.length

/-- The bytes before the position: what has been received so far. -/
def filled (s : WStream) : List UInt8 := s.buffer.take s.position

/-- `Stream_SealLength`: the valid part ends at the position. -/
def sealLength (s : WStream) : WStream := { s with length := s.position }

/-- `Stream_ResetPosition`: the pointer goes back to the start of the buffer. -/
def resetPosition (s : WStream) : WStream := { s with position := 0, position_le := Nat.zero_le _ }

/-- `Stream_EnsureCapacity`: grow the block to a multiple of 128 above `size`; the new bytes
are zero, and the length becomes the new capacity. -/
def ensureCapacity (s : WStream) (size : ℕ) : Option WStream :=
  if s.capacity ≥ size then some s
  else if size > sizeMax - 128 then none
  else
    let newCapacity := size + 128 - size % 128
    some { buffer := s.buffer ++ List.replicate (newCapacity - s.capacity) 0
           position := s.position
           length := newCapacity
           position_le := by
             rw [length_append]
             exact Nat.le_add_right_of_le s.position_le }

/-- `Stream_EnsureRemainingCapacity`: room for `size` more bytes after the position. -/
def ensureRemainingCapacity (s : WStream) (size : ℕ) : Option WStream :=
  if s.position > sizeMax - size then none
  else if s.position + size > s.capacity then s.ensureCapacity (s.capacity + size)
  else some s

/-- `Stream_Seek`: the pointer moves on inside of the block; `none` for the assertion. -/
def seek (s : WStream) (offset : ℕ) : Option WStream :=
  if h : s.position + offset ≤ s.buffer.length then
    some { s with position := s.position + offset, position_le := h }
  else none

/-- `Stream_SetPosition`; `none` for `FALSE`. -/
def setPosition (s : WStream) (position : ℕ) : Option WStream :=
  if h : position ≤ s.buffer.length then some { s with position := position, position_le := h }
  else none

/-- Store bytes at the pointer and advance it, as a read into `Stream_Pointer` followed by
`Stream_Seek` does. -/
def append (s : WStream) (data : List UInt8) : WStream where
  buffer := s.buffer.take s.position ++ data ++ s.buffer.drop (s.position + data.length)
  position := s.position + data.length
  length := s.length
  position_le := by
    have h := s.position_le
    simp only [length_append, length_take, length_drop]
    omega

variable (s : WStream)

@[simp] theorem sealLength_position : s.sealLength.position = s.position := rfl
@[simp] theorem sealLength_length (s : WStream) : s.sealLength.length = s.position := rfl
@[simp] theorem sealLength_buffer (s : WStream) : s.sealLength.buffer = s.buffer := rfl
@[simp] theorem sealLength_filled (s : WStream) : s.sealLength.filled = s.filled := rfl
@[simp] theorem resetPosition_position (s : WStream) : s.resetPosition.position = 0 := rfl
@[simp] theorem resetPosition_length (s : WStream) : s.resetPosition.length = s.length := rfl
@[simp] theorem resetPosition_buffer (s : WStream) : s.resetPosition.buffer = s.buffer := rfl

@[simp] theorem filled_length : s.filled.length = s.position := by
  simp [filled, s.position_le]

@[simp] theorem append_filled (data) : (s.append data).filled = s.filled ++ data := by
  have h : (s.filled ++ data).length = s.position + data.length := by simp
  simp only [append, filled] at h ⊢
  rw [← h, take_left]

/-- Growing never fails for a size far below the address space, and keeps the received part. -/
theorem ensureCapacity_spec (size) (h : size ≤ sizeMax - 128) :
    ∃ s', s.ensureCapacity size = some s' ∧ s'.filled = s.filled ∧ s'.position = s.position := by
  unfold ensureCapacity
  by_cases hc : s.capacity ≥ size
  · exact ⟨s, if_pos hc, rfl, rfl⟩
  rw [if_neg hc, if_neg (by omega)]
  refine ⟨_, rfl, ?_, rfl⟩
  simp only [filled]
  rw [take_append_of_le_length s.position_le]

/-- Making room after the position never fails while little has been received, and keeps the
received part. -/
theorem ensureRemainingCapacity_spec (size) (h : s.position + 2 * size ≤ sizeMax - 128) :
    ∃ s', s.ensureRemainingCapacity size = some s' ∧ s'.filled = s.filled ∧
      s'.position = s.position := by
  unfold ensureRemainingCapacity
  rw [if_neg (by omega)]
  by_cases hc : s.position + size > s.capacity
  · rw [if_pos hc]
    exact s.ensureCapacity_spec _ (by omega)
  · exact ⟨s, if_neg hc, rfl, rfl⟩

theorem ensureRemainingCapacity_room {s s' : WStream} {size}
    (h : s.ensureRemainingCapacity size = some s') : s'.position + size ≤ s'.buffer.length := by
  have hle := s.position_le
  unfold ensureRemainingCapacity at h
  split at h
  · cases h
  split at h
  swap
  · cases h
    simp only [capacity] at *
    omega
  unfold ensureCapacity at h
  split at h
  · cases h
    omega
  split at h
  · cases h
  cases h
  simp only [length_append, length_replicate] at *
  omega

theorem le_append_length (data) : s.buffer.length ≤ (s.append data).buffer.length := by
  simp only [append, length_append, length_take, length_drop]
  omega

theorem seek_spec (h : s.position + offset ≤ s.buffer.length) :
    ∃ s', s.seek offset = some s' ∧ s'.buffer = s.buffer ∧ s'.position = s.position + offset ∧
      ∃ hole : List UInt8, hole.length = offset ∧ s'.filled = s.filled ++ hole := by
  refine ⟨_, dif_pos h, rfl, rfl, (s.buffer.drop s.position).take offset, ?_, ?_⟩
  · rw [length_take, length_drop]
    omega
  · exact take_add

/-- **Bytes in front of the position are filled in**, and the position comes back. -/
theorem patch_spec {head hole tail : List UInt8} (data : List UInt8)
    (hfilled : s.filled = head ++ hole ++ tail) (hlength : hole.length = data.length) :
    ∃ s1 s2, s.setPosition head.length = some s1 ∧
      (s1.append data).setPosition s.position = some s2 ∧ (s1.append data).length = s.length ∧
        s2.filled = head ++ data ++ tail ∧ s2.position = s.position := by
  have hle := s.position_le
  have hposition : s.position = head.length + hole.length + tail.length := by
    rw [← s.filled_length, hfilled, length_append, length_append]
  have hhead : head.length ≤ s.buffer.length := by omega
  have hbuffer : s.buffer = head ++ hole ++ tail ++ s.buffer.drop s.position := by
    rw [← hfilled]
    exact (take_append_drop _ _).symm
  have hpatched : s.buffer.take head.length ++ data ++ s.buffer.drop (head.length + data.length) =
      head ++ data ++ tail ++ s.buffer.drop s.position := by
    have htake : s.buffer.take head.length = head := by
      rw [hbuffer, append_assoc, append_assoc, take_left' rfl]
    have hdrop : s.buffer.drop (head.length + data.length) = tail ++ s.buffer.drop s.position := by
      conv_lhs => rw [hbuffer, append_assoc, drop_left' (by rw [length_append, hlength])]
    rw [htake, hdrop, append_assoc, append_assoc, append_assoc]
  have hfits : s.position ≤ (s.buffer.take head.length ++ data ++
      s.buffer.drop (head.length + data.length)).length := by
    rw [hpatched]
    simp only [length_append]
    omega
  refine ⟨_, _, dif_pos hhead, dif_pos hfits, rfl, ?_, rfl⟩
  change (s.buffer.take head.length ++ data ++ s.buffer.drop (head.length + data.length)).take
    s.position = _
  rw [hpatched, take_left' (by simp only [length_append]; omega)]

end WStream

end WBFreeRDP

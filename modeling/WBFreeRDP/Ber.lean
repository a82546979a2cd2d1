/-
# Integers in BER

The writers and readers of `ber.c` for integers, on streams with enough room.
-/
import WBFreeRDP.RdpHeaders

namespace WBFreeRDP

open List

/-- `WINPR_ASSERTING_INT_CAST` of an unsigned value to `w` bits; none for a failing assertion. -/
def assertingIntCast (w var : ℕ) : Option ℕ :=
  let cast := var % 2 ^ w
  if var = cast ∧ (var > 0 ∧ cast > 0 ∨ var ≤ 0 ∧ cast ≤ 0) then some cast else none

theorem assertingIntCast_eq (w var) :
    assertingIntCast w var = if var < 2 ^ w then some var else none := by
  unfold assertingIntCast
  by_cases h : var < 2 ^ w
  · rw [Nat.mod_eq_of_lt h, if_pos h]
    exact if_pos ⟨rfl, by omega⟩
  rw [if_neg h]
  exact if_neg fun hc => by omega

namespace Ber

/-- The first byte of a tag: `BER_CLASS_*`, `BER_PC` and the number under `BER_TAG_MASK`. -/
def tagByte (cls : UInt8) (pc : Bool) (tag : UInt8) : UInt8 :=
  cls ||| (if pc then 0x20 else 0x00) ||| (0x1F &&& tag)

/-- `BER_CLASS_UNIV`. -/
def classUniv : UInt8 := 0x00

/-- `BER_CLASS_CTXT`. -/
def classCtxt : UInt8 := 0x80

/-- `BER_TAG_INTEGER`. -/
def tagInteger : UInt8 := 0x02

/-- `ber_write_length`: the bytes, and the number that is returned. -/
def berWriteLength (length : ℕ) : Option (List UInt8 × ℕ) :=
  if length > 0xFF then
    if length ≤ 0xFFFF then some ((0x80 ^^^ 2) :: beBytes 2 length, 3) else none
  else if length > 0x7F then some ([0x80 ^^^ 1, UInt8.ofNat length], 2)
  else some ([UInt8.ofNat length], 1)

/-- `_ber_sizeof_length`. -/
def berSizeofLength (length : ℕ) : ℕ := if length > 0xFF then 3 else if length > 0x7F then 2 else 1

/-- The tag and the length in front of an integer. -/
def writeHead (length : ℕ) : Option (List UInt8) :=
  (berWriteLength length).map fun (bytes, _) => tagByte classUniv false tagInteger :: bytes

/-- `ber_write_integer`; none for a failing assertion. -/
def berWriteInteger (value : ℕ) : Option (List UInt8 × ℕ) := do
  if value < 0x80 then
    return ((← writeHead 1) ++ beBytes 1 (← assertingIntCast 8 value), 3)
  else if value < 0x8000 then
    return ((← writeHead 2) ++ beBytes 2 (← assertingIntCast 16 value), 4)
  else if value < 0x800000 then
    return ((← writeHead 3) ++ beBytes 1 (← assertingIntCast 8 (value >>> 16)) ++
      beBytes 2 (← assertingIntCast 16 value), 5)
  else if value < 0x80000000 then
    return ((← writeHead 4) ++ beBytes 4 value, 6)
  else
    return ((← writeHead 4) ++ beBytes 4 value, 6)

/-- `ber_sizeof_integer`. -/
def berSizeofInteger (value : ℕ) : ℕ :=
  if value < 0x80 then 3 else if value < 0x8000 then 4 else if value < 0x800000 then 5
  else if value < 0x80000000 then 6 else 6

def berWriteContextualTag (tag : UInt8) (length : ℕ) (pc : Bool) : Option (List UInt8 × ℕ) :=
  (berWriteLength length).map fun (bytes, n) => (tagByte classCtxt pc tag :: bytes, 1 + n)

def berWriteContextualInteger (tag : UInt8) (value : ℕ) : Option (List UInt8 × ℕ) := do
  let (head, n) ← berWriteContextualTag tag (berSizeofInteger value) true
  let (bytes, written) ← berWriteInteger value
  return (head ++ bytes, if written = 0 then 0 else berSizeofInteger value + n)

def berSizeofContextualInteger (value : ℕ) : ℕ :=
  1 + berSizeofLength (berSizeofInteger value) + berSizeofInteger value

/-- `ber_read_length`. -/
def berReadLength : Parser ℕ := do
  let byte ← Parser.u8
  if 0x80 ≤ byte then
    Parser.need (byte - 0x80)
    if byte - 0x80 = 1 then Parser.u8 else if byte - 0x80 = 2 then Parser.u16be else failure
  else return byte

/-- `ber_read_integer`. -/
def berReadInteger : Parser ℕ := do
  let byte ← Parser.u8
  Parser.check (byte = (tagByte classUniv false tagInteger).toNat)
  let length ← berReadLength
  Parser.need length
  if length = 1 then readBE 1
  else if length = 2 then readBE 2
  else if length = 3 then
    let byte ← readBE 1
    let value ← readBE 2
    return value + (byte <<< 16 &&& 0xFF0000)
  else if length = 4 then readBE 4
  else failure

theorem berWriteInteger_reads (hvalue : value < 2 ^ 32)
    (h : ¬(0x10000 ≤ value ∧ value < 0x800000)) :
    ∃ bytes, berWriteInteger value = some (bytes, berSizeofInteger value) ∧
      bytes.length = berSizeofInteger value ∧
      ∀ rest, berReadInteger (bytes ++ rest) = some (value, rest) := by
  have hread {n : ℕ} {rest : List UInt8} (hn : value < 256 ^ n) :
      (if (beBytes n value ++ rest).length < n then none else readBE n (beBytes n value ++ rest)) =
        some (value, rest) := by
    rw [if_neg (by rw [length_append, beBytes_length]; omega), readBE_beBytes hn]
  unfold berWriteInteger berSizeofInteger
  split_ifs
  · rw [assertingIntCast_eq, if_pos (by omega)]
    exact ⟨_, rfl, rfl, fun rest => hread (n := 1) (by omega)⟩
  · rw [assertingIntCast_eq, if_pos (by omega)]
    exact ⟨_, rfl, rfl, fun rest => hread (n := 2) (by omega)⟩
  · rw [show value >>> 16 = 0 by omega, assertingIntCast_eq 16,
      if_pos (by omega)]
    refine ⟨_, rfl, rfl, fun rest => ?_⟩
    change (if (beBytes 1 0 ++ (beBytes 2 value ++ rest)).length < 3 then none else
      (readBE 1 (beBytes 1 0 ++ (beBytes 2 value ++ rest))).bind fun byte =>
        (readBE 2 byte.2).bind fun low => some (low.1 + (byte.1 <<< 16 &&& 0xFF0000), low.2)) = _
    rw [readBE_beBytes (by decide)]
    simp only [Option.bind_some, readBE_beBytes (show value < 256 ^ 2 by omega)]
    rfl
  all_goals exact ⟨_, rfl, rfl, fun rest => hread (n := 4) (by omega)⟩

/-- **BER integers round-trip** unless they are of three bytes and do not fit two, for which a
narrowing cast fails. -/
theorem ber_integer_round_trip_iff (value : UInt32) (tag : UInt8) :
    ((∃ bytes, berWriteInteger value.toNat = some (bytes, berSizeofInteger value.toNat) ∧
        bytes.length = berSizeofInteger value.toNat ∧
        ∀ rest, berReadInteger (bytes ++ rest) = some (value.toNat, rest)) ∧
      ∃ bytes, berWriteContextualInteger tag value.toNat =
          some (bytes, berSizeofContextualInteger value.toNat) ∧
        bytes.length = berSizeofContextualInteger value.toNat) ↔
    ¬(0x10000 ≤ value.toNat ∧ value.toNat < 0x800000) := by
  have hvalue := value.toNat_lt
  constructor
  · rintro ⟨⟨bytes, hwrite, -⟩, -⟩ ⟨hlo, hhi⟩
    unfold berWriteInteger at hwrite
    rw [if_neg (by omega), if_neg (by omega), if_pos hhi, assertingIntCast_eq 16,
      if_neg (show ¬value.toNat < 2 ^ 16 by omega)] at hwrite
    cases hcast : assertingIntCast 8 (value.toNat >>> 16) <;> rw [hcast] at hwrite <;> cases hwrite
  intro h
  obtain ⟨bytes, hwrite, hlen, hread⟩ := berWriteInteger_reads hvalue h
  have hsize : 3 ≤ berSizeofInteger value.toNat ∧ berSizeofInteger value.toNat ≤ 6 := by
    unfold berSizeofInteger
    split_ifs <;> decide
  refine ⟨⟨bytes, hwrite, hlen, hread⟩, ?_⟩
  unfold berWriteContextualInteger berWriteContextualTag berWriteLength berSizeofContextualInteger
    berSizeofLength
  rw [hwrite, if_neg (by omega), if_neg (by omega), if_neg (by omega), if_neg (by omega)]
  simp only [Option.map_some, Option.bind_eq_bind, Option.bind_some, if_neg (show
    berSizeofInteger value.toNat ≠ 0 by omega)]
  refine ⟨_, congrArg some (Prod.ext rfl (add_comm _ _)), ?_⟩
  rw [length_append, hlen]
  rfl

/-- The first integer that a cast refuses. -/
theorem berWriteInteger_aborts : berWriteInteger (65536 : UInt32).toNat = none := by decide

end Ber

end WBFreeRDP

/-
# Values in PER

The writers and readers of `per.c` for lengths, integers and octet strings, on streams with enough
room.  The writers take more values than the readers know.
-/
import WBFreeRDP.RdpHeaders

namespace WBFreeRDP

open List

/-- `per_write_length`. -/
def perWriteLength (length : ℕ) : List UInt8 :=
  if length > 0x7F then beBytes 2 (length ||| 0x8000) else beBytes 1 length

/-- `per_write_integer`; its casts are to types that the value fits. -/
def perWriteInteger (integer : ℕ) : List UInt8 :=
  if integer ≤ 0xFF then perWriteLength 1 ++ beBytes 1 integer
  else if integer ≤ 0xFFFF then perWriteLength 2 ++ beBytes 2 integer
  else if integer ≤ 0xFFFFFFFF then perWriteLength 4 ++ beBytes 4 integer
  else []

/-- `per_write_integer16`; none for `FALSE`. -/
def perWriteInteger16 (integer min : ℕ) : Option (List UInt8) :=
  if min > integer then none else some (beBytes 2 (integer - min))

def perWriteOctetString (octStr : List UInt8) (min : ℕ) : List UInt8 :=
  let mlength := if octStr.length ≥ min then octStr.length - min else min
  perWriteLength mlength ++ octStr

/-- `per_read_octet_string`: the string has to be the one that is expected. -/
def perReadOctetString (octStr : List UInt8) (min : ℕ) : Parser Unit := do
  let mlength ← perReadLength
  Parser.check (mlength + min = octStr.length)
  let got ← Parser.bytes octStr.length
  Parser.check (got = octStr)

theorem readLE_one (b s) : readLE 1 (b :: s) = some (b.toNat, s) := by
  simp [readLE, leNat]

theorem perReadLength_write {length} (h : length < 2 ^ 16) (rest) :
    perReadLength (perWriteLength length ++ rest) = some (length % 0x8000, rest) := by
  have hfirst (b : UInt8) (s : List UInt8) : perReadLength (b :: s) =
      if 0x80 ≤ b.toNat then (readLE 1 s).bind fun l => some ((b.toNat - 0x80) * 256 + l.1, l.2)
      else some (b.toNat, s) := by
    simp only [perReadLength, Parser.u8, bind, StateT.bind, readLE_one, Option.bind_some]
    split_ifs <;> rfl
  unfold perWriteLength
  split_ifs with hlong
  swap
  · change perReadLength (UInt8.ofNat length :: rest) = _
    rw [hfirst, UInt8.toNat_ofNat', if_neg (by omega),
      Nat.mod_eq_of_lt (show length < 256 by omega), Nat.mod_eq_of_lt (by omega)]
  -- the two bytes hold the low fifteen bits under a one
  have hor : length ||| 0x8000 = 2 ^ 15 * 1 + length % 2 ^ 15 := by
    conv_lhs => rw [← Nat.div_add_mod length (2 ^ 15)]
    rw [Nat.two_pow_add_eq_or_of_lt (Nat.mod_lt _ (by decide)), Nat.two_pow_add_eq_or_of_lt
      (Nat.mod_lt _ (by decide))]
    have hdiv : length / 2 ^ 15 = 0 ∨ length / 2 ^ 15 = 1 := by omega
    rcases hdiv with hdiv | hdiv
    · rw [hdiv, Nat.zero_or, Nat.or_comm]
    · rw [hdiv, Nat.or_right_comm]
      rfl
  change perReadLength (UInt8.ofNat ((length ||| 0x8000) / 256) ::
    UInt8.ofNat (length ||| 0x8000) :: rest) = _
  rw [hfirst, readLE_one, UInt8.toNat_ofNat', UInt8.toNat_ofNat', if_pos (by omega)]
  simp only [Option.bind_some, Option.some.injEq, Prod.mk.injEq, and_true]
  omega

theorem perReadInteger_write (hn : n < 0x8000) (s) : perReadInteger (perWriteLength n ++ s) =
      if s.length < n then none else if n = 0 then some (0, s) else if n = 1 then readLE 1 s
      else if n = 2 then readBE 2 s else none := by
  simp only [perReadInteger, bind, StateT.bind, perReadLength_write (show n < 2 ^ 16 by omega),
    Option.bind_some, Nat.mod_eq_of_lt hn, Parser.need]
  by_cases hlen : s.length < n
  · rw [if_pos hlen, if_pos hlen]
    rfl
  rw [if_neg hlen, if_neg hlen]
  match n with
  | 0 => rfl
  | 1 => rfl
  | 2 => rfl
  | n + 3 => rfl

/-- **PER values are read as they were written** if a length has fifteen bits, an integer sixteen
and a string its minimum of bytes. -/
theorem per_round_trip_iff (rest : List UInt8) :
    (∀ length : UInt16, perReadLength (perWriteLength length.toNat ++ rest) =
      some (length.toNat, rest) ↔ length.toNat < 0x8000) ∧
    (∀ integer : UInt32, perReadInteger (perWriteInteger integer.toNat ++ rest) =
      some (integer.toNat, rest) ↔ integer.toNat ≤ 0xFFFF) ∧
    (∀ (integer min : UInt16) (bytes : List UInt8),
      perWriteInteger16 integer.toNat min.toNat = some bytes →
      perReadInteger16 min.toNat (bytes ++ rest) = some (integer.toNat, rest)) ∧
    ∀ (octStr : List UInt8) (min : UInt16), octStr.length < 2 ^ 16 →
      (perReadOctetString octStr min.toNat (perWriteOctetString octStr min.toNat ++ rest) =
        some ((), rest) ↔ min.toNat ≤ octStr.length ∧ octStr.length - min.toNat < 0x8000) := by
  refine ⟨fun length => ?_, fun integer => ?_, fun integer min bytes hwrite => ?_,
    fun octStr min hlen => ?_⟩
  · have hlt := length.toNat_lt
    rw [perReadLength_write hlt, Option.some.injEq, Prod.mk.injEq, and_iff_left rfl]
    omega
  · have hlt := integer.toNat_lt
    unfold perWriteInteger
    split_ifs with h1 h2 h3
    · exact iff_of_true (readLE_leBytes (w := 1) (by omega) rest) (by omega)
    · rw [append_assoc, perReadInteger_write (by decide),
        readBE_beBytes (by omega)]
      exact iff_of_true rfl h2
    · exact iff_of_false nofun h2
    · omega
  · have hlt := integer.toNat_lt
    unfold perWriteInteger16 at hwrite
    split_ifs at hwrite with hmin
    cases hwrite
    have hread : Parser.u16be (beBytes 2 (integer.toNat - min.toNat) ++ rest) = _ :=
      readBE_beBytes (by omega) rest
    simp only [perReadInteger16, bind, StateT.bind, hread, Option.bind_some, Parser.check]
    rw [if_pos (by omega), Option.bind_some, Nat.sub_add_cancel (by omega)]
    rfl
  · have hlt := min.toNat_lt
    unfold perWriteOctetString perReadOctetString
    have hm : (if octStr.length ≥ min.toNat then octStr.length - min.toNat else min.toNat) <
        2 ^ 16 := by
      split_ifs <;> omega
    simp only [bind, StateT.bind, append_assoc, perReadLength_write hm,
      Option.bind_some, Parser.check, Parser.bytes]
    by_cases hok : min.toNat ≤ octStr.length ∧ octStr.length - min.toNat < 0x8000
    · rw [if_pos hok.1, if_pos (by omega)]
      simp [hok, show ¬octStr.length + rest.length < octStr.length by omega]
    have hne : ¬(if octStr.length ≥ min.toNat then octStr.length - min.toNat else min.toNat) %
      0x8000 +
        min.toNat = octStr.length := by
      split_ifs <;> omega
    rw [if_neg hne]
    exact iff_of_false nofun hok

/-- A string of one byte that has to have two. -/
theorem per_octet_string_lost :
    perReadOctetString [7] 2 (perWriteOctetString [7] 2) = none := by decide +kernel

end WBFreeRDP

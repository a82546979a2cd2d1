/-
# Base64

Model of the base64 decoder (`libfreerdp/crypto/base64.c`).  It takes any character outside of the
alphabet for padding.
-/
import Mathlib.Data.List.Basic
import Mathlib.Tactic.IntervalCases

namespace WBFreeRDP.Base64

open Nat List

def encBase64 : List UInt8 :=
  (range' 65 26 ++ range' 97 26 ++ range' 48 10).map UInt8.ofNat ++ [0x2B, 0x2F]

/-- The entry -1 of the table is `none`. -/
def decBase64 : List (Option ℕ) :=
  replicate 43 none ++ [some 62] ++ replicate 3 none ++ [some 63] ++ (range' 52 10).map some ++
    replicate 7 none ++ (range 26).map some ++ replicate 6 none ++ (range' 26 26).map some ++
    replicate 5 none

/-- `base64_decode_char`. -/
def base64DecodeChar (alphabet : List (Option ℕ)) (c : UInt8) : Option ℕ :=
  let ic := c.toInt8.toInt
  if ic ≤ 0 ∨ alphabet.length ≤ ic.toNat then none else alphabet.getD c.toNat none

/-- The bytes of a block, from the values of its characters. -/
def q0 (n0 n1 : ℕ) : UInt8 := UInt8.ofNat (n0 <<< 2 + n1 >>> 4)

def q1 (n1 n2 : ℕ) : UInt8 := UInt8.ofNat ((n1 &&& 15) <<< 4 + n2 >>> 2)

def q2 (n2 n3 : ℕ) : UInt8 := UInt8.ofNat ((n2 &&& 3) <<< 6 + n3)

/-- The last block of `base64_decode`; what is not in the alphabet ends the data. -/
def decodeLast (alphabet : List (Option ℕ)) (remainder : ℕ) : List UInt8 → Option (List UInt8)
  | c0 :: c1 :: s => do
    let n0 ← base64DecodeChar alphabet c0
    let n1 ← base64DecodeChar alphabet c1
    let n2 := if remainder = 2 then none else base64DecodeChar alphabet (s.getD 0 0)
    let n3 := if remainder ≥ 2 then none else base64DecodeChar alphabet (s.getD 1 0)
    match n2, n3 with
    | none, some _ => none
    | none, none => some [q0 n0 n1]
    | some n2, none => some [q0 n0 n1, q1 n1 n2]
    | some n2, some n3 => some [q0 n0 n1, q1 n1 n2, q2 n2 n3]
  | _ => none

/-- The loop of `base64_decode` over the blocks in front of the last. -/
def decodeBlocks (alphabet : List (Option ℕ)) (remainder : ℕ) : ℕ → List UInt8 → Option (List UInt8)
  | 0, s => decodeLast alphabet remainder s
  | i + 1, c0 :: c1 :: c2 :: c3 :: s => do
    let n0 ← base64DecodeChar alphabet c0
    let n1 ← base64DecodeChar alphabet c1
    let n2 ← base64DecodeChar alphabet c2
    let n3 ← base64DecodeChar alphabet c3
    let data ← decodeBlocks alphabet remainder i s
    some (q0 n0 n1 :: q1 n1 n2 :: q2 n2 n3 :: data)
  | _ + 1, _ => none

/-- `base64_decode`: the data of a string. -/
def base64Decode (alphabet : List (Option ℕ)) (s : List UInt8) (pad : Bool) : Option (List UInt8) :=
  let remainder := s.length % 4
  if (pad ∧ remainder > 0) ∨ remainder = 1 then none
  else
    let length := if ¬pad ∧ remainder ≠ 0 then s.length + (4 - remainder) else s.length
    let nBlocks := length / 4
    if nBlocks < 1 then none else decodeBlocks alphabet remainder (nBlocks - 1) s

def cryptoBase64Decode (s : List UInt8) : Option (List UInt8) := base64Decode decBase64 s true

/-! ## What the decoder accepts -/

/-- Base64 text: blocks of four characters of the alphabet, the last one with up to two `=` at its
end. -/
def IsText (s : List UInt8) : Prop :=
  0 < s.length ∧ s.length % 4 = 0 ∧
    ∃ body n, n ≤ 2 ∧ s = body ++ replicate n 0x3D ∧ ∀ c ∈ body, c ∈ encBase64

/-- Text that ends with a character outside of the alphabet, other than `=` after a character of the
alphabet or after another `=`. -/
def OddPadding (s : List UInt8) : Prop :=
  0 < s.length ∧ s.length % 4 = 0 ∧ (∀ c ∈ s.dropLast.dropLast, c ∈ encBase64) ∧
    s.getLastD 0 ∉ encBase64 ∧
    ¬(s.getLastD 0 = 0x3D ∧ (s.dropLast.getLastD 0 ∈ encBase64 ∨ s.dropLast.getLastD 0 = 0x3D))

theorem exists_decodeChar_iff (c) :
    (∃ n, base64DecodeChar decBase64 c = some n) ↔ c ∈ encBase64 := by
  have hall : ∀ n : Fin 256, (base64DecodeChar decBase64 (UInt8.ofNat n)).isSome ↔
      UInt8.ofNat n ∈ encBase64 := by decide +kernel
  simpa [Option.isSome_iff_exists] using hall ⟨c.toNat, c.toNat_lt⟩

/-- The decoder's loop takes the characters in front of the last two from the alphabet, and of the
last two any but one of the alphabet behind one that is not. -/
theorem exists_decodeBlocks_iff (hlength : body.length = 4 * n + 2) :
    (∃ data, decodeBlocks decBase64 0 n (body ++ [c2, c3]) = some data) ↔
      (∀ c ∈ body, c ∈ encBase64) ∧ (c3 ∈ encBase64 → c2 ∈ encBase64) := by
  induction n generalizing body with
  | zero =>
    obtain ⟨c0, c1, rfl⟩ := length_eq_two.mp hlength
    simp only [← exists_decodeChar_iff, decodeBlocks, decodeLast, cons_append, forall_mem_cons]
    cases h0 : base64DecodeChar decBase64 c0 <;> cases h1 : base64DecodeChar decBase64 c1 <;>
      cases h2 : base64DecodeChar decBase64 c2 <;> cases h3 : base64DecodeChar decBase64 c3 <;>
      simp [h2, h3]
  | succ n ih =>
  match body, hlength with
  | b0 :: b1 :: b2 :: b3 :: body, hlength =>
  have hbody : body.length = 4 * n + 2 := by
    simp only [length_cons] at hlength
    omega
  simp only [cons_append, decodeBlocks, forall_mem_cons, and_assoc]
  rw [← ih hbody]
  simp only [← exists_decodeChar_iff, Option.bind_eq_bind, Option.bind_eq_some_iff]
  constructor
  · rintro ⟨_, n0, h0, n1, h1, n2, h2, n3, h3, data, hdata, -⟩
    exact ⟨⟨n0, h0⟩, ⟨n1, h1⟩, ⟨n2, h2⟩, ⟨n3, h3⟩, data, hdata⟩
  · rintro ⟨⟨n0, h0⟩, ⟨n1, h1⟩, ⟨n2, h2⟩, ⟨n3, h3⟩, data, hdata⟩
    exact ⟨_, n0, h0, n1, h1, n2, h2, n3, h3, data, hdata, rfl⟩

theorem isText_iff (hmod : (body ++ [c2, c3]).length % 4 = 0) :
    IsText (body ++ [c2, c3]) ↔ (∀ c ∈ body, c ∈ encBase64) ∧
      (c3 ∈ encBase64 ∧ c2 ∈ encBase64 ∨ c3 = 0x3D ∧ (c2 ∈ encBase64 ∨ c2 = 0x3D)) := by
  constructor
  · rintro ⟨-, -, text, n, hn, heq, htext⟩
    interval_cases n
    · rw [replicate_zero, append_nil] at heq
      simp only [← heq, forall_mem_append, forall_mem_cons] at htext
      exact ⟨htext.1, .inl ⟨htext.2.2.1, htext.2.1⟩⟩
    · rw [append_cons] at heq
      obtain ⟨rfl, hlast⟩ := append_inj' heq rfl
      simp only [forall_mem_append, forall_mem_cons] at htext
      exact ⟨htext.1, .inr ⟨singleton_inj.mp hlast, .inl htext.2.1⟩⟩
    · obtain ⟨rfl, hlast⟩ := append_inj' heq rfl
      simp only [replicate, cons.injEq] at hlast
      exact ⟨htext, .inr ⟨hlast.2.1, .inr hlast.1⟩⟩
  · rintro ⟨hbody, hlast⟩
    refine ⟨by simp, hmod, ?_⟩
    rcases hlast with ⟨h3, h2⟩ | ⟨rfl, h2 | rfl⟩
    · refine ⟨body ++ [c2, c3], 0, by decide, (append_nil _).symm, ?_⟩
      exact forall_mem_append.mpr ⟨hbody, by simp [h2, h3]⟩
    · refine ⟨body ++ [c2], 1, by decide, append_cons _ _ _, ?_⟩
      exact forall_mem_append.mpr ⟨hbody, by simp [h2]⟩
    · exact ⟨body, 2, by decide, rfl, hbody⟩

/-- **The decoder takes base64 text and nothing else, but for the padding**: it gives data for
exactly the texts unless the string ends with some other character outside of the alphabet. -/
theorem base64_decode_accepts_iff (s : List UInt8) :
    ((∃ data, cryptoBase64Decode s = some data) ↔ IsText s) ↔ ¬OddPadding s := by
  simp only [cryptoBase64Decode, base64Decode, true_and, not_true_eq_false, false_and, if_false]
  by_cases hmod : s.length % 4 = 0
  swap
  · simp [IsText, OddPadding, hmod]
  rw [hmod, if_neg (by decide)]
  by_cases hempty : s.length / 4 < 1
  · have hzero : ¬0 < s.length := by omega
    rw [if_pos hempty]
    simp [IsText, OddPadding, hzero]
  obtain ⟨body, c2, c3, rfl⟩ : ∃ body c2 c3, s = body ++ [c2, c3] := by
    obtain ⟨c2, c3, hlast⟩ := length_eq_two.mp (show (s.drop (s.length - 2)).length = 2 by
      rw [length_drop]
      omega)
    exact ⟨_, c2, c3, (hlast ▸ take_append_drop (s.length - 2) s).symm⟩
  have hlength : (body ++ [c2, c3]).length = body.length + 2 := length_append
  have hodd : OddPadding (body ++ [c2, c3]) ↔ (∀ c ∈ body, c ∈ encBase64) ∧ c3 ∉ encBase64 ∧
      ¬(c3 = 0x3D ∧ (c2 ∈ encBase64 ∨ c2 = 0x3D)) := by
    rw [OddPadding, and_iff_right (by simp), and_iff_right hmod, append_cons, dropLast_concat,
      dropLast_concat, getLastD_concat, getLastD_concat]
  have hpadding : c3 = 0x3D → c3 ∉ encBase64 := by
    rintro rfl
    decide +kernel
  rw [if_neg hempty, exists_decodeBlocks_iff (by omega), isText_iff hmod]
  tauto

theorem exclamation_marks_accepted :
    cryptoBase64Decode [0x51, 0x51, 0x21, 0x21] = some [0x41] ∧
    ¬IsText [0x51, 0x51, 0x21, 0x21] := by
  refine ⟨by decide +kernel, fun htext => ?_⟩
  exact absurd ((@isText_iff [0x51, 0x51] 0x21 0x21 rfl).mp htext).2 (by decide +kernel)

end WBFreeRDP.Base64

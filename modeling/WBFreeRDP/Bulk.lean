/-
# Bulk compression sessions

The bulk compressors keep a context on each side of the connection.  A session compresses packet
after packet on one sending context and decompresses what comes out, with the flags that go with
it, on one receiving context.
-/
import Mathlib.Data.List.Basic
import Mathlib.Data.Nat.Bitwise

namespace WBFreeRDP.Bulk

open Nat

/-! ## Flags -/

/-- `PACKET_COMPRESSED`. -/
def packetCompressed : ℕ := 0x20
/-- `PACKET_AT_FRONT`. -/
def packetAtFront : ℕ := 0x40
/-- `PACKET_FLUSHED`. -/
def packetFlushed : ℕ := 0x80

/-- A flag is set. -/
def hasFlag (flags flag : ℕ) : Bool := flags &&& flag ≠ 0

theorem hasFlag_two_pow (flags i) : hasFlag flags (2 ^ i) = flags.testBit i := by
  unfold hasFlag
  rw [and_two_pow]
  cases flags.testBit i <;> simp

theorem hasFlag_lor (a b i) :
    hasFlag (a ||| b) (2 ^ i) = (hasFlag a (2 ^ i) || hasFlag b (2 ^ i)) := by
  simp [hasFlag_two_pow]

theorem hasFlag_toByte (hi : i < 8) :
    hasFlag (UInt8.ofNat flags).toNat (2 ^ i) = hasFlag flags (2 ^ i) := by
  rw [hasFlag_two_pow, hasFlag_two_pow, UInt8.toNat_ofNat', testBit_mod_two_pow]
  simp [hi]

/-! ## Sessions -/

/-- What a compressor returns: its status, the data to send, the flags and its context. -/
structure Compressed (S : Type) where
  status : ℤ
  data : List UInt8
  flags : ℕ
  context : S

/-- What a decompressor returns: its status, the data and its context. -/
structure Decompressed (R : Type) where
  status : ℤ
  data : List UInt8
  context : R

/-- What became of a packet: the status on either side and the data received. -/
structure Delivery where
  sent : ℤ
  received : ℤ
  data : List UInt8
  deriving DecidableEq

section Session

variable {S R P : Type} (compress : S → P → Compressed S)
  (decompress : R → List UInt8 → ℕ → Decompressed R)

/-- A session: every packet is compressed, and the data and flags are decompressed. -/
def session : S → R → List P → List Delivery
  | _, _, [] => []
  | s, r, p :: ps =>
    let c := compress s p
    let d := decompress r c.data c.flags
    ⟨c.status, d.status, d.data⟩ :: session c.context d.context ps

variable {compress decompress}

/-- **A session loses nothing** if a relation between the contexts guarantees the next packet and
is kept by it. -/
theorem session_lossless (payload : P → List UInt8) (Sync : S → R → Prop) (Ok : P → Prop)
    (step : ∀ s r p, Sync s r → Ok p → (compress s p).status = 1 ∧
      (decompress r (compress s p).data (compress s p).flags).status = 1 ∧
      (decompress r (compress s p).data (compress s p).flags).data = payload p ∧
      Sync (compress s p).context (decompress r (compress s p).data (compress s p).flags).context)
    (ps : List P) : ∀ s r, Sync s r → (∀ p ∈ ps, Ok p) →
      session compress decompress s r ps = ps.map fun p => ⟨1, 1, payload p⟩ := by
  induction ps with
  | nil => intro s r _ _; rfl
  | cons p ps ih =>
  intro s r hsync hok
  obtain ⟨hsent, hreceived, hdata, hnext⟩ := step s r p hsync (hok p (by simp))
  rw [session, List.map_cons, ih _ _ hnext fun q hq => hok q (by simp [hq]),
    hsent, hreceived, hdata]

end Session

end WBFreeRDP.Bulk

/-
# From YCbCr to RGB

The conversions of `prim_colors.c`, with factors of 16 fraction bits and planes scaled by 32.
-/
import Mathlib.Tactic.Linarith

namespace WBFreeRDP.YCbCr

/-- `CLIP`. -/
def clip (x : ℤ) : ℤ := if x > 255 then 255 else if x < 0 then 0 else x

def InRange (c : ℤ) : Prop := -4096 ≤ c ∧ c ≤ 4095

variable {y cb cr : ℤ}

end WBFreeRDP.YCbCr

/-
# The sequence numbers of ClearCodec

`clear_decompress` of `clear.c`: every message carries the number after the last one.  The number
that is expected next is also the mark of a context that has seen none, so that the order is lost
behind 255.
-/
import Mathlib.Data.List.Chain

namespace WBFreeRDP.Clear

/-- A `CLEAR_CONTEXT`: the number expected next, and what the format and the layers work on. -/
structure Context (L : Type) where
  seqNumber : ℕ
  layers : L

/-- The arguments of a call; `image` stands for the destination, its format and the palette. -/
structure Args (I : Type) where
  pSrcData : List UInt8
  nWidth : ℕ
  nHeight : ℕ
  pDstData : Bool
  nXDst : ℕ
  nYDst : ℕ
  nDstWidth : ℕ
  nDstHeight : ℕ
  image : I

variable {L I : Type}

def Args.refused (args : Args I) : Option ℤ :=
  if !args.pDstData then some (-1002)
  else if args.nDstWidth = 0 ∨ args.nDstHeight = 0 then some (-1022)
  else if args.nWidth > 0xFFFF ∨ args.nHeight > 0xFFFF then some (-1004)
  else if args.nXDst > args.nDstWidth then some (-1005)
  else if args.nYDst > args.nDstHeight then some (-1006)
  else none

/-- The check of a number against the expected one gives the number expected next. -/
def checkSeqNumber (expected : ℕ) (seqNumber : UInt8) : Option ℕ :=
  let expected := if expected = 0 ∧ seqNumber ≠ 0 then seqNumber.toNat else expected
  if seqNumber.toNat ≠ expected then none else some ((seqNumber.toNat + 1) % 256)

variable (updateContextFormat : I → L → L × Bool)
  (decompressLayers : Args I → UInt8 → List UInt8 → L → L × ℤ)

/-- `clear_decompress`, with the number of the message if it passes the check.  The layers of the
message, from the reset of the caches on, do not see `seqNumber`. -/
def clearDecompress (clear : Context L) (args : Args I) : Context L × ℤ × Option UInt8 :=
  match args.refused, args.pSrcData with
  | some rc, _ => (clear, rc, none)
  | none, glyphFlags :: seqNumber :: s =>
    let (layers, ok) := updateContextFormat args.image clear.layers
    if !ok then (⟨clear.seqNumber, layers⟩, -1, none)
    else
      match checkSeqNumber clear.seqNumber seqNumber with
      | none => (⟨clear.seqNumber, layers⟩, -1, none)
      | some next =>
        let (layers, rc) := decompressLayers args glyphFlags s layers
        (⟨next, layers⟩, rc, some seqNumber)
  | none, _ => (clear, -1, none)

/-- The numbers of a run of calls that all pass the check. -/
inductive Passes : Context L → List UInt8 → Prop
  | nil (clear : Context L) : Passes clear []
  | cons {clear : Context L} {args : Args I} {n : UInt8} {ns : List UInt8}
      (hcall : (clearDecompress updateContextFormat decompressLayers clear args).2.2 = some n)
      (h : Passes (clearDecompress updateContextFormat decompressLayers clear args).1 ns) :
      Passes clear (n :: ns)

theorem checkSeqNumber_eq_some {expected next} (h : checkSeqNumber expected n = some next) :
    (n.toNat = expected ∨ expected = 0) ∧ next = (n.toNat + 1) % 256 := by
  unfold checkSeqNumber at h
  simp only at h
  split_ifs at h with h0 h1 h1
  · exact ⟨.inr h0.1, (Option.some.inj h).symm⟩
  · exact ⟨.inl (not_not.mp h1), (Option.some.inj h).symm⟩

variable {updateContextFormat decompressLayers}

/-- A call that passes the check passed it with the number it leaves. -/
theorem clearDecompress_passes
    (h : (clearDecompress updateContextFormat decompressLayers clear args).2.2 = some n) :
    checkSeqNumber clear.seqNumber n =
      some (clearDecompress updateContextFormat decompressLayers clear args).1.seqNumber := by
  unfold clearDecompress at h ⊢
  split at h
  · cases h
  · next glyphFlags seqNumber s hargs hsrc =>
    simp only at h ⊢
    split_ifs at h ⊢ with hok
    cases hcheck : checkSeqNumber clear.seqNumber seqNumber with
    | none => simp [hcheck] at h
    | some next =>
    simp only [hcheck, Option.some.injEq] at h ⊢
    rw [← h, hcheck]
  · cases h

/-- **The numbers follow one another** exactly if each message behind number 255 has number 0. -/
theorem numbers_follow_iff {clear : Context L} {ns : List UInt8}
    (h : Passes updateContextFormat decompressLayers clear ns) :
    ns.IsChain (fun m n => n.toNat = (m.toNat + 1) % 256) ↔
    ns.IsChain (fun m n => m = 255 → n = 0) := by
  induction h with
  | nil => simp
  | @cons clear args m ns hcall h ih =>
  cases h with
  | nil => simp
  | @cons _ _ n ns hnext _ =>
  have hm := (checkSeqNumber_eq_some (clearDecompress_passes hcall)).2
  have hn := (checkSeqNumber_eq_some (clearDecompress_passes hnext)).1
  have hlt := m.toNat_lt
  -- only behind 255 the expected number is 0, which accepts every number
  have hstep : n.toNat = (m.toNat + 1) % 256 ↔ (m = 255 → n = 0) := by
    rw [← UInt8.toNat_inj, ← UInt8.toNat_inj, show (255 : UInt8).toNat = 255 from rfl,
      show (0 : UInt8).toNat = 0 from rfl]
    omega
  rw [List.isChain_cons_cons, List.isChain_cons_cons, ih, hstep]

/-- A message without layers for an image of one pixel. -/
def emptyMessage (seqNumber : UInt8) : Args Unit := ⟨[0, seqNumber], 1, 1, true, 0, 0, 1, 1, ()⟩

theorem numbers_follow_iff_wrap :
    [254, 255, 0].IsChain (fun m n : UInt8 => n.toNat = (m.toNat + 1) % 256) ↔
      [254, 255, 0].IsChain (fun m n : UInt8 => m = 255 → n = 0) :=
  @numbers_follow_iff Unit Unit (fun _ l => (l, true)) (fun _ _ _ l => (l, 0)) ⟨0, ()⟩ _
    (@.cons _ _ _ _ _ (emptyMessage 254) _ _ rfl (@.cons _ _ _ _ _ (emptyMessage 255) _ _ rfl
      (@.cons _ _ _ _ _ (emptyMessage 0) _ _ rfl (.nil _))))

/-- **After number 255 the number 7 is accepted.** -/
theorem order_lost_after_255 :
    @Passes Unit Unit (fun _ l => (l, true)) (fun _ _ _ l => (l, 0)) ⟨0, ()⟩ [255, 7] ∧
      ¬[255, 7].IsChain (fun m n : UInt8 => n.toNat = (m.toNat + 1) % 256) := by
  constructor
  · exact @.cons _ _ _ _ _ (emptyMessage 255) _ _ rfl
      (@.cons _ _ _ _ _ (emptyMessage 7) _ _ rfl (.nil _))
  · decide

end WBFreeRDP.Clear

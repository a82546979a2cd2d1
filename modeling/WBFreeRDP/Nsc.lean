/-
# Planes of NSCodec

`nsc_encode.c` and `nsc.c`: the planes of an NSCodec bitmap are run-length coded.  A run is
signalled by its value twice; the last four bytes of a plane are stored as they are, and the byte
before them is decoded without a look at the next one.
-/
import WBFreeRDP.ByteOrder

namespace WBFreeRDP.Nsc

open List Nat

/-! ## The encoder -/

/-- `x - 4` in `UINT32`. -/
def sub4 (x : ℕ) : ℕ := if x < 4 then x + 2 ^ 32 - 4 else x - 4

/-- What the encoder writes at the end of a run of `runlength` bytes. -/
def runCode (value : UInt8) (runlength : ℕ) : List UInt8 :=
  if runlength = 1 then [value]
  else if runlength < 256 then [value, value, UInt8.ofNat (runlength - 2)]
  else [value, value, 0xFF, UInt8.ofNat (runlength % 256), UInt8.ofNat (runlength / 2 ^ 8 % 256),
    UInt8.ofNat (runlength / 2 ^ 16 % 256), UInt8.ofNat (runlength / 2 ^ 24 % 256)]

/-- The loop of `nsc_rle_encode`: the size of the code, the code and the bytes that are left.  The
size grows by the 1, 3 or 7 bytes that are written. -/
def rleEncodeLoop (originalSize : ℕ) :
    ℕ → List UInt8 → ℕ → ℕ → List UInt8 → ℕ × List UInt8 × List UInt8
  | left + 1, value :: input, runlength, planeSize, out =>
    if left + 1 > 4 ∧ planeSize < sub4 originalSize then
      if left + 1 > 5 ∧ input.head? = some value then
        rleEncodeLoop originalSize left input (runlength + 1) planeSize out
      else
        rleEncodeLoop originalSize left input 1 (planeSize + (runCode value runlength).length)
          (out ++ runCode value runlength)
    else (planeSize, out, value :: input)
  | _, input, _, planeSize, out => (planeSize, out, input)

/-- `nsc_rle_encode` of the first `originalSize` bytes of a buffer: the size it reports and what it
has written. -/
def rleEncode (input : List UInt8) (originalSize : ℕ) : ℕ × List UInt8 :=
  let (planeSize, out, rest) := rleEncodeLoop originalSize originalSize input 1 0 []
  (planeSize + 4, if planeSize < sub4 originalSize then out ++ rest.take 4 else out)

/-- One round of `nsc_rle_compress_data`: the buffer of the plane and its `PlaneByteCount`. -/
def compressPlane (buffer : List UInt8) (originalSize : ℕ) : List UInt8 × ℕ :=
  if originalSize = 0 then (buffer, 0)
  else
    let (planeSize, out) := rleEncode buffer originalSize
    if planeSize < originalSize then (out.take planeSize ++ buffer.drop planeSize, planeSize)
    else (buffer, originalSize)

/-- `nsc_rle_compress_data` of planes, each with its `OrgByteCount`. -/
def compressData (planes : List (List UInt8 × ℕ)) : List (List UInt8 × ℕ) :=
  planes.map fun plane => compressPlane plane.1 plane.2

/-- The planes in `nsc_write_message`, each with its `PlaneByteCount`. -/
def writePlanes (planes : List (List UInt8 × ℕ)) : List UInt8 :=
  planes.flatMap fun plane => plane.1.take plane.2

/-- `nsc_write_message` of four planes; `none` if the capacity that it ensures does not hold the
message, so that `Stream_Write` may find no room.  `totalPlaneByteCount` and the sum with the 20
bytes of the header are `UINT32`. -/
def writeMessage (planes : List (List UInt8 × ℕ)) (colorLossLevel chromaSubsamplingLevel : UInt8) :
    Option (List UInt8) :=
  let totalPlaneByteCount := (planes.map Prod.snd).sum % 2 ^ 32
  let message := (planes.map Prod.snd).flatMap (leBytes 4) ++
    [colorLossLevel, chromaSubsamplingLevel, 0, 0] ++ writePlanes planes
  if (20 + totalPlaneByteCount) % 2 ^ 32 < message.length then none else some message

/-! ## The decoder -/

def readRun : List UInt8 → Option (ℕ × List UInt8)
  | [] => none
  | c :: rest =>
    if c.toNat < 0xFF then some (c.toNat + 2, rest)
    else
      match rest with
      | b0 :: b1 :: b2 :: b3 :: rest =>
        some (b0.toNat ||| b1.toNat <<< 8 ||| b2.toNat <<< 16 ||| b3.toNat <<< 24, rest)
      | _ => none

def readCount (value : UInt8) (left : ℕ) (input : List UInt8) : Option (ℕ × List UInt8) :=
  if left = 5 then some (1, input)
  else
    match input with
    | [] => none
    | next :: rest => if value = next then readRun rest else some (1, next :: rest)

/-- The loop of `nsc_rle_decode`: the bytes, the input, `outSize` and `left` at its end.  Every
round takes a byte of the input. -/
def rleDecodeLoop : ℕ → List UInt8 → ℕ → ℕ → List UInt8 → Option (List UInt8 × List UInt8 × ℕ × ℕ)
  | 0, _, _, _, _ => none
  | fuel + 1, input, outSize, left, out =>
    if left > 4 then
      match input with
      | [] => none
      | value :: input =>
        (readCount value left input).bind fun (len, input) =>
          if outSize < len ∨ left < len then none
          else
            rleDecodeLoop fuel input (outSize - len) (left - len) (out ++ List.replicate len value)
    else some (out, input, outSize, left)

/-- `nsc_rle_decode`: the bytes and the input behind the code; `none` for `FALSE`. -/
def rleDecode (input : List UInt8) (outSize originalSize : ℕ) : Option (List UInt8 × List UInt8) :=
  (rleDecodeLoop (input.length + 1) input outSize originalSize []).bind
    fun (out, input, outSize, left) =>
      if outSize < 4 ∨ left < 4 then none
      else if input.length < 4 then none
      else some (out ++ input.take 4, input.drop 4)

/-- One round of `nsc_rle_decompress_data`: the bytes of a plane, from the planes that are left. -/
def decompressPlane (rle : List UInt8) (planeBuffersLength originalSize planeSize : ℕ) :
    Option (List UInt8) :=
  if rle.length < planeSize then none
  else if planeSize = 0 then
    if planeBuffersLength < originalSize then none else some (List.replicate originalSize 0xFF)
  else if planeSize < originalSize then
    (rleDecode rle planeBuffersLength originalSize).map Prod.fst
  else if planeBuffersLength < originalSize then none
  else if rle.length < originalSize then none
  else some (rle.take originalSize)

/-- `nsc_rle_decompress_data`: planes from their `OrgByteCount` and `PlaneByteCount`. -/
def decompressData (planeBuffersLength : ℕ) : List UInt8 → List (ℕ × ℕ) → Option (List (List UInt8))
  | _, [] => some []
  | rle, (originalSize, planeSize) :: sizes =>
    (decompressPlane rle planeBuffersLength originalSize planeSize).bind fun plane =>
      (decompressData planeBuffersLength (rle.drop planeSize) sizes).map (plane :: ·)

def readCounts : ℕ → List UInt8 → Option (List ℕ × List UInt8)
  | 0, s => some ([], s)
  | n + 1, s => (readLE 4 s).bind fun (value, s) =>
    (readCounts n s).map fun (counts, s) => (value :: counts, s)

/-- What `nsc_stream_initialize` stores in the context. -/
structure StreamContext where
  planeByteCount : List ℕ
  colorLossLevel : UInt8
  chromaSubsamplingLevel : UInt8
  planes : List UInt8
  deriving DecidableEq

/-- `nsc_stream_initialize`; `none` for `FALSE`. -/
def streamInitialize (s : List UInt8) : Option StreamContext :=
  (readCounts 4 s).bind fun (planeByteCount, s) =>
    match s with
    | colorLossLevel :: chromaSubsamplingLevel :: _ :: _ :: s =>
      if colorLossLevel < 1 ∨ colorLossLevel > 7 then none
      -- `total` is a `size_t`
      else if s.length < planeByteCount.sum then none
      else some ⟨planeByteCount, colorLossLevel, chromaSubsamplingLevel, s.take planeByteCount.sum⟩
    | _ => none

/-! ## The code of a plane -/

/-- The code of the bytes in front of the last four, after `runlength - 1` bytes like the first. -/
def bodyCode : ℕ → List UInt8 → List UInt8
  | _, [] => []
  | runlength, [value] => runCode value runlength
  | runlength, value :: next :: body =>
    if value = next then bodyCode (runlength + 1) (next :: body)
    else runCode value runlength ++ bodyCode 1 (next :: body)

theorem runCode_eq_cons (value runlength) : ∃ rest, runCode value runlength = value :: rest := by
  unfold runCode
  split_ifs
  all_goals exact ⟨_, rfl⟩

theorem bodyCode_eq_cons (value body) :
    ∀ runlength, ∃ rest, bodyCode runlength (value :: body) = value :: rest := by
  induction body generalizing value with
  | nil => intro runlength; exact runCode_eq_cons value runlength
  | cons next body ih =>
  intro runlength
  rw [bodyCode]
  by_cases heq : value = next
  · rw [if_pos heq, heq]
    exact ih next (runlength + 1)
  obtain ⟨rest, hrest⟩ := runCode_eq_cons value runlength
  rw [if_neg heq, hrest]
  exact ⟨_, rfl⟩

/-! ## The encoder's loop -/

/-- **The encoder's run**: it writes the code of the body, or its code has become too long. -/
theorem rleEncodeLoop_spec (originalSize : ℕ) (rest : List UInt8) (body : List UInt8) :
    ∀ runlength planeSize out,
      sub4 originalSize ≤ (rleEncodeLoop originalSize (body.length + 4) (body ++ rest) runlength
        planeSize out).1 ∨
      rleEncodeLoop originalSize (body.length + 4) (body ++ rest) runlength planeSize out =
        (planeSize + (bodyCode runlength body).length, out ++ bodyCode runlength body, rest) := by
  induction body with
  | nil =>
    cases rest with
    | nil | cons value rest => simp [rleEncodeLoop, bodyCode]
  | cons value body ih =>
  intro runlength planeSize out
  rw [length_cons, cons_append, rleEncodeLoop]
  by_cases hsmall : planeSize < sub4 originalSize
  swap
  · rw [if_neg (fun h => hsmall h.2)]
    exact Or.inl (Nat.le_of_not_lt hsmall)
  rw [if_pos ⟨by omega, hsmall⟩]
  rcases body with _ | ⟨next, body⟩
  · -- the byte in front of the last four ends its run
    rcases ih 1 (planeSize + (runCode value runlength).length)
      (out ++ runCode value runlength) with hbig | heq
    · exact Or.inl hbig
    rw [heq]
    simp [bodyCode]
  rw [bodyCode]
  by_cases heq : value = next
  · rw [if_pos ⟨by simp, by rw [heq]; rfl⟩, if_pos heq]
    exact ih (runlength + 1) planeSize out
  rw [if_neg (fun h => heq (Option.some.inj h.2).symm), if_neg heq]
  rcases ih 1 (planeSize + (runCode value runlength).length)
    (out ++ runCode value runlength) with hbig | hcode
  · exact Or.inl hbig
  · right
    rw [hcode, length_append, append_assoc, Nat.add_assoc]

/-! ## The decoder's loop -/

theorem le32_bytes (hr : r < 2 ^ 32) :
    r % 256 ||| (r / 2 ^ 8 % 256) <<< 8 ||| (r / 2 ^ 16 % 256) <<< 16 |||
      (r / 2 ^ 24 % 256) <<< 24 = r := by
  have h1 : r % 256 ||| (r / 2 ^ 8 % 256) <<< 8 = r % 2 ^ 16 := by
    rw [Nat.or_comm, ← shiftLeft_add_eq_or_of_lt (i := 8) (by omega)]
    omega
  have h2 : r % 2 ^ 16 ||| (r / 2 ^ 16 % 256) <<< 16 = r % 2 ^ 24 := by
    rw [Nat.or_comm, ← shiftLeft_add_eq_or_of_lt (i := 16) (by omega)]
    omega
  rw [h1, Nat.or_comm, ← shiftLeft_add_eq_or_of_lt (i := 24) (by omega)]
  omega

theorem readCount_run (value left) (h2 : 2 ≤ runlength)
    (hmax : runlength < 2 ^ 32) (hleft : left ≠ 5) (rest) :
    ∃ code, runCode value runlength = value :: code ∧
      readCount value left (code ++ rest) = some (runlength, rest) := by
  unfold runCode
  rw [if_neg (by omega)]
  by_cases hshort : runlength < 256
  · rw [if_pos hshort]
    refine ⟨_, rfl, ?_⟩
    have hc : (UInt8.ofNat (runlength - 2)).toNat = runlength - 2 := by
      rw [UInt8.toNat_ofNat']
      omega
    simp only [readCount, if_neg hleft, cons_append, nil_append, if_true, readRun, hc]
    rw [if_pos (by omega), Nat.sub_add_cancel h2]
  rw [if_neg hshort]
  refine ⟨_, rfl, ?_⟩
  have hmod (x : ℕ) : (UInt8.ofNat (x % 256)).toNat = x % 256 := by
    rw [UInt8.toNat_ofNat']
    omega
  simp only [readCount, if_neg hleft, cons_append, nil_append, if_true, readRun,
    hmod, le32_bytes hmax]
  rw [if_neg (by decide)]

theorem rleDecodeLoop_round
    (hleft : 4 < left) (hcount : readCount value left input = some (len, rest))
    (hout : len ≤ outSize) (hlen : len ≤ left) :
    rleDecodeLoop (fuel + 1) (value :: input) outSize left out =
      rleDecodeLoop fuel rest (outSize - len) (left - len) (out ++ replicate len value) := by
  rw [rleDecodeLoop, if_pos hleft]
  simp only [hcount, Option.bind_some]
  rw [if_neg (by omega)]

/-- A run is decoded, with `n` bytes of the body behind it; a single byte that is not the last one
of the body is followed by another one. -/
theorem rleDecodeLoop_run
    (out) (h1 : 1 ≤ runlength) (hmax : runlength < 2 ^ 32) (hout : runlength ≤ outSize)
    (hrest : runlength = 1 → n ≠ 0 → ∃ next code, rest = next :: code ∧ value ≠ next) :
    rleDecodeLoop (fuel + 1) (runCode value runlength ++ rest) outSize (runlength + n + 4) out =
      rleDecodeLoop fuel rest (outSize - runlength) (n + 4) (out ++ replicate runlength value) := by
  by_cases hone : runlength = 1
  swap
  · obtain ⟨code, hcode, hcount⟩ := readCount_run value (runlength + n + 4)
      (show 2 ≤ runlength by omega) hmax (by omega) rest
    rw [hcode, cons_append, rleDecodeLoop_round (by omega) hcount (by omega) (by omega),
      show runlength + n + 4 - runlength = n + 4 by omega]
  subst hone
  have hcount : readCount value (1 + n + 4) rest = some (1, rest) := by
    unfold readCount
    by_cases hzero : n = 0
    · rw [if_pos (by omega)]
    obtain ⟨next, code, rfl, hne⟩ := hrest rfl hzero
    rw [if_neg (by omega)]
    simp only
    rw [if_neg hne]
  rw [show runCode value 1 ++ rest = value :: rest from rfl,
    rleDecodeLoop_round (by omega) hcount (by omega) (by omega),
    show 1 + n + 4 - 1 = n + 4 by omega]

theorem replicate_pred_append (h1 : 1 ≤ runlength) :
    replicate (runlength - 1) value ++ [value] = replicate runlength value := by
  rw [← replicate_succ', Nat.sub_add_cancel h1]

/-- **The decoder's run** gives the body back, with the bytes of the run it is in. -/
theorem rleDecodeLoop_spec (tail : List UInt8) (body : List UInt8) :
    ∀ value runlength fuel outSize out, 1 ≤ runlength →
      runlength + body.length < 2 ^ 32 → runlength + body.length ≤ outSize →
      (bodyCode runlength (value :: body)).length < fuel →
      rleDecodeLoop fuel (bodyCode runlength (value :: body) ++ tail) outSize
        (runlength + body.length + 4) out =
        some (out ++ replicate (runlength - 1) value ++ value :: body, tail,
          outSize - (runlength + body.length), 4) := by
  induction body with
  | nil =>
    intro value runlength fuel outSize out h1 hmax hout hfuel
    obtain ⟨code, hcode⟩ := runCode_eq_cons value runlength
    rw [bodyCode, hcode, length_cons] at hfuel
    obtain ⟨fuel, rfl⟩ : ∃ n, fuel = n + 1 + 1 := ⟨fuel - 2, by omega⟩
    rw [bodyCode, length_nil, rleDecodeLoop_run out h1 hmax hout (fun _ h0 => absurd rfl h0)]
    rw [append_assoc, replicate_pred_append h1]
    rfl
  | cons next body ih =>
  intro value runlength fuel outSize out h1 hmax hout hfuel
  rw [length_cons] at hmax hout
  rw [bodyCode] at hfuel ⊢
  by_cases heq : value = next
  · -- the run goes on
    subst heq
    rw [if_pos rfl] at hfuel ⊢
    have := ih value (runlength + 1) fuel outSize out (by omega) (by omega) (by omega) hfuel
    rw [length_cons, show runlength + (body.length + 1) = runlength + 1 + body.length by omega,
      this, Nat.add_sub_cancel, ← replicate_pred_append h1]
    simp
  rw [if_neg heq] at hfuel ⊢
  obtain ⟨code, hcode⟩ := runCode_eq_cons value runlength
  rw [hcode, length_append, length_cons] at hfuel
  obtain ⟨fuel, rfl⟩ : ∃ n, fuel = n + 1 := ⟨fuel - 1, by omega⟩
  obtain ⟨rest, hrest⟩ := bodyCode_eq_cons next body 1
  have := ih next 1 fuel (outSize - runlength) (out ++ replicate runlength value)
    (by omega) (by omega) (by omega) (by omega)
  rw [append_assoc, length_cons, rleDecodeLoop_run out h1 (by omega) (by omega)
    (fun _ _ => ⟨next, rest ++ tail, by rw [hrest]; rfl, heq⟩),
    show body.length + 1 + 4 = 1 + body.length + 4 by omega, this,
    show outSize - runlength - (1 + body.length) = outSize - (runlength + (body.length + 1)) by
      omega, ← replicate_pred_append h1]
  simp

/-! ## Planes -/

/-- The bytes that are written fit a buffer of `originalSize + 16` bytes. -/
theorem rleEncodeLoop_length (originalSize left) :
    ∀ input runlength planeSize out, out.length = planeSize → planeSize ≤ sub4 originalSize + 6 →
      (rleEncodeLoop originalSize left input runlength planeSize out).2.1.length =
        (rleEncodeLoop originalSize left input runlength planeSize out).1 ∧
      (rleEncodeLoop originalSize left input runlength planeSize out).1 ≤
        sub4 originalSize + 6 := by
  induction left with
  | zero => intro input runlength planeSize out hlen hle; exact ⟨hlen, hle⟩
  | succ left ih =>
  intro input runlength planeSize out hlen hle
  rcases input with _ | ⟨value, input⟩
  · exact ⟨hlen, hle⟩
  rw [rleEncodeLoop]
  split_ifs with hgo hsame
  · exact ih _ _ _ _ hlen hle
  · have hseven : (runCode value runlength).length ≤ 7 := by
      unfold runCode
      split_ifs <;> simp
    exact ih _ _ _ _ (by rw [length_append, hlen]) (by omega)
  · exact ⟨hlen, hle⟩

/-- What the encoder writes for a plane of `n` bytes stays in a buffer of `n + 16` bytes. -/
theorem rleEncode_length (buffer n) : (rleEncode buffer n).2.length ≤ n + 16 := by
  by_cases h4 : n ≤ 4
  · -- nothing but the last bytes is written
    have hnone : rleEncodeLoop n n buffer 1 0 [] = (0, [], buffer) := by
      rw [rleEncodeLoop.eq_def]
      split
      · rw [if_neg (by omega)]
      · rfl
    unfold rleEncode
    rw [hnone]
    simp only
    split_ifs
    · rw [nil_append, length_take]
      omega
    · exact zero_le _
  · obtain ⟨hlen, hle⟩ := rleEncodeLoop_length n n buffer 1 0 [] rfl (zero_le _)
    have hsub : sub4 n = n - 4 := if_neg (by omega)
    unfold rleEncode
    simp only
    split_ifs
    · rw [length_append, length_take, hlen]
      omega
    · rw [hlen]
      omega

/-- **A plane is given back** from its code where that is shorter. -/
theorem rleEncode_decode (hn : n ≤ buffer.length) (hmax : n < 2 ^ 32)
    (hshort : (rleEncode buffer n).1 < n) : (rleEncode buffer n).2.length = (rleEncode buffer n).1 ∧
      ∀ rest outSize, n ≤ outSize →
        rleDecode ((rleEncode buffer n).2 ++ rest) outSize n = some (buffer.take n, rest) := by
  have h5 : 4 < n := by
    unfold rleEncode at hshort
    simp only at hshort
    omega
  have hsub : sub4 n = n - 4 := if_neg (by omega)
  obtain ⟨body, last, hbuffer, hbody⟩ : ∃ body last, buffer = body ++ last ∧ body.length + 4 = n :=
    ⟨buffer.take (n - 4), buffer.drop (n - 4), (take_append_drop _ _).symm, by
      rw [length_take]
      omega⟩
  have hlast : 4 ≤ last.length := by
    rw [hbuffer, length_append] at hn
    omega
  have htake : buffer.take n = body ++ last.take 4 := by
    rw [hbuffer, ← hbody, take_length_add_append]
  rcases rleEncodeLoop_spec n last body 1 0 [] with hbig | hcode
  · -- a code that has become too long is not shorter than the plane
    rw [hbody, ← hbuffer] at hbig
    unfold rleEncode at hshort
    simp only at hshort
    omega
  rw [hbody, ← hbuffer, Nat.zero_add, nil_append] at hcode
  have henc : rleEncode buffer n =
      ((bodyCode 1 body).length + 4, bodyCode 1 body ++ last.take 4) := by
    unfold rleEncode at hshort ⊢
    rw [hcode] at hshort ⊢
    simp only at hshort ⊢
    rw [if_pos (by omega)]
  have h4 : (last.take 4).length = 4 := length_take_of_le hlast
  rw [henc]
  refine ⟨by rw [length_append, h4], ?_⟩
  intro rest outSize hout
  obtain ⟨value, body, rfl⟩ := exists_cons_of_length_pos (show 0 < body.length by omega)
  rw [length_cons] at hbody
  have hdec := rleDecodeLoop_spec (last.take 4 ++ rest) body value 1
    ((bodyCode 1 (value :: body) ++ last.take 4 ++ rest).length + 1) outSize
    [] (Nat.le_refl 1) (by omega) (by omega) (by simp only [length_append]; omega)
  unfold rleDecode
  rw [append_assoc] at hdec ⊢
  rw [← hbody, Nat.add_comm body.length 1, hdec]
  simp only [Option.bind_some]
  rw [if_neg (by omega), if_neg (by rw [length_append]; omega), take_left' h4,
    drop_left' h4, show 1 + body.length + 4 = n by omega, htake]
  rfl

/-- **A plane stored as it is** is given back. -/
theorem decompressPlane_raw (h1 : 1 ≤ n) (hn : n ≤ rle.length) (hbuf : n ≤ planeBuffersLength) :
    decompressPlane rle planeBuffersLength n n = some (rle.take n) := by
  unfold decompressPlane
  rw [if_neg (by omega), if_neg (by omega), if_neg (by omega), if_neg (by omega), if_neg (by omega)]

/-- **NSCodec's planes are coded without loss.**  The encoder stays in a buffer of `n + 16` bytes.
Where the size it reports is less than `n`, the decoder takes exactly that many bytes and gives the
plane back; else the plane is stored as it is, with its own size, and copied back.  The size of the
buffer, and with it the size the encoder reports, fits in `UINT32`. -/
theorem nsc_planes_lossless (buffer : List UInt8) (n : ℕ) (h1 : 1 ≤ n) (hn : n ≤ buffer.length)
    (hmax : n + 16 < 2 ^ 32) :
    (rleEncode buffer n).2.length ≤ n + 16 ∧ ((rleEncode buffer n).1 < n →
        (rleEncode buffer n).2.length = (rleEncode buffer n).1 ∧
        ∀ (rest : List UInt8) (outSize : ℕ), n ≤ outSize →
          rleDecode ((rleEncode buffer n).2 ++ rest) outSize n = some (buffer.take n, rest)) ∧
      (n ≤ (rleEncode buffer n).1 → compressPlane buffer n = (buffer, n) ∧
        ∀ (rest : List UInt8) (planeBuffersLength : ℕ), n ≤ planeBuffersLength →
          decompressPlane (buffer.take n ++ rest) planeBuffersLength n n =
            some (buffer.take n)) := by
  refine ⟨rleEncode_length buffer n, rleEncode_decode hn (by omega), ?_⟩
  intro hlong
  refine ⟨?_, ?_⟩
  · unfold compressPlane
    rw [if_neg (by omega)]
    simp [if_neg (show ¬ (rleEncode buffer n).1 < n by omega)]
  · intro rest planeBuffersLength hbuf
    have hlen : (buffer.take n).length = n := length_take_of_le hn
    rw [decompressPlane_raw h1 (by rw [length_append]; omega) hbuf, take_left' hlen]

/-- A run of eight bytes and two of another value. -/
theorem nsc_planes_lossless_run :
    rleEncode [7, 7, 7, 7, 7, 7, 7, 7, 1, 2] 10 = (7, [7, 7, 4, 7, 7, 1, 2]) ∧
      rleDecode ([7, 7, 4, 7, 7, 1, 2] ++ [9]) 10 10 =
        some ([7, 7, 7, 7, 7, 7, 7, 7, 1, 2], [9]) := by
  have h : rleEncode [7, 7, 7, 7, 7, 7, 7, 7, 1, 2] 10 = (7, [7, 7, 4, 7, 7, 1, 2]) := by decide
  have hall := nsc_planes_lossless [7, 7, 7, 7, 7, 7, 7, 7, 1, 2] 10 (by decide) (by decide)
    (by decide)
  exact ⟨h, (hall.2.1 (by decide)).2 [9] 10 (by decide)⟩

/-! ## Messages -/

/-- **Step lemma**: a plane in front of the others. -/
theorem decompressPlane_compressPlane (hn : n ≤ buffer.length) (hmax : n < 2 ^ 32)
    (hbuf : n ≤ planeBuffersLength)
    (rest) : ((compressPlane buffer n).1.take (compressPlane buffer n).2).length =
      (compressPlane buffer n).2 ∧
      decompressPlane ((compressPlane buffer n).1.take (compressPlane buffer n).2 ++ rest)
        planeBuffersLength n (compressPlane buffer n).2 = some (buffer.take n) := by
  rcases Nat.eq_zero_or_pos n with rfl | hpos
  · simp [compressPlane, decompressPlane]
  unfold compressPlane
  rw [if_neg (by omega)]
  simp only
  split_ifs with hshort
  · obtain ⟨hlen, hdec⟩ := rleEncode_decode hn hmax hshort
    rw [take_left' (by rw [← hlen, take_length]), ← hlen, take_length]
    refine ⟨rfl, ?_⟩
    have h4 : (rleEncode buffer n).1 ≠ 0 := succ_ne_zero _
    rw [decompressPlane, if_neg (by simp), hlen, if_neg h4, if_pos hshort, hdec _ _ hbuf]
    rfl
  · have hlen : (buffer.take n).length = n := length_take_of_le hn
    refine ⟨hlen, ?_⟩
    rw [decompressPlane_raw hpos (by simp only [length_append, hlen]; omega) hbuf, take_left' hlen]

/-- **The planes are given back**, from their sizes before and after. -/
theorem decompressData_compressData (planes : List (List UInt8 × ℕ))
    (hplanes : ∀ plane ∈ planes, plane.2 ≤ plane.1.length ∧ plane.2 + 16 < 2 ^ 32 ∧
      plane.2 ≤ planeBuffersLength) :
    decompressData planeBuffersLength (writePlanes (compressData planes))
        ((planes.map Prod.snd).zip ((compressData planes).map Prod.snd)) =
      some (planes.map fun plane => plane.1.take plane.2) := by
  induction planes with
  | nil => rfl
  | cons plane planes ih =>
  obtain ⟨⟨hn, hmax, hbuf⟩, hrest⟩ := forall_mem_cons.mp hplanes
  obtain ⟨hlen, hdec⟩ := decompressPlane_compressPlane hn (by omega) hbuf
    (writePlanes (compressData planes))
  have ih := ih hrest
  simp only [compressData, writePlanes, map_cons, zip_cons_cons, decompressData,
    flatMap_cons] at ih hdec ⊢
  rw [hdec, Option.bind_some, drop_left' hlen, ih]
  rfl

/-- A plane does not grow. -/
theorem compressPlane_le (buffer : List UInt8) (n) : (compressPlane buffer n).2 ≤ n := by
  unfold compressPlane
  simp only
  split_ifs with hzero hshort
  · exact Nat.zero_le n
  · exact Nat.le_of_lt hshort
  · exact Nat.le_refl n

/-- The planes in a message are as long as their counts say, and no longer than before. -/
theorem writePlanes_compressData (planes : List (List UInt8 × ℕ))
    (hplanes : ∀ plane ∈ planes, plane.2 ≤ plane.1.length ∧ plane.2 + 16 < 2 ^ 32) :
    (writePlanes (compressData planes)).length = ((compressData planes).map Prod.snd).sum ∧
      ((compressData planes).map Prod.snd).sum ≤ (planes.map Prod.snd).sum ∧
      ∀ count ∈ (compressData planes).map Prod.snd, count < 2 ^ 32 := by
  induction planes with
  | nil => exact ⟨rfl, Nat.le_refl 0, forall_mem_nil _⟩
  | cons plane planes ih =>
  obtain ⟨⟨hn, hmax⟩, hrest⟩ := forall_mem_cons.mp hplanes
  obtain ⟨hwritten, hsum, hcounts⟩ := ih hrest
  have hlen := (decompressPlane_compressPlane hn (by omega) (Nat.le_refl plane.2) []).1
  have hle := compressPlane_le plane.1 plane.2
  simp only [compressData, writePlanes, map_cons, flatMap_cons, length_append, sum_cons, hlen]
    at hwritten hsum hcounts ⊢
  exact ⟨by rw [hwritten], by omega, forall_mem_cons.mpr ⟨by omega, hcounts⟩⟩

theorem readCounts_write (counts : List ℕ) (h : ∀ count ∈ counts, count < 2 ^ 32) (rest) :
    readCounts counts.length (counts.flatMap (leBytes 4) ++ rest) = some (counts, rest) := by
  induction counts with
  | nil => rfl
  | cons count counts ih =>
  obtain ⟨hcount, hcounts⟩ := forall_mem_cons.mp h
  rw [length_cons, readCounts, flatMap_cons, append_assoc, readLE_leBytes hcount, Option.bind_some]
  simp only [ih hcounts, Option.map_some]

/-- **The planes of a message are given back**, from the sizes that both sides compute, if the size
of the message fits in `UINT32`. -/
theorem message_round_trip (planeBuffersLength : ℕ) (planes : List (List UInt8 × ℕ))
    (hfour : planes.length = 4)
    (hplanes : ∀ plane ∈ planes, plane.2 ≤ plane.1.length ∧ plane.2 + 16 < 2 ^ 32 ∧
      plane.2 ≤ planeBuffersLength)
    (htotal : 20 + (planes.map Prod.snd).sum < 2 ^ 32)
    (colorLossLevel chromaSubsamplingLevel : UInt8)
    (hlevel : 1 ≤ colorLossLevel ∧ colorLossLevel ≤ 7) (rest : List UInt8) :
    ∃ message context, writeMessage (compressData planes) colorLossLevel chromaSubsamplingLevel =
        some message ∧
      streamInitialize (message ++ rest) = some context ∧ context.colorLossLevel = colorLossLevel ∧
      context.chromaSubsamplingLevel = chromaSubsamplingLevel ∧
      decompressData planeBuffersLength context.planes
          ((planes.map Prod.snd).zip context.planeByteCount) =
        some (planes.map fun plane => plane.1.take plane.2) := by
  obtain ⟨hwritten, hsum, hcounts⟩ := writePlanes_compressData planes fun plane hplane =>
    ⟨(hplanes plane hplane).1, (hplanes plane hplane).2.1⟩
  have hlength : ((compressData planes).map Prod.snd).length = 4 := by
    rw [length_map, compressData, length_map, hfour]
  have hdata := decompressData_compressData planes hplanes
  set counts := (compressData planes).map Prod.snd with hc
  have hheader : (counts.flatMap (leBytes 4)).length = 16 := by
    simp [length_flatMap, hlength]
  refine ⟨counts.flatMap (leBytes 4) ++ [colorLossLevel, chromaSubsamplingLevel, 0, 0] ++
    writePlanes (compressData planes), ⟨counts, colorLossLevel, chromaSubsamplingLevel,
      writePlanes (compressData planes)⟩, ?_, ?_, rfl, rfl, hdata⟩
  · rw [writeMessage, ← hc]
    refine if_neg ?_
    rw [length_append, length_append, hheader, hwritten,
      Nat.mod_eq_of_lt (show counts.sum < 2 ^ 32 by omega), Nat.mod_eq_of_lt (by omega)]
    exact Nat.lt_irrefl _
  · have hread := readCounts_write counts hcounts
    rw [hlength] at hread
    rw [streamInitialize, append_assoc, append_assoc, hread, Option.bind_some]
    simp only [cons_append, nil_append]
    rw [if_neg (by
        rw [not_or, UInt8.not_lt, UInt8.not_lt]
        exact hlevel), if_neg (by rw [length_append]; omega), take_left' hwritten]

/-- Four planes, one of which becomes shorter. -/
theorem message_round_trip_four : ∃ message context,
    writeMessage (compressData
      [([7, 7, 7, 7, 7, 7, 7, 7, 1, 2], 10), ([1, 2, 3], 2), ([], 0), ([5], 1)])
        3 0 = some message ∧
      streamInitialize message = some context ∧ context.colorLossLevel = 3 ∧
      context.chromaSubsamplingLevel = 0 ∧
      decompressData 10 context.planes ([10, 2, 0, 1].zip context.planeByteCount) =
        some [[7, 7, 7, 7, 7, 7, 7, 7, 1, 2], [1, 2], [], [5]] := by
  obtain ⟨message, context, h⟩ := message_round_trip 10
    [([7, 7, 7, 7, 7, 7, 7, 7, 1, 2], 10), ([1, 2, 3], 2), ([], 0), ([5], 1)] rfl (by decide)
    (by decide) 3 0 (by decide) []
  rw [append_nil] at h
  exact ⟨message, context, h⟩

end WBFreeRDP.Nsc

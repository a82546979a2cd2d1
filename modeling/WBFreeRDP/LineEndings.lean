/-
# Line endings

`ConvertLineEndingToLF` and `ConvertLineEndingToCRLF` of `crt/string.c` against one normal form: a
text in which every CR LF pair, every lone CR and every lone LF is the same line break.
-/
import Mathlib.Data.List.Basic
import Mathlib.Data.List.GetD

namespace WBFreeRDP.LineEndings

open List

def cr : UInt8 := 13
def lf : UInt8 := 10

/-! ## The conversions -/

/-- The loop of `ConvertLineEndingToLF` from index `x` on: the string, rewritten in place, and
`skip`. -/
def toLFLoop : ℕ → ℕ → ℕ → List UInt8 → List UInt8 × ℕ
  | 0, _, skip, str => (str, skip)
  | left + 1, x, skip, str =>
    let c := str.getD x 0
    if c = cr then
      let str := str.set (x - skip) lf
      toLFLoop left (x + 1) (if x + 1 < str.length ∧ str.getD (x + 1) 0 = lf then
        skip + 1 else skip) str
    else toLFLoop left (x + 1) skip (str.set (x - skip) c)

/-- `ConvertLineEndingToLF`: the part of the string that the returned size leaves. -/
def convertLineEndingToLF (str : List UInt8) : List UInt8 :=
  let (str', skip) := toLFLoop str.length 0 0 str
  str'.take (str.length - skip)

/-- The loop of `ConvertLineEndingToCRLF` with the character in front, `none` for `x = 0`. -/
def toCRLFLoop : Option UInt8 → List UInt8 → List UInt8
  | _, [] => []
  | prev, c :: rest =>
    (if c = cr then [cr, lf]
      else if c = lf then
        -- existing CR LF sequences are not duplicated
        if prev ≠ none ∧ prev ≠ some cr then [cr, lf] else []
      else [c]) ++ toCRLFLoop (some c) rest

/-- The size of the buffer: the last character is not among the line breaks that are counted. -/
def crlfCapacity (str : List UInt8) : ℕ :=
  str.length + str.dropLast.countP (fun c => c == cr || c == lf) * 2 + 1

/-- `ConvertLineEndingToCRLF`: nothing for an empty string. -/
def convertLineEndingToCRLF (str : List UInt8) : Option (List UInt8) :=
  if str = [] then none else some (toCRLFLoop none str)

/-! ## The normal form -/

/-- The text with `nl` for every line break. -/
def withBreaks (nl : List UInt8) : List UInt8 → List UInt8
  | [] => []
  | [c] => if c = cr ∨ c = lf then nl else [c]
  | c :: d :: rest =>
    if c = cr ∧ d = lf then nl ++ withBreaks nl rest
    else (if c = cr ∨ c = lf then nl else [c]) ++ withBreaks nl (d :: rest)

theorem withBreaks_cons (h : ¬ (c = cr ∧ rest.head? = some lf)) :
    withBreaks nl (c :: rest) = (if c = cr ∨ c = lf then nl else [c]) ++ withBreaks nl rest := by
  cases rest with
  | nil => exact (append_nil _).symm
  | cons d rest => exact if_neg fun hpair => h ⟨hpair.1, congrArg some hpair.2⟩

theorem withBreaks_pair : withBreaks nl (cr :: lf :: rest) = nl ++ withBreaks nl rest :=
  if_pos ⟨rfl, rfl⟩

/-- **A normal form has the line breaks of its text.** -/
theorem withBreaks_withBreaks (nl t) : withBreaks nl (withBreaks [cr, lf] t) = withBreaks nl t := by
  have hunit : ∀ c u, ¬ (c = cr ∨ c = lf) → withBreaks nl (c :: u) = c :: withBreaks nl u := by
    intro c u hc
    rw [withBreaks_cons fun hpair => hc (.inl hpair.1), if_neg hc, singleton_append]
  induction t using withBreaks.induct with
  | case1 => rfl
  | case2 c hc => simp [withBreaks, hc]
  | case3 c hc => simp [withBreaks, hc]
  | case4 c d rest hpair ih =>
    obtain ⟨rfl, rfl⟩ := hpair
    rw [withBreaks_pair, cons_append, singleton_append, withBreaks_pair, withBreaks_pair, ih]
  | case5 c d rest hpair ih =>
    have hcons : ∀ nl, withBreaks nl (c :: d :: rest) =
        (if c = cr ∨ c = lf then nl else [c]) ++ withBreaks nl (d :: rest) := fun _ => if_neg hpair
    rw [hcons, hcons]
    split_ifs with hc
    · rw [cons_append, singleton_append, withBreaks_pair, ih]
    · rw [singleton_append, singleton_append, hunit c _ hc, ih]

theorem exists_withBreaks (h : t ≠ []) : ∃ c u, withBreaks [cr, lf] t = c :: u ∧ c ≠ lf := by
  obtain ⟨c, rest, rfl⟩ := exists_cons_of_ne_nil h
  by_cases hpair : c = cr ∧ rest.head? = some lf
  · obtain ⟨rfl, hhead⟩ := hpair
    obtain ⟨rest, rfl⟩ := head?_eq_some_iff.mp hhead
    exact ⟨cr, _, withBreaks_pair, by decide⟩
  · rw [withBreaks_cons hpair]
    split_ifs with hc
    · exact ⟨cr, _, rfl, by decide⟩
    · exact ⟨c, _, rfl, fun h => hc (.inr h)⟩

/-! ## The conversions and the normal form -/

/-- Writing behind the text that is done moves the characters that are skipped. -/
theorem set_behind (text skipped : List UInt8) (c v rest) :
    (text ++ skipped ++ c :: rest).set text.length v =
    text ++ v :: (skipped ++ [c]).tail ++ rest := by
  cases skipped <;> simp

/-- **The loop keeps the normal form of what it has read in front of the characters that it
skips.** -/
theorem toLFLoop_eq (rest text skipped : List UInt8) (hx : x = text.length + skipped.length)
    (h : toLFLoop rest.length x skipped.length (text ++ skipped ++ rest) = (str, skip)) :
    str.take (x + rest.length - skip) = text ++ withBreaks [lf] rest := by
  induction rest generalizing x text skipped with
  | nil =>
    cases h
    simp [withBreaks, hx]
  | cons c rest ih =>
  have hread : (text ++ skipped ++ c :: rest).getD x 0 = c := by simp [getD_eq_getElem?_getD, hx]
  have htail : (skipped ++ [c]).tail.length = skipped.length := by simp
  rw [length_cons, toLFLoop, hread, show x - skipped.length = text.length by omega, set_behind,
    set_behind] at h
  rw [length_cons, ← Nat.add_assoc, Nat.add_right_comm x]
  -- what is written is the next character of the text, unless an LF follows that is written over it
  have hone : ∀ v, toLFLoop rest.length (x + 1) skipped.length
        (text ++ v :: (skipped ++ [c]).tail ++ rest) = (str, skip) →
      str.take (x + 1 + rest.length - skip) = text ++ v :: withBreaks [lf] rest := by
    intro v hv
    have hnext := @ih (x + 1) (text ++ [v]) (skipped ++ [c]).tail (by simp; omega)
    rw [htail, append_assoc text, append_assoc text] at hnext
    rw [hnext (by rw [← hv, append_assoc text]; rfl), append_assoc, singleton_append]
  by_cases hc : c = cr
  · subst hc
    rw [if_pos rfl] at h
    have hfront : (text ++ lf :: (skipped ++ [cr]).tail).length = x + 1 := by
      simp [hx]
      omega
    simp only [getD_append_right _ rest _ _ (Nat.le_of_eq hfront), hfront, Nat.sub_self] at h
    split_ifs at h with hpair
    · rw [length_append, hfront, Nat.lt_add_right_iff_pos] at hpair
      obtain ⟨d, rest, rfl⟩ := exists_cons_of_length_pos hpair.1
      obtain rfl : d = lf := hpair.2
      rw [withBreaks_pair,
        @ih (x + 1) text (lf :: (skipped ++ [cr]).tail) (by simp; omega) (by simpa using h),
        withBreaks_cons fun hlf => absurd hlf.1 (by decide)]
      rfl
    · rw [hone lf h, withBreaks_cons]
      · rfl
      · rintro ⟨-, hhead⟩
        obtain ⟨rest, rfl⟩ := head?_eq_some_iff.mp hhead
        exact hpair ⟨by rw [length_append, hfront]; simp, rfl⟩
  · rw [if_neg hc] at h
    rw [hone c h, withBreaks_cons fun hpair => hc hpair.1]
    by_cases hl : c = lf
    · rw [if_pos (.inr hl), hl]
      rfl
    · rw [if_neg (not_or.mpr ⟨hc, hl⟩)]
      rfl

theorem convertLineEndingToLF_eq (t) : convertLineEndingToLF t = withBreaks [lf] t := by
  have h := toLFLoop_eq t [] [] (x := 0) rfl rfl
  rwa [Nat.zero_add] at h

/-- Behind a CR the LF of its pair is left out, since it was written with the CR. -/
theorem toCRLFLoop_some (t p) : toCRLFLoop (some p) t =
    if p = cr ∧ t.head? = some lf then withBreaks [cr, lf] t.tail else withBreaks [cr, lf] t := by
  induction t generalizing p with
  | nil => simp [toCRLFLoop, withBreaks]
  | cons c rest ih =>
  rw [toCRLFLoop, ih]
  by_cases hpair : c = cr ∧ rest.head? = some lf
  · obtain ⟨rfl, hhead⟩ := hpair
    obtain ⟨rest, rfl⟩ := head?_eq_some_iff.mp hhead
    rw [withBreaks_pair, if_pos rfl, if_pos ⟨rfl, rfl⟩,
      if_neg fun h => absurd h.2 (by simp [cr, lf])]
    rfl
  · rw [if_neg hpair, withBreaks_cons hpair, head?_cons, tail_cons]
    by_cases hc : c = cr
    · subst hc
      simp [show cr ≠ lf by decide]
    · by_cases hl : c = lf
      · subst hl
        by_cases hp : p = cr
        · simp [hp, hc]
        · simp [hp, hc]
      · simp [hc, hl]

/-- **Only an LF at the very start is lost.** -/
theorem toCRLFLoop_none (t) : toCRLFLoop none t =
    if t.head? = some lf then withBreaks [cr, lf] t.tail else withBreaks [cr, lf] t := by
  cases t with
  | nil => rfl
  | cons c rest =>
  -- a character that is no LF is treated alike at the start and behind any other but CR
  have hsome := toCRLFLoop_some (c :: rest) cr
  by_cases hl : c = lf
  · subst hl
    simpa [toCRLFLoop, show lf ≠ cr by decide] using hsome
  · simpa [toCRLFLoop, hl] using hsome

theorem withBreaks_length_le (t) : (withBreaks [cr, lf] t).length ≤ crlfCapacity t := by
  unfold crlfCapacity
  induction t using withBreaks.induct with
  | case1 => decide
  | case2 c hc => simp [withBreaks, hc]
  | case3 c hc => simp [withBreaks, hc]
  | case4 c d rest hpair ih =>
    obtain ⟨rfl, rfl⟩ := hpair
    rw [withBreaks_pair]
    rcases rest with _ | ⟨e, rest⟩
    · decide
    · simp at ih ⊢
      omega
  | case5 c d rest hpair ih =>
    rw [withBreaks, if_neg hpair]
    simp only [dropLast_cons_cons, length_cons, countP_cons, length_append] at ih ⊢
    split_ifs with hc <;> simp_all <;> omega

/-- Both conversions give the normal form of their line break, and the second one fits its buffer,
keeps what it has written and does not change what the first one gives. -/
structure Converts (t : List UInt8) : Prop where
  toLF : convertLineEndingToLF t = withBreaks [lf] t
  toCRLF : convertLineEndingToCRLF t = some (withBreaks [cr, lf] t)
  fits : ∀ u, convertLineEndingToCRLF t = some u → u.length ≤ crlfCapacity t
  idempotent : ∀ u, convertLineEndingToCRLF t = some u → convertLineEndingToCRLF u = some u
  backToLF : ∀ u, convertLineEndingToCRLF t = some u →
      convertLineEndingToLF u = convertLineEndingToLF t

/-- **The conversions are right for the texts that do not start with an LF.** -/
theorem converts_iff (t : List UInt8) (hne : t ≠ []) : Converts t ↔ t.head? ≠ some lf := by
  constructor
  · intro h hhead
    obtain ⟨rest, rfl⟩ := head?_eq_some_iff.mp hhead
    have hcrlf := h.toCRLF
    rw [convertLineEndingToCRLF, if_neg hne, toCRLFLoop_none, if_pos hhead, tail_cons,
      withBreaks_cons fun hpair => absurd hpair.1 (by decide)] at hcrlf
    have hlen := congrArg length (Option.some.inj hcrlf)
    simp only [or_true, if_true, length_append, length_cons, length_nil] at hlen
    omega
  · intro hhead
    have hout : convertLineEndingToCRLF t = some (withBreaks [cr, lf] t) := by
      rw [convertLineEndingToCRLF, if_neg hne, toCRLFLoop_none, if_neg hhead]
    refine ⟨convertLineEndingToLF_eq t, hout, ?_, ?_, ?_⟩
    all_goals
      intro u hu
      obtain rfl := Option.some.inj (hout.symm.trans hu)
    · exact withBreaks_length_le t
    · obtain ⟨c, u, hu, hc⟩ := exists_withBreaks hne
      have hlf : (withBreaks [cr, lf] t).head? ≠ some lf := by
        rw [hu, head?_cons]
        exact fun h => hc (Option.some.inj h)
      rw [convertLineEndingToCRLF, if_neg (hu ▸ cons_ne_nil c u), toCRLFLoop_none, if_neg hlf,
        withBreaks_withBreaks]
    · rw [convertLineEndingToLF_eq, convertLineEndingToLF_eq, withBreaks_withBreaks]

/-- A text with a CR LF pair, a lone CR and a lone LF. -/
theorem converts_mixed : Converts [97, cr, lf, 98, cr, 99, lf, 100] :=
  (converts_iff [97, cr, lf, 98, cr, 99, lf, 100] (by decide)).mpr (by decide)

theorem leading_lf_lost : ¬ Converts [lf] := fun h => absurd h.toCRLF (by decide)

end WBFreeRDP.LineEndings

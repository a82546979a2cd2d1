/-
# Reading ASN.1

The decoder of `asn1.c`: the tag and the length in front of every value, and UTC times.
-/
import WBFreeRDP.Tlv
import Mathlib.Tactic.Ring
import Mathlib.Tactic.Linarith

namespace WBFreeRDP.Asn1

open List Nat Option

open Tlv (lengthOctets octetCount)

/-! ## Lengths -/

/-- `readLen`: the length in a `size_t`, the number of octets it took, and what comes behind. -/
def readLen (derCheck : Bool) : List UInt8 → Option (ℕ × ℕ × List UInt8)
  | [] => none
  | b :: s =>
    if b &&& 0x80 ≠ 0 then
      let nBytes := (b &&& 0x7F).toNat
      if s.length < nBytes then none
      else
        let retLen := (s.take nBytes).foldl
          (fun retLen tmp => ((retLen <<< 8) + tmp.toNat) % 2 ^ 64) 0
        if derCheck ∧ 1 + nBytes > 1 ∧ retLen < 128 then none
        else some (retLen, 1 + nBytes, s.drop nBytes)
    else some (b.toNat, 1, s)

/-- The definite forms of a length at the front of octets: one octet below 128, or the number of
octets of the length, 1 to 126, and these octets.  A first octet 0x80 is the indefinite form, 0xff
is reserved. -/
inductive Definite : List UInt8 → ℕ → ℕ → Prop
  | short {b : UInt8} {s : List UInt8} (h : b.toNat < 128) : Definite (b :: s) b.toNat 1
  | long {b : UInt8} {s : List UInt8} {k : ℕ} (hb : b.toNat = 128 + k) (hk : 0 < k ∧ k < 127)
      (hs : k ≤ s.length) : Definite (b :: s) (beNat (s.take k)) (1 + k)

/-- Lengths are read exactly: only definite forms, with their value, and in DER mode the shortest
ones. -/
structure Exact (derCheck : Bool) (s : List UInt8) : Prop where
  sound : ∀ len n rest, readLen derCheck s = some (len, n, rest) → Definite s len n
  shortest : derCheck = true → ∀ len n, Definite s len n →
    ((∃ rest, readLen derCheck s = some (len, n, rest)) ↔
      s.take n = lengthOctets len ∧ len < 2 ^ 64)

/-- The condition on the octets of a long form: the DER check refuses it, or it has 1 to 126 octets
and a value that fits, and in DER mode the first of them is not zero. -/
def Sound (derCheck : Bool) (octets : List UInt8) : Prop :=
  (derCheck ∧ 0 < octets.length ∧ beNat octets % 2 ^ 64 < 128) ∨
    ((0 < octets.length ∧ octets.length < 127) ∧ beNat octets < 2 ^ 64 ∧
      (derCheck → octets.head? ≠ some 0))

theorem foldl_size_t (l) :
    l.foldl (fun retLen tmp => ((retLen <<< 8) + tmp.toNat) % 2 ^ 64) 0 = beNat l % 2 ^ 64 := by
  induction l using List.reverseRecOn with
  | nil => rfl
  | append_singleton l b ih =>
  rw [foldl_append, foldl_cons, foldl_nil, beNat_concat]
  omega

theorem beNat_cons (b l) : beNat (b :: l) = b.toNat * 256 ^ l.length + beNat l := by
  induction l using List.reverseRecOn with
  | nil => simp [beNat, leNat]
  | append_singleton l c ih =>
  rw [← cons_append, beNat_concat, beNat_concat, ih, length_append, length_singleton]
  ring

theorem beNat_lt (l) : beNat l < 256 ^ l.length := by
  induction l with
  | nil => exact Nat.one_pos
  | cons b l ih =>
  have hb := b.toNat_lt
  rw [beNat_cons, length_cons, pow_succ]
  nlinarith

theorem beBytes_beNat (l) : beBytes l.length (beNat l) = l := by
  induction l using List.reverseRecOn with
  | nil => rfl
  | append_singleton l b ih =>
  have hb := b.toNat_lt
  have hdiv : (beNat l * 256 + b.toNat) / 256 = beNat l := by omega
  have hmod : UInt8.ofNat (beNat l * 256 + b.toNat) = b :=
    UInt8.toNat_inj.mp (by rw [UInt8.toNat_ofNat']; omega)
  rw [length_append, length_singleton, beBytes, beNat_concat, leBytes, reverse_cons,
    ← beBytes, hdiv, ih, hmod]

variable {b : UInt8} {s : List UInt8} {derCheck : Bool} {k : ℕ}

/-- The octets of a long form are the shortest ones for their value, exactly if the first is not
zero. -/
theorem lengthOctets_iff (hb : b.toNat = 128 + octets.length) (hlarge : 128 ≤ beNat octets) :
    b :: octets = lengthOctets (beNat octets) ↔ octets.head? ≠ some 0 := by
  rw [lengthOctets, if_neg (by omega)]
  rcases octets with _ | ⟨c, l⟩
  · exact absurd hlarge (by decide)
  have hlt := beNat_lt (c :: l)
  have hcons := beNat_cons c l
  constructor
  · -- with a zero in front the value has fewer octets
    intro h hc
    obtain rfl : c = 0 := by simpa using hc
    have hlen := congrArg List.length h
    simp only [length_cons, beBytes_length, octetCount] at hlen
    have hlog := log_lt_of_lt_pow (b := 256) (by omega) (show beNat (0 :: l) < 256 ^ l.length by
      rw [hcons, UInt8.toNat_zero, Nat.zero_mul, Nat.zero_add]
      exact beNat_lt l)
    omega
  intro hc
  have hpos : 0 < c.toNat := Nat.pos_of_ne_zero fun h0 => hc (congrArg some (UInt8.toNat_inj.mp h0))
  have hcount := Tlv.octetCount_eq l.length
    (hcons ▸ le_add_right_of_le (Nat.le_mul_of_pos_left _ hpos)) hlt
  rw [hcount, ← length_cons (a := c), beBytes_beNat]
  congr 1
  refine UInt8.toNat_inj.mp ?_
  have := b.toNat_lt
  rw [UInt8.toNat_ofNat']
  omega

theorem readLen_short (hb : b.toNat < 128) : readLen derCheck (b :: s) = some (b.toNat, 1, s) := by
  rw [readLen, if_neg (by rw [and_0x80_ne_zero]; omega)]

theorem readLen_long (hb : b.toNat = 128 + k) :
    readLen derCheck (b :: s) = if s.length < k then none
    else if derCheck ∧ 0 < k ∧ beNat (s.take k) % 2 ^ 64 < 128 then none
    else some (beNat (s.take k) % 2 ^ 64, 1 + k, s.drop k) := by
  have hk : (b &&& 0x7F).toNat = k := by
    rw [and_0x7F_toNat b (by omega), hb, Nat.add_sub_cancel_left]
  rw [readLen, if_pos ((and_0x80_ne_zero b).mpr (by omega))]
  simp only [hk, foldl_size_t, Nat.lt_add_right_iff_pos]

theorem definite_long_iff (hb : b.toNat = 128 + k) : Definite (b :: s) len n ↔
    (0 < k ∧ k < 127) ∧ k ≤ s.length ∧ len = beNat (s.take k) ∧ n = 1 + k := by
  constructor
  · rintro (h | ⟨hb', hk, hs⟩)
    · omega
    · obtain rfl := Nat.add_left_cancel (hb.symm.trans hb')
      exact ⟨hk, hs, rfl, rfl⟩
  · rintro ⟨hk, hs, rfl, rfl⟩
    exact .long hb hk hs

theorem exact_short (hb : b.toNat < 128) : Exact derCheck (b :: s) where
  sound len n rest h := by
    cases (readLen_short hb).symm.trans h
    exact .short hb
  shortest _ len n h := by
    cases h with
    | short =>
      have hb' : lengthOctets b.toNat = [b] := by rw [lengthOctets, if_pos hb, UInt8.ofNat_toNat]
      exact iff_of_true ⟨s, readLen_short hb⟩ ⟨hb'.symm, by omega⟩
    | long hb' => omega

theorem exact_long_iff (hb : b.toNat = 128 + k) (hs : k ≤ s.length) :
    Exact derCheck (b :: s) ↔ Sound derCheck (s.take k) := by
  have hlen : (s.take k).length = k := length_take_of_le hs
  have hread := @readLen_long b s derCheck k hb
  rw [if_neg (Nat.not_lt_of_le hs)] at hread
  have hshort (hlarge : 128 ≤ beNat (s.take k)) :
    (b :: s).take (1 + k) = lengthOctets (beNat (s.take k)) ↔
      (s.take k).head? ≠ some 0 := by
    rw [Nat.add_comm, take_succ_cons, lengthOctets_iff (by rw [hb, hlen]) hlarge]
  rw [Sound, hlen]
  by_cases hrefused : derCheck ∧ 0 < k ∧ beNat (s.take k) % 2 ^ 64 < 128
  · -- a value below 128 has a shorter form, a larger one does not fit
    rw [if_pos hrefused] at hread
    refine iff_of_true ⟨fun _ _ _ h => ?_, fun _ len n h => ?_⟩ (.inl hrefused)
    · cases hread.symm.trans h
    obtain ⟨-, -, rfl, rfl⟩ := (definite_long_iff hb).mp h
    refine iff_of_false (fun ⟨_, h⟩ => nomatch hread.symm.trans h) fun ⟨htake, hfits⟩ => ?_
    rw [lengthOctets, if_pos (by omega)] at htake
    have := congrArg List.length htake
    simp only [length_take, length_cons, length_nil] at this
    omega
  rw [if_neg hrefused] at hread
  rw [or_iff_right hrefused]
  have hlarge (hder : derCheck) (hk : 0 < k) : 128 ≤ beNat (s.take k) % 2 ^ 64 :=
    Nat.le_of_not_lt fun h => hrefused ⟨hder, hk, h⟩
  constructor
  · intro h
    obtain ⟨hk, -, hfits, -⟩ := (definite_long_iff hb).mp (h.sound _ _ _ hread)
    refine ⟨hk, by omega, fun hder => ?_⟩
    rw [hfits] at hread
    exact (hshort (hfits ▸ hlarge hder hk.1)).mp
      ((h.shortest hder _ _ (.long hb hk hs)).mp ⟨_, hread⟩).1
  rintro ⟨hk, hfits, hzero⟩
  rw [mod_eq_of_lt hfits] at hread hlarge
  refine ⟨fun _ _ _ h => ?_, fun hder len n h => ?_⟩
  · cases hread.symm.trans h
    exact .long hb hk hs
  · obtain ⟨-, -, rfl, rfl⟩ := (definite_long_iff hb).mp h
    exact iff_of_true ⟨_, hread⟩ ⟨(hshort (hlarge hder hk.1)).mpr (hzero hder), hfits⟩

/-- **The lengths that are read exactly.**  They are those of one octet, those with octets missing,
and the long forms whose octets meet `Sound`. -/
theorem readLen_exact_iff (derCheck : Bool) (s : List UInt8) : Exact derCheck s ↔
    ∀ b rest k, s = b :: rest → b.toNat = 128 + k → k ≤ rest.length →
    Sound derCheck (rest.take k) := by
  constructor
  · rintro h b rest k rfl hb hs
    exact (exact_long_iff hb hs).mp h
  intro h
  rcases s with _ | ⟨b, rest⟩
  · exact ⟨fun _ _ _ h => (nomatch h), fun _ _ _ h => (nomatch h)⟩
  rcases Nat.lt_or_ge b.toNat 128 with hb | hb
  · exact exact_short hb
  obtain ⟨k, hb⟩ := Nat.exists_eq_add_of_le hb
  rcases Nat.lt_or_ge rest.length k with hs | hs
  · refine ⟨fun _ _ _ h => (nomatch ((readLen_long hb).trans (if_pos hs)).symm.trans h),
      fun _ _ _ h => ?_⟩
    obtain ⟨-, hs', -⟩ := (definite_long_iff hb).mp h
    omega
  · exact (exact_long_iff hb hs).mpr (h b rest k rfl hb hs)

/-- The indefinite form is read as the length 0, also in DER mode; a leading zero octet passes the
DER check; and nine octets lose the first. -/
theorem readLen_not_exact : readLen true [0x80] = some (0, 1, []) ∧ ¬ Exact true [0x80] ∧
    readLen true [0x82, 0, 0xff] = some (255, 3, []) ∧ lengthOctets 255 = [0x81, 0xff] ∧
    readLen false [0x89, 1, 0, 0, 0, 0, 0, 0, 0, 5] = some (5, 10, []) := by
  refine ⟨by decide, fun h => ?_, by decide, ?_, by decide⟩
  · exact absurd ((definite_long_iff (k := 0) rfl).mp (h.sound 0 1 [] (by decide))).1.1
      (Nat.lt_irrefl 0)
  · rw [Tlv.lengthOctets_eq 0] <;> decide

/-! ## UTC times -/

/-- `WinPrAsn1_UTCTIME`. -/
structure UtcTime where
  year : ℕ
  month : ℕ
  day : ℕ
  hour : ℕ
  minute : ℕ
  second : ℕ
  tz : UInt8

def write2digit (v : ℕ) : List UInt8 := [UInt8.ofNat (48 + v / 10), UInt8.ofNat (48 + v % 10)]

/-- The content of a time. -/
def UtcTime.content (utc : UtcTime) : List UInt8 :=
  write2digit ((utc.year - 2000) % 256) ++ write2digit utc.month ++ write2digit utc.day ++
    write2digit utc.hour ++ write2digit utc.minute ++ write2digit utc.second ++ [utc.tz]

/-- `WinPrAsn1EncUtcTime`, which asserts a year from 2000 on. -/
def encUtcTime (utc : UtcTime) : Option (List UInt8) :=
  if utc.year < 2000 then none else some (0x17 :: 13 :: utc.content)

/-- `readTagAndLen`: the octets it took, the tag, the length, and what comes behind. -/
def readTagAndLen (derCheck : Bool) : List UInt8 → Option (ℕ × UInt8 × ℕ × List UInt8)
  | [] => none
  | tag :: s => (readLen derCheck s).map fun (len, lenBytes, rest) => (1 + lenBytes, tag, len, rest)

/-- `read2digits`, −1 for anything but two digits. -/
def read2digits (c c' : UInt8) : ℤ :=
  if c.toNat < 48 ∨ 57 < c.toNat then -1
  else if c'.toNat < 48 ∨ 57 < c'.toNat then -1
  else (c.toNat - 48) * 10 + (c'.toNat - 48)

/-- A field of the time: two digits at a place, which must be positive and at most `max`. -/
def utcField (s : List UInt8) (i : ℕ) (max : ℤ) : Option ℕ :=
  let v := read2digits (s.getD i 0) (s.getD (i + 1) 0)
  if v ≤ 0 ∨ max < v then none else some v.toNat

/-- `WinPrAsn1DecReadUtcTime`: the octets it took, the time and what comes behind.  The time zone of
`target` stays where the value has none. -/
def decReadUtcTime (derCheck : Bool) (target : UtcTime) (source : List UInt8) :
    Option (ℕ × UtcTime × List UInt8) := do
  let (ret, tag, len, rest) ← readTagAndLen derCheck source
  if tag ≠ 0x17 ∨ rest.length < len ∨ len < 12 then none
  else
    let s := rest.take len
    let year ← utcField s 0 (65535 - 2000 - 1)
    let month ← utcField s 2 255
    let day ← utcField s 4 255
    let hour ← utcField s 6 255
    let minute ← utcField s 8 255
    let second ← utcField s 10 255
    let tz := if 12 < len then s.getD 12 0 else target.tz
    some (ret + len, ⟨2000 + year, month, day, hour, minute, second, tz⟩, rest.drop len)

/-- The ranges of a calendar time of this century. -/
structure UtcTime.InRange (utc : UtcTime) : Prop where
  year : 2000 ≤ utc.year ∧ utc.year ≤ 2099
  month : 1 ≤ utc.month ∧ utc.month ≤ 12
  day : 1 ≤ utc.day ∧ utc.day ≤ 31
  hour : utc.hour ≤ 23
  minute : utc.minute ≤ 59
  second : utc.second ≤ 59

theorem read2digits_write2digit (hv : v < 100) :
    read2digits (UInt8.ofNat (48 + v / 10)) (UInt8.ofNat (48 + v % 10)) = v := by
  have h : ∀ v : Fin 100, read2digits (UInt8.ofNat (48 + v / 10)) (UInt8.ofNat (48 + v % 10)) =
      v.val := by
    decide +kernel
  exact h ⟨v, hv⟩

theorem utcField_eq {s} {i v} {max} (hv : v < 100) (hmax : 99 ≤ max)
    (h : s.getD i 0 = UInt8.ofNat (48 + v / 10))
    (h' : s.getD (i + 1) 0 = UInt8.ofNat (48 + v % 10)) :
    utcField s i max = if v = 0 then none else some v := by
  rw [utcField, h, h', read2digits_write2digit hv]
  by_cases h0 : v = 0
  · rw [if_pos (.inl (by omega)), if_pos h0]
  · rw [if_neg (by omega), if_neg h0, Int.toNat_natCast]

/-- **A written time read back.**  A field that is zero is taken for an error. -/
theorem decReadUtcTime_encUtcTime {utc : UtcTime} (h : utc.InRange)
    (derCheck : Bool) (target : UtcTime) (rest : List UInt8) :
    ((encUtcTime utc).bind fun bytes => decReadUtcTime derCheck target (bytes ++ rest)) =
      if utc.year ≠ 2000 ∧ utc.hour ≠ 0 ∧ utc.minute ≠ 0 ∧ utc.second ≠ 0 then some (15, utc, rest)
      else none := by
  obtain ⟨⟨hy, hy'⟩, ⟨hm, hm'⟩, ⟨hd, hd'⟩, hh, hmin, hs⟩ := h
  have hlen : readLen derCheck (13 :: (utc.content ++ rest)) = _ := readLen_short (by decide)
  have htake : (utc.content ++ rest).take 13 = utc.content := take_left' rfl
  have hdrop : (utc.content ++ rest).drop 13 = rest := drop_left' rfl
  have hfy : utcField utc.content 0 (65535 - 2000 - 1) = _ :=
    utcField_eq (v := (utc.year - 2000) % 256) (by omega) (by decide) rfl rfl
  have hf (i v : ℕ) (hv : v < 100) (h : utc.content.getD i 0 = UInt8.ofNat (48 + v / 10))
      (h' : utc.content.getD (i + 1) 0 = UInt8.ofNat (48 + v % 10)) :=
    @utcField_eq utc.content i v 255 hv (by decide) h h'
  have hbound : ¬ ((0x17 : UInt8) ≠ 0x17 ∨ (utc.content ++ rest).length < 13 ∨ 13 < 12) := by
    rw [length_append, show utc.content.length = 13 from rfl]
    rintro (h | h | h)
    · exact h rfl
    all_goals omega
  rw [encUtcTime, if_neg (by omega), bind_some, cons_append, cons_append, decReadUtcTime,
    readTagAndLen, hlen, map_some, bind_eq_bind, bind_some]
  simp only [UInt8.reduceToNat, if_neg hbound, htake, hdrop, hfy,
    hf 2 utc.month (by omega) rfl rfl, hf 4 utc.day (by omega) rfl rfl,
    hf 6 utc.hour (by omega) rfl rfl,
    hf 8 utc.minute (by omega) rfl rfl, hf 10 utc.second (by omega) rfl rfl]
  rw [if_neg (by omega : utc.month ≠ 0), if_neg (by omega : utc.day ≠ 0)]
  have hyear : (utc.year - 2000) % 256 = 0 ↔ utc.year = 2000 := by omega
  have hyear' : 2000 + (utc.year - 2000) % 256 = utc.year := by omega
  have htz : utc.content.getD 12 0 = utc.tz := rfl
  rw [htz]
  simp only [hyear]
  by_cases hy0 : utc.year = 2000
  · simp [hy0]
  by_cases hh0 : utc.hour = 0
  · simp [hh0]
  by_cases hmin0 : utc.minute = 0
  · simp [hmin0]
  by_cases hs0 : utc.second = 0
  · simp [hs0]
  simp [hy0, hh0, hmin0, hs0, hyear']

/-- A time in the afternoon. -/
theorem decReadUtcTime_afternoon : ((encUtcTime ⟨2026, 11, 15, 13, 30, 59, 0x5a⟩).bind fun bytes =>
    decReadUtcTime true ⟨0, 0, 0, 0, 0, 0, 0⟩ (bytes ++ [])) =
      some (15, ⟨2026, 11, 15, 13, 30, 59, 0x5a⟩, []) :=
  (decReadUtcTime_encUtcTime (by constructor <;> decide) true _ []).trans (if_pos (by decide))

/-- Midnight is refused. -/
theorem decReadUtcTime_midnight : ((encUtcTime ⟨2026, 11, 15, 0, 30, 59, 0x5a⟩).bind fun bytes =>
    decReadUtcTime true ⟨0, 0, 0, 0, 0, 0, 0⟩ bytes).isNone := by
  decide +kernel

end WBFreeRDP.Asn1

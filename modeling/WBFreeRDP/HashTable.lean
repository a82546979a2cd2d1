/-
# WinPR's hash table

`HashTable.c`: buckets of chained pairs, which are rehashed when the table has become too full.
Objects are compared by address where the source compares pointers.
-/
import Mathlib.Data.Rat.Floor
import Mathlib.Data.Int.Log
import Mathlib.Data.Nat.Prime.Infinite
import Mathlib.Data.Nat.Prime.Basic
import WBFreeRDP.ClassMap

namespace WBFreeRDP

open Nat Option
open List hiding count

/-- `wObject`: how a table copies and frees the objects it is given.  A copy is made by
`fnObjectNew freed`, where `freed` says that the object has been freed just before. -/
structure WObject (α : Type*) where
  fnObjectNew : Option (Bool → α → α)
  fnObjectFree : Bool

/-- `wKeyValuePair`, without its `next`. -/
structure KeyValuePair (K V : Type*) where
  key : K
  value : V
  markedForRemove : Bool

/-- What a table is set up with. -/
structure HashTableSetup (K V : Type*) where
  hash : K → UInt32
  equals : K → K → Bool
  key : WObject K
  value : WObject V

/-- `wHashTable`: the chains of its buckets, and its counters. -/
structure HashTable (K V : Type*) where
  bucketArray : List (List (KeyValuePair K V))
  numOfElements : ℕ
  foreachRecursionLevel : ℕ
  pendingRemoves : ℕ

namespace HashTable

variable {K V : Type*}

/-! ## The number of buckets -/

/-- `idealRatio` of a new table. -/
def idealRatio : ℚ := 3

/-- `lowerRehashThreshold` of a new table. -/
def lowerRehashThreshold : ℚ := 0

/-- `upperRehashThreshold` of a new table. -/
def upperRehashThreshold : ℚ := 15

/-- The `float` nearest to a number that is not negative: 24 bits, and the even one of two. -/
def toFloat (x : ℚ) : ℚ :=
  if x = 0 then 0
  else
    let ulp : ℚ := 2 ^ (Int.log 2 x - 23)
    let m := ⌊x / ulp⌋
    let r := x / ulp - m
    (if r < 1 / 2 ∨ r = 1 / 2 ∧ m % 2 = 0 then m else m + 1 : ℤ) * ulp

/-- The numbers `HashTable_IsProbablePrime` divides by. -/
def oddDivisors : List ℕ := (List.range 24).map (2 * · + 3)

/-- The loop of `HashTable_IsProbablePrime`. -/
def isProbablePrimeLoop (oddNumber : ℕ) : List ℕ → Bool
  | [] => true
  | i :: rest =>
    if oddNumber = i then true
    else if oddNumber % i = 0 then false
    else isProbablePrimeLoop oddNumber rest

def isProbablePrime (oddNumber : ℕ) : Bool := isProbablePrimeLoop oddNumber oddDivisors

theorem isProbablePrimeLoop_of_forall (h : ∀ i ∈ is, n % i ≠ 0) :
    isProbablePrimeLoop n is = true := by
  induction is with
  | nil => rfl
  | cons i rest ih =>
  rw [isProbablePrimeLoop, if_neg (h i mem_cons_self), ih fun j hj => h j (mem_cons_of_mem _ hj)]
  exact ite_self _

/-- **The search for a number of buckets ends**: above an odd number there is a prime, and adding 2
reaches it. -/
theorem exists_isProbablePrime (hn : n % 2 = 1) : ∃ k, isProbablePrime (n + 2 * k) = true := by
  obtain ⟨p, hle, hp⟩ := exists_infinite_primes (n + 51)
  have hodd : p % 2 = 1 := hp.eq_two_or_odd.resolve_left (by omega)
  refine ⟨(p - n) / 2, ?_⟩
  rw [show n + 2 * ((p - n) / 2) = p by omega]
  refine isProbablePrimeLoop_of_forall fun i hi h0 => ?_
  have hi' : 3 ≤ i ∧ i < 51 := by
    rw [oddDivisors, List.mem_map] at hi
    obtain ⟨j, hj, rfl⟩ := hi
    rw [mem_range] at hj
    omega
  rcases (dvd_prime hp).mp (dvd_of_mod_eq_zero h0) with h | h
  · omega
  · omega

/-- The number of buckets `HashTable_CalculateIdealNumOfBuckets` starts from. -/
def firstNumOfBuckets (numOfElements : ℕ) : ℕ :=
  let idealNumOfBuckets := ⌊toFloat (toFloat numOfElements / idealRatio)⌋.toNat
  if idealNumOfBuckets < 5 then 5 else idealNumOfBuckets ||| 1

theorem firstNumOfBuckets_odd (numOfElements) : firstNumOfBuckets numOfElements % 2 = 1 := by
  unfold firstNumOfBuckets
  simp only
  split_ifs
  · rfl
  · exact or_mod_two_eq_one.mpr (Or.inr rfl)

/-- `HashTable_CalculateIdealNumOfBuckets`: 2 is added until the number may be a prime. -/
def calculateIdealNumOfBuckets (numOfElements : ℕ) : ℕ :=
  firstNumOfBuckets numOfElements +
    2 * Nat.find (exists_isProbablePrime (firstNumOfBuckets_odd numOfElements))

/-! ## The table -/

/-- `HashTable_New`. -/
def new : HashTable K V where
  bucketArray := List.replicate 64 []
  numOfElements := 0
  foreachRecursionLevel := 0
  pendingRemoves := 0

def numOfBuckets (t : HashTable K V) : ℕ := t.bucketArray.length

def pairs (t : HashTable K V) : List (KeyValuePair K V) := t.bucketArray.flatten

/-- `(float)numOfElements / (float)numOfBuckets`. -/
def elementToBucketRatio (t : HashTable K V) : ℚ :=
  toFloat (toFloat t.numOfElements / toFloat t.numOfBuckets)

/-- A pair is put in front of the chain of its bucket. -/
def push (cfg : HashTableSetup K V) (buckets : List (List (KeyValuePair K V)))
    (pair : KeyValuePair K V) : List (List (KeyValuePair K V)) :=
  let hashValue := (cfg.hash pair.key).toNat % buckets.length
  buckets.set hashValue (pair :: buckets.getD hashValue [])

/-- `HashTable_Rehash`; `newBucketArray` says whether there is memory for the new buckets. -/
def rehash (cfg : HashTableSetup K V) (t : HashTable K V) (numOfBuckets : ℕ)
    (newBucketArray : Bool) : HashTable K V :=
  let numOfBuckets :=
    if numOfBuckets = 0 then calculateIdealNumOfBuckets t.numOfElements else numOfBuckets
  if numOfBuckets = t.numOfBuckets then t
  else if newBucketArray then
    { t with bucketArray := t.pairs.foldl (push cfg) (List.replicate numOfBuckets []) }
  else t

/-- The bucket of a key. -/
def hashValue (cfg : HashTableSetup K V) (t : HashTable K V) (key : K) : ℕ :=
  (cfg.hash key).toNat % t.numOfBuckets

def chain (cfg : HashTableSetup K V) (t : HashTable K V) (key : K) : List (KeyValuePair K V) :=
  t.bucketArray.getD (t.hashValue cfg key) []

/-- `HashTable_Equals`. -/
def pairEquals (cfg : HashTableSetup K V) (key : K) (pair : KeyValuePair K V) : Bool :=
  cfg.equals key pair.key

/-- `HashTable_Get`. -/
def get (cfg : HashTableSetup K V) (t : HashTable K V) (key : K) : Option (KeyValuePair K V) :=
  (t.chain cfg key).find? (pairEquals cfg key)

/-- The chain of a key with the first pair of that key replaced by others. -/
def setChain (cfg : HashTableSetup K V) (t : HashTable K V) (key : K)
    (others : List (KeyValuePair K V)) : HashTable K V :=
  let before := (t.chain cfg key).takeWhile fun pair => !pairEquals cfg key pair
  let after := ((t.chain cfg key).dropWhile fun pair => !pairEquals cfg key pair).tail
  { t with bucketArray := t.bucketArray.set (t.hashValue cfg key) (before ++ others ++ after) }

/-- `setKey` and `setValue`: the old object is freed, the new one is copied where the table has a
callback for it.  A pair that is new has no old object. -/
def setObject {α : Type*} [DecidableEq α] (obj : WObject α) (old : Option α) (new : α) : α :=
  match obj.fnObjectNew with
  | none => new
  | some fnObjectNew => fnObjectNew (obj.fnObjectFree && old = some new) new

section Operations

variable [DecidableEq K] [DecidableEq V]

/-- `HashTable_Insert`; `newPair` and `newBucketArray` say whether there is memory. -/
def insert (cfg : HashTableSetup K V) (t : HashTable K V) (key : K) (value : V)
    (newPair newBucketArray : Bool) : Bool × HashTable K V :=
  match t.get cfg key with
  | some pair =>
    -- an entry that was to be removed is recycled
    let t := if pair.markedForRemove then
        { t with pendingRemoves := t.pendingRemoves - 1, numOfElements := t.numOfElements + 1 }
      else t
    let pair := { pair with
      key := if pair.key ≠ key then setObject cfg.key (some pair.key) key else pair.key
      value := if pair.value ≠ value then setObject cfg.value (some pair.value) value
        else pair.value
      markedForRemove := false }
    (true, t.setChain cfg key [pair])
  | none =>
    if newPair then
      let pair : KeyValuePair K V :=
        { key := setObject cfg.key none key
          value := setObject cfg.value none value
          markedForRemove := false }
      let t := { t with
        bucketArray := t.bucketArray.set (t.hashValue cfg key) (pair :: t.chain cfg key)
        numOfElements := t.numOfElements + 1 }
      if t.foreachRecursionLevel = 0 ∧ idealRatio < upperRehashThreshold ∧
          upperRehashThreshold < t.elementToBucketRatio then
        (true, t.rehash cfg 0 newBucketArray)
      else (true, t)
    else (false, t)

/-- `HashTable_Remove`. -/
def remove (cfg : HashTableSetup K V) (t : HashTable K V) (key : K) (newBucketArray : Bool) :
    Bool × HashTable K V :=
  match t.get cfg key with
  | none => (false, t)
  | some pair =>
    if t.foreachRecursionLevel ≠ 0 then
      (true, { t.setChain cfg key [{ pair with markedForRemove := true }] with
        pendingRemoves := t.pendingRemoves + 1, numOfElements := t.numOfElements - 1 })
    else
      let t := { t.setChain cfg key [] with numOfElements := t.numOfElements - 1 }
      if 0 < lowerRehashThreshold ∧ t.elementToBucketRatio < lowerRehashThreshold then
        (true, t.rehash cfg 0 newBucketArray)
      else (true, t)

def getItemValue (cfg : HashTableSetup K V) (t : HashTable K V) (key : K) : Option V :=
  match t.get cfg key with
  | some pair => if pair.markedForRemove then none else some pair.value
  | none => none

def setItemValue (cfg : HashTableSetup K V) (t : HashTable K V) (key : K) (value : V) :
    Bool × HashTable K V :=
  match t.get cfg key with
  | none => (false, t)
  | some pair =>
    if pair.markedForRemove then (false, t)
    else
      (true, t.setChain cfg key
        [{ pair with value := setObject cfg.value (some pair.value) value }])

/-- The loops of `HashTable_Clear` over the buckets, `n` rounds at most: the pairs that are freed.
In an iteration a pair is marked, and stays the pair of the next round. -/
def clearLoop (foreachRecursionLevel : ℕ) :
    ℕ → List (List (KeyValuePair K V)) → List (KeyValuePair K V) → Option (List (KeyValuePair K V))
  | 0, _, _ => none
  | _ + 1, [], freed => some freed
  | n + 1, [] :: buckets, freed => clearLoop foreachRecursionLevel n buckets freed
  | n + 1, (pair :: chain) :: buckets, freed =>
    if foreachRecursionLevel ≠ 0 then
      clearLoop foreachRecursionLevel n
        (({ pair with markedForRemove := true } :: chain) :: buckets) freed
    else clearLoop foreachRecursionLevel n (chain :: buckets) (freed ++ [pair])

/-- `HashTable_Clear`: `none` if the loops do not end.  A round leaves a bucket or frees a pair,
unless it stays at a pair. -/
def clear (cfg : HashTableSetup K V) (t : HashTable K V) (newBucketArray : Bool) :
    Option (HashTable K V) :=
  (clearLoop t.foreachRecursionLevel (t.bucketArray.length + t.pairs.length + 1) t.bucketArray
    []).map fun _ =>
      let t' := { t with bucketArray := t.bucketArray.map fun _ => [], numOfElements := 0 }
      if t.foreachRecursionLevel = 0 then t'.rehash cfg 5 newBucketArray else t'

/-- `HashTable_GetKeys`: what it returns and the keys it gives out; `pKeys` says whether there is
memory for them. -/
def getKeys (t : HashTable K V) (pKeys : Bool) : ℕ × Option (List K) :=
  if t.numOfElements < 1 then (0, none)
  else if pKeys then
    (t.numOfElements, some ((t.pairs.filter fun pair => !pair.markedForRemove).map (·.key)))
  else (0, none)

def containsKey (cfg : HashTableSetup K V) (t : HashTable K V) (key : K) : Bool :=
  match t.get cfg key with
  | some pair => !pair.markedForRemove
  | none => false

/-! ## Runs -/

/-- A call of the table's interface, with the memory there is for it. -/
inductive Op (K V : Type*) where
  | insert (key : K) (value : V) (newPair newBucketArray : Bool)
  | remove (key : K) (newBucketArray : Bool)
  | setItemValue (key : K) (value : V)
  | clear (newBucketArray : Bool)
  | getItemValue (key : K)
  | containsKey (key : K)
  | getKeys (pKeys : Bool)
  | count

/-- What a call returns. -/
inductive Ret (K V : Type*) where
  | bool (status : Bool)
  | value (value : Option V)
  | keys (count : ℕ) (keys : Option (List K))
  | count (numOfElements : ℕ)
  | void

/-- One call. -/
def step (cfg : HashTableSetup K V) (t : HashTable K V) : Op K V → Option (Ret K V × HashTable K V)
  | .insert key value newPair newBucketArray =>
    let (status, t) := t.insert cfg key value newPair newBucketArray
    some (.bool status, t)
  | .remove key newBucketArray =>
    let (status, t) := t.remove cfg key newBucketArray
    some (.bool status, t)
  | .setItemValue key value =>
    let (status, t) := t.setItemValue cfg key value
    some (.bool status, t)
  | .clear newBucketArray => (t.clear cfg newBucketArray).map fun t => (.void, t)
  | .getItemValue key => some (.value (t.getItemValue cfg key), t)
  | .containsKey key => some (.bool (t.containsKey cfg key), t)
  | .getKeys pKeys =>
    let (count, keys) := t.getKeys pKeys
    some (.keys count keys, t)
  | .count => some (.count t.numOfElements, t)

/-- A sequence of calls. -/
def run (cfg : HashTableSetup K V) : HashTable K V → List (Op K V) → Option (HashTable K V)
  | t, [] => some t
  | t, op :: ops => (step cfg t op).bind fun (_, t) => run cfg t ops

/-- An object is not given to `HashTable_SetItemValue` as the new value where it is the one the
table holds for that key and would free and then copy. -/
def Op.Ok (cfg : HashTableSetup K V) (t : HashTable K V) : Op K V → Prop
  | .setItemValue key value => cfg.value.fnObjectFree = true → cfg.value.fnObjectNew.isSome →
    (t.get cfg key).map (·.value) ≠ some value
  | _ => True

end Operations

/-! ## Buckets -/

section Buckets

variable {cfg : HashTableSetup K V} {buckets : List (List (KeyValuePair K V))}

def Placed (cfg : HashTableSetup K V) (buckets : List (List (KeyValuePair K V))) : Prop :=
  ∀ i, ∀ pair ∈ buckets.getD i [], (cfg.hash pair.key).toNat % buckets.length = i

theorem Placed.replicate (n) : Placed cfg (List.replicate n []) := by
  intro i pair hpair
  have hnil : (List.replicate n ([] : List (KeyValuePair K V))).getD i [] = [] := by
    rw [getD_eq_getElem?_getD, List.getElem?_replicate]
    split_ifs
    · rfl
    · rfl
  rw [hnil] at hpair
  cases hpair

theorem Placed.set (h : Placed cfg buckets) {chain}
    (hchain : ∀ pair ∈ chain, (cfg.hash pair.key).toNat % buckets.length = i) :
    Placed cfg (buckets.set i chain) := by
  intro j pair hpair
  rw [length_set]
  by_cases hij : i = j
  · subst hij
    by_cases hi : i < buckets.length
    · rw [getD_eq_getElem _ _ (by rwa [length_set]), getElem_set_self] at hpair
      exact hchain pair hpair
    · rw [set_eq_of_length_le (by omega)] at hpair
      exact h i pair hpair
  · have hget : (buckets.set i chain).getD j [] = buckets.getD j [] := by
      rw [getD_eq_getElem?_getD, getD_eq_getElem?_getD, List.getElem?_set_ne hij]
    rw [hget] at hpair
    exact h j pair hpair

theorem push_placed (h : Placed cfg buckets) (pair) : Placed cfg (push cfg buckets pair) := by
  refine h.set ?_
  intro other hother
  rcases mem_cons.mp hother with rfl | hmem
  · rfl
  · exact h _ other hmem

theorem push_perm (hpos : 0 < buckets.length) (pair) :
    (push cfg buckets pair).flatten.Perm (pair :: buckets.flatten) := by
  have hi := mod_lt (cfg.hash pair.key).toNat hpos
  exact (ClassMap.flatten_perm_set buckets hi _).trans
    ((ClassMap.flatten_perm_getD buckets hi).symm.cons pair)

theorem push_length (pair) : (push cfg buckets pair).length = buckets.length :=
  length_set

/-- **The loop of a rehash** puts every pair in its new bucket. -/
theorem foldl_push (l : List (KeyValuePair K V)) (buckets : List (List (KeyValuePair K V)))
    (hpos : 0 < buckets.length) (h : Placed cfg buckets) :
    (l.foldl (push cfg) buckets).length = buckets.length ∧ Placed cfg (l.foldl (push cfg) buckets) ∧
      (l.foldl (push cfg) buckets).flatten.Perm (l ++ buckets.flatten) := by
  induction l generalizing buckets with
  | nil => exact ⟨rfl, h, List.Perm.refl _⟩
  | cons pair l ih =>
  obtain ⟨hlen, hplaced, hperm⟩ :=
    ih (push cfg buckets pair) (by rwa [push_length]) (push_placed h pair)
  refine ⟨hlen.trans (push_length pair), hplaced, ?_⟩
  refine hperm.trans (((push_perm hpos pair).append_left l).trans ?_)
  exact perm_middle

theorem calculateIdealNumOfBuckets_pos {numOfElements} :
    0 < calculateIdealNumOfBuckets numOfElements := by
  have hodd := firstNumOfBuckets_odd numOfElements
  unfold calculateIdealNumOfBuckets
  omega

end Buckets

/-- Outside of an iteration, or with empty chains, the loops end and free each pair once. -/
theorem clearLoop_ends (buckets : List (List (KeyValuePair K V)))
    (h : level = 0 ∨ buckets.flatten = []) (freed) :
    clearLoop level (buckets.length + buckets.flatten.length + 1) buckets freed =
      some (freed ++ buckets.flatten) := by
  induction buckets generalizing freed with
  | nil => exact congrArg some (append_nil freed).symm
  | cons chain buckets ih =>
  induction chain generalizing freed with
  | nil =>
    rw [length_cons, flatten_cons, nil_append, Nat.add_right_comm buckets.length, clearLoop]
    exact ih h freed
  | cons pair chain ihchain =>
  have hlevel : level = 0 := h.resolve_right (cons_ne_nil _ _)
  have hchain := ihchain (.inl hlevel) (freed ++ [pair])
  rw [append_assoc] at hchain
  exact (if_neg (not_not.mpr hlevel)).trans hchain

/-! ## The finite map -/

section Map

variable [s : Setoid K] {W : Type*}

/-- Callbacks that do what they are for: the keys of a class are equal and have one hash, and a copy
of an object that has not been freed is like the object. -/
structure Lawful (cfg : HashTableSetup K V) (content : V → W) : Prop where
  equals_iff : ∀ a b, cfg.equals a b = true ↔ a ≈ b
  hash_eq : ∀ {a b}, a ≈ b → cfg.hash a = cfg.hash b
  key_new : ∀ {fnObjectNew}, cfg.key.fnObjectNew = some fnObjectNew →
      ∀ key, fnObjectNew false key ≈ key
  value_new : ∀ {fnObjectNew}, cfg.value.fnObjectNew = some fnObjectNew → ∀ value,
    content (fnObjectNew false value) = content value

open scoped Classical in
/-- What a call does to a finite map of contents, keyed by classes. -/
noncomputable def mapStep (content : V → W) (m : Quotient s → Option W) :
    Op K V → Quotient s → Option W
  | .insert key value newPair _ =>
    if newPair ∨ (m ⟦key⟧).isSome then ClassMap.put m ⟦key⟧ (some (content value)) else m
  | .remove key _ => ClassMap.put m ⟦key⟧ none
  | .setItemValue key value =>
    if (m ⟦key⟧).isSome then ClassMap.put m ⟦key⟧ (some (content value)) else m
  | .clear _ => fun _ => none
  | _ => m

/-- The finite map after a sequence of calls. -/
noncomputable def mapRun (content : V → W) (ops : List (Op K V)) : Quotient s → Option W :=
  ops.foldl (mapStep content) fun _ => none

def Returns (content : V → W) (m : Quotient s → Option W) : Op K V → Ret K V → Prop
  | .insert key _ newPair _, ret => ret = .bool (newPair || (m ⟦key⟧).isSome)
  | .remove key _, ret => ret = .bool (m ⟦key⟧).isSome
  | .setItemValue key _, ret => ret = .bool (m ⟦key⟧).isSome
  | .clear _, ret => ret = .void
  | .getItemValue key, ret => ∃ value, ret = .value value ∧ value.map content = m ⟦key⟧
  | .containsKey key, ret => ret = .bool (m ⟦key⟧).isSome
  | .getKeys pKeys, ret =>
    if pKeys then
      ∃ count keys, ret = .keys count keys ∧ {c | (m c).isSome}.encard = count ∧
        ((keys.getD []).map (Quotient.mk s)).Nodup ∧
        ∀ c : Quotient s, c ∈ (keys.getD []).map (Quotient.mk s) ↔ (m c).isSome
    else ret = .keys 0 none
  | .count, ret => ∃ count, ret = .count count ∧ {c | (m c).isSome}.encard = count

/-! ## The invariant -/

/-- A table that is not iterated over and holds the pairs of a finite map. -/
structure Inv (cfg : HashTableSetup K V) (t : HashTable K V)
    (m : Quotient s → Option (KeyValuePair K V)) : Prop where
  numOfBuckets_pos : 0 < t.bucketArray.length
  placed : Placed cfg t.bucketArray
  unmarked : ∀ pair ∈ t.pairs, pair.markedForRemove = false
  numOfElements_eq : t.numOfElements = t.pairs.length
  outside : t.foreachRecursionLevel = 0
  holds : ClassMap.Holds (·.key) t.pairs m

section Steps

variable {cfg : HashTableSetup K V} {content : V → W} {t : HashTable K V}
  {m : Quotient s → Option (KeyValuePair K V)} {key : K} {pair : KeyValuePair K V}

theorem hashValue_lt (h : Inv cfg t m) (key) : t.hashValue cfg key < t.bucketArray.length :=
  mod_lt _ h.numOfBuckets_pos

theorem new_inv : Inv cfg (new : HashTable K V) fun _ : Quotient s => none where
  numOfBuckets_pos := by
    rw [new, length_replicate]
    decide
  placed := Placed.replicate 64
  unmarked := by
    intro pair hpair
    cases hpair
  numOfElements_eq := rfl
  outside := rfl
  holds := ClassMap.Holds.nil

/-- **A rehash** changes the buckets only. -/
theorem rehash_inv (h : Inv cfg t m) (n : ℕ) (newBucketArray : Bool) :
    Inv cfg (t.rehash cfg n newBucketArray) m := by
  unfold rehash
  simp only
  generalize hn' : (if n = 0 then calculateIdealNumOfBuckets t.numOfElements else n) = n'
  split_ifs with hsame
  · exact h
  · have hpos : 0 < n' := by
      rw [← hn']
      split_ifs with hzero
      · exact calculateIdealNumOfBuckets_pos
      · omega
    obtain ⟨hlen, hplaced, hperm⟩ := foldl_push t.pairs
      (replicate n' []) (by rwa [length_replicate]) (Placed.replicate n')
    rw [flatten_replicate_nil, append_nil] at hperm
    rw [length_replicate] at hlen
    refine ⟨by rwa [hlen], hplaced, ?_, ?_, h.outside, h.holds.perm hperm.symm⟩
    · intro pair hpair
      exact h.unmarked pair (hperm.mem_iff.mp hpair)
    · exact h.numOfElements_eq.trans hperm.length_eq.symm
  · exact h

section

variable (hl : Lawful cfg content)
include hl

section

variable (h : Inv cfg t m)
include h

theorem get_eq_none (hget : t.get cfg key = none) : m ⟦key⟧ = none := by
  refine h.holds.eq_none ?_
  intro pair hpair hkey
  obtain ⟨bucket, hbucket, hmem⟩ := mem_flatten.mp hpair
  obtain ⟨i, hi, rfl⟩ := mem_iff_getElem.mp hbucket
  -- the pair is in the chain of its hash, which is that of the key
  have hplace := h.placed i pair (by rwa [getD_eq_getElem _ _ hi])
  rw [← hl.hash_eq hkey] at hplace
  have hchain : pair ∈ t.chain cfg key := by
    unfold chain hashValue numOfBuckets
    rw [hplace, getD_eq_getElem _ _ hi]
    exact hmem
  have hno := List.find?_eq_none.mp hget pair hchain
  exact hno ((hl.equals_iff _ _).mpr hkey)

section

variable (hget : t.get cfg key = some pair)
include hget

/-- **The chain of a key that is found**: its pair may be replaced by others of its hash. -/
theorem get_eq_some : key ≈ pair.key ∧ pair ∈ t.pairs ∧ ∃ rest, t.pairs.Perm (pair :: rest) ∧
      ∀ others, (∀ other ∈ others, other.key ≈ key) →
        (t.setChain cfg key others).pairs.Perm (others ++ rest) ∧
        Placed cfg (t.setChain cfg key others).bucketArray := by
  have hi := hashValue_lt h key
  have hequal : pairEquals cfg key pair = true := List.find?_some hget
  obtain ⟨-, before, after, hchain, hbefore⟩ := List.find?_eq_some_iff_append.mp hget
  have htake : (t.chain cfg key).takeWhile (fun pair => !pairEquals cfg key pair) = before := by
    rw [hchain, takeWhile_append_of_pos (fun other hother => by
      rw [Bool.not_eq_true']; exact Bool.eq_false_iff.mpr (by simpa using hbefore other hother)),
      takeWhile_cons_of_neg (by simp [hequal]), append_nil]
  have hdrop : ((t.chain cfg key).dropWhile fun pair => !pairEquals cfg key pair).tail = after := by
    rw [hchain, dropWhile_append_of_pos (fun other hother => by
      rw [Bool.not_eq_true']; exact Bool.eq_false_iff.mpr (by simpa using hbefore other hother)),
      dropWhile_cons_of_neg (by simp [hequal]), tail_cons]
  have hpairs := ClassMap.flatten_perm_getD t.bucketArray hi
  rw [show t.bucketArray.getD (t.hashValue cfg key) [] = before ++ pair :: after from hchain,
    append_assoc] at hpairs
  refine ⟨(hl.equals_iff _ _).mp hequal, ?_, before ++ (after ++
    (t.bucketArray.eraseIdx (t.hashValue cfg key)).flatten), hpairs.trans perm_middle, ?_⟩
  · exact hpairs.mem_iff.mpr (mem_append_right _ mem_cons_self)
  intro others hothers
  unfold setChain
  rw [htake, hdrop]
  refine ⟨?_, h.placed.set ?_⟩
  · refine (ClassMap.flatten_perm_set t.bucketArray hi _).trans ?_
    rw [append_assoc, append_assoc]
    exact perm_append_comm_assoc _ _ _
  intro other hother
  have hold : ∀ other ∈ t.chain cfg key,
      (cfg.hash other.key).toNat % t.bucketArray.length = t.hashValue cfg key :=
    fun other hother => h.placed _ other hother
  rw [mem_append, mem_append] at hother
  rcases hother with (hmem | hmem) | hmem
  · exact hold other (by rw [hchain]; exact mem_append_left _ hmem)
  · rw [hl.hash_eq (hothers other hmem)]
    rfl
  · exact hold other (by rw [hchain]; exact mem_append_right _ (mem_cons_of_mem _ hmem))

theorem replace_inv (hkey : pair'.key ≈ key) (hmark : pair'.markedForRemove = false) :
    Inv cfg (t.setChain cfg key [pair']) (ClassMap.put m ⟦key⟧ (some pair')) := by
  obtain ⟨hequal, -, rest, hperm, hset⟩ := get_eq_some hl h hget
  obtain ⟨hperm', hplaced⟩ := hset [pair'] fun other hother => by
    rw [mem_singleton.mp hother]
    exact hkey
  have hholds := (h.holds.perm hperm).replace (Setoid.trans hkey hequal)
  rw [← Quotient.sound hequal] at hholds
  refine ⟨?_, hplaced, ?_, ?_, h.outside, hholds.perm hperm'.symm⟩
  · unfold setChain
    rw [length_set]
    exact h.numOfBuckets_pos
  · intro other hother
    rcases mem_cons.mp (hperm'.mem_iff.mp hother) with rfl | hmem
    · exact hmark
    · exact h.unmarked other (hperm.mem_iff.mpr (mem_cons_of_mem _ hmem))
  · exact h.numOfElements_eq.trans (hperm.length_eq.trans hperm'.length_eq.symm)

theorem erase_inv : Inv cfg { t.setChain cfg key [] with numOfElements := t.numOfElements - 1 }
      (ClassMap.put m ⟦key⟧ none) := by
  obtain ⟨hequal, -, rest, hperm, hset⟩ := get_eq_some hl h hget
  obtain ⟨hperm', hplaced⟩ := hset [] fun other hother => by cases hother
  have hholds := (h.holds.perm hperm).of_cons
  rw [← Quotient.sound hequal] at hholds
  refine ⟨?_, hplaced, ?_, ?_, h.outside, hholds.perm hperm'.symm⟩
  · unfold setChain
    rw [length_set]
    exact h.numOfBuckets_pos
  · intro other hother
    exact h.unmarked other (hperm.mem_iff.mpr (mem_cons_of_mem _ (hperm'.mem_iff.mp hother)))
  have hlen := hperm.length_eq
  rw [length_cons, ← h.numOfElements_eq] at hlen
  have hlen' : (t.setChain cfg key []).pairs.length = rest.length := hperm'.length_eq
  change t.numOfElements - 1 = (t.setChain cfg key []).pairs.length
  omega

end

theorem add_inv (hget : t.get cfg key = none)
    (pair) (hkey : pair.key ≈ key) (hmark : pair.markedForRemove = false) :
    Inv cfg { t with
      bucketArray := t.bucketArray.set (t.hashValue cfg key) (pair :: t.chain cfg key)
      numOfElements := t.numOfElements + 1 } (ClassMap.put m ⟦key⟧ (some pair)) := by
  have hclass : (⟦pair.key⟧ : Quotient s) = ⟦key⟧ := Quotient.sound hkey
  have hpush : t.bucketArray.set (t.hashValue cfg key) (pair :: t.chain cfg key) =
      push cfg t.bucketArray pair := by
    unfold push
    rw [hl.hash_eq hkey]
    rfl
  have hperm : (push cfg t.bucketArray pair).flatten.Perm (pair :: t.pairs) :=
    push_perm h.numOfBuckets_pos pair
  have hholds := h.holds.cons (b := pair) (by rw [hclass]; exact get_eq_none hl h hget)
  rw [hclass] at hholds
  rw [hpush]
  refine ⟨?_, push_placed h.placed pair, ?_, ?_, h.outside, hholds.perm hperm.symm⟩
  · rw [push_length]
    exact h.numOfBuckets_pos
  · intro other hother
    rcases mem_cons.mp (hperm.mem_iff.mp hother) with rfl | hmem
    · exact hmark
    · exact h.unmarked other hmem
  · have hlen := hperm.length_eq
    rw [length_cons] at hlen
    change t.numOfElements + 1 = (push cfg t.bucketArray pair).flatten.length
    rw [hlen, h.numOfElements_eq]

/-- The pair of a key that is found is not marked, and is the one of the map. -/
theorem get_pair (hget : t.get cfg key = some pair) :
    m ⟦key⟧ = some pair ∧ pair.markedForRemove = false := by
  obtain ⟨hequal, hmem, -⟩ := get_eq_some hl h hget
  refine ⟨?_, h.unmarked pair hmem⟩
  rw [Quotient.sound hequal]
  exact h.holds.mem hmem

end

/-! ## Calls -/

theorem setObject_key [DecidableEq K] (hold : old ≠ some key) :
    setObject cfg.key old key ≈ key := by
  unfold setObject
  cases hnew : cfg.key.fnObjectNew with
  | none => exact Setoid.refl key
  | some fnObjectNew =>
  simp only [hold, decide_false, Bool.and_false]
  exact hl.key_new hnew key

/-- A value that is stored has the content of the one that is given, but for one that is freed and
then copied. -/
theorem setObject_value [DecidableEq V] (old)
    (hold : cfg.value.fnObjectFree = true → cfg.value.fnObjectNew.isSome → old ≠ some value) :
    content (setObject cfg.value old value) = content value := by
  unfold setObject
  rcases hnew : cfg.value.fnObjectNew with _ | fnObjectNew
  · rfl
  have hfreed : (cfg.value.fnObjectFree && decide (old = some value)) = false := by
    rw [Bool.and_eq_false_iff]
    cases hfree : cfg.value.fnObjectFree with
    | false => exact Or.inl rfl
    | true => exact Or.inr (decide_eq_false (hold hfree (by rw [hnew]; rfl)))
  simp only [hfreed]
  exact hl.value_new hnew value

end

def view (content : V → W) (m : Quotient s → Option (KeyValuePair K V)) : Quotient s → Option W :=
  fun c => (m c).map fun pair => content pair.value

theorem view_put (content : V → W) (m) (c)
    (pair : Option (KeyValuePair K V)) : view content (ClassMap.put m c pair) =
      ClassMap.put (view content m) c (pair.map fun pair => content pair.value) :=
  ClassMap.put_map m c pair

theorem clear_spec (h : Inv cfg t m) (newBucketArray) :
    ∃ t', t.clear cfg newBucketArray = some t' ∧ Inv cfg t' fun _ : Quotient s => none := by
  unfold clear
  rw [pairs, clearLoop_ends t.bucketArray (.inl h.outside)]
  simp only [h.outside]
  refine ⟨_, rfl, rehash_inv ?_ 5 newBucketArray⟩
  have hempty : t.bucketArray.map (fun _ => ([] : List (KeyValuePair K V))) =
      replicate t.bucketArray.length [] := map_const'
  rw [hempty]
  refine ⟨?_, Placed.replicate _, ?_, ?_, rfl, ?_⟩
  · rw [length_replicate]
    exact h.numOfBuckets_pos
  · intro pair hpair
    rw [pairs, flatten_replicate_nil] at hpair
    cases hpair
  · rw [pairs, flatten_replicate_nil]
    rfl
  · rw [pairs, flatten_replicate_nil]
    exact ClassMap.Holds.nil

theorem getItemValue_spec (hl : Lawful cfg content) (h : Inv cfg t m) (key) :
    (t.getItemValue cfg key).map content = view content m ⟦key⟧ := by
  unfold getItemValue
  rcases hget : t.get cfg key with _ | pair
  · rw [view, get_eq_none hl h hget]
    rfl
  obtain ⟨hpair, hmark⟩ := get_pair hl h hget
  simp only [hmark]
  rw [view, hpair]
  rfl

theorem containsKey_spec (hl : Lawful cfg content) (h : Inv cfg t m) (key) :
    t.containsKey cfg key = (view content m ⟦key⟧).isSome := by
  rw [← getItemValue_spec hl h, containsKey, getItemValue]
  rcases t.get cfg key with _ | ⟨_, _, _ | _⟩ <;> rfl

theorem numOfElements_spec (content : V → W) (h : Inv cfg t m) :
    {c | (view content m c).isSome}.encard = t.numOfElements := by
  have hset : {c | (view content m c).isSome} = {c | (m c).isSome} := by
    ext c
    simp [view]
  rw [hset, h.holds.length_eq, h.numOfElements_eq]

theorem getKeys_spec (content : V → W) (h : Inv cfg t m) :
    {c | (view content m c).isSome}.encard = (t.getKeys true).1 ∧
      (((t.getKeys true).2.getD []).map (Quotient.mk s)).Nodup ∧ ∀ c : Quotient s,
        c ∈ ((t.getKeys true).2.getD []).map (Quotient.mk s) ↔ (view content m c).isSome := by
  have hkeys : (t.getKeys true).1 = t.numOfElements ∧
    ((t.getKeys true).2.getD []).map (Quotient.mk s) =
        t.pairs.map fun pair => (⟦pair.key⟧ : Quotient s) := by
    unfold getKeys
    by_cases hnone : t.numOfElements < 1
    · have hzero : t.numOfElements = 0 := by omega
      have hnil : t.pairs = [] := length_eq_zero_iff.mp (h.numOfElements_eq.symm.trans hzero)
      rw [if_pos hnone, hnil]
      exact ⟨hzero.symm, rfl⟩
    · have hall : t.pairs.filter (fun pair => !pair.markedForRemove) = t.pairs :=
        filter_eq_self.mpr fun pair hpair => by rw [h.unmarked pair hpair]; rfl
      rw [if_neg hnone, if_pos rfl, hall, Option.getD_some, List.map_map]
      exact ⟨rfl, rfl⟩
  rw [hkeys.1, hkeys.2]
  refine ⟨numOfElements_spec content h, h.holds.classes_nodup, ?_⟩
  intro c
  rw [h.holds.mem_classes_iff, view, isSome_map]

theorem remove_spec (hl : Lawful cfg content) (h : Inv cfg t m) (key) (newBucketArray) :
    ∃ m', Inv cfg (t.remove cfg key newBucketArray).2 m' ∧
      (t.remove cfg key newBucketArray).1 = (view content m ⟦key⟧).isSome ∧
      view content m' = mapStep content (view content m) (.remove key newBucketArray) := by
  unfold remove
  rw [mapStep]
  rcases hget : t.get cfg key with _ | pair
  · have hnone : view content m ⟦key⟧ = none := by
      rw [view, get_eq_none hl h hget]
      rfl
    refine ⟨m, h, by rw [hnone]; rfl, ?_⟩
    rw [ClassMap.put_eq_self hnone]
  simp only [h.outside]
  refine ⟨_, erase_inv hl h hget, ?_, ?_⟩
  · rw [view, (get_pair hl h hget).1]
    rfl
  · rw [view_put]
    rfl

theorem setItemValue_spec [DecidableEq V] (hl : Lawful cfg content) (h : Inv cfg t m) (key) (value)
    (hok : (Op.setItemValue key value).Ok cfg t) :
    ∃ m', Inv cfg (t.setItemValue cfg key value).2 m' ∧
      (t.setItemValue cfg key value).1 = (view content m ⟦key⟧).isSome ∧
      view content m' = mapStep content (view content m) (.setItemValue key value) := by
  unfold setItemValue
  rw [mapStep]
  rw [Op.Ok] at hok
  rcases hget : t.get cfg key with _ | pair
  · have hnone : (view content m ⟦key⟧).isSome = false := by
      rw [view, get_eq_none hl h hget]
      rfl
    exact ⟨m, h, hnone.symm, by rw [if_neg (by rw [hnone]; simp)]⟩
  obtain ⟨hpair, hmark⟩ := get_pair hl h hget
  obtain ⟨hequal, -⟩ := get_eq_some hl h hget
  have hsome : (view content m ⟦key⟧).isSome = true := by
    rw [view, hpair]
    rfl
  rw [hget] at hok
  simp only [hmark]
  refine ⟨_, replace_inv hl h hget (Setoid.symm hequal) rfl, hsome.symm, ?_⟩
  rw [if_pos hsome, view_put, map_some, setObject_value hl (some pair.value) hok]

variable [DecidableEq K] [DecidableEq V]

theorem insert_spec (hl : Lawful cfg content) (h : Inv cfg t m) (key) (value)
    (newPair newBucketArray) :
    ∃ m', Inv cfg (t.insert cfg key value newPair newBucketArray).2 m' ∧
      (t.insert cfg key value newPair newBucketArray).1 =
        (newPair || (view content m ⟦key⟧).isSome) ∧ view content m' =
        mapStep content (view content m) (.insert key value newPair newBucketArray) := by
  unfold insert
  rw [mapStep]
  rcases hget : t.get cfg key with _ | pair
  · have hnone : (view content m ⟦key⟧).isSome = false := by
      rw [view, get_eq_none hl h hget]
      rfl
    simp only [hnone]
    rcases newPair with _ | _
    · exact ⟨m, h, rfl, by simp⟩
    have hadd := add_inv hl h hget ⟨setObject cfg.key none key,
      setObject cfg.value none value, false⟩ (setObject_key hl (by simp)) rfl
    rw [if_pos rfl, if_pos (Or.inl rfl), ← setObject_value hl none fun _ _ => by simp]
    split_ifs
    · exact ⟨_, rehash_inv hadd 0 newBucketArray, rfl, view_put _ _ _ _⟩
    · exact ⟨_, hadd, rfl, view_put _ _ _ _⟩
  obtain ⟨hpair, hmark⟩ := get_pair hl h hget
  obtain ⟨hequal, -⟩ := get_eq_some hl h hget
  have hsome : (view content m ⟦key⟧).isSome = true := by
    rw [view, hpair]
    rfl
  simp only [hmark]
  refine ⟨_, replace_inv hl h hget ?_ rfl, by rw [hsome, Bool.or_true], ?_⟩
  · simp only
    split_ifs with hne
    · exact setObject_key hl (by simpa using hne)
    · exact Setoid.symm hequal
  rw [if_pos (Or.inr hsome), view_put]
  simp only [map_some]
  congr 2
  split_ifs with hne
  · exact setObject_value hl (some pair.value) fun _ _ => by simpa using hne
  · rw [not_not] at hne
    rw [hne]

/-- **A call** does to the table what it does to the map, and returns what it returns of the map. -/
theorem step_spec (hl : Lawful cfg content) (h : Inv cfg t m) (op : Op K V) (hok : op.Ok cfg t) :
    ∃ ret t' m', step cfg t op = some (ret, t') ∧ Inv cfg t' m' ∧
      Returns content (view content m) op ret ∧
      view content m' = mapStep content (view content m) op := by
  cases op with
  | insert key value newPair newBucketArray =>
    obtain ⟨m', hinv, hret, hview⟩ := insert_spec hl h key value newPair newBucketArray
    exact ⟨_, _, m', rfl, hinv, congrArg Ret.bool hret, hview⟩
  | remove key newBucketArray =>
    obtain ⟨m', hinv, hret, hview⟩ := remove_spec hl h key newBucketArray
    exact ⟨_, _, m', rfl, hinv, congrArg Ret.bool hret, hview⟩
  | setItemValue key value =>
    obtain ⟨m', hinv, hret, hview⟩ := setItemValue_spec hl h key value hok
    exact ⟨_, _, m', rfl, hinv, congrArg Ret.bool hret, hview⟩
  | clear newBucketArray =>
    obtain ⟨t', hclear, hinv⟩ := clear_spec h newBucketArray
    refine ⟨.void, t', _, ?_, hinv, rfl, rfl⟩
    rw [step, hclear]
    rfl
  | getItemValue key => exact ⟨_, t, m, rfl, h, ⟨_, rfl, getItemValue_spec hl h key⟩, rfl⟩
  | containsKey key => exact ⟨_, t, m, rfl, h, congrArg Ret.bool (containsKey_spec hl h key), rfl⟩
  | getKeys pKeys =>
    cases pKeys with
    | true => exact ⟨_, t, m, rfl, h, ⟨_, _, rfl, getKeys_spec content h⟩, rfl⟩
    | false =>
    have hnone : t.getKeys false = (0, none) := by
      rw [getKeys, if_neg Bool.false_ne_true, ite_self]
    refine ⟨.keys 0 none, t, m, ?_, h, rfl, rfl⟩
    rw [step, hnone]
  | count => exact ⟨_, t, m, rfl, h, ⟨_, rfl, numOfElements_spec content h⟩, rfl⟩

/-- **A run** of calls keeps the invariant. -/
theorem run_spec (hl : Lawful cfg content) (ops : List (Op K V)) (h : Inv cfg t m)
    (hok : ∀ before op after, ops = before ++ op :: after → ∀ t', run cfg t before = some t' →
      op.Ok cfg t') : ∃ t' m', run cfg t ops = some t' ∧ Inv cfg t' m' ∧
      view content m' = ops.foldl (mapStep content) (view content m) := by
  induction ops generalizing t m with
  | nil => exact ⟨t, m, rfl, h, rfl⟩
  | cons op ops ih =>
  obtain ⟨ret, t1, m1, hstep, hinv, -, hview⟩ := step_spec hl h op (hok [] op ops rfl t rfl)
  have hcons : ∀ before, run cfg t (op :: before) = run cfg t1 before := by
    intro before
    rw [run, hstep]
    rfl
  obtain ⟨t', m', hrun, hinv', hview'⟩ := ih hinv fun before op' after heq t' hrun =>
    hok (op :: before) op' after (by rw [heq]; rfl) t' (by rw [hcons]; exact hrun)
  refine ⟨t', m', by rw [hcons]; exact hrun, hinv', ?_⟩
  rw [hview', hview]
  rfl

end Steps

/-! ## Whole runs -/

/-- **The hash table is a finite map** on the classes of its keys, in every run from a new table in
which no object that the table holds as a value, and would free and copy, is given to
`HashTable_SetItemValue` for its own key.  Every call returns, with what it returns of the map, and
every pair is always in the bucket of its hash. -/
theorem hashTable_is_finite_map [DecidableEq K] [DecidableEq V] {cfg : HashTableSetup K V}
    {content : V → W} (hl : Lawful cfg content) (ops : List (Op K V))
    (hok : ∀ before op after, ops = before ++ op :: after → ∀ t, run cfg new before = some t →
      op.Ok cfg t) :
    (∀ before op after, ops = before ++ op :: after → ∃ t ret t', run cfg new before = some t ∧
      step cfg t op = some (ret, t') ∧ Returns content (mapRun content before) op ret) ∧
    ∃ t, run cfg new ops = some t ∧ Placed cfg t.bucketArray := by
  constructor
  · intro before op after heq
    obtain ⟨t, m, hrun, hinv, hview⟩ := run_spec hl before new_inv fun b o a hb =>
      hok b o (a ++ op :: after) (by rw [heq, hb, append_assoc]; rfl)
    obtain ⟨ret, t', -, hstep, -, hret, -⟩ := step_spec hl hinv op (hok before op after heq t hrun)
    refine ⟨t, ret, t', hrun, hstep, ?_⟩
    rw [hview] at hret
    exact hret
  · obtain ⟨t, m, hrun, hinv, -⟩ := run_spec hl ops new_inv hok
    exact ⟨t, hrun, hinv.placed⟩

end Map

/-! ## Clearing a table -/

/-- In an iteration the loops stay at the first pair that they meet. -/
theorem clearLoop_stays (hlevel : level ≠ 0) (n) :
    ∀ (buckets : List (List (KeyValuePair K V))) (freed : List (KeyValuePair K V)),
      buckets.flatten ≠ [] → clearLoop level n buckets freed = none := by
  induction n with
  | zero => exact fun _ _ _ => rfl
  | succ n ih =>
  intro buckets freed hne
  rcases buckets with _ | ⟨_ | ⟨pair, chain⟩, buckets⟩
  · exact absurd rfl hne
  · exact ih _ _ hne
  · rw [clearLoop, if_pos hlevel]
    exact ih _ _ (cons_ne_nil _ _)

theorem containsKey_of_pairs_nil {t : HashTable K V} (h : t.pairs = [])
    (key) : t.containsKey cfg key = false := by
  have hchain : t.chain cfg key = [] := by
    unfold chain
    rw [getD_eq_getElem?_getD]
    rcases hget : t.bucketArray[t.hashValue cfg key]? with _ | chain
    · rfl
    · exact flatten_eq_nil_iff.mp h chain (mem_of_getElem? hget)
  rw [containsKey, get, hchain]
  rfl

theorem pairs_rehash_nil {t : HashTable K V} (h : t.pairs = []) :
    (t.rehash cfg n newBucketArray).pairs = [] := by
  unfold rehash
  generalize (if n = 0 then calculateIdealNumOfBuckets t.numOfElements else n) = buckets
  simp only
  split_ifs
  · exact h
  · rw [h]
    exact flatten_replicate_nil
  · exact h

/-- **`HashTable_Clear` ends and empties the table** unless a table with pairs is iterated over:
each of the pairs is freed once, and no key is left. -/
theorem clear_empties_iff (cfg : HashTableSetup K V) (t : HashTable K V) (newBucketArray : Bool) :
    (∃ n t', clearLoop t.foreachRecursionLevel n t.bucketArray [] = some t.pairs ∧
      t.clear cfg newBucketArray = some t' ∧ t'.numOfElements = 0 ∧
        ∀ key, t'.containsKey cfg key = false) ↔
      t.foreachRecursionLevel = 0 ∨ t.pairs = [] := by
  constructor
  · rintro ⟨n, -, hloop, -⟩
    by_contra hnot
    obtain ⟨hlevel, hne⟩ := not_or.mp hnot
    rw [clearLoop_stays hlevel n _ _ hne] at hloop
    cases hloop
  intro h
  have hn := clearLoop_ends t.bucketArray h []
  have hclear : t.clear cfg newBucketArray = some _ := congrArg (Option.map _) hn
  have hempty : (t.bucketArray.map fun _ => ([] : List (KeyValuePair K V))).flatten = [] := by
    rw [map_const', flatten_replicate_nil]
  by_cases hlevel : t.foreachRecursionLevel = 0
  · refine ⟨_, _, hn, hclear.trans (congrArg some (if_pos hlevel)), ?_, ?_⟩
    · unfold rehash
      simp only
      split_ifs <;> rfl
    · refine containsKey_of_pairs_nil (pairs_rehash_nil ?_)
      exact hempty
  · refine ⟨_, _, hn, hclear.trans (congrArg some (if_neg hlevel)), rfl, ?_⟩
    exact containsKey_of_pairs_nil hempty

/-- A table with one pair is cleared in a callback of `HashTable_Foreach`. -/
theorem clear_in_foreach_stays :
    ¬ ∃ n freed, clearLoop 1 n [[(⟨1, 5, false⟩ : KeyValuePair ℕ ℕ)]] [] = some freed := by
  rintro ⟨n, freed, h⟩
  rw [clearLoop_stays one_ne_zero n [[_]] _ (cons_ne_nil _ _)] at h
  cases h

/-! ## Values -/

/-- `HashTable_ContainsValue` of a value other than null.  The pairs are compared by
`HashTable_Equals`, as for a key. -/
def containsValue (cfg : HashTableSetup K K) (t : HashTable K K) (value : K) : Bool :=
  t.pairs.any fun pair => !pair.markedForRemove && pairEquals cfg value pair

section Values

variable [s : Setoid K] [DecidableEq K] {W : Type*} {cfg : HashTableSetup K K} {content : K → W}

/-- **`HashTable_ContainsValue` tells whether a value is in the table** exactly when the value is a
key of the table just if it is a value of it: what is looked up are the keys. -/
theorem containsValue_iff (hl : Lawful cfg content) (ops : List (Op K K))
    (hops : ∀ op ∈ ops, ∀ t, op.Ok cfg t) (value : K) : ∃ t, run cfg new ops = some t ∧
      ((t.containsValue cfg value = true ↔ ∃ c, mapRun content ops c = some (content value)) ↔
        ((mapRun content ops ⟦value⟧).isSome ↔
          ∃ c, mapRun content ops c = some (content value))) := by
  obtain ⟨t, m, hrun, hinv, hview⟩ := run_spec hl ops new_inv fun before op after heq t _ =>
    hops op (heq ▸ mem_append_right _ mem_cons_self) t
  have hkey : t.containsValue cfg value = true ↔ (mapRun content ops ⟦value⟧).isSome := by
    rw [mapRun, show (fun _ : Quotient s => (none : Option W)) =
      view content fun _ => none from rfl,
      ← hview, view, Option.isSome_map, containsValue, List.any_eq_true]
    constructor
    · rintro ⟨pair, hpair, hequal⟩
      have hclass := (hl.equals_iff _ _).mp (Bool.and_eq_true_iff.mp hequal).2
      rw [Quotient.sound hclass, hinv.holds.mem hpair]
      rfl
    intro hsome
    obtain ⟨pair, hpair⟩ := Option.isSome_iff_exists.mp hsome
    obtain ⟨hmem, hclass⟩ := (hinv.holds.eq_some_iff _ _).mp hpair
    refine ⟨pair, hmem, Bool.and_eq_true_iff.mpr ⟨by rw [hinv.unmarked pair hmem]; rfl, ?_⟩⟩
    exact (hl.equals_iff _ _).mpr (Setoid.symm (Quotient.exact hclass))
  exact ⟨t, hrun, by rw [hkey]⟩

end Values

section Digits

/-- Numbers with the same last digit. -/
local instance digit : Setoid ℕ := Setoid.ker (· % 10)

/-- A table of numbers, the class of a key and the content of a value being the last digit: a copy
is another number with the same digit, or 0 of an object that has been freed. -/
def digits : HashTableSetup ℕ ℕ where
  hash key := UInt32.ofNat (key % 10)
  equals a b := a % 10 = b % 10
  key := ⟨some fun _ key => key + 10, true⟩
  value := ⟨some fun freed value => if freed then 0 else value + 10, true⟩

theorem digits_lawful : Lawful digits (· % 10) where
  equals_iff a b := decide_eq_true_iff
  hash_eq h := congrArg UInt32.ofNat h
  key_new h key := by
    cases h
    exact add_mod_right key 10
  value_new h value := by
    cases h
    exact add_mod_right value 10

/-- The value of a key is replaced by another one. -/
theorem hashTable_is_finite_map_digits :
    ∃ t, run digits new [.insert 1 5 true true, .setItemValue 11 7] = some t ∧
      Placed digits t.bucketArray := by
  refine (hashTable_is_finite_map digits_lawful [.insert 1 5 true true, .setItemValue 11 7] ?_).2
  intro before op after heq t hrun
  rcases before with - | ⟨first, - | ⟨second, before⟩⟩
  · obtain ⟨rfl, -⟩ := List.cons.inj heq
    exact trivial
  · obtain ⟨rfl, hrest⟩ := List.cons.inj heq
    obtain ⟨rfl, -⟩ := List.cons.inj hrest
    cases hrun
    intro _ _
    decide +kernel
  · have hlen := congrArg List.length heq
    simp only [length_cons, length_append, length_nil] at hlen
    omega

/-- A value that the table holds is set for its own key: it is freed and then copied, and what is
returned for the key is not the value. -/
theorem setItemValue_stored_value :
    ∃ t, run digits new [.insert 1 5 true true, .setItemValue 11 15] = some t ∧
      step digits t (.getItemValue 1) = some (.value (some 0), t) ∧
      mapRun (· % 10) [.insert 1 5 true true, .setItemValue 11 15] ⟦(1 : ℕ)⟧ = some 5 ∧
      ¬ Returns (· % 10) (mapRun (· % 10) [.insert 1 5 true true, .setItemValue 11 15])
        (.getItemValue (1 : ℕ)) (.value (some 0)) := by
  have hmap : mapRun (· % 10) [.insert 1 5 true true, .setItemValue 11 15] ⟦(1 : ℕ)⟧ = some 5 := by
    have hclass : (⟦11⟧ : Quotient digit) = ⟦1⟧ := Quotient.sound rfl
    simp [mapRun, mapStep, hclass]
  refine ⟨_, rfl, ?_, hmap, ?_⟩
  · have hget : ∀ t : HashTable ℕ ℕ, t.getItemValue digits 1 = some 0 →
        step digits t (.getItemValue 1) = some (.value (some 0), t) := by
      intro t h
      rw [step, h]
    exact hget _ (by decide +kernel)
  · rintro ⟨value, hvalue, hcontent⟩
    obtain rfl := Ret.value.inj hvalue
    rw [hmap] at hcontent
    cases hcontent

/-- The key 1 has the value 11. -/
theorem containsValue_iff_digits : ∃ t, run digits new [.insert 1 11 true true] = some t ∧
    ((t.containsValue digits 1 = true ↔
      ∃ c : Quotient digit, mapRun (· % 10) [.insert 1 11 true true] c = some (1 % 10)) ↔
      ((mapRun (· % 10) [.insert 1 11 true true] ⟦1⟧).isSome ↔
        ∃ c : Quotient digit, mapRun (· % 10) [.insert 1 11 true true] c = some (1 % 10))) :=
  containsValue_iff digits_lawful _ (fun _ hop _ => by cases mem_singleton.mp hop; trivial) 1

/-- The key 1 has the value 5, which is not a key. -/
theorem containsValue_misses_value : ∃ t, run digits new [.insert 1 5 true true] = some t ∧
    t.containsValue digits 5 = false ∧ mapRun (· % 10) [.insert 1 5 true true] ⟦(1 : ℕ)⟧ = some 5 :=
  ⟨_, rfl, by decide +kernel, by simp [mapRun, mapStep]⟩

end Digits

end HashTable

end WBFreeRDP

/-
# Tag, length, value

Trees of tagged values and their encoding with definite lengths.
-/
import WBFreeRDP.ByteOrder
import Mathlib.Data.Nat.Log

namespace Tlv

open List

open WBFreeRDP (beBytes beBytes_length)

/-! ## Lengths -/

def octetCount (n : ℕ) : ℕ := Nat.log 256 n + 1

/-- The length `n` in the fewest octets: one octet up to 127, and the number of the length's octets
in front of them from there on. -/
def lengthOctets (n : ℕ) : List UInt8 :=
  if n < 128 then [UInt8.ofNat n] else UInt8.ofNat (0x80 + octetCount n) :: beBytes (octetCount n) n

theorem octetCount_eq (w) (h : 256 ^ w ≤ n) (h' : n < 256 ^ (w + 1)) : octetCount n = w + 1 := by
  rw [octetCount, Nat.log_eq_of_pow_le_of_lt_pow h h']

theorem lengthOctets_eq (w) (h128 : ¬ n < 128) (h : 256 ^ w ≤ n) (h' : n < 256 ^ (w + 1)) :
    lengthOctets n = UInt8.ofNat (0x80 + (w + 1)) :: beBytes (w + 1) n := by
  rw [lengthOctets, if_neg h128, octetCount_eq w h h']

/-! ## Trees -/

/-- A tree of tagged values. -/
inductive Element where
  | raw (content : List UInt8)
  | value (tag : UInt8) (content : List UInt8)
  | node (tag : UInt8) (children : List Element)

/-- A tag, the length of what comes, and what comes. -/
def tagged (tag : UInt8) (content : List UInt8) : List UInt8 :=
  tag :: lengthOctets content.length ++ content

mutual

def Element.encode : Element → List UInt8
  | .raw content => content
  | .value tag content => tagged tag content
  | .node tag children => tagged tag (encodeAll children)

/-- The encodings of trees, one behind the other. -/
def encodeAll : List Element → List UInt8
  | [] => []
  | t :: ts => t.encode ++ encodeAll ts

end

theorem encodeAll_append (ts us) : encodeAll (ts ++ us) = encodeAll ts ++ encodeAll us := by
  induction ts with
  | nil => rfl
  | cons t ts ih => rw [cons_append, encodeAll, encodeAll, ih, append_assoc]

theorem encodeAll_singleton (t) : encodeAll [t] = t.encode := by
  rw [encodeAll, encodeAll, append_nil]

/-- The trees inside nested tags, the outer one first. -/
def wrap : List UInt8 → List Element → List Element
  | [], ts => ts
  | tag :: tags, ts => [.node tag (wrap tags ts)]

def wrapBytes : List UInt8 → List UInt8 → List UInt8
  | [], content => content
  | tag :: tags, content => tagged tag (wrapBytes tags content)

theorem encodeAll_wrap (tags ts) : encodeAll (wrap tags ts) = wrapBytes tags (encodeAll ts) := by
  induction tags with
  | nil => rfl
  | cons tag tags ih => rw [wrap, encodeAll_singleton, Element.encode, ih, wrapBytes]

theorem length_le_wrapBytes (tags content) : content.length ≤ (wrapBytes tags content).length := by
  induction tags with
  | nil => exact le_refl _
  | cons tag tags ih =>
  rw [wrapBytes, tagged, length_append]
  omega

/-! ## Trees under construction -/

/-- The trees that are complete, and for every open container its tags and the trees it has so far,
the innermost one first. -/
structure Builder where
  complete : List Element
  opened : List (List UInt8 × List Element)

namespace Builder

/-- Nothing yet. -/
def new : Builder := ⟨[], []⟩

/-- Trees are added to the innermost container. -/
def add (b : Builder) (ts : List Element) : Builder :=
  match b.opened with
  | [] => { b with complete := b.complete ++ ts }
  | (tags, us) :: rest => { b with opened := (tags, us ++ ts) :: rest }

def openContainer (b : Builder) (tags : List UInt8) : Builder :=
  { b with opened := (tags, []) :: b.opened }

/-- The innermost container is closed and becomes a tree of the one around it; the size of its
encoding is returned. -/
def endContainer (b : Builder) : Option (ℕ × Builder) :=
  match b.opened with
  | [] => none
  | (tags, ts) :: rest =>
    some ((encodeAll (wrap tags ts)).length, add { b with opened := rest } (wrap tags ts))

/-- The number of bytes of all trees that are there. -/
def size (b : Builder) : ℕ :=
  (encodeAll b.complete).length + (b.opened.map fun level => (encodeAll level.2).length).sum

theorem size_add (b : Builder) (ts) : (b.add ts).size = b.size + (encodeAll ts).length := by
  rcases b with ⟨complete, _ | ⟨⟨tags, us⟩, rest⟩⟩
  · simp only [add, size, encodeAll_append, length_append]
    omega
  · simp only [add, size, encodeAll_append, length_append, map_cons, sum_cons]
    omega

theorem size_openContainer (b : Builder) (tags) : (b.openContainer tags).size = b.size := by
  simp only [openContainer, size, map_cons, sum_cons, encodeAll, length_nil, zero_add]

theorem size_endContainer {b b' : Builder} (h : b.endContainer = some (n, b')) :
    b.size ≤ b'.size := by
  rcases b with ⟨complete, _ | ⟨⟨tags, ts⟩, rest⟩⟩
  · cases h
  injection h with h
  injection h with _ h
  subst h
  have hle := length_le_wrapBytes tags (encodeAll ts)
  rw [size_add, encodeAll_wrap]
  simp only [size, map_cons, sum_cons]
  omega

end Builder

end Tlv

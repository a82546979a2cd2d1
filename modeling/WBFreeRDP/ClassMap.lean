/-
# Lists as finite maps on classes

A list of entries, no two of them with equivalent keys, is a finite map from classes of keys to
entries.  The order of the entries does not matter.
-/
import Mathlib.Data.Set.Card
import Mathlib.Data.List.GetD

namespace WBFreeRDP.ClassMap

open List Option

open scoped Classical in
/-- The map `m`, with `value` for the class `c`. -/
noncomputable def put {γ β : Type*} (m : γ → Option β) (c : γ) (value : Option β) : γ → Option β :=
  Function.update m c value

variable {γ β : Type*}

@[simp] theorem put_same (m) (c : γ) (value : Option β) : put m c value c = value := by
  classical
  exact Function.update_self c value m

theorem put_of_ne (h : d ≠ c) : put m c value d = m d := by
  classical
  exact Function.update_of_ne h value m

theorem put_map {γ β δ : Type*} (m) (c : γ) (value) {f : β → δ} :
    (fun d => (put m c value d).map f) = put (fun d => (m d).map f) c (value.map f) := by
  funext d
  by_cases h : d = c
  · rw [h, put_same, put_same]
  · rw [put_of_ne h, put_of_ne h]

@[simp] theorem put_put (m) (c : γ) (a b : Option β) : put (put m c a) c b = put m c b := by
  funext d
  by_cases h : d = c
  · rw [h, put_same, put_same]
  · rw [put_of_ne h, put_of_ne h, put_of_ne h]

theorem put_eq_self (h : m c = value) : put m c value = m := by
  classical
  exact Function.update_eq_self_iff.mpr h.symm

/-! ## Entries -/

section Holds

variable {α β : Type*} [s : Setoid α] {key : β → α}

/-- The list `l` holds the entries of the map `m`, each one once. -/
structure Holds (key : β → α) (l : List β) (m : Quotient s → Option β) : Prop where
  /-- No two entries have equivalent keys. -/
  pairwise : l.Pairwise fun a b => ¬ key a ≈ key b
  /-- The entry of a class is the one of the list whose key is in it. -/
  eq_some_iff : ∀ c b, m c = some b ↔ b ∈ l ∧ ⟦key b⟧ = c

namespace Holds

variable {l l' : List β} {m : Quotient s → Option β} {b b' : β}

theorem nil : Holds key [] (fun _ : Quotient s => none) := by
  refine ⟨List.Pairwise.nil, ?_⟩
  simp

theorem perm (h : Holds key l m) (hp : l.Perm l') : Holds key l' m := by
  refine ⟨(hp.pairwise_iff (fun h h' => h (Setoid.symm h'))).mp h.pairwise, ?_⟩
  intro c b
  rw [h.eq_some_iff, hp.mem_iff]

theorem mem (h : Holds key l m) (hb : b ∈ l) : m ⟦key b⟧ = some b :=
  (h.eq_some_iff _ _).mpr ⟨hb, rfl⟩

theorem eq_none (h : Holds key l m) (hno : ∀ b ∈ l, ¬ a ≈ key b) : m ⟦a⟧ = none := by
  rw [eq_none_iff_forall_not_mem]
  intro b hb
  obtain ⟨hmem, hclass⟩ := (h.eq_some_iff _ _).mp hb
  exact hno b hmem (Setoid.symm (Quotient.exact hclass))

theorem cons (h : Holds key l m) (hb : m ⟦key b⟧ = none) :
    Holds key (b :: l) (put m ⟦key b⟧ (some b)) := by
  refine ⟨pairwise_cons.mpr ⟨?_, h.pairwise⟩, ?_⟩
  · intro b' hb' heq
    rw [Quotient.sound heq, h.mem hb'] at hb
    cases hb
  intro c b'
  by_cases hc : c = ⟦key b⟧
  · subst hc
    rw [put_same, some_inj, mem_cons]
    constructor
    · rintro rfl
      exact ⟨Or.inl rfl, rfl⟩
    rintro ⟨rfl | hmem, hclass⟩
    · rfl
    · rw [← hclass, h.mem hmem] at hb
      cases hb
  · rw [put_of_ne hc, h.eq_some_iff, mem_cons]
    constructor
    · rintro ⟨hmem, hclass⟩
      exact ⟨Or.inr hmem, hclass⟩
    rintro ⟨rfl | hmem, hclass⟩
    · exact absurd hclass.symm hc
    · exact ⟨hmem, hclass⟩

theorem of_cons (h : Holds key (b :: l) m) : Holds key l (put m ⟦key b⟧ none) := by
  obtain ⟨hne, hpair⟩ := pairwise_cons.mp h.pairwise
  refine ⟨hpair, ?_⟩
  intro c b'
  by_cases hc : c = ⟦key b⟧
  · subst hc
    rw [put_same]
    constructor
    · intro h'
      cases h'
    · rintro ⟨hmem, hclass⟩
      exact absurd (Setoid.symm (Quotient.exact hclass)) (hne b' hmem)
  rw [put_of_ne hc, h.eq_some_iff, mem_cons]
  constructor
  · rintro ⟨rfl | hmem, hclass⟩
    · exact absurd hclass.symm hc
    · exact ⟨hmem, hclass⟩
  · rintro ⟨hmem, hclass⟩
    exact ⟨Or.inr hmem, hclass⟩

theorem replace (h : Holds key (b :: l) m) (hkey : key b' ≈ key b) :
    Holds key (b' :: l) (put m ⟦key b⟧ (some b')) := by
  have hclass : (⟦key b'⟧ : Quotient s) = ⟦key b⟧ := Quotient.sound hkey
  have hcons : Holds key (b' :: l) (put (put m ⟦key b⟧ none) ⟦key b'⟧ (some b')) :=
    h.of_cons.cons (by rw [hclass, put_same])
  rwa [hclass, put_put] at hcons

theorem classes_nodup (h : Holds key l m) : (l.map fun b => (⟦key b⟧ : Quotient s)).Nodup :=
  pairwise_map.mpr (h.pairwise.imp fun hne heq => hne (Quotient.exact heq))

theorem mem_classes_iff (h : Holds key l m) (c) :
    c ∈ (l.map fun b => (⟦key b⟧ : Quotient s)) ↔ (m c).isSome := by
  rw [List.mem_map, Option.isSome_iff_exists]
  exact exists_congr fun b => (h.eq_some_iff c b).symm

theorem length_eq (h : Holds key l m) : {c | (m c).isSome}.encard = l.length := by
  classical
  have hset : {c | (m c).isSome} =
      ((l.map fun b => (⟦key b⟧ : Quotient s)).toFinset : Set (Quotient s)) := by
    ext c
    rw [Set.mem_ofPred_eq, coe_toFinset, Set.mem_ofPred_eq, h.mem_classes_iff]
  rw [hset, Set.encard_coe_eq_coe_finsetCard, toFinset_card_of_nodup h.classes_nodup, length_map]

end Holds

end Holds

/-! ## Chains -/

/-- Chains with one of them replaced hold its entries and those of the others. -/
theorem flatten_perm_set {β : Type*} (chains : List (List β)) (hi : i < chains.length)
    (chain) : (chains.set i chain).flatten.Perm (chain ++ (chains.eraseIdx i).flatten) := by
  induction chains generalizing i with
  | nil => cases hi
  | cons first chains ih =>
  rcases i with _ | i
  · exact List.Perm.refl _
  have h := (ih (Nat.lt_of_succ_lt_succ hi)).append_left first
  exact h.trans (perm_append_comm_assoc _ _ _)

/-- Chains hold the entries of one of them and those of the others. -/
theorem flatten_perm_getD {β : Type*} (chains : List (List β)) (hi : i < chains.length) :
    chains.flatten.Perm (chains.getD i [] ++ (chains.eraseIdx i).flatten) := by
  have h := flatten_perm_set chains hi (chains.getD i [])
  rw [getD_eq_getElem _ _ hi] at h ⊢
  rwa [set_getElem_self] at h

end WBFreeRDP.ClassMap

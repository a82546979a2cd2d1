/-
# Array lists and event handlers

`ArrayList.c`: the two searches of a list.  `PubSub.c`: the handlers of the event types, which
`PubSub_Subscribe` appends and `PubSub_Unsubscribe` takes out while it goes through them.
-/
import Mathlib.Data.List.Range

namespace WBFreeRDP.Collections

open Function

/-! ## Searches -/

section Search

variable (equals : α → Bool) (xs : List α)

/-- A loop that inspects the elements with these indices and ends with the `answer` of the first
that equals the object; `none` where it inspects an element at or beyond the size. -/
def searchLoop (answer : ℕ → ℕ) : List ℕ → Option ℤ
  | [] => some (-1)
  | i :: indices => do
    let x ← xs[i]?
    if equals x then some (answer i) else searchLoop answer indices

/-- The indices from `sindex` up to `sindex + cindex`. -/
def searched (startIndex count : ℤ) : List ℕ :=
  List.range' startIndex.toNat (if count < 0 then xs.length else count.toNat)

/-- `ArrayList_IndexOf`. -/
def indexOf (startIndex count : ℤ) : Option ℤ :=
  searchLoop equals xs id (searched xs startIndex count)

/-- `ArrayList_LastIndexOf`, which inspects the element before `index`. -/
def lastIndexOf (startIndex count : ℤ) : Option ℤ :=
  searchLoop equals xs (· + 1) (searched xs startIndex count).reverse

/-- An index of the range that is asked for, with an element that equals the object. -/
def Occurs (startIndex count : ℤ) (i : ℕ) : Prop :=
  startIndex ≤ i ∧ (0 ≤ count → i < startIndex.toNat + count.toNat) ∧
  ∃ x, xs[i]? = some x ∧ equals x

/-- The answer of a search: the index that comes first by `le`, or `-1`. -/
def Answers (le : ℕ → ℕ → Prop) (startIndex count : ℤ) (answer : Option ℤ) : Prop :=
  (∃ i : ℕ, answer = some (i : ℤ) ∧ Occurs equals xs startIndex count i ∧
    ∀ j, Occurs equals xs startIndex count j → le i j) ∨
  answer = some (-1) ∧ ∀ i, ¬ Occurs equals xs startIndex count i

/-- The element is there and is another object. -/
def Other (i : ℕ) : Prop := ∃ x, xs[i]? = some x ∧ equals x = false

variable {equals xs}

theorem Occurs.mem_searched (h : Occurs equals xs startIndex count i) :
    i ∈ searched xs startIndex count := by
  obtain ⟨hlow, hhigh, x, hx, -⟩ := h
  have hsize : i < xs.length := (List.getElem?_eq_some_iff.mp hx).1
  rw [searched, List.mem_range'_1]
  split_ifs <;> omega

theorem Other.not_occurs (h : Other equals xs i) : ¬ Occurs equals xs startIndex count i := by
  obtain ⟨y, hy, hne⟩ := h
  rintro ⟨-, -, x, hx, heq⟩
  cases hx.symm.trans hy
  cases heq.symm.trans hne

theorem searchLoop_other (h : ∀ i ∈ l, Other equals xs i) :
    searchLoop equals xs answer l = some (-1) := by
  induction l with
  | nil => rfl
  | cons i l ih =>
  obtain ⟨x, hx, hne⟩ := h i List.mem_cons_self
  refine Option.bind_eq_some_iff.mpr ⟨x, hx, ?_⟩
  rw [hne, ← ih fun j hj => h j (List.mem_cons_of_mem i hj)]
  rfl

/-- **The search from the end**: the elements above the one that it has found are others. -/
theorem searchLoop_some (hl : l.Pairwise (· > ·)) (h : searchLoop equals xs answer l = some r) :
    r = -1 ∧ (∀ i ∈ l, Other equals xs i) ∨
      ∃ i ∈ l, r = answer i ∧ ∀ j ∈ l, i < j → Other equals xs j := by
  induction l with
  | nil => exact .inl ⟨(Option.some.inj h).symm, nofun⟩
  | cons i l ih =>
  obtain ⟨hi, hl⟩ := List.pairwise_cons.mp hl
  obtain ⟨x, hx, h⟩ := Option.bind_eq_some_iff.mp h
  by_cases heq : equals x = true
  · rw [if_pos heq] at h
    refine .inr ⟨i, List.mem_cons_self, (Option.some.inj h).symm, fun j hj hij => ?_⟩
    rcases List.mem_cons.mp hj with rfl | hj
    · exact absurd hij (lt_irrefl _)
    · exact absurd (hi j hj) hij.not_gt
  rw [if_neg heq] at h
  have hother : Other equals xs i := ⟨x, hx, Bool.eq_false_iff.mpr heq⟩
  rcases ih hl h with ⟨hr, hall⟩ | ⟨k, hk, hr, hall⟩
  · exact .inl ⟨hr, List.forall_mem_cons.mpr ⟨hother, hall⟩⟩
  · exact .inr ⟨k, List.mem_cons_of_mem i hk, hr, List.forall_mem_cons.mpr ⟨fun _ => hother, hall⟩⟩

/-- **The two searches** give the first and the last index exactly if the object is not in the
range, and the range does not go beyond the size. -/
theorem searches_right_iff (equals : α → Bool) (xs : List α) (startIndex count : ℤ) :
    Answers equals xs (· ≤ ·) startIndex count (indexOf equals xs startIndex count) ∧
      Answers equals xs (· ≥ ·) startIndex count (lastIndexOf equals xs startIndex count) ↔
      ∀ i ∈ searched xs startIndex count, Other equals xs i := by
  have hl : (searched xs startIndex count).reverse.Pairwise (· > ·) :=
    List.pairwise_reverse.mpr List.pairwise_lt_range'
  constructor
  · rintro ⟨-, ⟨i, hlast, hi, -⟩ | ⟨hlast, -⟩⟩
    all_goals rcases searchLoop_some hl hlast with ⟨hr, hall⟩ | ⟨k, hk, hr, hall⟩
    · omega
    · -- what is returned is the index behind the element
      have hik : i = k + 1 := Int.ofNat.inj hr
      exact absurd hi (hall i (List.mem_reverse.mpr hi.mem_searched) (by omega)).not_occurs
    · exact fun i hi => hall i (List.mem_reverse.mpr hi)
    · omega
  intro h
  have hnone (i : ℕ) : ¬ Occurs equals xs startIndex count i :=
    fun hi => (h i hi.mem_searched).not_occurs hi
  refine ⟨.inr ⟨searchLoop_other h, hnone⟩, .inr ⟨searchLoop_other fun i hi => ?_, hnone⟩⟩
  exact h i (List.mem_reverse.mp hi)

/-- A list with the object alone. -/
theorem last_index_behind : indexOf (· == 7) [7] (-1) (-1) = some 0 ∧
    lastIndexOf (· == 7) [7] (-1) (-1) = some 1 :=
  ⟨rfl, rfl⟩

end Search

/-! ## Event handlers -/

/-- `MAX_EVENT_HANDLERS`. -/
def maxEventHandlers : ℕ := 32

/-- The handlers of an event type after `PubSub_Subscribe`. -/
def subscribe (handler : H) (handlers : List H) : List H :=
  if handlers.length < maxEventHandlers then handlers ++ [handler] else handlers

/-- The loop of `PubSub_OnEvent`: the handlers that are called, and the status. -/
def onEvent : List H → List H × ℕ
  | [] => ([], 0)
  | h :: rest => (h :: (onEvent rest).1, (onEvent rest).2 + 1)

theorem onEvent_eq (handlers : List H) : onEvent handlers = (handlers, handlers.length) := by
  induction handlers with
  | nil => rfl
  | cons h rest ih => rw [onEvent, ih, List.length_cons]

/-- A call for an event type. -/
inductive Call (ι H : Type*) where
  | subscribe (event : ι) (handler : H)
  | unsubscribe (event : ι) (handler : H)

section PubSub

variable [DecidableEq ι] [DecidableEq H]

/-- The loop of `PubSub_Unsubscribe` over the handlers from `index` on.  When one is taken out, the
next takes its place and `index++` goes past it. -/
def unsubscribe (handler : H) : List H → List H
  | [] => []
  | [h] => if h = handler then [] else [h]
  | h :: next :: rest =>
    if h = handler then next :: unsubscribe handler rest
    else h :: unsubscribe handler (next :: rest)

/-- A call on the handlers of each event type. -/
def Call.apply (pubSub : ι → List H) : Call ι H → ι → List H
  | .subscribe event handler => update pubSub event (Collections.subscribe handler (pubSub event))
  | .unsubscribe event handler =>
      update pubSub event (Collections.unsubscribe handler (pubSub event))

/-- What a call is for: the handlers are those that are subscribed, in this order. -/
def Call.expected (pubSub : ι → List H) : Call ι H → ι → List H
  | .subscribe event handler => update pubSub event (pubSub event ++ [handler])
  | .unsubscribe event handler => update pubSub event ((pubSub event).filter (· ≠ handler))

/-- There is room for another handler, and one that is taken out does not follow itself. -/
def Call.Permitted (pubSub : ι → List H) : Call ι H → Prop
  | .subscribe event _ => (pubSub event).length < maxEventHandlers
  | .unsubscribe event handler => ¬ [handler, handler] <:+: pubSub event

def AllPermitted : (ι → List H) → List (Call ι H) → Prop
  | _, [] => True
  | pubSub, c :: cs => c.Permitted pubSub ∧ AllPermitted (c.apply pubSub) cs

theorem unsubscribe_eq_filter (l : List H) (h : ¬ [handler, handler] <:+: l) :
    unsubscribe handler l = l.filter (· ≠ handler) := by
  induction l using unsubscribe.induct handler with
  | case1 => rfl
  | case2 => simp [unsubscribe]
  | case3 x hx => simp [unsubscribe, hx]
  | case4 next rest ih =>
    have hnext : next ≠ handler := by
      rintro rfl
      exact h (List.prefix_append [next, next] rest).isInfix
    have hrest : rest <:+ handler :: next :: rest := List.suffix_append [handler, next] rest
    simp [unsubscribe, hnext, ih fun hi => h (hi.trans hrest.isInfix)]
  | case5 x next rest hx ih =>
    have hfilter := ih fun hi => h (hi.trans (List.suffix_cons x _).isInfix)
    rw [unsubscribe, if_neg hx, hfilter, List.filter_cons_of_pos (a := x) (decide_eq_true hx)]

theorem Call.Permitted.apply_eq {pubSub : ι → List H} {c : Call ι H} (h : c.Permitted pubSub) :
    c.apply pubSub = c.expected pubSub := by
  cases c with
  | subscribe event handler => rw [apply, Collections.subscribe, if_pos (by exact h), expected]
  | unsubscribe event handler => rw [apply, unsubscribe_eq_filter _ h, expected]

/-- **Dispatch follows the subscriptions** in every run whose calls are permitted: an event calls
the handlers that are subscribed, in order, and none that was taken out since. -/
theorem dispatch_follows (cs : List (Call ι H)) (hcs : AllPermitted (fun _ => []) cs) (event : ι) :
    let subscribed := cs.foldl Call.expected (fun _ => []) event
    onEvent (cs.foldl Call.apply (fun _ => []) event) = (subscribed, subscribed.length) := by
  have hrun : ∀ (cs : List (Call ι H)) pubSub, AllPermitted pubSub cs →
      cs.foldl Call.apply pubSub = cs.foldl Call.expected pubSub := by
    intro cs
    induction cs with
    | nil => exact fun _ _ => rfl
    | cons c cs ih =>
    rintro pubSub ⟨hc, hcs⟩
    rw [List.foldl_cons, List.foldl_cons, ih _ hcs, hc.apply_eq]
  rw [onEvent_eq, hrun cs _ hcs]

/-- A handler that is taken out in front of another. -/
theorem dispatch_follows_three :
    onEvent ([Call.subscribe () 7, .subscribe () 8, .unsubscribe () 7].foldl
    Call.apply (fun _ => []) ()) = ([8], 1) :=
  dispatch_follows [.subscribe () 7, .subscribe () 8, .unsubscribe () 7] ⟨(by decide : 0 < 32),
    (by decide : 1 < 32), (by decide : ¬ [7, 7] <:+: [7, 8]), trivial⟩ ()

/-- A handler that was subscribed twice is still called after it was taken out. -/
theorem twice_subscribed_stays :
    onEvent ([Call.subscribe () 7, .subscribe () 7, .unsubscribe () 7].foldl
    Call.apply (fun _ => []) ()) = ([7], 1) := rfl

end PubSub

end WBFreeRDP.Collections

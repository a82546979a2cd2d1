/-
# The message queue

`MessageQueue.c`: a queue of messages in a ring that grows when it is full, guarded by a lock, with
an event that threads wait for.

The callbacks that free messages are left out; a message that `clear` frees is in the log.
-/
import WBFreeRDP.Ring
import Mathlib.Data.BitVec

namespace WBFreeRDP

open History Ring List Nat

/-! ## The code -/

/-- A `wMessage`; pointers are addresses. -/
structure Message where
  id : ℕ
  context : ℕ
  wParam : ℕ
  lParam : ℕ
  time : ℕ
  free : ℕ
  deriving DecidableEq

/-- A zeroed message. -/
def zeroMessage : Message := ⟨0, 0, 0, 0, 0, 0⟩

/-- `WMQ_QUIT`. -/
def wmqQuit : ℕ := 0xFFFFFFFF

/-- A `wMessageQueue`; the event is set or not. -/
structure MessageQueue where
  head : ℕ
  tail : ℕ
  size : ℕ
  capacity : ℕ
  closed : Bool
  array : Memory Message
  event : Bool

namespace MessageQueue

/-- How many messages `MessageQueue_EnsureCapacity` allows: `(SIZE_MAX - increment) /
sizeof(wMessage)`. -/
def sizeLimit : ℕ := (2 ^ 64 - 1 - 128) / 48

/-- The array after `realloc` and `ZeroMemory` of its new part. -/
def extended (queue : MessageQueue) (newCapacity : ℕ) (fresh : Memory Message) : Memory Message :=
  ⟨fun j =>
    if j < queue.capacity then queue.array j
    else if j < newCapacity then zeroMessage else fresh j⟩

/-- The wrapped entries fill up the new part of the array, and the others move to the front. -/
def rearrange (queue : MessageQueue) (oldCapacity newCapacity : ℕ) : MessageQueue :=
  let tocopy := queue.tail
  let slots := newCapacity - oldCapacity
  let batch := if tocopy < slots then tocopy else slots
  let array := write queue.array oldCapacity (read queue.array 0 batch)
  if tocopy < slots then
    { queue with
      array := write array 0 (List.replicate batch zeroMessage)
      tail := queue.tail + oldCapacity }
  else
    let remain := queue.tail - batch
    let array := write array 0 (read array batch remain)
    { queue with
      array := write array remain (List.replicate (queue.tail - remain) zeroMessage)
      tail := queue.tail - batch }

/-- `MessageQueue_EnsureCapacity`; `none` for the block if `realloc` fails.  Fewer entries are moved
than `memmove_s` has room for, so that it does not fail. -/
def ensureCapacity (queue : MessageQueue) (count : ℕ) (block : Option (Memory Message)) :
    Bool × MessageQueue :=
  let required := queue.size + count
  if required > sizeLimit then (false, queue)
  else if required > queue.capacity then
    match block with
    | none => (false, queue)
    | some fresh =>
      let newCapacity := required + 128
      let grown := { queue with
        array := extended queue newCapacity fresh, capacity := newCapacity }
      if queue.tail ≤ queue.head then (true, rearrange grown queue.capacity newCapacity)
      else (true, grown)
  else (true, queue)

/-- `MessageQueue_Dispatch` at the time `now`. -/
def dispatch (queue : MessageQueue) (message : Message) (now : ℕ)
    (block : Option (Memory Message)) :
    Bool × MessageQueue :=
  if queue.closed then (false, queue)
  else
    match ensureCapacity queue 1 block with
    | (false, queue) => (false, queue)
    | (true, queue) =>
      (true, { queue with
        array := set queue.array queue.tail { message with time := now }
        tail := (queue.tail + 1) % queue.capacity
        size := queue.size + 1
        event := if queue.size + 1 > 0 then true else queue.event
        closed := if message.id = wmqQuit then true else queue.closed })

/-- `MessageQueue_Post`: a message without a function to free it. -/
def post (queue : MessageQueue) (context type wParam lParam now : ℕ)
    (block : Option (Memory Message)) : Bool × MessageQueue :=
  dispatch queue ⟨type, context, wParam, lParam, 0, 0⟩ now block

def postQuit (queue : MessageQueue) (nExitCode now : ℕ) (block : Option (Memory Message)) :
    Bool × MessageQueue :=
  post queue 0 wmqQuit nExitCode 0 now block

/-- The first message is taken out of the queue. -/
def pop (queue : MessageQueue) : MessageQueue :=
  { queue with
    array := set queue.array queue.head zeroMessage
    head := (queue.head + 1) % queue.capacity
    size := queue.size - 1
    event := if queue.size - 1 < 1 then false else queue.event }

/-- `MessageQueue_Get` once it has the lock: the status, the message and the queue. -/
def get (queue : MessageQueue) : ℤ × Option Message × MessageQueue :=
  if queue.size > 0 then
    let message := queue.array queue.head
    (if message.id ≠ wmqQuit then 1 else 0, some message, pop queue)
  else (-1, none, queue)

/-- `MessageQueue_Peek`. -/
def peek (queue : MessageQueue) (remove : Bool) : ℤ × Option Message × MessageQueue :=
  if queue.size > 0 then
    (1, some (queue.array queue.head), if remove then pop queue else queue)
  else (0, none, queue)

/-- The loop of `MessageQueue_Clear`: the messages that it frees and the queue. -/
def clearLoop : ℕ → MessageQueue → List Message × MessageQueue
  | 0, queue => ([], queue)
  | fuel + 1, queue =>
    if queue.size > 0 then
      let (freed, queue') := clearLoop fuel { queue with
        array := set queue.array queue.head zeroMessage
        head := (queue.head + 1) % queue.capacity
        size := queue.size - 1 }
      (queue.array queue.head :: freed, queue')
    else ([], queue)

/-- `MessageQueue_Clear`: the messages that it frees and the queue. -/
def clear (queue : MessageQueue) : List Message × MessageQueue :=
  let (freed, queue) := clearLoop queue.size queue
  (freed, { queue with event := false, closed := false })

/-- `MessageQueue_New`. -/
def new (fresh : Memory Message) : MessageQueue :=
  (ensureCapacity ⟨0, 0, 0, 0, false, fill zeroMessage, false⟩ 32 (some fresh)).2

/-! ## The invariant -/

/-- The tail is behind what is stored, and the event is set exactly when something is. -/
structure Inv (queue : MessageQueue) : Prop where
  head_lt : queue.head < queue.capacity
  size_le : queue.size ≤ queue.capacity
  tail_eq : queue.tail = (queue.head + queue.size) % queue.capacity
  event_eq : queue.event = decide (queue.size > 0)

def stored (queue : MessageQueue) : List Message :=
  cells queue.array queue.capacity queue.head queue.size

@[simp] theorem length_stored (queue) : (stored queue).length = queue.size :=
  length_cells _ _ _ _

variable {queue : MessageQueue}

theorem Inv.stored_eq_cons (h : Inv queue) (hsize : queue.size > 0) :
    stored queue = queue.array queue.head ::
      cells queue.array queue.capacity (queue.head + 1) (queue.size - 1) := by
  obtain ⟨n, hn⟩ : ∃ n, queue.size = n + 1 := ⟨queue.size - 1, by omega⟩
  unfold stored
  rw [hn, cells_succ, mod_eq_of_lt h.head_lt, Nat.add_sub_cancel]

/-- The entries of a full ring after it was extended by `slots` cells: those behind the end are
found in the new cells, and then at the front. -/
theorem cells_rearranged {a b : Memory Message} {cap slots head : ℕ} (hhead : head < cap)
    (hkeep : ∀ j, head ≤ j → j < cap → b j = a j) (hnew : ∀ j < head, j < slots → b (cap + j) = a j)
    (hfront : ∀ j < head, slots ≤ j → b (j - slots) = a j) :
    cells b (cap + slots) head cap = cells a cap head cap := by
  apply cells_congr
  intro k hk
  by_cases hend : head + k < cap
  · rw [mod_eq_of_lt (by omega), mod_eq_of_lt hend]
    exact hkeep _ (by omega) hend
  obtain ⟨j, hj⟩ : ∃ j, head + k = cap + j := ⟨head + k - cap, by omega⟩
  rw [hj, add_mod_left, mod_eq_of_lt (show j < cap by omega)]
  by_cases hslot : j < slots
  · rw [mod_eq_of_lt (by omega)]
    exact hnew j (by omega) hslot
  rw [mod_eq_sub_mod (by omega), mod_eq_of_lt (by omega),
    show cap + j - (cap + slots) = j - slots by omega]
  exact hfront j (by omega) (by omega)

/-- **A full ring is extended** by as many cells as there are slots, and keeps its messages. -/
theorem Inv.rearrange (h : Inv queue) (hfull : queue.size = queue.capacity)
    (fresh : Memory Message) :
    let newCapacity := queue.capacity + 129
    let grown := { queue with array := extended queue newCapacity fresh, capacity := newCapacity }
    Inv (rearrange grown queue.capacity newCapacity) ∧
      stored (MessageQueue.rearrange grown queue.capacity newCapacity) = stored queue ∧
      (MessageQueue.rearrange grown queue.capacity newCapacity).size = queue.size ∧
      (MessageQueue.rearrange grown queue.capacity newCapacity).capacity = newCapacity ∧
      (MessageQueue.rearrange grown queue.capacity newCapacity).closed = queue.closed := by
  intro newCapacity grown
  have hhead := h.head_lt
  have htail : queue.tail = queue.head := by
    rw [h.tail_eq, hfull, add_mod_right, mod_eq_of_lt hhead]
  have hold (j : ℕ) (hj : j < queue.capacity) :
      extended queue newCapacity fresh j = queue.array j := if_pos hj
  have hslots : newCapacity - queue.capacity = 129 := Nat.add_sub_cancel_left _ _
  unfold MessageQueue.rearrange
  simp only [grown, hslots, htail]
  by_cases hfew : queue.head < 129
  · simp only [if_pos hfew]
    refine ⟨⟨by simp only; omega, by simp only; omega, ?_, h.event_eq⟩, ?_,
      trivial, trivial, trivial⟩
    · simp only
      rw [hfull, mod_eq_of_lt (by omega)]
    unfold stored
    simp only
    rw [hfull]
    refine cells_rearranged hhead ?_ ?_ ?_
    · intro j h1 h2
      rw [write_above _ _ _ _ (by rw [length_replicate]; omega), write_below _ _ _ _ h2, hold j h2]
    · intro j h1 _
      rw [write_above _ _ _ _ (by rw [length_replicate]; omega), write_read_apply _ _ _ _ _ h1,
        Nat.zero_add, hold j (by omega)]
    · omega
  simp only [if_neg hfew]
  refine ⟨⟨by simp only; omega, by simp only; omega, ?_, h.event_eq⟩, ?_, trivial, trivial, trivial⟩
  · simp only
    rw [mod_eq_sub_mod (by omega), mod_eq_of_lt (by omega)]
    omega
  unfold stored
  simp only
  rw [hfull]
  refine cells_rearranged hhead ?_ ?_ ?_
  · intro j h1 h2
    rw [write_above _ _ _ _ (by rw [length_replicate]; omega),
      write_above _ _ _ _ (by rw [length_read]; omega), write_below _ _ _ _ h2, hold j h2]
  · intro j h1 h2
    rw [write_above _ _ _ _ (by rw [length_replicate]; omega),
      write_above _ _ _ _ (by rw [length_read]; omega), write_read_apply _ _ _ _ _ h2,
      Nat.zero_add, hold j (by omega)]
  intro j h1 h2
  generalize hwritten : write (extended queue newCapacity fresh) queue.capacity _ = written
  have hmoved := write_read_apply written (queue.head - 129) written 0 129
    (show j - 129 < queue.head - 129 by omega)
  rw [Nat.zero_add] at hmoved
  rw [write_below _ _ _ _ (by omega), hmoved, Nat.add_sub_cancel' h2, ← hwritten,
    write_below _ _ _ _ (by omega), hold j (by omega)]

/-- **Room for a message** is made, or the queue is left as it is. -/
theorem Inv.ensureCapacity (h : Inv queue) (block : Option (Memory Message)) :
    ensureCapacity queue 1 block = (false, queue) ∨ ∃ queue',
      MessageQueue.ensureCapacity queue 1 block = (true, queue') ∧ Inv queue' ∧
      stored queue' = stored queue ∧ queue'.size = queue.size ∧ queue'.size < queue'.capacity ∧
      queue'.closed = queue.closed := by
  have hle := h.size_le
  unfold MessageQueue.ensureCapacity
  by_cases hlimit : queue.size + 1 > sizeLimit
  · left
    rw [if_pos hlimit]
  simp only [if_neg hlimit]
  by_cases hfull : queue.size + 1 > queue.capacity
  swap
  · right
    rw [if_neg hfull]
    exact ⟨queue, rfl, h, rfl, rfl, by omega, rfl⟩
  rw [if_pos hfull]
  rcases block with _ | fresh
  · exact Or.inl rfl
  right
  have hsize : queue.size = queue.capacity := by omega
  have htail : queue.tail ≤ queue.head := by
    rw [h.tail_eq, hsize, add_mod_right]
    exact mod_le _ _
  obtain ⟨hinv, hstored, hsz, hcap, hclosed⟩ := h.rearrange hsize fresh
  simp only [if_pos htail]
  rw [show queue.size + 1 + 128 = queue.capacity + 129 by omega]
  exact ⟨_, rfl, hinv, hstored, hsz, by omega, hclosed⟩

/-! ## Operations -/

/-- **Dispatching** appends a message, or leaves the queue as it is; a queue that is closed accepts
none, and one that accepted `WMQ_QUIT` is closed. -/
theorem Inv.dispatch (h : Inv queue) (message : Message) (now : ℕ)
    (block : Option (Memory Message)) :
    dispatch queue message now block = (false, queue) ∨ queue.closed = false ∧ ∃ queue',
        MessageQueue.dispatch queue message now block = (true, queue') ∧ Inv queue' ∧
        stored queue' = stored queue ++ [{ message with time := now }] ∧
        queue'.closed = decide (message.id = wmqQuit) := by
  unfold MessageQueue.dispatch
  by_cases hclosed : queue.closed = true
  · left
    rw [if_pos hclosed]
  rw [if_neg hclosed]
  rcases h.ensureCapacity block with hno | ⟨queue', hyes, hinv, hstored, hsize, hroom, hcl⟩
  · left
    rw [hno]
  right
  have hopen : queue'.closed = false := by
    rw [hcl]
    simpa using hclosed
  have hhead := hinv.head_lt
  rw [hyes]
  refine ⟨by simpa using hclosed, _, rfl, ⟨hhead, hroom, ?_, ?_⟩, ?_, ?_⟩
  · rw [hinv.tail_eq, mod_add_mod, Nat.add_assoc]
  · simp
  · unfold stored at hstored ⊢
    simp only
    rw [← hstored]
    have htail : queue'.tail < queue'.capacity := by
      rw [hinv.tail_eq]
      exact mod_lt _ (by omega)
    exact cells_write queue'.array [{ message with time := now }] hinv.tail_eq
      (by rw [length_singleton]; omega) (by rw [length_singleton]; omega)
  · simp only [hopen]
    by_cases hquit : message.id = wmqQuit
    · simp [hquit]
    · simp [hquit]

/-- The message that is taken out is not among those that stay. -/
theorem Inv.cells_pop (h : Inv queue) (hsize : queue.size > 0) :
    cells (set queue.array queue.head zeroMessage) queue.capacity
        ((queue.head + 1) % queue.capacity) (queue.size - 1) = (stored queue).tail := by
  have hle := h.size_le
  rw [h.stored_eq_cons hsize, cells_mod]
  apply cells_set_of_forall_ne
  intro k hk
  have := mod_ne_mod queue.head (show 0 < k + 1 by omega)
    (show k + 1 < 0 + queue.capacity by omega)
  rw [Nat.add_zero, mod_eq_of_lt h.head_lt] at this
  rw [Nat.add_assoc, Nat.add_comm 1]
  exact this.symm

/-- **Taking the first message.** -/
theorem Inv.pop (h : Inv queue) (hsize : queue.size > 0) :
    Inv (pop queue) ∧ stored (MessageQueue.pop queue) = (stored queue).tail ∧
      (MessageQueue.pop queue).closed = queue.closed := by
  have hle := h.size_le
  refine ⟨⟨mod_lt _ (by omega), ?_, ?_, ?_⟩, h.cells_pop hsize, rfl⟩
  · change queue.size - 1 ≤ queue.capacity
    omega
  · change queue.tail = ((queue.head + 1) % queue.capacity + (queue.size - 1)) % queue.capacity
    rw [h.tail_eq, mod_add_mod]
    congr 1
    omega
  change (if queue.size - 1 < 1 then false else queue.event) = decide (queue.size - 1 > 0)
  rw [h.event_eq]
  by_cases hone : queue.size - 1 < 1
  · rw [if_pos hone, decide_eq_false (by omega)]
  · rw [if_neg hone, decide_eq_true hsize, decide_eq_true (by omega)]

theorem clearLoop_spec (n) : ∀ queue, queue.head < queue.capacity →
    queue.size ≤ queue.capacity → queue.size = n →
    queue.tail = (queue.head + queue.size) % queue.capacity →
    ∃ array, clearLoop n queue = (stored queue, { queue with
      array := array, head := queue.tail, size := 0 }) := by
  induction n with
  | zero =>
    intro queue hhead _ hn htail
    obtain ⟨head, tail, size, capacity, closed, array, event⟩ := queue
    simp only at hhead hn htail
    subst hn
    rw [Nat.add_zero, mod_eq_of_lt hhead] at htail
    subst htail
    exact ⟨array, rfl⟩
  | succ n ih =>
  intro queue hhead hle hn htail
  have hinv : Inv { queue with event := decide (queue.size > 0) } := ⟨hhead, hle, htail, rfl⟩
  have hpos : queue.size > 0 := by omega
  obtain ⟨array, hloop⟩ := ih { queue with
      array := set queue.array queue.head zeroMessage
      head := (queue.head + 1) % queue.capacity
      size := queue.size - 1 } (mod_lt _ (by omega)) (by simp only; omega)
    (by simp only; omega)
    (by
      simp only
      rw [htail, mod_add_mod]
      congr 1
      omega)
  have htl := hinv.cells_pop hpos
  have hcons := hinv.stored_eq_cons hpos
  refine ⟨array, ?_⟩
  rw [clearLoop, if_pos hpos]
  simp only [hloop]
  refine Prod.ext ?_ rfl
  change _ :: cells _ _ _ _ = stored { queue with event := decide (queue.size > 0) }
  rw [htl, hcons]
  rfl

/-- **Clearing** frees all messages and opens the queue. -/
theorem Inv.clear (h : Inv queue) :
    (clear queue).1 = stored queue ∧ Inv (MessageQueue.clear queue).2 ∧
      stored (MessageQueue.clear queue).2 = [] ∧ (MessageQueue.clear queue).2.closed = false := by
  obtain ⟨array, hloop⟩ := clearLoop_spec queue.size queue h.head_lt h.size_le rfl h.tail_eq
  have htail : queue.tail < queue.capacity := by
    rw [h.tail_eq]
    exact mod_lt _ (by have := h.head_lt; omega)
  unfold MessageQueue.clear
  rw [hloop]
  refine ⟨rfl, ⟨htail, zero_le _, ?_, rfl⟩, rfl, rfl⟩
  rw [Nat.add_zero, mod_eq_of_lt htail]

theorem inv_new (fresh) :
    Inv (new fresh) ∧ stored (new fresh) = [] ∧ (new fresh).closed = false := by
  refine ⟨⟨?_, ?_, ?_, rfl⟩, rfl, rfl⟩
  · change 0 < 160
    omega
  · change 0 ≤ 160
    omega
  · change 0 = (0 + 0) % 160
    omega

/-! ## Threads -/

/-- What happened to the queue: a message was accepted or refused, taken out of the queue, or freed
with all the others. -/
inductive Event where
  | accepted (message : Message)
  | refused (message : Message)
  | taken (message : Message)
  | cleared (messages : List Message)

def Event.acceptedOf : Event → List Message
  | .accepted message => [message]
  | _ => []

def Event.takenOf : Event → List Message
  | .taken message => [message]
  | _ => []

def Event.removedOf : Event → List Message
  | .taken message => [message]
  | .cleared messages => messages
  | _ => []

/-- Whether `WMQ_QUIT` was accepted since the queue was last cleared, after one more event. -/
def quitAfter (quit : Bool) : Event → Bool
  | .accepted message => quit || message.id = wmqQuit
  | .cleared _ => false
  | _ => quit

/-- `WMQ_QUIT` was accepted and the queue was not cleared since. -/
def quitAccepted (log : List Event) : Bool := log.foldl quitAfter false

/-- The queue and the log of what happened to it. -/
structure System where
  queue : MessageQueue
  log : List Event

/-- What a thread does under the lock.  `MessageQueue_Get` waits for the event before it takes the
lock, and another thread may have emptied the queue in between; here it may come at any time, which
allows more interleavings than the waits do. -/
inductive Action where
  | dispatch (message : Message) (now : ℕ) (block : Option (Memory Message))
  | get
  | peek (remove : Bool)
  | clear

def step (s : System) : Action → System
  | .dispatch message now block =>
    let (accepted, queue) := dispatch s.queue message now block
    { queue := queue
      log := s.log ++ [if accepted then .accepted { message with time := now }
        else .refused message] }
  | .get =>
    let (_, message, queue) := get s.queue
    { queue := queue, log := s.log ++ message.toList.map .taken }
  | .peek remove =>
    let (_, message, queue) := peek s.queue remove
    { queue := queue, log := s.log ++ if remove then message.toList.map .taken else [] }
  | .clear =>
    let (freed, queue) := clear s.queue
    { queue := queue, log := s.log ++ [.cleared freed] }

/-- A new queue. -/
def start (fresh : Memory Message) : System := ⟨new fresh, []⟩

def run : List Action → System → System
  | [], s => s
  | a :: actions, s => run actions (step s a)

/-- The invariant of an interleaving. -/
structure Good (s : System) : Prop where
  inv : Inv s.queue
  order : s.log.flatMap Event.acceptedOf = s.log.flatMap Event.removedOf ++ stored s.queue
  closed_eq : s.queue.closed = quitAccepted s.log

theorem quitAccepted_append (log e) :
    quitAccepted (log ++ [e]) = quitAfter (quitAccepted log) e := by
  unfold quitAccepted
  rw [foldl_append]
  rfl

theorem Good.taken (h : Good s) (hsize : s.queue.size > 0) :
    Good ⟨pop s.queue, s.log ++ [.taken (s.queue.array s.queue.head)]⟩ := by
  obtain ⟨hinv, hstored, hclosed⟩ := h.inv.pop hsize
  refine ⟨hinv, ?_, ?_⟩
  · simp only [flatMap_append, flatMap_cons, flatMap_nil, Event.acceptedOf, append_nil]
    rw [h.order, hstored, append_assoc, h.inv.stored_eq_cons hsize]
    rfl
  · rw [quitAccepted_append, hclosed, h.closed_eq]
    rfl

/-- **Step lemma.** -/
theorem Good.step (h : Good s) (a : Action) : Good (step s a) := by
  cases a with
  | dispatch message now block =>
    rcases h.inv.dispatch message now block with hno | ⟨hopen, queue', hyes, hinv, hstored, hclosed⟩
    · simp only [MessageQueue.step, hno]
      refine ⟨h.inv, ?_, ?_⟩
      · simpa [Event.acceptedOf, Event.removedOf] using h.order
      · rw [quitAccepted_append, ← h.closed_eq]
        rfl
    simp only [MessageQueue.step, hyes]
    refine ⟨hinv, ?_, ?_⟩
    · simp [Event.acceptedOf, Event.removedOf, h.order, hstored]
    · rw [quitAccepted_append, ← h.closed_eq, hclosed]
      simp [quitAfter, hopen]
  | get =>
    simp only [MessageQueue.step, MessageQueue.get]
    by_cases hsize : s.queue.size > 0
    · rw [if_pos hsize]
      exact h.taken hsize
    · rw [if_neg hsize]
      simpa using h
  | peek remove =>
    simp only [MessageQueue.step, MessageQueue.peek]
    by_cases hsize : s.queue.size > 0
    · rw [if_pos hsize]
      cases remove with
      | true => exact h.taken hsize
      | false => simpa using h
    · rw [if_neg hsize]
      cases remove with
      | true | false => simpa using h
  | clear =>
  obtain ⟨hfreed, hinv, hstored, hclosed⟩ := h.inv.clear
  simp only [MessageQueue.step]
  refine ⟨hinv, ?_, ?_⟩
  · simp [Event.acceptedOf, Event.removedOf, h.order, hstored, hfreed]
  · rw [quitAccepted_append]
    rfl

/-- **Run lemma.** -/
theorem Good.run (actions : List Action) : ∀ {s}, Good s → Good (run actions s) := by
  induction actions with
  | nil => intro s h; exact h
  | cons a actions ih => intro s h; exact ih (h.step a)

theorem takenOf_sublist (log : List Event) :
    (log.flatMap Event.takenOf).Sublist (log.flatMap Event.removedOf) := by
  induction log with
  | nil => exact List.Sublist.refl _
  | cons e log ih =>
  refine List.Sublist.append ?_ ih
  cases e with
  | cleared messages => exact nil_sublist _
  | _ => exact List.Sublist.refl _

/-- **Message queues.** In every interleaving of the operations of any threads: the messages that
left the queue, followed by those in it, are the accepted ones in their order; those that were taken
are therefore taken in that order and at most once; after `WMQ_QUIT` was accepted every dispatch is
refused until the queue is cleared; the event is set exactly when the queue holds something; and a
`MessageQueue_Get` that returns 1 or 0 delivers the oldest message. -/
theorem messageQueue_runs (fresh : Memory Message) (actions : List Action) :
    let s := run actions (start fresh)
    s.log.flatMap Event.acceptedOf = s.log.flatMap Event.removedOf ++ stored s.queue ∧
      (s.log.flatMap Event.takenOf).Sublist (s.log.flatMap Event.acceptedOf) ∧
      (quitAccepted s.log = true → ∀ message now block,
        dispatch s.queue message now block = (false, s.queue)) ∧
      (s.queue.event = true ↔ stored s.queue ≠ []) ∧
      ((get s.queue).1 = 1 ∨ (get s.queue).1 = 0 →
        ∃ oldest rest, stored s.queue = oldest :: rest ∧ (get s.queue).2.1 = some oldest ∧
          stored (get s.queue).2.2 = rest ∧ ((get s.queue).1 = 0 ↔ oldest.id = wmqQuit)) := by
  intro s
  obtain ⟨hnew, hempty, hopen⟩ := inv_new fresh
  have hstart : Good (start fresh) := by
    refine ⟨hnew, ?_, hopen⟩
    change [] = [] ++ stored (new fresh)
    rw [hempty, nil_append]
  have h : Good s := hstart.run actions
  refine ⟨h.order, ?_, ?_, ?_, ?_⟩
  · rw [h.order]
    exact (takenOf_sublist s.log).trans (sublist_append_left _ _)
  · intro hquit message now block
    unfold MessageQueue.dispatch
    rw [if_pos (h.closed_eq.trans hquit)]
  · rw [h.inv.event_eq, decide_eq_true_iff, ← length_pos_iff, length_stored]
  · intro hstatus
    unfold MessageQueue.get at hstatus ⊢
    by_cases hsize : s.queue.size > 0
    · obtain ⟨-, hstored, -⟩ := h.inv.pop hsize
      simp only [if_pos hsize]
      refine ⟨_, _, h.inv.stored_eq_cons hsize, rfl, ?_, ?_⟩
      · rw [hstored, h.inv.stored_eq_cons hsize, tail_cons]
      split_ifs with hquit
      · exact ⟨nofun, fun hq => absurd hq hquit⟩
      · exact ⟨fun _ => not_not.mp hquit, fun _ => rfl⟩
    · rw [if_neg hsize] at hstatus
      omega

end MessageQueue

end WBFreeRDP

/-
# Registers that follow what was last sent

A sender keeps a set of registers in step with a receiver by packets, each of which carries some of
them.  For a register a packet carries either a new value or a change of the old one.
-/
import Mathlib.Logic.Function.Basic

namespace WBFreeRDP

open List

/-- What a packet carries for a register: its new value, or a change of its value. -/
inductive Sent (α : Type*) where
  | set (v : α)
  | add (d : α)
  deriving DecidableEq

namespace Sent

variable {ι α : Type*}

/-- What the packets of a history sent to register `i`, the newest first. -/
def sentTo [DecidableEq ι] (i : ι) : List (List (ι × Sent α)) → List (Sent α)
  | [] => []
  | p :: older => ((p.filter (·.1 = i)).map Prod.snd).reverse ++ sentTo i older

variable [Add α]

/-- The value of a register after something was sent to it. -/
def apply : Sent α → α → α
  | set v, _ => v
  | add d, a => a + d

/-- **The value in force**: the value that was last sent (the newest stands first), changed by what
was sent since; zero before the first. -/
def inForce [Zero α] : List (Sent α) → α
  | [] => 0
  | set v :: _ => v
  | add d :: older => inForce older + d

theorem inForce_cons [Zero α] (x) (older : List (Sent α)) :
    inForce (x :: older) = x.apply (inForce older) := by
  cases x with
  | set v => rfl
  | add d => rfl

variable [DecidableEq ι]

/-- The registers after one item of a packet. -/
def receive (regs : ι → α) (x : ι × Sent α) : ι → α :=
  Function.update regs x.1 (x.2.apply (regs x.1))

def receiveAll (regs : ι → α) (p : List (ι × Sent α)) : ι → α := p.foldl receive regs

variable (regs : ι → α)

@[simp] theorem receiveAll_nil : receiveAll regs [] = regs := rfl

@[simp] theorem receiveAll_cons (x) (p : List (ι × Sent α)) :
    receiveAll regs (x :: p) = receiveAll (receive regs x) p := rfl

theorem receiveAll_append (p q) : receiveAll regs (p ++ q) = receiveAll (receiveAll regs p) q :=
  foldl_append

theorem receive_of_ne (h : x.1 ≠ i) : receive regs x i = regs i :=
  Function.update_of_ne (Ne.symm h) _ _

@[simp] theorem receive_self (i x) : receive regs (i, x) i = x.apply (regs i) :=
  Function.update_self _ _ _

/-- A packet leaves a register alone that it does not carry. -/
theorem receiveAll_of_notMem (h : ∀ x ∈ p, x.1 ≠ i) : receiveAll regs p i = regs i := by
  induction p generalizing regs with
  | nil => rfl
  | cons x p ih =>
  rw [receiveAll_cons, ih _ fun y hy => h y (mem_cons_of_mem x hy),
    receive_of_ne regs (h x mem_cons_self)]

/-- What a register holds after a packet depends on what it held only. -/
theorem receiveAll_eq_inForce [Zero α] (p i) (older) (h : regs i = inForce older) :
    receiveAll regs p i = inForce (((p.filter (·.1 = i)).map Prod.snd).reverse ++ older) := by
  induction p generalizing regs older with
  | nil => exact h
  | cons x p ih =>
  rw [receiveAll_cons]
  by_cases hi : x.1 = i
  · have hx : receive regs x i = inForce (x.2 :: older) := by
      subst hi
      rw [inForce_cons, ← h]
      exact Function.update_self _ _ _
    rw [ih _ _ hx, filter_cons_of_pos (by simpa using hi), map_cons, reverse_cons, append_assoc]
    rfl
  · rw [ih _ _ ((receive_of_ne regs hi).trans h), filter_cons_of_neg (by simpa using hi)]

/-- **The receiver's registers hold what is in force**, packet by packet. -/
theorem inForce_sentTo_cons [Zero α] (p : List (ι × Sent α)) (older : List (List (ι × Sent α))) :
    (fun i => inForce (sentTo i (p :: older))) =
      receiveAll (fun i => inForce (sentTo i older)) p := by
  funext i
  exact (receiveAll_eq_inForce _ p i (sentTo i older) rfl).symm

end Sent

end WBFreeRDP

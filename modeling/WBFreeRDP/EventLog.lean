/-
# Logs of events

A log lists what happened, the newest entry first, each entry with a record of its time.
-/
import Mathlib.Data.List.Basic
import Mathlib.Data.List.TakeWhile

namespace EventLog

open List

variable {ε σ : Type}

/-- Every entry of a log is as `E` wants it, given the entries before it. -/
def Recorded (E : ε → σ → List (ε × σ) → Prop) : List (ε × σ) → Prop
  | [] => True
  | (e, s) :: earlier => E e s earlier ∧ Recorded E earlier

variable {e : ε} {E : ε → σ → List (ε × σ) → Prop} {log earlier : List (ε × σ)}

theorem Recorded.of_suffix
    (h : Recorded E log) (hsuffix : (e, s) :: earlier <:+ log) : E e s earlier := by
  induction log with
  | nil => exact absurd (suffix_nil.mp hsuffix) (cons_ne_nil _ _)
  | cons entry rest ih =>
  rcases suffix_cons_iff.mp hsuffix with heq | hsuffix
  · cases heq
    exact h.1
  · exact ih h.2 hsuffix

variable {log : List (ε × σ)}

theorem Recorded.of_mem
    (h : Recorded E log) (hmem : (e, s) ∈ log) :
    ∃ earlier, (e, s) :: earlier <:+ log ∧ E e s earlier := by
  obtain ⟨later, earlier, rfl⟩ := append_of_mem hmem
  exact ⟨earlier, suffix_append _ _, h.of_suffix (suffix_append _ _)⟩

def Happened (e : ε) (log : List (ε × σ)) : Prop := ∃ s, (e, s) ∈ log

theorem happened_iff_mem_map : Happened e log ↔ e ∈ log.map Prod.fst := by
  constructor
  · rintro ⟨s, hmem⟩
    exact mem_map_of_mem hmem
  intro hmem
  obtain ⟨⟨e, s⟩, hentry, rfl⟩ := mem_map.mp hmem
  exact ⟨s, hentry⟩

theorem exists_suffix_of_map (h : e :: events <:+ log.map Prod.fst) :
    ∃ s earlier, (e, s) :: earlier <:+ log ∧ earlier.map Prod.fst = events := by
  obtain ⟨later, hlater⟩ := h
  obtain ⟨front, back, rfl, -, hback⟩ := append_eq_map_iff.mp hlater
  obtain ⟨⟨e, s⟩, earlier, rfl, rfl, rfl⟩ := map_eq_cons_iff.mp hback
  exact ⟨s, earlier, suffix_append _ _, rfl⟩

theorem happened_cons_self : Happened e ((e, s) :: log) :=
  ⟨s, mem_cons_self⟩

theorem Happened.cons (h : Happened e log) (entry) :
    Happened e (entry :: log) := h.imp fun _ hmem => mem_cons_of_mem _ hmem

theorem Happened.of_suffix (h : Happened e earlier)
    (hsuffix : earlier <:+ log) : Happened e log := h.imp fun _ hmem => hsuffix.mem hmem

end EventLog

/-
# Programs over a state that may stop early

Handlers of a state machine written in C return a status and change a record behind a pointer.  A
`Program σ ε α` is such a handler: from a state it gives a result, or the status it stopped with,
and the state it leaves in both cases.
-/
import Mathlib.Order.Defs.Unbundled

/-- A program over states `σ`: it gives a result or the status it stopped with, and the new
state. -/
def Program (σ ε α : Type) : Type := σ → Except ε α × σ

namespace Program

variable {σ ε α β : Type}

instance : Monad (Program σ ε) where
  pure a := fun s => (.ok a, s)
  bind p f := fun s =>
    match p s with
    | (.ok a, t) => f a t
    | (.error e, t) => (.error e, t)

/-- Ends with `e`. -/
def stop (e : ε) : Program σ ε α := fun s => (.error e, s)

/-- Reads the state. -/
def observe (f : σ → α) : Program σ ε α := fun s => (.ok (f s), s)

/-- Changes the state. -/
def update (f : σ → σ) : Program σ ε Unit := fun s => (.ok (), f s)

/-- The program goes on after the end of another one and sees how that one ended. -/
def attempt (p : Program σ ε α) : Program σ ε (Except ε α) := fun s => (.ok (p s).1, (p s).2)

variable {p : Program σ ε α}

theorem bind_run_ok (h : p s = (.ok a, t)) (f : α → Program σ ε β) : (p >>= f) s = f a t := by
  change (match p s with
    | (.ok a, t) => f a t
    | (.error e, t) => (.error e, t)) = f a t
  rw [h]

theorem bind_run_error (h : p s = (.error e, t))
    (f : α → Program σ ε β) : (p >>= f) s = (.error e, t) := by
  change (match p s with
    | (.ok a, t) => f a t
    | (.error e, t) => (.error e, t)) = (.error e, t)
  rw [h]

/-- A sequence that comes to its end has run all of its parts. -/
theorem exists_of_bind_run_ok
    (h : (p >>= f) s = (.ok b, u)) : ∃ a t, p s = (.ok a, t) ∧ f a t = (.ok b, u) := by
  rcases hrun : p s with ⟨e | a, t⟩
  · rw [bind_run_error hrun] at h
    cases h
  · rw [bind_run_ok hrun] at h
    exact ⟨a, t, rfl, h⟩

/-! ## What one run gives -/

/-- The result and the last state of the run from `s` satisfy `Q`. -/
def Gives (p : Program σ ε α) (s : σ) (Q : Except ε α → σ → Prop) : Prop := Q (p s).1 (p s).2

variable {s : σ}

theorem Gives.mono (h : p.Gives s Q) (hQ : ∀ r t, Q r t → Q' r t) : p.Gives s Q' := hQ _ _ h

variable {Q : Except ε β → σ → Prop}

/-- A sequence is run part after part; it ends where its first part stops. -/
theorem gives_bind (h : p.Gives s fun r t =>
      match r with
      | .ok a => (f a).Gives t Q
      | .error e => Q (.error e) t) : (p >>= f).Gives s Q := by
  unfold Gives at h ⊢
  rcases hrun : p s with ⟨e | a, t⟩
  · rw [bind_run_error hrun]
    rw [hrun] at h
    exact h
  · rw [bind_run_ok hrun]
    rw [hrun] at h
    exact h

theorem gives_bind_run (hrun : p s = (.ok a, t)) (h : (f a).Gives t Q) : (p >>= f).Gives s Q := by
  unfold Gives
  rw [bind_run_ok hrun]
  exact h

theorem gives_observe_bind (h : (g (f s)).Gives s Q) : (observe f >>= g).Gives s Q := h

theorem gives_update {Q : Except ε Unit → σ → Prop} (h : Q (.ok ()) (f s)) : (update f).Gives s Q :=
  h

theorem gives_update_bind (h : (g ()).Gives (f s) Q) : (update f >>= g).Gives s Q := h

theorem gives_attempt_bind (h : p.Gives s fun r t => (g r).Gives t Q) :
    (attempt p >>= g).Gives s Q := h

/-! ## What every run keeps -/

/-- Every run of the program relates its first state to its last. -/
def Within (R : σ → σ → Prop) (p : Program σ ε α) : Prop := ∀ s, p.Gives s fun _ t => R s t

variable {R : σ → σ → Prop}

/-- The first part of a sequence keeps to a relation; the rest is run from a state related to the
first. -/
theorem Within.gives_bind (hp : Within R p) (hstop : ∀ e t, R s t → Q (.error e) t)
    (hgoes : ∀ a t, R s t → (f a).Gives t Q) : (p >>= f).Gives s Q := by
  apply Program.gives_bind
  apply (hp s).mono
  intro r t h
  cases r with
  | ok a => exact hgoes a t h
  | error e => exact hstop e t h

/-- Two programs begin with the same part: what is known of the runs of the one from the first state
is known of the runs of its rest, where the rest of the other one starts. -/
theorem Within.gives_bind_common {γ : Type} {g}
    {H : γ → σ → Prop} (hp : Within R p) (hcommon : ∀ c u, (p >>= g) s = (.ok c, u) → H c u)
    (hstop : ∀ e t, R s t → Q (.error e) t)
    (hgoes : ∀ a t, R s t → (∀ c u, g a t = (.ok c, u) → H c u) → (f a).Gives t Q) :
    (p >>= f).Gives s Q := by
  apply Program.gives_bind
  have hrelated := hp s
  unfold Gives at hrelated ⊢
  rcases hrun : p s with ⟨e | a, t⟩
  · rw [hrun] at hrelated
    exact hstop e t hrelated
  · rw [hrun] at hrelated
    exact hgoes a t hrelated fun c u hrest => hcommon c u ((bind_run_ok hrun g).trans hrest)

theorem Within.mono (hp : Within R p)
    (h : ∀ s t, R s t → R' s t) : Within R' p := fun s => (hp s).mono fun _ t => h s t

section Rules

variable {R : σ → σ → Prop}

theorem within_observe [Std.Refl R] : Within R (observe f : Program σ ε α) :=
  fun s => Std.Refl.refl s

theorem within_pure [Std.Refl R] (a) : Within R (pure a : Program σ ε α) := fun s => Std.Refl.refl s

theorem within_stop [Std.Refl R] : Within R (stop e : Program σ ε α) := fun s => Std.Refl.refl s

theorem within_update (h : ∀ s, R s (f s)) : Within R (update f : Program σ ε Unit) := h

theorem within_attempt (hp : Within R p) : Within R (attempt p) := hp

theorem within_bind [IsTrans σ R] (hp : Within R p)
    (hf : ∀ a, Within R (f a)) : Within R (p >>= f) := by
  intro s
  apply hp.gives_bind
  · exact fun _ _ h => h
  intro a t h
  apply (hf a t).mono
  exact fun _ u h' => IsTrans.trans _ _ _ h h'

theorem within_ite [Decidable c] (hp : c → Within R p)
    (hq : ¬c → Within R q) : Within R (if c then p else q) := by
  by_cases h : c
  · rw [if_pos h]
    exact hp h
  · rw [if_neg h]
    exact hq h

end Rules

end Program

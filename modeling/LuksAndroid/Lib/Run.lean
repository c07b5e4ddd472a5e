import Mathlib

/-!
# Runs of a state-and-error computation

When a sequence of steps succeeds, every step of it did. These turn the run of a
`do` block into the runs of its steps.
-/

namespace Run

variable {ε σ α β : Type}

theorem bind_ok {x : EStateM ε σ α} {f : α → EStateM ε σ β} {s s' : σ} {b : β} :
    (x >>= f) s = .ok b s' ↔ ∃ a t, x s = .ok a t ∧ f a t = .ok b s' := by
  simp only [bind, EStateM.bind]
  cases h : x s with
  | ok a t => simp
  | error e t => simp

theorem bind_eq_of_ok {x : EStateM ε σ α} {s t : σ} {a : α} (h : x s = .ok a t)
    (f : α → EStateM ε σ β) : (x >>= f) s = f a t := by
  simp only [bind, EStateM.bind, h]

theorem bind_eq_of_error {x : EStateM ε σ α} {s t : σ} {e : ε} (h : x s = .error e t)
    (f : α → EStateM ε σ β) : (x >>= f) s = .error e t := by
  simp only [bind, EStateM.bind, h]

theorem pure_ok {a b : α} {s s' : σ} :
    (pure a : EStateM ε σ α) s = .ok b s' ↔ a = b ∧ s = s' := by
  simp only [pure, EStateM.pure, EStateM.Result.ok.injEq]

theorem throw_ok {e : ε} {b : α} {s s' : σ} : ¬ (throw e : EStateM ε σ α) s = .ok b s' := by
  simp only [throw, throwThe, MonadExceptOf.throw, EStateM.throw, reduceCtorEq, not_false_eq_true]

theorem throw_bind_ok {e : ε} {f : α → EStateM ε σ β} {b : β} {s s' : σ} :
    ¬ ((throw e : EStateM ε σ α) >>= f) s = .ok b s' := by
  rw [bind_ok]
  rintro ⟨a, t, ht, -⟩
  exact throw_ok ht

theorem modify_ok {f : σ → σ} {u : PUnit} {s s' : σ} :
    (modify f : EStateM ε σ PUnit) s = .ok u s' ↔ s' = f s := by
  simp only [modify, modifyGet, MonadStateOf.modifyGet, EStateM.modifyGet, EStateM.Result.ok.injEq,
    true_and]
  exact eq_comm

theorem except_bind_ok {x : Except ε α} {f : α → Except ε β} {b : β} :
    x >>= f = .ok b ↔ ∃ a, x = .ok a ∧ f a = .ok b := by
  cases x with
  | error e => simp [bind, Except.bind]
  | ok a => simp [bind, Except.bind]

theorem guard_bind_ok {c : Prop} [Decidable c] {e : ε} {f : PUnit → Except ε β} {x : Except ε β} {b : β} :
    (if c then (throw e : Except ε PUnit) >>= f else x) = .ok b ↔ ¬ c ∧ x = .ok b := by
  by_cases h : c
  · rw [if_pos h]
    simp only [h, not_true_eq_false, false_and, iff_false]
    intro h'
    cases h'
  · rw [if_neg h]
    simp only [h, not_false_eq_true, true_and]

/-- Run a computation, and look at how it ended. -/
def attempt (x : EStateM ε σ α) : EStateM ε σ (Except ε α) := fun s =>
  match x s with
  | .ok a s => .ok (.ok a) s
  | .error e s => .ok (.error e) s

end Run

import LuksAndroid.Lib.Run

/-!
# What a computation adds to a record

The state of a computation holds a record of what happened, which only grows. A
specification says how the result and the new part of the record go together.
-/

namespace Trace

variable {ε τ ω α β : Type}

def result : EStateM.Result ε τ α → Except ε α
  | .ok a _ => .ok a
  | .error e _ => .error e

def final : EStateM.Result ε τ α → τ
  | .ok _ s => s
  | .error _ s => s

/-- From every state: the record grows by some `new`, and `Q` holds of the result and of it. -/
def Records (log : τ → List ω) (x : EStateM ε τ α) (Q : Except ε α → List ω → Prop) : Prop :=
  ∀ s, ∃ new, log (final (x s)) = log s ++ new ∧ Q (result (x s)) new

variable {log : τ → List ω} {x : EStateM ε τ α} {Q R : Except ε α → List ω → Prop}

theorem Records.mono (h : Records log x Q) (hQR : ∀ r new, Q r new → R r new) : Records log x R := by
  intro s
  obtain ⟨new, hlog, hq⟩ := h s
  exact ⟨new, hlog, hQR _ _ hq⟩

theorem Records.pure {a : α} (h : Q (.ok a) []) : Records log (pure a : EStateM ε τ α) Q :=
  fun _ => ⟨[], (List.append_nil _).symm, h⟩

theorem Records.throw {e : ε} (h : Q (.error e) []) : Records log (throw e : EStateM ε τ α) Q :=
  fun _ => ⟨[], (List.append_nil _).symm, h⟩

theorem Records.bind {f : α → EStateM ε τ β} {R : Except ε β → List ω → Prop} (hx : Records log x Q)
    (herror : ∀ e new, Q (.error e) new → R (.error e) new)
    (hf : ∀ a new, Q (.ok a) new → Records log (f a) fun r more => R r (new ++ more)) :
    Records log (x >>= f) R := by
  intro s
  obtain ⟨new, hlog, hq⟩ := hx s
  simp only [Bind.bind, EStateM.bind]
  cases hr : x s with
  | error e s' =>
    rw [hr] at hlog hq
    exact ⟨new, hlog, herror e new hq⟩
  | ok a s' =>
    rw [hr] at hlog hq
    obtain ⟨more, hlog', hr'⟩ := hf a new hq s'
    refine ⟨new ++ more, ?_, hr'⟩
    rw [hlog', ← List.append_assoc]
    exact congrArg (· ++ more) hlog

theorem Records.attempt {R : Except ε (Except ε α) → List ω → Prop} (hx : Records log x Q)
    (h : ∀ r new, Q r new → R (.ok r) new) : Records log (Run.attempt x) R := by
  intro s
  obtain ⟨new, hlog, hq⟩ := hx s
  unfold Run.attempt
  cases hr : x s with
  | error e s' =>
    rw [hr] at hlog hq
    exact ⟨new, hlog, h _ _ hq⟩
  | ok a s' =>
    rw [hr] at hlog hq
    exact ⟨new, hlog, h _ _ hq⟩

theorem Records.ite {c : Prop} [Decidable c] {y : EStateM ε τ α} (hx : c → Records log x Q)
    (hy : ¬ c → Records log y Q) : Records log (if c then x else y) Q := by
  split
  · exact hx ‹_›
  · exact hy ‹_›

end Trace

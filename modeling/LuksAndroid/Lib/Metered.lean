import Mathlib.Data.List.Basic
import LuksAndroid.Lib.Run

/-!
# Computations that keep count

A computation notes each of its events in a log. Written with fuel, it may also run out of
it. The rules compare such a computation with a plain one: it comes to the same result
without running out of fuel, and it notes at most so many events.
-/

namespace Metered

/-- How a computation ends that does not return. -/
inductive Stop (ε : Type) where
  | err (e : ε)
  | spin
deriving DecidableEq, Repr

/-- The log comes second. -/
abbrev MeterM (ε τ ω : Type) := EStateM (Stop ε) (τ × List ω)

variable {ε τ ω α β : Type}

def except (x : Except ε α) : EStateM ε τ α :=
  match x with
  | .ok a => pure a
  | .error e => throw e

/-- A computation without an event. -/
def plain (x : EStateM ε τ α) : MeterM ε τ ω α := fun s =>
  match x s.1 with
  | .ok a t => .ok a (t, s.2)
  | .error e t => .error (.err e) (t, s.2)

def note (a : ω) : MeterM ε τ ω Unit := fun s => .ok () (s.1, s.2 ++ [a])

/-- The first computation comes to what the second one does, and notes at most `k` events. -/
def Meters (x : MeterM ε τ ω α) (y : EStateM ε τ α) (k : Nat) : Prop :=
  ∀ s log, ∃ new : List ω, new.length ≤ k ∧ x (s, log) = plain y (s, log ++ new)

/-- From the empty log on, at most `k` events are noted before the computation is over. -/
def Within (x : MeterM ε τ ω α) (k : Nat) : Prop :=
  ∀ s, ∃ t log, log.length ≤ k ∧
    ((∃ r, x (s, []) = .ok r (t, log)) ∨ ∃ e, x (s, []) = .error (.err e) (t, log))

namespace Meters

variable {x : MeterM ε τ ω α} {y : EStateM ε τ α} {k j : Nat}

theorem plain (y : EStateM ε τ α) : Meters (plain y : MeterM ε τ ω α) y 0 := fun _ log =>
  ⟨[], Nat.le_refl 0, by rw [List.append_nil]⟩

theorem pure (a : α) : Meters (pure a : MeterM ε τ ω α) (pure a) 0 := plain (Pure.pure a)

theorem throw (e : ε) : Meters (throw (.err e) : MeterM ε τ ω α) (throw e) 0 := fun _ log =>
  ⟨[], Nat.le_refl 0, by rw [List.append_nil]; rfl⟩

theorem mono (h : Meters x y k) (hk : k ≤ j) : Meters x y j := by
  intro s log
  obtain ⟨new, hnew, hrun⟩ := h s log
  exact ⟨new, Nat.le_trans hnew hk, hrun⟩

theorem bind {f : α → MeterM ε τ ω β} {g : α → EStateM ε τ β} (hx : Meters x y k)
    (hf : ∀ a, (∃ s t, y s = .ok a t) → Meters (f a) (g a) j) : Meters (x >>= f) (y >>= g) (k + j) := by
  intro s log
  obtain ⟨new, hnew, hrun⟩ := hx s log
  cases hy : y s with
  | ok a t =>
    obtain ⟨new', hnew', hrun'⟩ := hf a ⟨s, t, hy⟩ t (log ++ new)
    refine ⟨new ++ new', ?_, ?_⟩
    · rw [List.length_append]
      omega
    · simp only [Metered.plain, hy] at hrun
      simp only [Bind.bind, EStateM.bind, Metered.plain, hrun, hrun', hy, List.append_assoc]
  | error e t =>
    refine ⟨new, by omega, ?_⟩
    simp only [Metered.plain, hy] at hrun
    simp only [Bind.bind, EStateM.bind, Metered.plain, hrun, hy]

theorem note_bind (a : ω) (hx : Meters x y k) : Meters (note a >>= fun _ => x) y (k + 1) := by
  intro s log
  obtain ⟨new, hnew, hrun⟩ := hx s (log ++ [a])
  refine ⟨a :: new, by simpa using hnew, ?_⟩
  have hstep : (note a >>= fun _ => x : MeterM ε τ ω α) (s, log) = x (s, log ++ [a]) := rfl
  rw [hstep, hrun, List.append_assoc, List.singleton_append]

theorem ite {c : Prop} [Decidable c] {x' : MeterM ε τ ω α} {y' : EStateM ε τ α} (ht : c → Meters x y k)
    (he : ¬ c → Meters x' y' k) : Meters (if c then x else x') (if c then y else y') k := by
  split
  · exact ht ‹_›
  · exact he ‹_›

theorem guard {c : Prop} [Decidable c] {e : ε} {f : PUnit → MeterM ε τ ω α} {g : PUnit → EStateM ε τ α}
    (h : ¬ c → Meters x y k) :
    Meters (if c then (MonadExcept.throw (Stop.err e) : MeterM ε τ ω PUnit) >>= f else x)
      (if c then (MonadExcept.throw e : EStateM ε τ PUnit) >>= g else y) k := by
  apply ite
  · intro _
    exact (throw e).mono (Nat.zero_le k)
  · exact h

theorem foldlM {γ : Type} {f : γ → α → MeterM ε τ ω γ} {g : γ → α → EStateM ε τ γ} (l : List α)
    (h : ∀ a ∈ l, ∀ c, Meters (f c a) (g c a) k) (c : γ) :
    Meters (l.foldlM f c) (l.foldlM g c) (l.length * k) := by
  induction l generalizing c with
  | nil => exact (pure c).mono (Nat.zero_le _)
  | cons a rest ih =>
    rw [List.foldlM_cons, List.foldlM_cons, List.length_cons, Nat.add_one_mul, Nat.add_comm]
    apply (h a List.mem_cons_self c).bind
    intro c' _
    exact ih (fun b hb => h b (List.mem_cons_of_mem a hb)) c'

theorem within (h : Meters x y k) : Within x k := by
  intro s
  obtain ⟨new, hnew, hrun⟩ := h s []
  rw [hrun, List.nil_append, Metered.plain]
  cases y s with
  | ok a t => exact ⟨t, new, hnew, .inl ⟨a, rfl⟩⟩
  | error e t => exact ⟨t, new, hnew, .inr ⟨e, rfl⟩⟩

end Meters

theorem Within.mono {x : MeterM ε τ ω α} {k j : Nat} (h : Within x k) (hk : k ≤ j) : Within x j := by
  intro s
  obtain ⟨t, log, hlog, hrun⟩ := h s
  exact ⟨t, log, Nat.le_trans hlog hk, hrun⟩

/-! ## How a computation may end -/

def Never (h : Stop ε) (x : MeterM ε τ ω α) : Prop := ∀ s t, x s ≠ .error h t

namespace Never

variable {h : Stop ε} {x : MeterM ε τ ω α}

theorem pure (a : α) : Never h (pure a : MeterM ε τ ω α) := by
  intro s t hrun
  cases hrun

theorem note (a : ω) : Never h (note a : MeterM ε τ ω Unit) := by
  intro s t hrun
  cases hrun

theorem plain_spin (y : EStateM ε τ α) : Never .spin (Metered.plain y : MeterM ε τ ω α) := by
  intro s t hrun
  unfold Metered.plain at hrun
  cases hy : y s.1 with
  | ok a u =>
    rw [hy] at hrun
    cases hrun
  | error e u =>
    rw [hy] at hrun
    cases hrun

theorem bind {f : α → MeterM ε τ ω β} (hx : Never h x) (hf : ∀ a s t, x s = .ok a t → Never h (f a)) :
    Never h (x >>= f) := by
  intro s t hrun
  simp only [Bind.bind, EStateM.bind] at hrun
  cases hr : x s with
  | ok a u =>
    rw [hr] at hrun
    exact hf a s u hr u t hrun
  | error e u =>
    rw [hr] at hrun
    cases hrun
    exact hx s t hr

theorem mapM {f : α → MeterM ε τ ω β} (l : List α) (hf : ∀ a ∈ l, Never h (f a)) : Never h (l.mapM f) := by
  induction l with
  | nil => exact pure []
  | cons a rest ih =>
    rw [List.mapM_cons]
    apply bind (hf a List.mem_cons_self)
    intro b _ _ _
    apply bind (ih fun c hc => hf c (List.mem_cons_of_mem a hc))
    intro bs _ _ _
    exact pure (b :: bs)

end Never

theorem Never.within {x : MeterM ε Unit ω α} (h : Never .spin x) : ∃ k, Within x k := by
  cases hr : x ((), []) with
  | ok a t => exact ⟨t.2.length, fun _ => ⟨t.1, t.2, Nat.le_refl _, .inl ⟨a, hr⟩⟩⟩
  | error e t =>
    cases e with
    | err e => exact ⟨t.2.length, fun _ => ⟨t.1, t.2, Nat.le_refl _, .inr ⟨e, hr⟩⟩⟩
    | spin => exact absurd hr (h _ t)

theorem mapM_ok {f : α → MeterM ε τ ω β} (l : List α) : ∀ {bs : List β} {s t : τ × List ω},
    l.mapM f s = .ok bs t → ∀ a ∈ l, ∃ b s' t', f a s' = .ok b t' := by
  induction l with
  | nil =>
    intro bs s t _ a ha
    cases ha
  | cons a rest ih =>
    intro bs s t hrun
    rw [List.mapM_cons] at hrun
    obtain ⟨b, u, ha, hrun⟩ := Run.bind_ok.mp hrun
    obtain ⟨bs', u', hrest, -⟩ := Run.bind_ok.mp hrun
    intro c hc
    rcases List.mem_cons.mp hc with rfl | hc
    · exact ⟨b, s, u, ha⟩
    · exact ih hrest c hc

/-! ## Plain results -/

theorem except_bind (x : Except ε α) (f : α → Except ε β) :
    (except (x >>= f) : EStateM ε τ β) = except x >>= fun a => except (f a) := by
  cases x with
  | ok a => rfl
  | error e => rfl

theorem except_foldlM {γ : Type} (f : γ → α → Except ε γ) (l : List α) (c : γ) :
    (except (l.foldlM f c) : EStateM ε τ γ) = l.foldlM (fun c a => except (f c a)) c := by
  induction l generalizing c with
  | nil => rfl
  | cons a rest ih =>
    rw [List.foldlM_cons, List.foldlM_cons, except_bind]
    simp only [ih]

theorem except_mapM_ok {f : α → MeterM ε τ ω β} {g : α → Except ε β} {l : List α}
    (h : ∀ a b s t, f a s = .ok b t → g a = .ok b) : ∀ {bs : List β} {s t : τ × List ω},
    l.mapM f s = .ok bs t → l.mapM g = .ok bs := by
  induction l with
  | nil =>
    intro bs s t hrun
    cases hrun
    rfl
  | cons a rest ih =>
    intro bs s t hrun
    rw [List.mapM_cons] at hrun
    obtain ⟨b, u, ha, hrun⟩ := Run.bind_ok.mp hrun
    obtain ⟨bs', u', hrest, hrun⟩ := Run.bind_ok.mp hrun
    cases hrun
    rw [List.mapM_cons, h a b s u ha, ih hrest]
    rfl

theorem Meters.except_guard {c c' : Prop} [Decidable c] [Decidable c'] (hc : c ↔ c') {e : ε} {k : Nat}
    {f : PUnit → MeterM ε τ ω α} {g : PUnit → Except ε α} {x : MeterM ε τ ω α} {y : Except ε α}
    (h : ¬ c → Meters x (except y) k) :
    Meters (if c then (MonadExcept.throw (Stop.err e) : MeterM ε τ ω PUnit) >>= f else x)
      (except (if c' then (MonadExcept.throw e : Except ε PUnit) >>= g else y)) k := by
  by_cases hcheck : c
  · rw [if_pos hcheck, if_pos (hc.mp hcheck)]
    exact (throw e).mono (Nat.zero_le k)
  · rw [if_neg hcheck, if_neg (mt hc.mpr hcheck)]
    exact h hcheck

theorem except_ok {x : Except ε α} {a : α} {s t : τ} (h : except x s = .ok a t) : x = .ok a := by
  cases x with
  | ok b =>
    cases h
    rfl
  | error e => cases h

end Metered

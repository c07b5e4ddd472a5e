import Mathlib

/-!
# Machines

A machine takes actions one at a time, and may refuse one. What each step keeps under a
condition on the action and the state before it, a whole run keeps.
-/

namespace Machine

variable {σ α : Type} (step : σ → α → Option σ)

def run : σ → List α → Option σ
  | s, [] => some s
  | s, a :: rest => (step s a).bind fun s' => run s' rest

/-- Every action meets the condition in the state in which it is taken. -/
def Meets (cond : σ → α → Prop) : σ → List α → Prop
  | _, [] => True
  | s, a :: rest => cond s a ∧ ∀ s', step s a = some s' → Meets cond s' rest

variable {step} {cond : σ → α → Prop} {s s' : σ}

theorem run_cons {a : α} {rest : List α} :
    run step s (a :: rest) = some s' ↔ ∃ t, step s a = some t ∧ run step t rest = some s' := by
  rw [run]
  apply Option.bind_eq_some_iff

theorem run_append (acts more : List α) :
    run step s (acts ++ more) = some s' ↔ ∃ t, run step s acts = some t ∧ run step t more = some s' := by
  induction acts generalizing s with
  | nil => simp [run]
  | cons a rest ih =>
    simp only [List.cons_append, run_cons, ih]
    constructor
    · rintro ⟨t, hstep, u, hrest, hmore⟩
      exact ⟨u, ⟨t, hstep, hrest⟩, hmore⟩
    · rintro ⟨u, ⟨t, hstep, hrest⟩, hmore⟩
      exact ⟨t, hstep, u, hrest, hmore⟩

theorem Meets.append {acts more : List α} {t : σ} (h : Meets step cond s (acts ++ more))
    (hrun : run step s acts = some t) : Meets step cond s acts ∧ Meets step cond t more := by
  induction acts generalizing s with
  | nil =>
    cases hrun
    exact ⟨trivial, h⟩
  | cons a rest ih =>
    obtain ⟨hcond, hrest⟩ := h
    obtain ⟨u, hstep, hrun⟩ := run_cons.mp hrun
    refine ⟨⟨hcond, ?_⟩, (ih (hrest u hstep) hrun).2⟩
    intro u' hstep'
    cases hstep.symm.trans hstep'
    exact (ih (hrest u hstep) hrun).1

theorem run_keeps (inv : σ → Prop) (hstep : ∀ s a s', inv s → cond s a → step s a = some s' → inv s')
    (acts : List α) (h : inv s) (hmeets : Meets step cond s acts) (hrun : run step s acts = some s') : inv s' := by
  induction acts generalizing s with
  | nil =>
    cases hrun
    exact h
  | cons a rest ih =>
    obtain ⟨hcond, hrest⟩ := hmeets
    obtain ⟨t, ht, hrun⟩ := run_cons.mp hrun
    apply ih _ (hrest t ht) hrun
    exact hstep s a t h hcond ht

theorem run_invariant (inv : σ → Prop) (hstep : ∀ s a s', inv s → step s a = some s' → inv s') (acts : List α)
    (h : inv s) (hrun : run step s acts = some s') : inv s' := by
  induction acts generalizing s with
  | nil =>
    cases hrun
    exact h
  | cons a rest ih =>
    obtain ⟨t, ht, hrun⟩ := run_cons.mp hrun
    exact ih (hstep s a t h ht) hrun

theorem Meets.mono {cond' : σ → α → Prop} {acts : List α} (h : Meets step cond s acts)
    (himp : ∀ s a, cond s a → cond' s a) : Meets step cond' s acts := by
  induction acts generalizing s with
  | nil => trivial
  | cons a rest ih => exact ⟨himp s a h.1, fun t ht => ih (h.2 t ht)⟩

/-- The machine that refuses what does not pass a check, too. -/
def guarded (step : σ → α → Option σ) (check : σ → α → Bool) (s : σ) (a : α) : Option σ :=
  if check s a then step s a else none

theorem run_guarded {check : σ → α → Bool} {acts : List α} (h : run (guarded step check) s acts = some s') :
    run step s acts = some s' ∧ Meets step (fun s a => check s a = true) s acts := by
  induction acts generalizing s with
  | nil => exact ⟨h, trivial⟩
  | cons a rest ih =>
    obtain ⟨t, ht, hrest⟩ := run_cons.mp h
    unfold guarded at ht
    split at ht
    · rename_i hcheck
      obtain ⟨hrun, hmeets⟩ := ih hrest
      refine ⟨run_cons.mpr ⟨t, ht, hrun⟩, hcheck, ?_⟩
      intro u hu
      cases ht.symm.trans hu
      exact hmeets
    · cases ht

end Machine

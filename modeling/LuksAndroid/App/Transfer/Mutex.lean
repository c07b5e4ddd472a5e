import LuksAndroid.Lib.Machine

/-!
# The transfer mutex

`transferMutex` of `session/TransferManager.kt`: the jobs of `startImport`, `startExport`,
`startHash` and `startDirectoryTransfer`, the write streams of
`documents/LuksProxyCallback.kt`, and `resetTransferLocks`, which every teardown of the
session calls. The mutex knows no owner. Unlocking it while it is free throws, and every
caller swallows that.
-/

namespace LuksAndroid.App

-- Who takes the mutex.
inductive Client where
  | job (id : Nat)
  | stream (id : Nat)
deriving DecidableEq, Repr

inductive Stage where
  | idle
  -- suspended in `transferMutex.lock()`
  | waiting
  -- between its acquisition and its release
  | holding
  | finished
deriving DecidableEq, Repr

-- Where `resetTransferLocks` is. The session runs one teardown at a time.
inductive Reset where
  | idle
  -- the active jobs are cancelled
  | cancelled
  -- `transferMutex.isLocked` was true
  | unlocking
deriving DecidableEq, Repr

/-- The mutex and all who use it. The source has no `owner` and no `releases`: they say whose acquisition
the mutex is locked by, and of each release whether it undid the releaser's own. -/
structure Transfers where
  locked : Bool
  stage : Client → Stage
  cancelled : Client → Bool
  reset : Reset
  owner : Option Client
  releases : List (Client × Bool)

inductive Action where
  -- a `start…` call, or `tryAcquireForSafWrite`
  | ask (c : Client)
  | acquire (c : Client)
  -- a job that was cancelled while it waited, or a stream whose time is up
  | give_up (c : Client)
  -- `withTimeoutOrNull` runs out when `lock()` has returned: the mutex is taken, and `tryAcquireForSafWrite` is false
  | lapse (id : Nat)
  -- the `finally` of `withLock`, or `releaseSafWriteLock`
  | release (c : Client)
  | cancel (id : Nat)
  -- the three parts of `resetTransferLocks`
  | cancel_jobs
  | look
  | reset_unlock
deriving DecidableEq, Repr

-- A job takes the mutex once. A stream that was abandoned may ask again.
def Client.after : Client → Stage
  | job _ => .finished
  | stream _ => .idle

namespace Transfers

variable (s : Transfers)

def enter (c : Client) (stage : Stage) : Transfers := { s with stage := Function.update s.stage c stage }

/-- Whether the client may stop waiting: a job only by its cancellation. -/
def may_give_up : Client → Bool
  | .job id => s.cancelled (.job id)
  | .stream _ => true

/-- Whether the client is a job in `activeJobs`. -/
def active : Client → Bool
  | .job id => s.stage (.job id) = .waiting ∨ s.stage (.job id) = .holding
  | .stream _ => false

def unlock : Transfers := { s with locked := false, owner := none }

def step : Action → Option Transfers
  | .ask c => if s.stage c = .idle then some (s.enter c .waiting) else none
  | .acquire c =>
    if s.stage c = .waiting ∧ s.locked = false then
      some { s.enter c .holding with locked := true, owner := some c }
    else none
  | .give_up c =>
    if s.stage c = .waiting ∧ s.may_give_up c = true then some (s.enter c c.after) else none
  | .lapse id =>
    if s.stage (.stream id) = .waiting ∧ s.locked = false then
      some { s.enter (.stream id) .idle with locked := true }
    else none
  | .release c =>
    if s.stage c = .holding then
      some { (s.enter c c.after).unlock with releases := s.releases ++ [(c, decide (s.owner = some c))] }
    else none
  | .cancel id => some { s with cancelled := Function.update s.cancelled (.job id) true }
  | .cancel_jobs =>
    if s.reset = .idle then
      some { s with cancelled := fun c => s.cancelled c || s.active c, reset := .cancelled }
    else none
  | .look =>
    if s.reset = .cancelled then some { s with reset := if s.locked then .unlocking else .idle } else none
  | .reset_unlock => if s.reset = .unlocking then some { s.unlock with reset := .idle } else none

/-- Before the first transfer. -/
def fresh : Transfers where
  locked := false
  stage _ := .idle
  cancelled _ := false
  reset := .idle
  owner := none
  releases := []

/-- Nobody is between acquisition and release. -/
def Calm : Prop := ∀ c, s.stage c ≠ .holding

structure Exclusive : Prop where
  one : ∀ c d, s.stage c = .holding → s.stage d = .holding → c = d
  own : ∀ r ∈ s.releases, r.2 = true
  free : s.Calm → s.locked = false

/-- A teardown unlocks the mutex only when nobody holds it, and no time runs out behind an acquisition. -/
structure Spares (a : Action) : Prop where
  calm : a = .reset_unlock → s.Calm
  prompt : ∀ id, a ≠ .lapse id

/-- The mutex is locked by the one client that holds it. -/
structure Owned : Prop where
  holder : ∀ c, s.stage c = .holding ↔ s.owner = some c
  locked : s.locked = s.owner.isSome
  own : ∀ r ∈ s.releases, r.2 = true

variable {s} {s' : Transfers}

theorem Client.after_ne_holding (c : Client) : c.after ≠ .holding := by
  cases c <;> simp [Client.after]

theorem Owned.calm (h : s.Owned) (hfree : s.locked = false) : s.Calm := by
  intro c hc
  have howner := (h.holder c).mp hc
  have hlocked := h.locked
  rw [howner, hfree] at hlocked
  cases hlocked

theorem Owned.exclusive (h : s.Owned) : s.Exclusive := by
  refine ⟨?_, h.own, ?_⟩
  · intro c d hc hd
    have hsame := ((h.holder c).mp hc).symm.trans ((h.holder d).mp hd)
    simpa using hsame
  · intro hcalm
    rw [h.locked]
    cases howner : s.owner with
    | none => rfl
    | some c => exact absurd ((h.holder c).mpr howner) (hcalm c)

theorem Owned.enter (h : s.Owned) {c : Client} {stage : Stage} (hc : s.stage c ≠ .holding)
    (hstage : stage ≠ .holding) : (s.enter c stage).Owned := by
  refine ⟨?_, h.locked, h.own⟩
  intro d
  unfold Transfers.enter
  by_cases hd : d = c
  · subst hd
    simp only [Function.update_self, hstage, false_iff]
    exact mt (h.holder d).mpr hc
  · simp only [Function.update_of_ne hd]
    apply h.holder

theorem Owned.acquire (h : s.Owned) {c : Client} (hfree : s.locked = false) :
    { s.enter c .holding with locked := true, owner := some c : Transfers }.Owned := by
  refine ⟨?_, rfl, h.own⟩
  intro d
  unfold Transfers.enter
  by_cases hd : d = c
  · subst hd
    simp
  · simp only [Function.update_of_ne hd, Option.some.injEq, Ne.symm hd, iff_false]
    apply h.calm hfree

theorem Owned.release (h : s.Owned) {c : Client} (hc : s.stage c = .holding) :
    { (s.enter c c.after).unlock with
      releases := s.releases ++ [(c, decide (s.owner = some c))] : Transfers }.Owned := by
  have howner := (h.holder c).mp hc
  refine ⟨?_, rfl, ?_⟩
  · intro d
    unfold Transfers.enter Transfers.unlock
    by_cases hd : d = c
    · subst hd
      simp [Client.after_ne_holding]
    · simp only [Function.update_of_ne hd, reduceCtorEq, iff_false]
      intro hholds
      have hsame := howner.symm.trans ((h.holder d).mp hholds)
      exact hd (Option.some.inj hsame).symm
  · intro r hr
    rcases List.mem_append.mp hr with hold | hnew
    · exact h.own r hold
    · rw [List.mem_singleton.mp hnew]
      simp [howner]

/-- With nobody inside, the mutex is free already. -/
theorem Owned.reset_unlock (h : s.Owned) (hcalm : s.Calm) :
    { s.unlock with reset := .idle : Transfers }.Owned := by
  refine ⟨?_, rfl, h.own⟩
  intro c
  simp only [Transfers.unlock, reduceCtorEq, iff_false]
  apply hcalm

theorem Owned.step {a : Action} (h : s.Owned) (hspares : s.Spares a) (hstep : s.step a = some s') :
    s'.Owned := by
  cases a with
  | ask c =>
    simp only [Transfers.step, Option.ite_none_right_eq_some, Option.some.injEq] at hstep
    obtain ⟨hidle, rfl⟩ := hstep
    apply h.enter <;> simp [hidle]
  | acquire c =>
    simp only [Transfers.step, Option.ite_none_right_eq_some, Option.some.injEq] at hstep
    obtain ⟨⟨-, hfree⟩, rfl⟩ := hstep
    exact h.acquire hfree
  | give_up c =>
    simp only [Transfers.step, Option.ite_none_right_eq_some, Option.some.injEq] at hstep
    obtain ⟨⟨hwaiting, -⟩, rfl⟩ := hstep
    apply h.enter
    · simp [hwaiting]
    · exact Client.after_ne_holding c
  | lapse id => exact absurd rfl (hspares.prompt id)
  | release c =>
    simp only [Transfers.step, Option.ite_none_right_eq_some, Option.some.injEq] at hstep
    obtain ⟨hholds, rfl⟩ := hstep
    exact h.release hholds
  | cancel id =>
    cases hstep
    exact ⟨h.holder, h.locked, h.own⟩
  | cancel_jobs =>
    simp only [Transfers.step, Option.ite_none_right_eq_some, Option.some.injEq] at hstep
    obtain ⟨-, rfl⟩ := hstep
    exact ⟨h.holder, h.locked, h.own⟩
  | look =>
    simp only [Transfers.step, Option.ite_none_right_eq_some, Option.some.injEq] at hstep
    obtain ⟨-, rfl⟩ := hstep
    exact ⟨h.holder, h.locked, h.own⟩
  | reset_unlock =>
    simp only [Transfers.step, Option.ite_none_right_eq_some, Option.some.injEq] at hstep
    obtain ⟨-, rfl⟩ := hstep
    exact h.reset_unlock (hspares.calm rfl)

theorem fresh_owned : fresh.Owned := by
  refine ⟨?_, rfl, ?_⟩
  · intro c
    simp [fresh]
  · simp [fresh]

/-- The mutex excludes in every state of a run in which no teardown unlocks it under a holder and no stream is told
that its time is up when it has the mutex. -/
theorem exclusive_of_spared (acts : List Action) (hspares : Machine.Meets step Spares fresh acts)
    (hrun : Machine.run step fresh acts = some s) : s.Exclusive := by
  apply Owned.exclusive
  exact Machine.run_keeps Owned (fun _ _ _ h hspares hstep => h.step hspares hstep) acts fresh_owned hspares hrun

end Transfers

-- A teardown finds the mutex locked by an import, which releases it before the teardown unlocks it. A stream writes
-- after the next unlock.
def inTurn : List Action :=
  [.ask (.job 1), .acquire (.job 1), .cancel_jobs, .look, .release (.job 1), .reset_unlock, .ask (.stream 1),
    .acquire (.stream 1)]

-- The drive is pulled during an import, and a stream writes before the import has unwound.
def torn : List Action :=
  [.ask (.job 1), .acquire (.job 1), .cancel_jobs, .look, .reset_unlock, .ask (.stream 1), .acquire (.stream 1)]

theorem exclusive_in_turn :
    ∃ s, Machine.run Transfers.step Transfers.fresh inTurn = some s ∧ s.Exclusive ∧
      s.stage (.stream 1) = .holding := by
  have hspares : Machine.Meets Transfers.step Transfers.Spares Transfers.fresh inTurn := by
    have hquiet (s : Transfers) {a : Action} (ha : a ≠ .reset_unlock) (hlapse : ∀ id, a ≠ .lapse id) : s.Spares a :=
      ⟨fun h => absurd h ha, hlapse⟩
    refine ⟨hquiet _ nofun nofun, fun _ h => ⟨hquiet _ nofun nofun, fun _ h' => ⟨hquiet _ nofun nofun, fun _ h'' =>
      ⟨hquiet _ nofun nofun, fun _ h₃ => ⟨hquiet _ nofun nofun, fun s₅ h₄ => ⟨⟨fun _ => ?_, nofun⟩, fun _ _ =>
      ⟨hquiet _ nofun nofun, fun _ _ => ⟨hquiet _ nofun nofun, fun _ _ => trivial⟩⟩⟩⟩⟩⟩⟩⟩
    cases h
    cases h'
    cases h''
    cases h₃
    cases h₄
    intro c
    by_cases hc : c = .job 1
    · subst hc
      exact nofun
    · simp [Transfers.unlock, Transfers.enter, Transfers.fresh, Function.update_of_ne hc]
  obtain ⟨s, hrun, hholds⟩ : ∃ s, Machine.run Transfers.step Transfers.fresh inTurn = some s ∧
      s.stage (.stream 1) = .holding := ⟨_, rfl, rfl⟩
  exact ⟨s, hrun, Transfers.exclusive_of_spared inTurn hspares hrun, hholds⟩

theorem torn_not_exclusive :
    ¬ ∀ acts s, Machine.run Transfers.step Transfers.fresh acts = some s → s.Exclusive := by
  intro h
  have hone := (h torn _ rfl).one (.job 1) (.stream 1) rfl rfl
  cases hone

end LuksAndroid.App

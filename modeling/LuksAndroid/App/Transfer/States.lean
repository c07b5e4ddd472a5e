import LuksAndroid.Lib.Machine

/-!
# The states of one transfer

A single-file import or export of `session/TransferManager.kt`: the job of `startImport` or
`startExport` with `importFileWithProgress` or `exportFileWithProgress` in it, and any
number of `cancelTransfer` calls. Each look at the list of transfers and each update of it
is a step. Speeds, rates and error texts are left out: no state depends on them.
-/

namespace LuksAndroid.App

inductive TransferType where
  | IMPORT
  | EXPORT
deriving DecidableEq, Repr

inductive TransferState where
  | QUEUED
  | RUNNING
  | COMPLETED
  | CANCELLED
  | FAILED
deriving DecidableEq, Repr

def TransferState.terminal : TransferState → Bool
  | COMPLETED | CANCELLED | FAILED => true
  | QUEUED | RUNNING => false

-- What the job can throw, as its catch blocks tell it apart.
inductive Thrown where
  | cancellation
  | luks (is_cancelled : Bool)
  | other
deriving DecidableEq, Repr

-- Where the job is.
inductive Pc where
  -- in `transferMutex.lock()`
  | queued
  -- before the first look whether it was cancelled
  | locked
  -- before the first update to RUNNING
  | admitted
  -- before the lease and the entry into the function
  | started
  -- before the second update to RUNNING
  | opened
  -- before the writer or the output stream is opened
  | began
  -- an import has its writer, and opens the source next
  | writing
  -- at the head of the loop
  | looping
  -- before the look in the loop
  | checking
  -- before the next chunk
  | copying
  -- before the streams are closed and the look after the loop
  | leaving
  -- before the comparison of the sizes and `writer.finish`
  | checked
  -- before the update to COMPLETED
  | published
  -- in the `finally` of an import, before `writer.close`
  | closing (t : Thrown)
  -- at the start of a catch block
  | caught (t : Thrown)
  -- before the update of a catch block, to CANCELLED or to FAILED
  | failing (cancelled : Bool)
  | ended
deriving DecidableEq, Repr

-- Where a `cancelTransfer` call is.
inductive CancelPc where
  | idle
  -- it saw the item QUEUED or RUNNING
  | looked
  -- it has cancelled the job
  | cancelled
deriving DecidableEq, Repr

/-- The item, its job and the calls that cancel it. `published` says that an import has its file on the
volume, or an export all bytes in its closed stream. `late` says that an import was published while it was
shown as cancelled. -/
structure Transfer where
  type : TransferType
  total_bytes : Option Nat
  state : TransferState
  pc : Pc
  is_active : Bool
  done : Nat
  published : Bool
  late : Bool
  cancels : Nat → CancelPc

inductive Turn where
  | go
  -- `channel.read` or `readChunk` gives this many bytes
  | read (n : Nat)
  | throws (t : Thrown)
  | look (call : Nat)
  | cancel_job (call : Nat) (found : Bool)
  | mark (call : Nat)
deriving DecidableEq, Repr

namespace Transfer

variable (s : Transfer)

def remaining : Nat := s.total_bytes.getD 0 - s.done

/-- Where an exception leads that is thrown while the writer of an import is open. -/
def failed (t : Thrown) : Pc :=
  match s.type with
  | .IMPORT => .closing t
  | .EXPORT => .caught t

/-- The end of `stream.use`: what was exported is complete. -/
def closed : Transfer :=
  { s with published := s.published || decide (s.type = .EXPORT ∧ s.remaining = 0) }

def finish : Transfer :=
  match s.type with
  | .IMPORT =>
    { s with pc := .published, published := true, late := s.late || decide (s.state = .CANCELLED) }
  | .EXPORT => { s with pc := .published }

/-- The next step of the job where nothing is thrown. -/
def go : Option Transfer :=
  match s.pc with
  | .queued => some { s with pc := .locked }
  | .locked => some { s with pc := if s.state = .CANCELLED then .ended else .admitted }
  | .admitted => some { s with state := .RUNNING, pc := .started }
  | .started => some { s with pc := .opened }
  | .opened => some { s with state := .RUNNING, pc := .began }
  | .began =>
    some { s with pc :=
      if s.total_bytes = none then .caught .other else if s.type = .IMPORT then .writing else .looping }
  | .writing => some { s with pc := .looping }
  | .looping => some { s with pc := if s.remaining ≠ 0 ∧ s.is_active = true then .checking else .leaving }
  | .checking => some { s with pc := if s.state = .CANCELLED then s.failed .cancellation else .copying }
  | .copying => none
  | .leaving =>
    some { s.closed with pc := if s.state = .CANCELLED then s.failed .cancellation else .checked }
  | .checked => some (if s.remaining ≠ 0 then { s with pc := s.failed .other } else s.finish)
  | .published => some { s with state := .COMPLETED, pc := .ended }
  | .closing t => some { s with pc := .caught t }
  | .caught .cancellation => some { s with pc := .failing true }
  | .caught (.luks is_cancelled) => some { s with pc := .failing (is_cancelled || decide (s.state = .CANCELLED)) }
  | .caught .other => some { s with pc := .failing false }
  | .failing cancelled => some { s with state := if cancelled then .CANCELLED else .FAILED, pc := .ended }
  | .ended => none

/-- What can be thrown where. Outside of `try` the job just ends. What `writer.close` throws in the `finally`
takes the place of what was thrown before. After `writer.finish` it has no writer to close. -/
def throws (t : Thrown) : Option Transfer :=
  match s.pc with
  | .queued => if t = .cancellation ∧ s.is_active = false then some { s with pc := .ended } else none
  | .started => some { s with pc := .ended }
  | .began => if t = .cancellation then none else some { s with pc := .caught t }
  | .writing | .copying | .leaving => if t = .cancellation then none else some { s with pc := s.failed t }
  | .closing _ => if t = .cancellation then none else some { s with pc := .caught t }
  | .checked =>
    if t ≠ .cancellation ∧ s.type = .IMPORT ∧ s.remaining = 0 then some { s with pc := .caught t } else none
  | _ => none

def step : Turn → Option Transfer
  | .go => s.go
  | .read n =>
    if s.pc = .copying ∧ n ≤ s.remaining then
      some (if n = 0 then { s with pc := .leaving } else { s with done := s.done + n, pc := .looping })
    else none
  | .throws t => s.throws t
  | .look call =>
    if s.cancels call = .idle then
      some (if s.state.terminal = true then s else { s with cancels := Function.update s.cancels call .looked })
    else none
  | .cancel_job call found =>
    if s.cancels call = .looked then
      some { s with
        is_active := s.is_active && !found
        cancels := Function.update s.cancels call .cancelled }
    else none
  | .mark call =>
    if s.cancels call = .cancelled then
      some { s with state := .CANCELLED, cancels := Function.update s.cancels call .idle }
    else none

/-- A transfer that was just started. -/
def fresh (type : TransferType) (total_bytes : Option Nat) : Transfer where
  type := type
  total_bytes := total_bytes
  state := .QUEUED
  pc := .queued
  is_active := true
  done := 0
  published := false
  late := false
  cancels _ := .idle

/-- What is shown is true. -/
structure Honest : Prop where
  cancelled : s.state = .CANCELLED → s.late = false
  completed : s.state = .COMPLETED → s.published = true

/-- The job looks for a cancel again before it sets another state than CANCELLED or publishes. -/
def Looks : Prop :=
  match s.pc with
  | .queued | .locked | .writing | .looping | .checking | .copying | .leaving => True
  | .began => s.total_bytes ≠ none
  | .closing t | .caught t => t ≠ .other
  | .failing cancelled => cancelled = true
  | .ended => True
  | .admitted | .started | .opened | .checked | .published => False

/-- No `cancelTransfer` is between its look and its update. -/
def Uncalled : Prop := ∀ call, s.cancels call = .idle

/-- The job sets COMPLETED or FAILED next. -/
def Settles : Prop := s.pc = .published ∨ s.pc = .failing false

/-- The places where a check and what follows it come apart: the job looks for a cancel again after it was
marked, no call is under way when the job settles, and nothing unforeseen is thrown after a cancel. -/
@[mk_iff]
structure Timely (a : Turn) : Prop where
  marked : ∀ call, a = .mark call → s.Looks
  settled : a = .go → s.Settles → s.Uncalled
  thrown : a = .throws .other → s.state ≠ .CANCELLED

/-- The invariant. -/
structure Kept : Prop where
  cancelled : s.state = .CANCELLED → s.Looks
  ended : s.state = .COMPLETED ∨ s.state = .FAILED → s.pc = .ended ∧ s.Uncalled
  completed : s.state = .COMPLETED ∨ s.pc = .published → s.published = true
  -- an export that passed the look after its loop is complete or short
  whole : s.pc = .checked → s.type = .EXPORT → s.remaining = 0 → s.published = true
  late : s.late = false

variable {s} {s' : Transfer}

theorem Kept.move (h : s.Kept) {pc : Pc} (hrunning : s.state ≠ .COMPLETED ∧ s.state ≠ .FAILED)
    (hlooks : s.state = .CANCELLED → { s with pc : Transfer }.Looks) (hpc : pc ≠ .published ∧ pc ≠ .checked) :
    { s with pc : Transfer }.Kept where
  cancelled := hlooks
  ended hstate := by simp [hrunning] at hstate
  completed hor := by simp [hrunning, hpc] at hor
  whole hchecked := absurd hchecked hpc.2
  late := h.late

theorem Kept.running (h : s.Kept) (hpc : s.pc ≠ .ended) : s.state ≠ .COMPLETED ∧ s.state ≠ .FAILED := by
  constructor
  · intro hstate
    exact hpc (h.ended (.inl hstate)).1
  · intro hstate
    exact hpc (h.ended (.inr hstate)).1

theorem Kept.uncancelled (h : s.Kept) (hlooks : ¬ s.Looks) : s.state ≠ .CANCELLED := mt h.cancelled hlooks

theorem Kept.set_running (h : s.Kept) {pc : Pc} (hpc : pc ≠ .published ∧ pc ≠ .checked) :
    { s with state := .RUNNING, pc : Transfer }.Kept where
  cancelled hc := nomatch hc
  ended hstate := by simp at hstate
  completed hor := by simp [hpc] at hor
  whole hchecked := absurd hchecked hpc.2
  late := h.late

theorem failed_cases (s : Transfer) (t : Thrown) : s.failed t = .closing t ∨ s.failed t = .caught t := by
  unfold failed
  cases s.type with
  | IMPORT => exact .inl rfl
  | EXPORT => exact .inr rfl

theorem Kept.fail (h : s.Kept) {t : Thrown} (hpc : s.pc ≠ .ended) (ht : s.state = .CANCELLED → t ≠ .other) :
    { s with pc := s.failed t : Transfer }.Kept := by
  rcases failed_cases s t with hfailed | hfailed
  all_goals
    rw [hfailed]
    apply h.move (h.running hpc) _ (by simp)
    simpa [Looks] using ht

theorem Kept.settle (h : s.Kept) {state : TransferState} (hpublished : state = .COMPLETED → s.published = true)
    (hquiet : state = .COMPLETED ∨ state = .FAILED → s.Uncalled) :
    { s with state, pc := .ended : Transfer }.Kept where
  cancelled _ := trivial
  ended hstate := ⟨rfl, hquiet hstate⟩
  completed hor := by
    apply hpublished
    simpa using hor
  whole hchecked := nomatch hchecked
  late := h.late

theorem Kept.pass (h : s.Kept) (hpc : s.pc = .leaving) (hc : s.state ≠ .CANCELLED) :
    { s.closed with pc := .checked : Transfer }.Kept := by
  have hrunning := h.running (by simp [hpc])
  refine ⟨fun hcancelled => absurd hcancelled hc, ?_, ?_, ?_, h.late⟩
  · intro hstate
    simp only [Transfer.closed] at hstate
    simp [hrunning] at hstate
  · intro hor
    simp only [Transfer.closed, reduceCtorEq, or_false] at hor
    exact absurd hor hrunning.1
  · intro _ htype hremaining
    simp only [Transfer.closed, Transfer.remaining] at htype hremaining ⊢
    simp [htype, hremaining]

theorem Kept.finish (h : s.Kept) (hpc : s.pc = .checked) (hremaining : s.remaining = 0) : s.finish.Kept := by
  have hrunning := h.running (by simp [hpc])
  have hc := h.uncancelled (by simp [Looks, hpc])
  unfold Transfer.finish
  cases htype : s.type with
  | IMPORT =>
    refine ⟨fun hcancelled => absurd hcancelled hc, ?_, fun _ => rfl, (fun hchecked => nomatch hchecked), ?_⟩
    · intro hstate
      simp [hrunning] at hstate
    · simp [h.late, hc]
  | EXPORT =>
    refine ⟨fun hcancelled => absurd hcancelled hc, ?_, ?_, (fun hchecked => nomatch hchecked), h.late⟩
    · intro hstate
      simp [hrunning] at hstate
    · intro _
      exact h.whole hpc htype hremaining

theorem Kept.go (h : s.Kept) (hsettled : s.Settles → s.Uncalled) (hstep : s.go = some s') : s'.Kept := by
  unfold Transfer.go at hstep
  cases hpc : s.pc with
  | queued =>
    simp only [hpc, Option.some.injEq] at hstep
    subst hstep
    apply h.move (h.running (by simp [hpc])) <;> simp [Looks]
  | locked =>
    simp only [hpc, Option.some.injEq] at hstep
    subst hstep
    apply h.move (h.running (by simp [hpc]))
    · intro hc
      simp [Looks, hc]
    · split <;> simp
  | admitted =>
    simp only [hpc, Option.some.injEq] at hstep
    subst hstep
    apply h.set_running
    simp
  | started =>
    simp only [hpc, Option.some.injEq] at hstep
    subst hstep
    apply h.move (h.running (by simp [hpc]))
    · intro hc
      exact absurd hc (h.uncancelled (by simp [Looks, hpc]))
    · simp
  | opened =>
    simp only [hpc, Option.some.injEq] at hstep
    subst hstep
    apply h.set_running
    simp
  | began =>
    simp only [hpc, Option.some.injEq] at hstep
    subst hstep
    apply h.move (h.running (by simp [hpc]))
    · intro hc
      have hlooks := h.cancelled hc
      simp only [Looks, hpc] at hlooks
      unfold Looks
      split_ifs <;> trivial
    · split_ifs <;> simp
  | writing =>
    simp only [hpc, Option.some.injEq] at hstep
    subst hstep
    apply h.move (h.running (by simp [hpc])) <;> simp [Looks]
  | looping =>
    simp only [hpc, Option.some.injEq] at hstep
    subst hstep
    apply h.move (h.running (by simp [hpc]))
    · intro _
      unfold Looks
      split_ifs <;> trivial
    · split <;> simp
  | checking =>
    simp only [hpc, Option.some.injEq] at hstep
    subst hstep
    by_cases hc : s.state = .CANCELLED
    · rw [if_pos hc]
      exact h.fail (by simp [hpc]) (by simp)
    · rw [if_neg hc]
      apply h.move (h.running (by simp [hpc])) <;> simp [Looks]
  | copying =>
    simp only [hpc, reduceCtorEq] at hstep
  | leaving =>
    simp only [hpc, Option.some.injEq] at hstep
    subst hstep
    by_cases hc : s.state = .CANCELLED
    · -- The look throws, and closing the stream changes nothing that is shown.
      rw [if_pos hc]
      have hfail := h.fail (t := .cancellation) (by simp [hpc]) (by simp)
      refine ⟨hfail.cancelled, hfail.ended, ?_, ?_, hfail.late⟩
      · intro hor
        simp only [Transfer.closed, hc, reduceCtorEq, false_or] at hor
        rcases failed_cases s .cancellation with hfailed | hfailed <;> simp [hfailed] at hor
      · intro hchecked
        simp only at hchecked
        rcases failed_cases s .cancellation with hfailed | hfailed <;> simp [hfailed] at hchecked
    · rw [if_neg hc]
      exact h.pass hpc hc
  | checked =>
    simp only [hpc, Option.some.injEq] at hstep
    subst hstep
    split
    · exact h.fail (by simp [hpc]) fun hc => absurd hc (h.uncancelled (by simp [Looks, hpc]))
    · rename_i hremaining
      exact h.finish hpc (not_not.mp hremaining)
  | published =>
    simp only [hpc, Option.some.injEq] at hstep
    subst hstep
    apply h.settle
    · intro _
      exact h.completed (.inr hpc)
    · intro _
      exact hsettled (.inl hpc)
  | closing t =>
    simp only [hpc, Option.some.injEq] at hstep
    subst hstep
    apply h.move (h.running (by simp [hpc])) _ (by simp)
    intro hc
    simpa [Looks, hpc] using h.cancelled hc
  | caught t =>
    have hcaught : ∃ cancelled, s' = { s with pc := .failing cancelled } ∧
        (s.state = .CANCELLED → cancelled = true) := by
      cases t with
      | cancellation =>
        simp only [hpc, Option.some.injEq] at hstep
        exact ⟨_, hstep.symm, fun _ => rfl⟩
      | luks is_cancelled =>
        simp only [hpc, Option.some.injEq] at hstep
        refine ⟨_, hstep.symm, ?_⟩
        intro hc
        simp [hc]
      | other =>
        simp only [hpc, Option.some.injEq] at hstep
        refine ⟨_, hstep.symm, ?_⟩
        intro hc
        exact absurd hc (h.uncancelled (by simp [Looks, hpc]))
    obtain ⟨cancelled, rfl, hstate⟩ := hcaught
    apply h.move (h.running (by simp [hpc])) _ (by simp)
    simpa [Looks] using hstate
  | failing cancelled =>
    simp only [hpc, Option.some.injEq] at hstep
    subst hstep
    apply h.settle
    · cases cancelled <;> simp
    · intro hstate
      cases cancelled with
      | true => simp at hstate
      | false => exact hsettled (.inr hpc)
  | ended =>
    simp only [hpc, reduceCtorEq] at hstep

/-- In `try` the job goes to the `finally` or the catch block, elsewhere it is over. -/
theorem throws_cases {t : Thrown} (hstep : s.throws t = some s') :
    ∃ pc, s' = { s with pc } ∧ s.pc ≠ .ended ∧ (pc = .ended ∨ pc = .closing t ∨ pc = .caught t) := by
  unfold Transfer.throws at hstep
  cases hpc : s.pc with
  | queued =>
    simp only [hpc, Option.ite_none_right_eq_some, Option.some.injEq] at hstep
    exact ⟨_, hstep.2.symm, by simp, .inl rfl⟩
  | started =>
    simp only [hpc, Option.some.injEq] at hstep
    exact ⟨_, hstep.symm, by simp, .inl rfl⟩
  | began | closing _ =>
    simp only [hpc, Option.ite_none_left_eq_some, Option.some.injEq] at hstep
    exact ⟨_, hstep.2.symm, by simp, .inr (.inr rfl)⟩
  | writing | copying | leaving =>
    simp only [hpc, Option.ite_none_left_eq_some, Option.some.injEq] at hstep
    exact ⟨_, hstep.2.symm, by simp, .inr (failed_cases s t)⟩
  | checked =>
    simp only [hpc, Option.ite_none_right_eq_some, Option.some.injEq] at hstep
    exact ⟨_, hstep.2.symm, by simp, .inr (.inr rfl)⟩
  | _ => simp [hpc] at hstep

theorem Kept.throws {t : Thrown} (h : s.Kept) (hother : t = .other → s.state ≠ .CANCELLED)
    (hstep : s.throws t = some s') : s'.Kept := by
  obtain ⟨pc, rfl, hpc, rfl | rfl | rfl⟩ := throws_cases hstep
  · apply h.move (h.running hpc) <;> simp [Looks]
  all_goals
    apply h.move (h.running hpc) _ (by simp)
    intro hc
    simp only [Looks]
    exact fun ht => hother ht hc

theorem Kept.step {a : Turn} (h : s.Kept) (htimely : s.Timely a) (hstep : s.step a = some s') : s'.Kept := by
  cases a with
  | go => exact h.go (htimely.settled rfl) hstep
  | throws t => exact h.throws (fun ht => htimely.thrown (by rw [ht])) hstep
  | read n =>
    simp only [Transfer.step, Option.ite_none_right_eq_some, Option.some.injEq] at hstep
    obtain ⟨⟨hpc, -⟩, rfl⟩ := hstep
    split
    · apply h.move (h.running (by simp [hpc])) <;> simp [Looks]
    · have hrunning := h.running (by simp [hpc])
      refine ⟨fun _ => trivial, ?_, ?_, (fun hchecked => nomatch hchecked), h.late⟩
      · intro hstate
        simp [hrunning] at hstate
      · intro hor
        simp [hrunning] at hor
  | look call =>
    simp only [Transfer.step, Option.ite_none_right_eq_some, Option.some.injEq] at hstep
    obtain ⟨-, rfl⟩ := hstep
    split
    · exact h
    · -- The look sees that the transfer is not over.
      rename_i hrunning
      refine ⟨h.cancelled, ?_, h.completed, h.whole, h.late⟩
      intro hstate
      change s.state = .COMPLETED ∨ s.state = .FAILED at hstate
      rcases hstate with hstate | hstate <;> simp [hstate, TransferState.terminal] at hrunning
  | cancel_job call found =>
    simp only [Transfer.step, Option.ite_none_right_eq_some, Option.some.injEq] at hstep
    obtain ⟨hlooked, rfl⟩ := hstep
    refine ⟨h.cancelled, ?_, h.completed, h.whole, h.late⟩
    intro hstate
    rw [(h.ended hstate).2 call] at hlooked
    cases hlooked
  | mark call =>
    simp only [Transfer.step, Option.ite_none_right_eq_some, Option.some.injEq] at hstep
    obtain ⟨-, rfl⟩ := hstep
    refine ⟨fun _ => htimely.marked call rfl, ?_, ?_, h.whole, h.late⟩
    · intro hstate
      simp at hstate
    · intro hor
      simp only [reduceCtorEq, false_or] at hor
      exact h.completed (.inr hor)

theorem finish_state : s.finish.state = s.state := by
  unfold Transfer.finish
  split <;> rfl

/-- Only the job's own update can change what is shown. -/
theorem go_state (hstep : s.go = some s') : s'.state = s.state ∨ ¬ s.Looks ∨ s'.state = .CANCELLED := by
  unfold Transfer.go at hstep
  cases hpc : s.pc with
  | admitted | opened | published => exact .inr (.inl (by simp [Looks, hpc]))
  | failing cancelled =>
    simp only [hpc, Option.some.injEq] at hstep
    subst hstep
    cases cancelled with
    | true => exact .inr (.inr rfl)
    | false => exact .inr (.inl (by simp [Looks, hpc]))
  | checked =>
    simp only [hpc, Option.some.injEq] at hstep
    subst hstep
    left
    split
    · rfl
    · exact finish_state
  | copying | ended => simp [hpc] at hstep
  | caught t =>
    cases t <;> simp only [hpc, Option.some.injEq] at hstep <;> subst hstep <;> exact .inl rfl
  | _ =>
    simp only [hpc, Option.some.injEq] at hstep
    subst hstep
    exact .inl rfl

/-- A transfer that is over and was not cancelled has no job left, and no call that could cancel it. -/
theorem Kept.settled (h : s.Kept) (hterminal : s.state.terminal = true) (hc : s.state ≠ .CANCELLED) :
    s.pc = .ended ∧ s.Uncalled := by
  apply h.ended
  cases hstate : s.state <;> simp_all [TransferState.terminal]

theorem Kept.stays {a : Turn} (h : s.Kept) (htimely : s.Timely a) (hstep : s.step a = some s')
    (hterminal : s.state.terminal = true) : s'.state = s.state := by
  cases a with
  | go =>
    by_cases hc : s.state = .CANCELLED
    · rcases go_state hstep with hsame | hnot | hcancelled
      · exact hsame
      · exact absurd (h.cancelled hc) hnot
      · rw [hcancelled, hc]
    · have hended : s.pc = .ended := (h.settled hterminal hc).1
      simp [Transfer.step, Transfer.go, hended] at hstep
  | throws t =>
    obtain ⟨pc, rfl, -⟩ := throws_cases hstep
    rfl
  | read n =>
    simp only [Transfer.step, Option.ite_none_right_eq_some, Option.some.injEq] at hstep
    obtain ⟨-, rfl⟩ := hstep
    split <;> rfl
  | look call =>
    simp only [Transfer.step, Option.ite_none_right_eq_some, Option.some.injEq] at hstep
    obtain ⟨-, rfl⟩ := hstep
    split <;> rfl
  | cancel_job call found =>
    simp only [Transfer.step, Option.ite_none_right_eq_some, Option.some.injEq] at hstep
    obtain ⟨-, rfl⟩ := hstep
    rfl
  | mark call =>
    simp only [Transfer.step, Option.ite_none_right_eq_some, Option.some.injEq] at hstep
    obtain ⟨hcancelled, rfl⟩ := hstep
    by_cases hc : s.state = .CANCELLED
    · exact hc.symm
    · rw [(h.settled hterminal hc).2 call] at hcancelled
      cases hcancelled

theorem Kept.honest (h : s.Kept) : s.Honest where
  cancelled _ := h.late
  completed hstate := h.completed (.inl hstate)

theorem fresh_kept (type : TransferType) (total_bytes : Option Nat) : (fresh type total_bytes).Kept := by
  constructor <;> simp [fresh]

/-- What is shown is true and a terminal state is final, in every run whose cancels are timely. -/
theorem final_of_timely (type : TransferType) (total_bytes : Option Nat) (acts more : List Turn)
    (htimely : Machine.Meets step Timely (fresh type total_bytes) (acts ++ more))
    (hrun : Machine.run step (fresh type total_bytes) acts = some s) (hmore : Machine.run step s more = some s') :
    s.Honest ∧ (s.state.terminal = true → s'.state = s.state) := by
  obtain ⟨hbefore, hafter⟩ := htimely.append hrun
  have hkept : s.Kept := Machine.run_keeps Kept (fun _ _ _ h hcond hstep => h.step hcond hstep) acts
    (fresh_kept type total_bytes) hbefore hrun
  refine ⟨hkept.honest, fun hterminal => ?_⟩
  have hboth : s'.Kept ∧ s'.state = s.state := by
    refine Machine.run_keeps (fun t => t.Kept ∧ t.state = s.state) ?_ more ⟨hkept, rfl⟩ hafter hmore
    rintro t a t' ⟨ht, hstate⟩ hcond hstep
    exact ⟨ht.step hcond hstep, (ht.stays hcond hstep (by rw [hstate]; exact hterminal)).trans hstate⟩
  exact hboth.2

end Transfer

-- A file is imported and cancelled in the loop, before its only chunk is read.
def cancelledInLoop : List Turn :=
  List.replicate 9 .go ++ [.look 0, .cancel_job 0 true, .mark 0]

-- The chunk is copied still. Then the job leaves the loop, looks, closes the writer and ends.
def afterwards : List Turn := [.read 5, .go, .go, .throws (.luks false), .go, .go]

-- The call that cancels sees the item running, and the import completes before it is marked.
def toCompletion : List Turn := List.replicate 11 .go

theorem cancelled_in_loop_final :
    ∃ s s', Machine.run Transfer.step (Transfer.fresh .IMPORT (some 5)) cancelledInLoop = some s ∧
      Machine.run Transfer.step s afterwards = some s' ∧ s.state = .CANCELLED ∧ s.pc = .copying ∧ s'.pc = .ended ∧
      s.Honest ∧ s'.state = .CANCELLED := by
  have htimely : Machine.Meets Transfer.step Transfer.Timely (Transfer.fresh .IMPORT (some 5))
      (cancelledInLoop ++ afterwards) := by
    simp [cancelledInLoop, afterwards, Machine.Meets, Transfer.timely_iff, Transfer.Settles, Transfer.step, Transfer.go,
      Transfer.throws, Transfer.fresh, Transfer.Looks, Transfer.failed, Transfer.closed, Transfer.remaining,
      TransferState.terminal]
  obtain ⟨s, s', hrun, hmore, hstate, hpc, hended⟩ : ∃ s s',
      Machine.run Transfer.step (Transfer.fresh .IMPORT (some 5)) cancelledInLoop = some s ∧
      Machine.run Transfer.step s afterwards = some s' ∧ s.state = .CANCELLED ∧ s.pc = .copying ∧ s'.pc = .ended :=
    ⟨_, _, rfl, rfl, rfl, rfl, rfl⟩
  obtain ⟨hhonest, hfinal⟩ := Transfer.final_of_timely .IMPORT (some 5) cancelledInLoop afterwards htimely hrun hmore
  refine ⟨s, s', hrun, hmore, hstate, hpc, hended, hhonest, ?_⟩
  rw [hfinal (by simp [hstate, TransferState.terminal]), hstate]

/-- A completed import is shown as cancelled after all. -/
theorem completed_then_cancelled :
    ¬ ∀ type total_bytes acts more s s',
      Machine.run Transfer.step (Transfer.fresh type total_bytes) acts = some s →
      Machine.run Transfer.step s more = some s' →
      s.Honest ∧ (s.state.terminal = true → s'.state = s.state) := by
  intro h
  have hfinal := (h .IMPORT (some 0) (.look 0 :: toCompletion) [.cancel_job 0 false, .mark 0] _ _ rfl rfl).2 rfl
  cases hfinal

end LuksAndroid.App

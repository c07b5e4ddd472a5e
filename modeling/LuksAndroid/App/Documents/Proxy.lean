import LuksAndroid.Lib.Bytes
import LuksAndroid.Lib.Machine

/-!
# A write stream

`documents/LuksProxyCallback.kt`: the calls on one callback of a pending document, with the
outcome of every lease, lock and native call given with the call. The registry, the lock
and the volume are seen from this stream alone.
-/

namespace LuksAndroid.App

inductive Errno where
  | EROFS
  | EIO
  | EBUSY
  | EINVAL
deriving DecidableEq, Repr

/-- `onWrite(offset, size, data)`, where `data` has the `size` bytes. -/
structure WriteCall where
  offset : Nat
  data : Bytes
  -- `withLease { it.canWrite }`, or none when the lease is refused
  can_write : Option Bool
  acquired : Bool
  begins : Bool
  writes : Bool
  -- whether `abandonFile` gets its lease
  abandons : Bool
deriving DecidableEq, Repr

inductive Finish where
  -- without a lease the native writer stays as it is
  | refused
  -- the native writer is dropped on either outcome
  | failed
  | done
deriving DecidableEq, Repr

structure ReleaseCall where
  acquired : Bool
  begins : Bool
  finish : Finish
  abandons : Bool
deriving DecidableEq, Repr

/-- The fields of the callback, then what it works on: its entry in `PendingDocuments`, the native writer
with what it was given, and the file under the pending name. The rest records what happened. `lives` says
that the session outlives the stream. -/
structure Proxy where
  mode : String
  writer : Bool
  expectedNextOffset : Nat
  writeLockHeld : Bool
  pending : Bool
  native : Option Bytes
  file : Option Bytes
  lives : Bool
  log : List (WriteCall × Except Errno Nat)
  locks : Nat
  unlocks : Nat
  finished : Bool
  released : Bool

namespace Proxy

variable (p : Proxy)

def writable : Bool := p.mode = "w" ∨ p.mode = "wt"

def acquire : Proxy := { p with writeLockHeld := true, locks := p.locks + 1 }

def releaseWriteLockIfHeld : Proxy :=
  if p.writeLockHeld then { p with writeLockHeld := false, unlocks := p.unlocks + 1 } else p

def abandonFile (granted : Bool) : Proxy := if granted then { p with native := none } else p

def abandonWrite (granted : Bool) : Proxy :=
  let p := if p.writer then { p with writer := false }.abandonFile granted else p
  { p with pending := false }.releaseWriteLockIfHeld

/-- The part of `onWrite` that opens the native writer on the first write. -/
def openWriter (c : WriteCall) : Except Errno Unit × Proxy :=
  if ¬ c.acquired then (.error .EBUSY, p)
  else if ¬ p.pending then (.error .EROFS, p.acquire.releaseWriteLockIfHeld)
  else if ¬ c.begins then (.error Errno.EIO, p.acquire.releaseWriteLockIfHeld)
  else (.ok (), { p.acquire with writer := true, native := some [], expectedNextOffset := 0 })

/-- The part of `onWrite` that hands the data to the open writer. -/
def writeChunk (c : WriteCall) : Except Errno Nat × Proxy :=
  if c.offset ≠ p.expectedNextOffset then (.error .EINVAL, p.abandonWrite c.abandons)
  else if c.writes then
    (.ok c.data.length, { p with
      native := p.native.map (· ++ c.data)
      expectedNextOffset := p.expectedNextOffset + c.data.length })
  else (.error Errno.EIO, p.abandonWrite c.abandons)

def onWrite (c : WriteCall) : Except Errno Nat × Proxy :=
  if c.data = [] then (.ok 0, p)
  else if ¬ p.writable then (.error .EROFS, p)
  else match c.can_write with
    | none => (.error Errno.EIO, p)
    | some false => (.error .EROFS, p)
    | some true =>
      if p.writer then p.writeChunk c
      else match p.openWriter c with
        | (.error e, p) => (.error e, p)
        | (.ok _, p) => p.writeChunk c

def finishOrAbandon (r : ReleaseCall) : Proxy :=
  let p :=
    if p.pending then
      match r.finish with
      | .done => { p with native := none, file := p.native, finished := true }
      | .failed => { p with native := none }.abandonFile r.abandons
      | .refused => p.abandonFile r.abandons
    else p.abandonFile r.abandons
  { p with pending := false }.releaseWriteLockIfHeld

def onRelease (r : ReleaseCall) : Proxy :=
  if ¬ p.writable then p
  else if p.writer then { p with writer := false }.finishOrAbandon r
  else if ¬ p.pending then { p with pending := false }.releaseWriteLockIfHeld
  else if ¬ r.acquired then { p with pending := false }
  else if ¬ r.begins then { p.acquire with pending := false }.releaseWriteLockIfHeld
  -- an empty file
  else { p.acquire with native := some [] }.finishOrAbandon r

end Proxy

inductive Call where
  | write (c : WriteCall)
  | release (r : ReleaseCall)
deriving DecidableEq, Repr

namespace Proxy

variable (p : Proxy)

def step : Call → Option Proxy
  | .write c =>
    if p.released then none
    else some { (p.onWrite c).2 with log := p.log ++ [(c, (p.onWrite c).1)] }
  | .release r => if p.released then none else some { p.onRelease r with released := true }

/-- A callback that was just opened on a pending document. -/
def fresh (mode : String) (lives : Bool) : Proxy where
  mode := mode
  writer := false
  expectedNextOffset := 0
  writeLockHeld := false
  pending := true
  native := none
  file := none
  lives := lives
  log := []
  locks := 0
  unlocks := 0
  finished := false
  released := false

/-! ## What a stream promises -/

def written (log : List (WriteCall × Except Errno Nat)) : Bytes := (log.map (·.1.data)).flatten

/-- Each offset is the number of bytes before it. -/
def InPlace (log : List (WriteCall × Except Errno Nat)) : Prop :=
  ∀ before x after, log = before ++ x :: after → x.1.offset = (written before).length

def AllWritten (log : List (WriteCall × Except Errno Nat)) : Prop := ∀ x ∈ log, ∃ n, x.2 = .ok n

-- The lock is held from the first accepted write on, and each time taken it is released once.
structure Locks : Prop where
  held : p.writeLockHeld = p.writer
  locks : p.locks = p.unlocks + if p.writeLockHeld then 1 else 0
  closes : p.released = true → p.writer = false

structure Upheld : Prop extends p.Locks where
  appears : p.file.isSome = true ↔ AllWritten p.log ∧ p.finished = true
  content : ∀ content, p.file = some content → content = written p.log ∧ InPlace p.log
  nothing : p.released = true → p.file = none → p.pending = false ∧ (p.native = none ∨ p.lives = false)

/-- No write of a pending document fails before it gets to the native writer, an empty write comes where the
stream stands, and `abandonFile` gets its lease as long as the session lives. -/
def Reaches (a : Call) : Prop :=
  match a with
  | .write c =>
    (p.pending = true → c.data ≠ [] → c.can_write = some true ∧
      (p.writer = false → c.acquired = true ∧ c.begins = true)) ∧
    (p.pending = true → c.data = [] → c.offset = p.expectedNextOffset) ∧
    (p.lives = true → c.abandons = true)
  | .release r => p.lives = true → r.abandons = true

/-! ## The lock -/

/-- The lock is the writer's, and a stream that may not write has none. -/
structure Paired : Prop where
  held : p.writeLockHeld = p.writer
  locks : p.locks = p.unlocks + if p.writeLockHeld then 1 else 0
  writes : p.writable = false → p.writer = false

section

variable {p}

theorem Paired.locks_eq (h : p.Paired) : p.locks = p.unlocks + if p.writer then 1 else 0 := h.held ▸ h.locks

/-- Whatever the writer was closed for, the lock is given back. -/
theorem paired_release {q : Proxy} (hlocks : q.locks = q.unlocks + if q.writeLockHeld then 1 else 0)
    (hwriter : q.writer = false) : q.releaseWriteLockIfHeld.Paired := by
  unfold releaseWriteLockIfHeld
  cases hheld : q.writeLockHeld with
  | true =>
    rw [hheld] at hlocks
    exact ⟨hwriter.symm, hlocks, fun _ => hwriter⟩
  | false =>
    rw [hheld] at hlocks
    exact ⟨hheld.trans hwriter.symm, by simpa [hheld] using hlocks, fun _ => hwriter⟩

theorem Paired.locks_acquire (h : p.Paired) (hwriter : p.writer = false) : p.locks + 1 = p.unlocks + 1 := by
  have hlocks := h.locks_eq
  rw [hwriter] at hlocks
  exact congrArg (· + 1) hlocks

theorem Paired.abandonWrite (h : p.Paired) (granted : Bool) : (p.abandonWrite granted).Paired := by
  unfold Proxy.abandonWrite abandonFile
  cases hwriter : p.writer <;> cases granted <;> exact paired_release h.locks (by simp [hwriter])

theorem Paired.writeChunk (h : p.Paired) (c : WriteCall) : (p.writeChunk c).2.Paired := by
  unfold Proxy.writeChunk
  by_cases hoffset : c.offset ≠ p.expectedNextOffset
  · rw [if_pos hoffset]
    exact h.abandonWrite _
  · rw [if_neg hoffset]
    cases c.writes with
    | true => exact ⟨h.held, h.locks, h.writes⟩
    | false => exact h.abandonWrite _

theorem Paired.openWriter (h : p.Paired) (hwriter : p.writer = false) (hwritable : p.writable = true) (c : WriteCall) :
    (p.openWriter c).2.Paired := by
  have hlocks := h.locks_acquire hwriter
  have hback : p.acquire.releaseWriteLockIfHeld.Paired := paired_release hlocks hwriter
  unfold Proxy.openWriter
  cases c.acquired with
  | false => exact h
  | true =>
    cases p.pending with
    | false => exact hback
    | true =>
      cases c.begins with
      | false => exact hback
      | true => exact ⟨rfl, hlocks, fun hnot => absurd (hwritable.symm.trans hnot) (by simp)⟩

theorem Paired.onWrite (h : p.Paired) (c : WriteCall) : (p.onWrite c).2.Paired := by
  unfold Proxy.onWrite
  by_cases hdata : c.data = []
  · rwa [if_pos hdata]
  by_cases hwritable : ¬ p.writable = true
  · rwa [if_neg hdata, if_pos hwritable]
  rw [if_neg hdata, if_neg hwritable]
  cases c.can_write with
  | none => exact h
  | some can =>
    cases can with
    | false => exact h
    | true =>
      cases hwriter : p.writer with
      | true => exact h.writeChunk c
      | false =>
        have hopen := h.openWriter hwriter (not_not.mp hwritable) c
        rcases hresult : p.openWriter c with ⟨e | u, q⟩
        · rw [hresult] at hopen
          exact hopen
        · rw [hresult] at hopen
          exact hopen.writeChunk c

theorem paired_finish {q : Proxy} (hlocks : q.locks = q.unlocks + if q.writeLockHeld then 1 else 0)
    (hwriter : q.writer = false) (r : ReleaseCall) :
    (q.finishOrAbandon r).Paired ∧ (q.finishOrAbandon r).writer = false := by
  have hclosed (q : Proxy) : q.releaseWriteLockIfHeld.writer = q.writer := by
    unfold releaseWriteLockIfHeld
    split <;> rfl
  unfold Proxy.finishOrAbandon abandonFile
  rw [hclosed]
  cases q.pending <;> cases r.finish <;> cases r.abandons <;> exact ⟨paired_release hlocks hwriter, hwriter⟩

theorem Paired.onRelease (h : p.Paired) (r : ReleaseCall) :
    (p.onRelease r).Paired ∧ (p.onRelease r).writer = false := by
  unfold Proxy.onRelease
  by_cases hwritable : ¬ p.writable = true
  · rw [if_pos hwritable]
    exact ⟨h, h.writes (by simpa using hwritable)⟩
  rw [if_neg hwritable]
  by_cases hwriter : p.writer = true
  · rw [if_pos hwriter]
    exact @paired_finish { p with writer := false } h.locks rfl r
  rw [if_neg hwriter]
  have hwriter : p.writer = false := by simpa using hwriter
  have hlocks := h.locks_acquire hwriter
  have hclosed (q : Proxy) (hq : q.writer = false) : q.releaseWriteLockIfHeld.writer = false := by
    unfold releaseWriteLockIfHeld
    split <;> exact hq
  by_cases hpending : ¬ p.pending = true
  · rw [if_pos hpending]
    exact ⟨@paired_release { p with pending := false } h.locks hwriter, hclosed _ hwriter⟩
  rw [if_neg hpending]
  by_cases hacquired : ¬ r.acquired = true
  · rw [if_pos hacquired]
    exact ⟨⟨h.held, h.locks, h.writes⟩, hwriter⟩
  rw [if_neg hacquired]
  by_cases hbegins : ¬ r.begins = true
  · rw [if_pos hbegins]
    exact ⟨@paired_release { p.acquire with pending := false } hlocks hwriter, hclosed _ hwriter⟩
  · rw [if_neg hbegins]
    exact @paired_finish { p.acquire with native := some [] } hlocks hwriter r

theorem onWrite_released (p : Proxy) (c : WriteCall) : (p.onWrite c).2.released = p.released := by
  have hrelease (q : Proxy) : q.releaseWriteLockIfHeld.released = q.released := by
    unfold releaseWriteLockIfHeld
    split <;> rfl
  have habandon (q : Proxy) : (q.abandonWrite c.abandons).released = q.released := by
    unfold Proxy.abandonWrite abandonFile
    rw [hrelease]
    cases q.writer <;> cases c.abandons <;> rfl
  have hchunk (q : Proxy) : (q.writeChunk c).2.released = q.released := by
    unfold Proxy.writeChunk
    split_ifs
    · exact habandon q
    · rfl
    · exact habandon q
  have hopen : (p.openWriter c).2.released = p.released := by
    unfold Proxy.openWriter
    split_ifs <;> rfl
  unfold Proxy.onWrite
  by_cases hdata : c.data = []
  · rw [if_pos hdata]
  by_cases hwritable : ¬ p.writable = true
  · rw [if_neg hdata, if_pos hwritable]
  rw [if_neg hdata, if_neg hwritable]
  rcases c.can_write with - | - | -
  · rfl
  · rfl
  by_cases hwriter : p.writer = true
  · simp only [hwriter, if_true]
    exact hchunk p
  · simp only [hwriter]
    rcases hresult : p.openWriter c with ⟨e | u, q⟩
    · rwa [hresult] at hopen
    · rw [hresult] at hopen
      exact (hchunk q).trans hopen

theorem locks_of_run {mode : String} {lives : Bool} {calls : List Call}
    (hrun : Machine.run step (fresh mode lives) calls = some p) : p.Locks := by
  have hinv : p.Paired ∧ (p.released = true → p.writer = false) := by
    refine Machine.run_invariant (fun q => q.Paired ∧ (q.released = true → q.writer = false)) ?_ calls
      ⟨⟨rfl, rfl, fun _ => rfl⟩, by simp [fresh]⟩ hrun
    rintro q a q' ⟨hq, -⟩ hstep
    cases a with
    | write c =>
      simp only [step, Option.ite_none_left_eq_some, Option.some.injEq] at hstep
      obtain ⟨hreleased, rfl⟩ := hstep
      have hpaired := hq.onWrite c
      exact ⟨⟨hpaired.held, hpaired.locks, hpaired.writes⟩, 
        fun hnot => absurd ((onWrite_released q c).symm.trans hnot) hreleased⟩
    | release r =>
      simp only [step, Option.ite_none_left_eq_some, Option.some.injEq] at hstep
      obtain ⟨-, rfl⟩ := hstep
      obtain ⟨hpaired, hclosed⟩ := hq.onRelease r
      exact ⟨⟨hpaired.held, hpaired.locks, hpaired.writes⟩, fun _ => hclosed⟩
  exact ⟨hinv.1.held, hinv.1.locks, hinv.2⟩

end

/-! ## The invariant -/

/-- Before the release. A document that is still pending has had no failed write, and one that is not has
lost its writer. -/
structure Streaming : Prop where
  released : p.released = false
  writable : p.writable = true
  file : p.file = none
  finished : p.finished = false
  held : p.writeLockHeld = p.writer
  locks : p.locks = p.unlocks + if p.writeLockHeld then 1 else 0
  going : p.pending = true → AllWritten p.log ∧ InPlace p.log ∧ p.expectedNextOffset = (written p.log).length ∧
    p.native = if p.writer then some (written p.log) else none
  unopened : p.pending = true → p.writer = false → written p.log = []
  gone : p.pending = false → p.writer = false ∧ (p.native = none ∨ p.lives = false) ∧ ¬ AllWritten p.log

variable {p} {p' : Proxy}

theorem written_snoc (log : List (WriteCall × Except Errno Nat)) (x : WriteCall × Except Errno Nat) :
    written (log ++ [x]) = written log ++ x.1.data := by
  simp [written]

theorem InPlace.snoc {log : List (WriteCall × Except Errno Nat)} {x : WriteCall × Except Errno Nat}
    (h : InPlace log) (hx : x.1.offset = (written log).length) : InPlace (log ++ [x]) := by
  intro before y after heq
  rcases List.eq_nil_or_concat after with rfl | ⟨after, last, rfl⟩
  · obtain ⟨rfl, hlast⟩ := List.append_inj' heq rfl
    cases hlast
    exact hx
  · rw [List.concat_eq_append, ← List.cons_append, ← List.append_assoc] at heq
    obtain ⟨rfl, -⟩ := List.append_inj' heq rfl
    exact h before y after rfl

theorem AllWritten.snoc {log : List (WriteCall × Except Errno Nat)} {c : WriteCall} {n : Nat}
    (h : AllWritten log) : AllWritten (log ++ [(c, .ok n)]) := by
  intro x hx
  rcases List.mem_append.mp hx with hold | hnew
  · exact h x hold
  · rw [List.mem_singleton.mp hnew]
    exact ⟨n, rfl⟩

theorem not_allWritten_of_error {log : List (WriteCall × Except Errno Nat)} {c : WriteCall} {e : Errno} :
    ¬ AllWritten (log ++ [(c, .error e)]) := by
  intro h
  obtain ⟨n, hn⟩ := h (c, .error e) (by simp)
  cases hn

theorem not_allWritten_append {log : List (WriteCall × Except Errno Nat)} {x : WriteCall × Except Errno Nat}
    (h : ¬ AllWritten log) : ¬ AllWritten (log ++ [x]) := by
  intro hall
  apply h
  intro y hy
  exact hall y (List.mem_append_left _ hy)

theorem acquire_release (hheld : p.writeLockHeld = false) :
    p.acquire.releaseWriteLockIfHeld = { p with locks := p.locks + 1, unlocks := p.unlocks + 1 } := by
  simp [acquire, releaseWriteLockIfHeld, hheld]

theorem Streaming.opened (h : p.Streaming) (hpending : p.pending = true) (hwriter : p.writer = false) :
    ({ p.acquire with writer := true, native := some [], expectedNextOffset := 0 } : Proxy).Streaming := by
  obtain ⟨hall, hplace, -, -⟩ := h.going hpending
  have hempty := h.unopened hpending hwriter
  have hlocks := h.locks
  rw [h.held, hwriter] at hlocks
  refine ⟨h.released, h.writable, h.file, h.finished, rfl, ?_, ?_, ?_, ?_⟩
  · simpa [acquire] using hlocks
  · intro _
    refine ⟨hall, hplace, ?_, ?_⟩
    · simp [acquire, hempty]
    · simp [acquire, hempty]
  · intro _ hnot
    cases hnot
  · intro hgone
    exact absurd (hpending.symm.trans hgone) (by simp)

theorem Streaming.abandoned (h : p.Streaming) (hwriter : p.writer = true) {c : WriteCall} {e : Errno}
    (hlease : p.lives = true → c.abandons = true) :
    ({ p.abandonWrite c.abandons with log := p.log ++ [(c, .error e)] } : Proxy).Streaming := by
  have hheld : p.writeLockHeld = true := h.held.trans hwriter
  have hlocks := h.locks
  rw [hheld] at hlocks
  have hnative : c.abandons = true ∨ p.lives = false := by
    cases hlives : p.lives with
    | true => exact .inl (hlease hlives)
    | false => exact .inr rfl
  unfold abandonWrite abandonFile releaseWriteLockIfHeld
  cases habandons : c.abandons with
  | true =>
    simp only [hwriter, if_true, hheld]
    refine ⟨h.released, h.writable, h.file, h.finished, rfl, by simpa using hlocks, ?_, ?_, ?_⟩
    · intro hpending
      cases hpending
    · intro hpending
      cases hpending
    · intro _
      exact ⟨rfl, .inl rfl, not_allWritten_of_error⟩
  | false =>
    have hlives := hnative.resolve_left (by simp [habandons])
    simp only [hwriter, if_true, hheld, Bool.false_eq_true, if_false]
    refine ⟨h.released, h.writable, h.file, h.finished, rfl, by simpa using hlocks, ?_, ?_, ?_⟩
    · intro hpending
      cases hpending
    · intro hpending
      cases hpending
    · intro _
      exact ⟨rfl, .inr hlives, not_allWritten_of_error⟩

theorem Streaming.writeChunk (h : p.Streaming) (hpending : p.pending = true) (hwriter : p.writer = true)
    {c : WriteCall} (hlease : p.lives = true → c.abandons = true) :
    ({ (p.writeChunk c).2 with log := p.log ++ [(c, (p.writeChunk c).1)] } : Proxy).Streaming := by
  unfold Proxy.writeChunk
  by_cases hoffset : c.offset = p.expectedNextOffset
  · cases hwrites : c.writes with
    | true =>
      obtain ⟨hall, hplace, hexpected, hnative⟩ := h.going hpending
      simp only [hoffset, ne_eq, not_true_eq_false, if_false, if_true]
      refine ⟨h.released, h.writable, h.file, h.finished, h.held, h.locks, ?_, ?_, ?_⟩
      · intro _
        refine ⟨hall.snoc, hplace.snoc (hoffset.trans hexpected), ?_, ?_⟩
        · simp [written_snoc, hexpected]
        · simp [hnative, hwriter, written_snoc]
      · intro _ hnot
        exact absurd (hwriter.symm.trans hnot) (by simp)
      · intro hgone
        exact absurd (hpending.symm.trans hgone) (by simp)
    | false =>
      simp only [hoffset, ne_eq, not_true_eq_false, if_false, Bool.false_eq_true]
      exact h.abandoned hwriter hlease
  · simp only [hoffset, ne_eq, not_false_eq_true, if_true]
    exact h.abandoned hwriter hlease

theorem Streaming.nothing (h : p.Streaming) {c : WriteCall} (hdata : c.data = [])
    (hoffset : p.pending = true → c.offset = p.expectedNextOffset) :
    ({ p with log := p.log ++ [(c, .ok 0)] } : Proxy).Streaming := by
  have hwritten : written (p.log ++ [(c, .ok 0)]) = written p.log := by
    simp [written_snoc, hdata]
  refine ⟨h.released, h.writable, h.file, h.finished, h.held, h.locks, ?_, ?_, ?_⟩
  · intro hpending
    obtain ⟨hall, hplace, hexpected, hnative⟩ := h.going hpending
    rw [hwritten]
    exact ⟨hall.snoc, hplace.snoc ((hoffset hpending).trans hexpected), hexpected, hnative⟩
  · rw [hwritten]
    exact h.unopened
  · intro hgone
    obtain ⟨hwriter, hnative, hall⟩ := h.gone hgone
    exact ⟨hwriter, hnative, not_allWritten_append hall⟩

/-- A write after the document is gone. The lock may be taken and given back. -/
theorem Streaming.fails (h : p.Streaming) (hgone : p.pending = false) (c : WriteCall) (e : Errno) (times : Nat) :
    ({ p with
      locks := p.locks + times, unlocks := p.unlocks + times
      log := p.log ++ [(c, .error e)] } : Proxy).Streaming := by
  obtain ⟨hwriter, hnative, -⟩ := h.gone hgone
  have hlocks := h.locks
  refine ⟨h.released, h.writable, h.file, h.finished, h.held, ?_, ?_, ?_, ?_⟩
  · dsimp only
    omega
  · intro hpending
    exact absurd (hgone.symm.trans hpending) (by simp)
  · intro hpending
    exact absurd (hgone.symm.trans hpending) (by simp)
  · intro _
    exact ⟨hwriter, hnative, not_allWritten_of_error⟩

theorem onWrite_gone {c : WriteCall} (hwritable : p.writable = true) (hgone : p.pending = false)
    (hwriter : p.writer = false) (hheld : p.writeLockHeld = false) (hdata : c.data ≠ []) :
    ∃ e times, p.onWrite c = (.error e, { p with locks := p.locks + times, unlocks := p.unlocks + times }) := by
  have hopen : ∃ e times, p.openWriter c =
      (.error e, { p with locks := p.locks + times, unlocks := p.unlocks + times }) := by
    unfold openWriter
    cases c.acquired with
    | false => exact ⟨.EBUSY, 0, rfl⟩
    | true => exact ⟨.EROFS, 1, by simp [hgone, acquire_release hheld]⟩
  unfold onWrite
  rw [if_neg hdata, if_neg (by simp [hwritable])]
  cases c.can_write with
  | none => exact ⟨ Errno.EIO, 0, rfl⟩
  | some can =>
    cases can with
    | false => exact ⟨.EROFS, 0, rfl⟩
    | true =>
      obtain ⟨e, times, hopen⟩ := hopen
      refine ⟨e, times, ?_⟩
      simp only [hopen, if_neg (by simp [hwriter] : ¬ p.writer = true)]

theorem Streaming.write (h : p.Streaming) {c : WriteCall} (hreach : p.Reaches (.write c)) :
    ({ (p.onWrite c).2 with log := p.log ++ [(c, (p.onWrite c).1)] } : Proxy).Streaming := by
  obtain ⟨hgets, hplace, hlease⟩ := hreach
  by_cases hdata : c.data = []
  · simp only [onWrite, hdata, if_true]
    exact h.nothing hdata fun hpending => hplace hpending hdata
  cases hpending : p.pending with
  | true =>
    obtain ⟨hcan, hopen⟩ := hgets hpending hdata
    unfold onWrite
    simp only [hdata, if_false, h.writable, not_true_eq_false, hcan]
    cases hwriter : p.writer with
    | true =>
      simp only [if_true]
      exact h.writeChunk hpending hwriter hlease
    | false =>
      obtain ⟨hacquired, hbegins⟩ := hopen hwriter
      simp only [Bool.false_eq_true, if_false, openWriter, hacquired, hpending, hbegins, not_true_eq_false]
      exact (h.opened hpending hwriter).writeChunk hpending rfl hlease
  | false =>
    obtain ⟨hwriter, -, -⟩ := h.gone hpending
    obtain ⟨e, times, heq⟩ := onWrite_gone h.writable hpending hwriter (h.held.trans hwriter) hdata
    rw [heq]
    exact h.fails hpending c e times

theorem upheld_without_file (hheld : p.writeLockHeld = false)
    (hwriter : p.writer = false) (hlocks : p.locks = p.unlocks) (hfile : p.file = none)
    (hfinished : p.finished = false) (hpending : p.pending = false)
    (hnative : p.native = none ∨ p.lives = false) : p.Upheld := by
  refine ⟨⟨hheld.trans hwriter.symm, by simp [hheld, hlocks], fun _ => hwriter⟩, ?_, ?_, fun _ _ => ⟨hpending, hnative⟩⟩
  · simp [hfile, hfinished]
  · simp [hfile]

theorem Streaming.finishOrAbandon {q : Proxy} {r : ReleaseCall} (hpending : q.pending = true)
    (hnative : q.native = some (written q.log)) (hall : AllWritten q.log) (hplace : InPlace q.log)
    (hheld : q.writeLockHeld = true) (hwriter : q.writer = false) (hlocks : q.locks = q.unlocks + 1)
    (hfile : q.file = none) (hfinished : q.finished = false) (hlease : q.lives = true → r.abandons = true) :
    ({ q.finishOrAbandon r with released := true } : Proxy).Upheld := by
  have hrefused : r.abandons = true ∨ q.lives = false := by
    cases hlives : q.lives with
    | true => exact .inl (hlease hlives)
    | false => exact .inr rfl
  unfold Proxy.finishOrAbandon releaseWriteLockIfHeld
  cases hr : r.finish with
  | done =>
    simp only [hpending, if_true, hheld]
    refine ⟨⟨hwriter.symm, by simpa using hlocks, fun _ => hwriter⟩, ?_, ?_, ?_⟩
    · simp [hnative, hall]
    · intro content hcontent
      rw [hnative] at hcontent
      cases hcontent
      exact ⟨rfl, hplace⟩
    · intro _ hnone
      rw [hnative] at hnone
      cases hnone
  | failed =>
    simp only [hpending, if_true, abandonFile]
    split_ifs <;> apply upheld_without_file <;> simp_all
  | refused =>
    simp only [hpending, if_true, abandonFile]
    rcases hrefused with habandons | hlives
    · simp only [habandons, if_true, hheld]
      apply upheld_without_file <;> simp_all
    · split_ifs <;> apply upheld_without_file <;> simp_all

theorem Streaming.release (h : p.Streaming) {r : ReleaseCall} (hreach : p.Reaches (.release r)) :
    ({ p.onRelease r with released := true } : Proxy).Upheld := by
  have hlocks := h.locks
  unfold onRelease
  simp only [h.writable, not_true_eq_false, if_false]
  cases hpending : p.pending with
  | true =>
    obtain ⟨hall, hplace, -, hnative⟩ := h.going hpending
    cases hwriter : p.writer with
    | true =>
      have hheld : p.writeLockHeld = true := h.held.trans hwriter
      rw [hwriter] at hnative
      rw [hheld] at hlocks
      simp only [if_true]
      exact Streaming.finishOrAbandon rfl hnative hall hplace hheld rfl hlocks h.file h.finished hreach
    | false =>
      have hheld : p.writeLockHeld = false := h.held.trans hwriter
      rw [hwriter] at hnative
      rw [hheld] at hlocks
      simp only [Bool.false_eq_true, if_false, not_true_eq_false]
      cases hacquired : r.acquired with
      | false =>
        simp only [Bool.false_eq_true, not_false_eq_true, if_true]
        exact upheld_without_file hheld rfl hlocks h.file h.finished rfl (.inl hnative)
      | true =>
        cases hbegins : r.begins with
        | false =>
          simp only [not_true_eq_false, if_false, Bool.false_eq_true, not_false_eq_true, if_true, acquire,
            releaseWriteLockIfHeld]
          exact upheld_without_file rfl hwriter (by simpa using hlocks) h.file h.finished rfl (.inl hnative)
        | true =>
          simp only [not_true_eq_false, if_false]
          have hempty := h.unopened hpending hwriter
          refine Streaming.finishOrAbandon hpending ?_ hall hplace rfl hwriter ?_ h.file h.finished hreach
          · exact congrArg some hempty.symm
          · simpa [acquire] using hlocks
  | false =>
    obtain ⟨hwriter, hnative, -⟩ := h.gone hpending
    have hheld : p.writeLockHeld = false := h.held.trans hwriter
    rw [hheld] at hlocks
    simp only [hwriter, Bool.false_eq_true, if_false, not_false_eq_true, if_true, releaseWriteLockIfHeld, hheld]
    exact upheld_without_file rfl rfl hlocks h.file h.finished rfl hnative

theorem Streaming.upheld (h : p.Streaming) : p.Upheld := by
  refine ⟨⟨h.held, h.locks, ?_⟩, ?_, ?_, ?_⟩
  · intro hreleased
    rw [h.released] at hreleased
    cases hreleased
  · simp [h.file, h.finished]
  · simp [h.file]
  · intro hreleased
    rw [h.released] at hreleased
    cases hreleased

theorem fresh_streaming {mode : String} (hmode : mode = "w" ∨ mode = "wt") (lives : Bool) :
    (fresh mode lives).Streaming := by
  constructor <;> simp [fresh, writable, hmode, AllWritten, InPlace, written]

/-- The lock clause holds in every state of every run. All promises of a stream hold in every state of a run in which
no write of the pending document fails before it gets to the native writer. -/
theorem upheld_of_reaches {mode : String} (hmode : mode = "w" ∨ mode = "wt") (lives : Bool) (calls : List Call)
    (hrun : Machine.run step (fresh mode lives) calls = some p) :
    p.Locks ∧ (Machine.Meets step Reaches (fresh mode lives) calls → p.Upheld) := by
  refine ⟨locks_of_run hrun, fun hreach => ?_⟩
  have hinv : p.Streaming ∨ p.released = true ∧ p.Upheld := by
    refine Machine.run_keeps (fun q => q.Streaming ∨ q.released = true ∧ q.Upheld) ?_ calls
      (.inl (fresh_streaming hmode lives)) hreach hrun
    rintro q a q' (hq | ⟨hreleased, -⟩) hcond hstep
    · cases a with
      | write c =>
        simp only [step, hq.released, Bool.false_eq_true, if_false, Option.some.injEq] at hstep
        rw [← hstep]
        exact .inl (hq.write hcond)
      | release r =>
        simp only [step, hq.released, Bool.false_eq_true, if_false, Option.some.injEq] at hstep
        rw [← hstep]
        exact .inr ⟨rfl, hq.release hcond⟩
    · cases a <;> simp [step, hreleased] at hstep
  rcases hinv with hq | ⟨-, hq⟩
  · exact hq.upheld
  · exact hq

end Proxy

def okWrite (offset : Nat) (data : Bytes) : WriteCall := ⟨offset, data, some true, true, true, true, true⟩

def okRelease : ReleaseCall := ⟨true, true, .done, true⟩

-- Two chunks, then a third at the wrong place.
def misplaced : List Call :=
  [.write (okWrite 0 [1, 2]), .write (okWrite 2 [3]), .write (okWrite 7 [4]), .release okRelease]

-- The lease of the second write is refused before the capability check, and the stream is closed.
def cutShort : List Call :=
  [.write (okWrite 0 [1, 2]), .write ⟨2, [3], none, true, true, true, true⟩, .release okRelease]

theorem misplaced_upheld :
    ∃ p, Machine.run Proxy.step (Proxy.fresh "w" true) misplaced = some p ∧ p.Upheld ∧ p.released = true ∧
      p.file = none := by
  have hreach : Machine.Meets Proxy.step Proxy.Reaches (Proxy.fresh "w" true) misplaced := by
    refine ⟨⟨by simp [okWrite], by simp [okWrite], by simp [okWrite]⟩, fun p₁ h₁ => ?_⟩
    cases h₁
    refine ⟨⟨by simp [okWrite], by simp [okWrite], by simp [okWrite]⟩, fun p₂ h₂ => ?_⟩
    cases h₂
    refine ⟨⟨by simp [okWrite], by simp [okWrite], by simp [okWrite]⟩, fun p₃ h₃ => ?_⟩
    cases h₃
    exact ⟨fun _ => rfl, fun _ _ => trivial⟩
  obtain ⟨p, hrun, hreleased, hfile⟩ : ∃ p, Machine.run Proxy.step (Proxy.fresh "w" true) misplaced = some p ∧
      p.released = true ∧ p.file = none := ⟨_, rfl, rfl, rfl⟩
  exact ⟨p, hrun, (Proxy.upheld_of_reaches (.inl rfl) true misplaced hrun).2 hreach, hreleased, hfile⟩

/-- A stream with a failed write leaves the start of its data as a file. -/
theorem cut_short_not_upheld :
    ¬ ∀ calls p, Machine.run Proxy.step (Proxy.fresh "w" true) calls = some p → p.Upheld := by
  intro h
  obtain ⟨p, hrun, hlog, hfile⟩ : ∃ p, Machine.run Proxy.step (Proxy.fresh "w" true) cutShort = some p ∧
      p.log = [(okWrite 0 [1, 2], .ok 2), (⟨2, [3], none, true, true, true, true⟩, .error Errno.EIO)] ∧
      p.file = some [1, 2] := ⟨_, rfl, rfl, rfl⟩
  have hall := ((h cutShort p hrun).appears.mp (by rw [hfile]; rfl)).1
  obtain ⟨n, hn⟩ := hall (⟨2, [3], none, true, true, true, true⟩, .error Errno.EIO) (by simp [hlog])
  cases hn

end LuksAndroid.App

import LuksAndroid.Bridge.Code

/-!
# Threads that write to one volume

An operation looks at the fence, waits for the lock, works under it, and when it failed in
a bad way takes the lock again to latch the fence. Everything between may interleave.
-/

namespace LuksAndroid.Bridge

/-- Where a thread is in an operation. -/
inductive Stage (W : Type) where
  | idle
  | waiting (op : Operation W)
  /-- It failed, and has not latched the fence yet. -/
  | failing (e : LuksError)

inductive Event where
  /-- An operation got to the filesystem. -/
  | ran (wrote : Bool)
  | failed (e : LuksError)
deriving DecidableEq, Repr

/-- One volume, the flag and the partition under it, and the threads. -/
structure Session (F D W : Type) where
  handle : VolumeHandle F
  device_writer : Bool
  disk : D
  stage : Nat → Stage W
  log : List Event

inductive Action (W : Type) where
  | call (thread : Nat) (op : Operation W) (cancelled : Bool)
  | lock (thread : Nat)
  | latch (thread : Nat)
  /-- The user consents to writing to a plain volume. -/
  | arm
  /-- Another volume of the device takes the flag or gives it back. -/
  | other (device_writer : Bool)

namespace Session

variable {F D W : Type} (display : LuksError → String) (fs : Filesystem F D W) (s : Session F D W)

/-- The operation ends here. -/
def fail (thread : Nat) (e : LuksError) : Session F D W :=
  { s with stage := Function.update s.stage thread .idle, log := s.log ++ [.failed e] }

/-- What `guarding_writes` does with the outcome of a lock region. -/
def guard (thread : Nat) (r : VolumeHandle.Region F D) : Session F D W :=
  let log := s.log ++ r.ran.toList.map .ran
  let s := { s with handle := r.handle, device_writer := r.device_writer, disk := r.disk }
  match r.result with
  | none | some (.ok _) => { s with stage := Function.update s.stage thread .idle, log }
  | some (.error e) =>
    { s with
      stage := Function.update s.stage thread (if latches e then .failing e else .idle)
      log := log ++ [.failed e] }

def step : Action W → Option (Session F D W)
  | .call thread op cancelled =>
    match s.stage thread with
    | .idle =>
      if op.is_cancelled cancelled then some (s.fail thread .Cancelled)
      else match s.handle.check_writable with
        | .error e => some (s.fail thread e)
        | .ok _ => some { s with stage := Function.update s.stage thread (.waiting op) }
    | _ => none
  | .lock thread =>
    match s.stage thread with
    | .waiting op => some (s.guard thread (s.handle.locked fs op s.device_writer s.disk))
    | _ => none
  | .latch thread =>
    match s.stage thread with
    | .failing e =>
      some { s with
        handle := s.handle.fence_writes fs (display e)
        stage := Function.update s.stage thread .idle }
    | _ => none
  | .arm => some { s with handle := { s.handle with plain_writes_armed := true } }
  | .other device_writer => some (if s.handle.holds_writer then s else { s with device_writer })

def run : List (Action W) → Session F D W → Option (Session F D W)
  | [], s => some s
  | a :: rest, s => (s.step display fs a).bind (run rest)

/-- A volume that was just opened, before anyone writes. -/
def Opened (s : Session F D W) : Prop := (∀ thread, s.stage thread = .idle) ∧ s.log = []

/-- Nobody takes the lock to write while another thread has failed and not latched the fence. -/
def Undisturbed : List (Action W) → Session F D W → Prop
  | [], _ => True
  | a :: rest, s => (∀ thread, a = .lock thread → ∀ other e, s.stage other ≠ .failing e) ∧
      ∀ s', s.step display fs a = some s' → Undisturbed rest s'

/-- After a failure that leaves the drive unknown nothing is written. -/
def Fenced (log : List Event) : Prop :=
  ∀ pre e post, log = pre ++ .failed e :: post → e.fences_write_session = true → .ran true ∉ post

variable {display fs} {s} {s' : Session F D W}

theorem Fenced.snoc {log : List Event} {x : Event} (h : Fenced log)
    (hx : x = .ran true → ∀ e, .failed e ∈ log → e.fences_write_session = false) : Fenced (log ++ [x]) := by
  intro pre e post heq he
  rcases List.eq_nil_or_concat post with rfl | ⟨post, last, rfl⟩
  · exact List.not_mem_nil
  · rw [List.concat_eq_append, ← List.cons_append, ← List.append_assoc] at heq
    obtain ⟨rfl, hlast⟩ := List.append_inj' heq rfl
    cases hlast
    rw [List.concat_eq_append, List.mem_append, List.mem_singleton]
    rintro (hpost | hran)
    · exact h pre e post rfl he hpost
    · have hbenign := hx hran.symm e (by simp)
      rw [he] at hbenign
      cases hbenign

/-- Writing is over: the fence is latched, or the lock is poisoned, or a thread is about to latch the fence. -/
def Closed (s : Session F D W) : Prop :=
  s.handle.write_fence ≠ none ∨ s.handle.poisoned = true ∨ ∃ thread e, s.stage thread = .failing e

/-- The invariant. -/
structure Guarded (s : Session F D W) : Prop where
  fenced : Fenced s.log
  closed : ∀ e, .failed e ∈ s.log → e.fences_write_session = true → s.Closed

theorem Guarded.fail (h : Guarded s) {thread : Nat} {e : LuksError} (hidle : s.stage thread = .idle)
    (he : e.fences_write_session = true → s.handle.write_fence ≠ none) : Guarded (s.fail thread e) := by
  have hstage : (s.fail thread e).stage = s.stage := by
    rw [Session.fail, ← hidle]
    exact Function.update_eq_self _ _
  refine ⟨h.fenced.snoc (fun hx => nomatch hx), fun e' he' hfences => ?_⟩
  rcases List.mem_append.mp he' with hold | hnew
  · rcases h.closed e' hold hfences with hfence | hpoisoned | hfailing
    · exact .inl hfence
    · exact .inr (.inl hpoisoned)
    · exact .inr (.inr (by rwa [hstage]))
  · cases List.mem_singleton.mp hnew
    exact .inl (he hfences)

theorem not_fences_of_latches {e : LuksError} (h : latches e = false) (hpoisoned : e ≠ .SessionPoisoned)
    (hfenced : ∀ reason, e ≠ .WriteSessionFenced reason) : e.fences_write_session = false := by
  cases e with
  | SessionPoisoned => exact absurd rfl hpoisoned
  | WriteSessionFenced reason => exact absurd rfl (hfenced reason)
  | _ => exact h

theorem Guarded.lock (h : Guarded s) (thread : Nat) (op : Operation W) (hcalm : ∀ other e, s.stage other ≠ .failing e) :
    Guarded (s.guard thread (s.handle.locked fs op s.device_writer s.disk)) := by
  rcases s.handle.locked_cases fs op s.device_writer s.disk with
    ⟨e, heq, hlatch, hclosed⟩ | ⟨hfence, hpoisoned, h', dw', -, heq⟩
  · rw [heq]
    simp only [Session.guard, hlatch, Option.toList_none, List.map_nil, List.append_nil]
    refine ⟨h.fenced.snoc (fun hx => nomatch hx), fun e' he' hfences => ?_⟩
    rcases List.mem_append.mp he' with hold | hnew
    · rcases h.closed e' hold hfences with hfence | hpoisoned | ⟨other, e'', hfailing⟩
      · exact .inl hfence
      · exact .inr (.inl hpoisoned)
      · exact absurd hfailing (hcalm other e'')
    · cases List.mem_singleton.mp hnew
      exact (hclosed hfences).imp id .inl
  · -- the session is open, so nothing has failed badly so far
    have hopen : ∀ e, .failed e ∈ s.log → e.fences_write_session = false := by
      intro e he
      by_contra hfences
      rcases h.closed e he (by simpa using hfences) with hlatched | hpoison | ⟨other, e', hfailing⟩
      · exact hlatched hfence
      · rw [hpoisoned] at hpoison
        cases hpoison
      · exact hcalm other e' hfailing
    rw [heq]
    have hran := h.fenced.snoc (x := .ran (fs.run op h'.fs s.disk).wrote) fun _ => hopen
    have hnone : ∀ e, .failed e ∈ s.log ++ [.ran (fs.run op h'.fs s.disk).wrote] → e.fences_write_session = false := by
      intro e he
      rcases List.mem_append.mp he with hold | hnew
      · exact hopen e hold
      · cases List.mem_singleton.mp hnew
    have hown := fs.own_errors op h'.fs s.disk
    unfold Session.guard VolumeHandle.operate
    simp only [Option.toList_some, List.map_cons, List.map_nil]
    cases hresult : (fs.run op h'.fs s.disk).result with
    | none =>
      refine ⟨hran, fun e he hfences => ?_⟩
      rw [hnone e he] at hfences
      cases hfences
    | some r =>
      cases r with
      | ok u =>
        refine ⟨hran, fun e he hfences => ?_⟩
        rw [hnone e he] at hfences
        cases hfences
      | error e =>
        refine ⟨hran.snoc (fun hx => nomatch hx), fun e' he' hfences => ?_⟩
        rcases List.mem_append.mp he' with hold | hnew
        · rw [hnone e' hold] at hfences
          cases hfences
        · cases List.mem_singleton.mp hnew
          rw [hresult] at hown
          by_cases hlatch : latches e = true
          · refine .inr (.inr ⟨thread, e, ?_⟩)
            simp only [hlatch, if_true, Function.update_self]
          · have hbenign := not_fences_of_latches (by simpa using hlatch) (fun h => hown.1 (by rw [h]))
              fun reason h => hown.2 reason (by rw [h])
            rw [hbenign] at hfences
            cases hfences

theorem Guarded.step {a : Action W} {rest : List (Action W)} (h : Guarded s)
    (hcalm : Undisturbed display fs (a :: rest) s)
    (hstep : s.step display fs a = some s') : Guarded s' := by
  cases a with
  | call thread op cancelled =>
    simp only [Session.step] at hstep
    split at hstep
    · rename_i hidle
      split at hstep
      · cases hstep
        exact h.fail hidle fun hf => nomatch hf
      · split at hstep
        · rename_i e hcheck
          cases hstep
          refine h.fail hidle fun hfences => ?_
          unfold VolumeHandle.check_writable at hcheck
          split at hcheck
          · cases hcheck
            cases hfences
          · split at hcheck
            · rename_i reason hfence
              rw [hfence]
              exact fun hnone => nomatch hnone
            · cases hcheck
        · cases hstep
          refine ⟨h.fenced, fun e he hfences => ?_⟩
          rcases h.closed e he hfences with hfence | hpoisoned | ⟨other, e', hfailing⟩
          · exact .inl hfence
          · exact .inr (.inl hpoisoned)
          · refine .inr (.inr ⟨other, e', ?_⟩)
            have hne : other ≠ thread := by
              rintro rfl
              rw [hidle] at hfailing
              cases hfailing
            simp only [Function.update_of_ne hne]
            exact hfailing
    · cases hstep
  | lock thread =>
    simp only [Session.step] at hstep
    split at hstep
    · rename_i op _
      cases hstep
      exact h.lock thread op (hcalm.1 thread rfl)
    · cases hstep
  | latch thread =>
    simp only [Session.step] at hstep
    split at hstep
    · rename_i e hfailing
      cases hstep
      refine ⟨h.fenced, fun _ _ _ => .inl ?_⟩
      unfold VolumeHandle.fence_writes
      split
      · rename_i reason hfence
        rw [hfence]
        exact fun hnone => nomatch hnone
      · exact fun hnone => nomatch hnone
    · cases hstep
  | arm =>
    cases hstep
    exact ⟨h.fenced, h.closed⟩
  | other device_writer =>
    simp only [Session.step] at hstep
    cases hstep
    split
    · exact h
    · exact ⟨h.fenced, h.closed⟩

theorem Guarded.run (acts : List (Action W)) (h : Guarded s) (hcalm : Undisturbed display fs acts s)
    (hrun : run display fs acts s = some s') : Guarded s' := by
  induction acts generalizing s with
  | nil =>
    cases hrun
    exact h
  | cons a rest ih =>
    obtain ⟨s₁, hstep, hrest⟩ := Option.bind_eq_some_iff.mp hrun
    exact ih (h.step hcalm hstep) (hcalm.2 s₁ hstep) hrest

/-- After a failure that leaves the drive unknown nothing is written, if no writer gets the lock before the
fence is latched. -/
theorem fenced_of_undisturbed (acts : List (Action W)) (hopen : s.Opened) (hcalm : Undisturbed display fs acts s)
    (hrun : Session.run display fs acts s = some s') : Fenced s'.log := by
  refine (Guarded.run acts ⟨?_, ?_⟩ hcalm hrun).fenced
  · rw [hopen.2]
    intro pre e post heq
    cases pre with
    | nil => cases heq
    | cons _ _ => cases heq
  · rw [hopen.2]
    exact fun _ he => absurd he List.not_mem_nil

end Session

/-- A filesystem whose commits time out half-way, and that does everything else. -/
def flaky : Filesystem Unit Unit Unit where
  mount _ := .ok ()
  run op _ _ := ⟨some (match op with
    | .commit_active_batch => .error (.UsbTransfer "timed out")
    | _ => .ok ()), (), (), true⟩
  discard_active_batch f := f
  unwritten _ _ _ h := nomatch h
  own_errors := by
    intro op f d
    cases op <;> simp

def unlocked : Session Unit Unit Unit :=
  ⟨⟨(), false, 0, true, none, false, true⟩, false, (), fun _ => .idle, []⟩

/-- A commit fails while another operation waits for the lock, and latches the fence first. -/
def refused : List (Action Unit) :=
  [.call 0 .commit_active_batch false, .call 1 (.delete_file "/a") false, .lock 0, .latch 0, .lock 1]

/-- The operation that waits gets the lock first. -/
def overtaken : List (Action Unit) :=
  [.call 0 .commit_active_batch false, .call 1 (.delete_file "/a") false, .lock 0, .lock 1, .latch 0]

theorem fenced_refused :
    ∃ s', Session.run (fun _ => "failed") flaky refused unlocked = some s' ∧ Session.Fenced s'.log ∧
      s'.log = [.ran true, .failed (.UsbTransfer "timed out"), .failed (.WriteSessionFenced "failed")] := by
  have hcalm : Session.Undisturbed (fun _ => "failed") flaky refused unlocked := by
    refine ⟨fun _ h => (nomatch h), fun s₁ h₁ => ⟨fun _ h => (nomatch h), fun s₂ h₂ => ⟨fun _ _ other e hstage => ?_,
      fun s₃ h₃ => ⟨fun _ h => (nomatch h), fun s₄ h₄ => ⟨fun _ _ other e hstage => ?_, fun _ _ => trivial⟩⟩⟩⟩⟩
    · -- both threads wait
      cases h₁
      cases h₂
      match other with
      | 0 | 1 => cases hstage
      | _ + 2 => cases hstage
    · -- the first thread is done
      cases h₁
      cases h₂
      cases h₃
      cases h₄
      match other with
      | 0 | 1 => cases hstage
      | _ + 2 => cases hstage
  have hrun : ∃ s', Session.run (fun _ => "failed") flaky refused unlocked = some s' ∧
      s'.log = [.ran true, .failed (.UsbTransfer "timed out"), .failed (.WriteSessionFenced "failed")] := ⟨_, rfl, rfl⟩
  obtain ⟨s', hrun, hlog⟩ := hrun
  exact ⟨s', hrun, Session.fenced_of_undisturbed refused ⟨fun _ => rfl, rfl⟩ hcalm hrun, hlog⟩

theorem overtaken_writes :
    ¬ ∀ acts s', Session.run (fun _ => "failed") flaky acts unlocked = some s' → Session.Fenced s'.log := by
  intro h
  have hfenced := h overtaken _ rfl
  exact hfenced [.ran true] (.UsbTransfer "timed out") [.ran true] rfl rfl (by decide)

end LuksAndroid.Bridge

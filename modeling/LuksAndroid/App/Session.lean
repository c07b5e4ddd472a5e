import LuksAndroid.Lib.Machine

/-!
# The session

`session/LuksSession.kt`: leases on the open volume, and the calls that open it and tear it
down. A region under the mutex is one step, so `Unlocking` is never seen. Volumes and
devices are numbered. The idle timer and the listings are left out: the timer only calls
`lock`.
-/

namespace LuksAndroid.App

inductive SessionState where
  | Locked
  | Unlocked (volume : Nat)
  | Detached
  | Failed
deriving DecidableEq, Repr

-- What comes of `device.unlock` or `device.openPlain` and the first look at the volume.
inductive Opening where
  | failed
  -- the volume was opened, but `info` or `listDir` threw
  | unlisted
  | listed
deriving DecidableEq, Repr

/-- Where a call of `lock` is. The source does not keep the volume that was stored when it began. -/
inductive LockStage where
  | idle
  | draining (volume : Option Nat)
  -- it saw no active lease
  | drained (volume : Option Nat)
  -- before the `finally`
  | finishing
deriving DecidableEq, Repr

/-- The fields of the controller, the volumes of the running leases, the calls of `lock`, and how often each
volume and device was closed. `volumes` counts the volumes opened so far, and `devices` has the devices that
were stored. -/
structure Session where
  state : SessionState
  volume : Option Nat
  device : Option Nat
  isLocking : Bool
  leases : List Nat
  locks : Nat → LockStage
  volumes : Nat
  devices : List Nat
  closed : Nat → Nat
  device_closed : Nat → Nat

inductive Entry where
  | unlock (device : Nat) (opening : Opening)
  | openPlain (device : Nat) (opening : Opening)
  | lease
  | end_lease (volume : Nat)
  -- the parts of `lock`
  | lock (call : Nat)
  | drain (call : Nat)
  | teardown (call : Nat)
  | finish (call : Nat)
  | onDeviceDetached
  | onWritePoison
  | onWriteSessionFenced
  | reset
deriving DecidableEq, Repr

namespace Session

variable (s : Session)

def active_leases : Nat := s.leases.length

/-- The region of `unlock` and of `openPlain`. -/
def opens (device : Nat) : Opening → Option Session
  | .failed => some { s with state := .Failed }
  | .unlisted =>
    if s.device_closed device = 0 then some { s with state := .Failed, volumes := s.volumes + 1 } else none
  | .listed =>
    -- a closed device opens nothing
    if s.device_closed device = 0 then
      some { s with
        state := .Unlocked s.volumes
        volume := some s.volumes
        device := some device
        volumes := s.volumes + 1
        devices := device :: s.devices }
    else none

/-- The volume that `withLease` hands out. -/
def grants : Option Nat :=
  if s.isLocking then none
  else match s.state with
    | .Unlocked v => some (s.volume.getD v)
    | _ => none

def close (closed : Nat → Nat) : Option Nat → Nat → Nat
  | none => closed
  | some n => Function.update closed n (closed n + 1)

def teardownHandles : Session :=
  { s with
    volume := none
    device := none
    closed := close s.closed s.volume
    device_closed := close s.device_closed s.device }

/-- The region of `onDeviceDetached`, `onWritePoison`, `onWriteSessionFenced` and `reset`. -/
def ends (state : SessionState) : Session := { s.teardownHandles with isLocking := false, state }

def setLock (call : Nat) (stage : LockStage) : Session :=
  { s with locks := Function.update s.locks call stage }

def step : Entry → Option Session
  | .unlock device opening => s.opens device opening
  | .openPlain device opening => s.opens device opening
  | .lease =>
    match s.grants with
    | some v => some { s with leases := v :: s.leases }
    | none => some s
  | .end_lease v => if v ∈ s.leases then some { s with leases := s.leases.erase v } else none
  | .lock call =>
    if s.locks call = .idle then
      some (if s.state = .Locked ∨ s.isLocking = true then s
        else { s.setLock call (.draining s.volume) with isLocking := true })
    else none
  | .drain call =>
    match s.locks call with
    | .draining volume => if s.active_leases = 0 then some (s.setLock call (.drained volume)) else none
    | _ => none
  | .teardown call =>
    match s.locks call with
    | .drained _ => some { (s.teardownHandles).setLock call .finishing with state := .Locked }
    | _ => none
  | .finish call =>
    if s.locks call = .finishing then some { s.setLock call .idle with isLocking := false } else none
  | .onDeviceDetached => some (s.ends .Detached)
  | .onWritePoison => some (s.ends .Failed)
  | .onWriteSessionFenced => some (s.ends .Failed)
  | .reset => some (s.ends .Locked)

def fresh : Session where
  state := .Locked
  volume := none
  device := none
  isLocking := false
  leases := []
  locks _ := .idle
  volumes := 0
  devices := []
  closed _ := 0
  device_closed _ := 0

def Unlocked : Prop := ∃ v, s.state = .Unlocked v

structure Safe : Prop where
  -- a call of `lock` that is about to tear down meets no lease on the volume, and no other session than its own
  lock_unleased : ∀ call volume v, s.locks call = .drained volume → s.volume = some v → v ∉ s.leases
  lock_own : ∀ call volume v, s.locks call = .drained volume → s.volume = some v → volume = some v
  lease_open : ∀ v, s.grants = some v → s.closed v = 0
  lease_undrained : ∀ v, s.grants = some v → ∀ call, s.locks call ≠ .draining (some v) ∧
    s.locks call ≠ .drained (some v)
  unlocked_iff : s.Unlocked ↔ ∃ v d, s.volume = some v ∧ s.device = some d ∧ s.closed v = 0 ∧ s.device_closed d = 0
  closed_once : ¬ s.Unlocked → (∀ v < s.volumes, s.closed v = 1) ∧ ∀ d ∈ s.devices, s.device_closed d = 1

/-- A call of `lock` has set the flag and has not torn down yet. -/
def Draining (call : Nat) : Prop := ∃ volume, s.locks call = .draining volume ∨ s.locks call = .drained volume

/-- A volume is opened when none is stored and no call of `lock` drains, and once opened it can be listed.
Only `lock` itself ends a session while a call of `lock` is under way. -/
def Orderly : Entry → Prop
  | .unlock _ opening | .openPlain _ opening =>
    opening ≠ .unlisted ∧ s.volume = none ∧ s.device = none ∧ ∀ call, ¬ s.Draining call
  | .onDeviceDetached | .onWritePoison | .onWriteSessionFenced | .reset => ∀ call, s.locks call = .idle
  | _ => True

/-! ## The invariant -/

/-- What was opened is closed once, except for what is stored. -/
structure Accounts : Prop where
  closed : ∀ v, s.closed v = if v < s.volumes ∧ s.volume ≠ some v then 1 else 0
  device_closed : ∀ d, s.device_closed d = if d ∈ s.devices ∧ s.device ≠ some d then 1 else 0
  volume : ∀ v, s.volume = some v → v < s.volumes
  device : ∀ d, s.device = some d → d ∈ s.devices
  both : s.volume.isSome = s.device.isSome

/-- At most one call of `lock` is under way, and the flag is its own. -/
structure Locking : Prop where
  one : ∀ call other, s.locks call ≠ .idle → s.locks other ≠ .idle → call = other
  flag : ∀ call, s.locks call ≠ .idle → s.isLocking = true
  own : ∀ call volume, s.locks call = .draining volume ∨ s.locks call = .drained volume → s.volume = volume
  calm : ∀ call volume, s.locks call = .drained volume → s.leases = []

structure Kept : Prop where
  accounts : s.Accounts
  locking : s.Locking
  stored : ∀ v, s.state = .Unlocked v ↔ s.volume = some v

variable {s} {s' : Session}

theorem Kept.grants (h : s.Kept) {v : Nat} (hgrants : s.grants = some v) :
    s.isLocking = false ∧ s.volume = some v := by
  unfold Session.grants at hgrants
  split at hgrants
  · cases hgrants
  · rename_i hlocking
    split at hgrants
    · rename_i v' hstate
      have hvolume := (h.stored v').mp hstate
      simp only [hvolume, Option.getD_some, Option.some.injEq] at hgrants
      subst hgrants
      exact ⟨by simpa using hlocking, hvolume⟩
    · cases hgrants

theorem Kept.unlocked_iff (h : s.Kept) : s.Unlocked ↔ s.volume.isSome = true := by
  unfold Unlocked
  simp only [h.stored, Option.isSome_iff_exists]

theorem Accounts.stored_open (h : s.Accounts) {v : Nat} (hv : s.volume = some v) : s.closed v = 0 := by
  rw [h.closed v]
  simp [hv]

theorem Kept.safe (h : s.Kept) : s.Safe := by
  refine ⟨?_, ?_, ?_, ?_, ?_, ?_⟩
  · intro call volume v hdrained _
    simp [h.locking.calm call volume hdrained]
  · intro call volume v hdrained hv
    rw [← h.locking.own call volume (.inr hdrained), hv]
  · intro v hgrants
    exact h.accounts.stored_open (h.grants hgrants).2
  · intro v hgrants call
    have hidle : s.locks call = .idle := by
      by_contra hbusy
      have hflag := h.locking.flag call hbusy
      rw [(h.grants hgrants).1] at hflag
      cases hflag
    simp [hidle]
  · rw [h.unlocked_iff]
    constructor
    · intro hsome
      obtain ⟨v, hv⟩ := Option.isSome_iff_exists.mp hsome
      obtain ⟨d, hd⟩ := Option.isSome_iff_exists.mp (h.accounts.both ▸ hsome)
      refine ⟨v, d, hv, hd, h.accounts.stored_open hv, ?_⟩
      rw [h.accounts.device_closed d]
      simp [hd]
    · rintro ⟨v, d, hv, -⟩
      simp [hv]
  · intro hlocked
    have hnone : s.volume = none := by
      rw [h.unlocked_iff] at hlocked
      simpa using hlocked
    have hdevice : s.device = none := by
      have hboth := h.accounts.both
      rw [hnone] at hboth
      simpa using hboth.symm
    constructor
    · intro v hv
      rw [h.accounts.closed v]
      simp [hv, hnone]
    · intro d hd
      rw [h.accounts.device_closed d]
      simp [hd, hdevice]

/-! ## One step -/

theorem close_none (closed : Nat → Nat) : close closed none = closed := rfl

theorem close_some (closed : Nat → Nat) (n m : Nat) :
    close closed (some n) m = if m = n then closed n + 1 else closed m := by
  unfold close
  by_cases hm : m = n
  · subst hm
    simp
  · simp [hm]

theorem closed_of_stored {closed : Nat → Nat} {opened : Nat → Prop} [DecidablePred opened] {stored : Option Nat}
    (hclosed : ∀ n, closed n = if opened n ∧ stored ≠ some n then 1 else 0)
    (hstored : ∀ n, stored = some n → opened n) (n : Nat) :
    close closed stored n = if opened n then 1 else 0 := by
  cases hs : stored with
  | none =>
    rw [close_none, hclosed n, hs]
    simp
  | some m =>
    rw [close_some]
    by_cases hn : n = m
    · subst hn
      rw [if_pos rfl, hclosed n, if_pos (hstored n hs)]
      simp [hs]
    · rw [if_neg hn, hclosed n, hs]
      simp [Ne.symm hn]

theorem Accounts.torn (h : s.Accounts) : s.teardownHandles.Accounts := by
  refine ⟨?_, ?_, ?_, ?_, rfl⟩
  · intro v
    simpa [teardownHandles] using closed_of_stored h.closed h.volume v
  · intro d
    simpa [teardownHandles] using closed_of_stored h.device_closed h.device d
  · intro v hv
    cases hv
  · intro d hd
    cases hd

theorem Kept.opens (h : s.Kept) {device : Nat} {opening : Opening} (hlisted : opening ≠ .unlisted)
    (hvolume : s.volume = none) (hdevice : s.device = none) (hundrained : ∀ call, ¬ s.Draining call)
    (hstep : s.opens device opening = some s') : s'.Kept := by
  have hfree (call : Nat) (volume : Option Nat) :
      s.locks call ≠ .draining volume ∧ s.locks call ≠ .drained volume := by
    constructor
    · exact fun hd => hundrained call ⟨volume, .inl hd⟩
    · exact fun hd => hundrained call ⟨volume, .inr hd⟩
  cases opening with
  | unlisted => exact absurd rfl hlisted
  | failed =>
    simp only [Session.opens, Option.some.injEq] at hstep
    subst hstep
    refine ⟨⟨h.accounts.closed, h.accounts.device_closed, h.accounts.volume, h.accounts.device, h.accounts.both⟩,
      ⟨h.locking.one, h.locking.flag, h.locking.own, h.locking.calm⟩, ?_⟩
    intro v
    simp [hvolume]
  | listed =>
    simp only [Session.opens, Option.ite_none_right_eq_some, Option.some.injEq] at hstep
    obtain ⟨hopen, rfl⟩ := hstep
    have hnew : device ∉ s.devices := by
      intro hmem
      have hcount := h.accounts.device_closed device
      rw [hopen, hdevice] at hcount
      simp [hmem] at hcount
    refine ⟨⟨?_, ?_, ?_, ?_, rfl⟩, ⟨h.locking.one, h.locking.flag, ?_, h.locking.calm⟩, ?_⟩
    · intro v
      have hcount := h.accounts.closed v
      rw [hvolume] at hcount
      by_cases hv : v = s.volumes
      · subst hv
        simpa using hcount
      · have hlt : v < s.volumes + 1 ↔ v < s.volumes := by omega
        simpa [hlt, Ne.symm hv] using hcount
    · intro d
      have hcount := h.accounts.device_closed d
      rw [hdevice] at hcount
      by_cases hd : d = device
      · subst hd
        simpa using hopen
      · simpa [hd, Ne.symm hd] using hcount
    · intro v hv
      cases hv
      exact Nat.lt_succ_self _
    · intro d hd
      cases hd
      simp
    · rintro call volume (hd | hd)
      · exact absurd hd (hfree call volume).1
      · exact absurd hd (hfree call volume).2
    · intro v
      simp

theorem Kept.ends (h : s.Kept) (hidle : ∀ call, s.locks call = .idle) {state : SessionState}
    (hstate : ∀ v, state ≠ .Unlocked v) : (s.ends state).Kept := by
  have hlocks (call : Nat) : (s.ends state).locks call = .idle := hidle call
  have htorn := h.accounts.torn
  refine ⟨⟨htorn.closed, htorn.device_closed, htorn.volume, htorn.device, rfl⟩, ⟨?_, ?_, ?_, ?_⟩, ?_⟩
  · intro call other hbusy
    exact absurd (hlocks call) hbusy
  · intro call hbusy
    exact absurd (hlocks call) hbusy
  · intro call volume hd
    rw [hlocks call] at hd
    simp at hd
  · intro call volume hd
    rw [hlocks call] at hd
    cases hd
  · intro v
    simp [Session.ends, teardownHandles, hstate]

theorem locking_of_single {locks : Nat → LockStage} {call : Nat} {stage : LockStage}
    (hlocks : s.locks = Function.update locks call stage) (hothers : ∀ other, other ≠ call → locks other = .idle)
    (hflag : stage ≠ .idle → s.isLocking = true)
    (hown : ∀ volume, stage = .draining volume ∨ stage = .drained volume → s.volume = volume)
    (hcalm : ∀ volume, stage = .drained volume → s.leases = []) : s.Locking := by
  have hcall : s.locks call = stage := by
    rw [hlocks, Function.update_self]
  have hbusy {other : Nat} (h : s.locks other ≠ .idle) : other = call := by
    by_contra hne
    rw [hlocks, Function.update_of_ne hne] at h
    exact h (hothers other hne)
  refine ⟨?_, ?_, ?_, ?_⟩
  · intro one other hone hother
    rw [hbusy hone, hbusy hother]
  · intro one hone
    cases hbusy hone
    exact hflag (hcall ▸ hone)
  · intro one volume hor
    have hone : s.locks one ≠ .idle := by
      rcases hor with h | h <;> simp [h]
    cases hbusy hone
    exact hown volume (hcall ▸ hor)
  · intro one volume hdrained
    cases hbusy (by simp [hdrained] : s.locks one ≠ .idle)
    exact hcalm volume (hcall ▸ hdrained)

theorem Locking.others_idle (h : s.Locking) {call : Nat} (hbusy : s.locks call ≠ .idle) (other : Nat)
    (hne : other ≠ call) : s.locks other = .idle := by
  by_contra hother
  exact hne (h.one other call hother hbusy)

theorem Kept.lock (h : s.Kept) {call : Nat} (hstep : s.step (.lock call) = some s') : s'.Kept := by
  simp only [step, Option.ite_none_right_eq_some, Option.some.injEq] at hstep
  obtain ⟨hidle, rfl⟩ := hstep
  split
  · exact h
  · rename_i hfree
    rw [not_or] at hfree
    have hall (other : Nat) : s.locks other = .idle := by
      by_contra hbusy
      exact hfree.2 (h.locking.flag other hbusy)
    refine ⟨⟨h.accounts.closed, h.accounts.device_closed, h.accounts.volume, h.accounts.device, h.accounts.both⟩, ?_,
      h.stored⟩
    apply locking_of_single rfl (fun other _ => hall other)
    · intro _
      rfl
    · rintro volume (hv | hv) <;> cases hv
      rfl
    · intro volume hv
      cases hv

theorem Kept.drain (h : s.Kept) {call : Nat} (hstep : s.step (.drain call) = some s') : s'.Kept := by
  simp only [step] at hstep
  split at hstep
  · rename_i volume hdraining
    simp only [Option.ite_none_right_eq_some, Option.some.injEq] at hstep
    obtain ⟨hleases, rfl⟩ := hstep
    have hbusy : s.locks call ≠ .idle := by simp [hdraining]
    refine ⟨⟨h.accounts.closed, h.accounts.device_closed, h.accounts.volume, h.accounts.device, h.accounts.both⟩, ?_,
      h.stored⟩
    apply locking_of_single rfl (h.locking.others_idle hbusy)
    · intro _
      exact h.locking.flag call hbusy
    · rintro volume' (hv | hv) <;> cases hv
      exact h.locking.own call volume (.inl hdraining)
    · intro _ _
      exact List.eq_nil_of_length_eq_zero hleases
  · cases hstep

theorem Kept.teardown (h : s.Kept) {call : Nat} (hstep : s.step (.teardown call) = some s') : s'.Kept := by
  simp only [step] at hstep
  split at hstep
  · rename_i volume hdrained
    cases hstep
    have hbusy : s.locks call ≠ .idle := by simp [hdrained]
    have htorn := h.accounts.torn
    refine ⟨⟨htorn.closed, htorn.device_closed, htorn.volume, htorn.device, rfl⟩, ?_, ?_⟩
    · apply locking_of_single rfl (h.locking.others_idle hbusy)
      · intro _
        exact h.locking.flag call hbusy
      · rintro volume' (hv | hv) <;> cases hv
      · intro volume' hv
        cases hv
    · intro v
      simp [setLock, teardownHandles]
  · cases hstep

theorem Kept.finish (h : s.Kept) {call : Nat} (hstep : s.step (.finish call) = some s') : s'.Kept := by
  simp only [step, Option.ite_none_right_eq_some, Option.some.injEq] at hstep
  obtain ⟨hfinishing, rfl⟩ := hstep
  have hbusy : s.locks call ≠ .idle := by simp [hfinishing]
  refine ⟨⟨h.accounts.closed, h.accounts.device_closed, h.accounts.volume, h.accounts.device, h.accounts.both⟩, ?_,
    h.stored⟩
  apply locking_of_single rfl (h.locking.others_idle hbusy)
  · intro hidle
    exact absurd rfl hidle
  · rintro volume (hv | hv) <;> cases hv
  · intro volume hv
    cases hv

/-- Leases come and go. None comes while a call of `lock` is under way. -/
theorem Kept.leases (h : s.Kept) {leases : List Nat}
    (hcalm : ∀ call volume, s.locks call = .drained volume → leases = []) :
    ({ s with leases } : Session).Kept :=
  ⟨⟨h.accounts.closed, h.accounts.device_closed, h.accounts.volume, h.accounts.device, h.accounts.both⟩,
    ⟨h.locking.one, h.locking.flag, h.locking.own, hcalm⟩, h.stored⟩

theorem Kept.step {a : Entry} (h : s.Kept) (horderly : s.Orderly a) (hstep : s.step a = some s') : s'.Kept := by
  cases a with
  | unlock device opening =>
    obtain ⟨hlisted, hvolume, hdevice, hundrained⟩ := horderly
    exact h.opens hlisted hvolume hdevice hundrained hstep
  | openPlain device opening =>
    obtain ⟨hlisted, hvolume, hdevice, hundrained⟩ := horderly
    exact h.opens hlisted hvolume hdevice hundrained hstep
  | lease =>
    simp only [Session.step] at hstep
    split at hstep
    · rename_i v hgrants
      cases hstep
      apply h.leases
      intro call volume hdrained
      have hflag := h.locking.flag call (by simp [hdrained])
      rw [(h.grants hgrants).1] at hflag
      cases hflag
    · cases hstep
      exact h
  | end_lease v =>
    simp only [Session.step, Option.ite_none_right_eq_some, Option.some.injEq] at hstep
    obtain ⟨-, rfl⟩ := hstep
    apply h.leases
    intro call volume hdrained
    simp [h.locking.calm call volume hdrained]
  | lock call => exact h.lock hstep
  | drain call => exact h.drain hstep
  | teardown call => exact h.teardown hstep
  | finish call => exact h.finish hstep
  | onDeviceDetached | onWritePoison | onWriteSessionFenced | reset =>
    cases hstep
    apply h.ends horderly
    simp

theorem fresh_kept : fresh.Kept := by
  refine ⟨⟨?_, ?_, ?_, ?_, rfl⟩, ⟨?_, ?_, ?_, ?_⟩, ?_⟩ <;> simp [fresh]

/-- Leases, teardowns and handles are in order in every state of an orderly run. -/
theorem safe_of_orderly (entries : List Entry) (horderly : Machine.Meets step Orderly fresh entries)
    (hrun : Machine.run step fresh entries = some s) : s.Safe := by
  apply Kept.safe
  exact Machine.run_keeps Kept (fun _ _ _ h hcond hstep => h.step hcond hstep) entries fresh_kept horderly hrun

end Session

-- Unlock, work under a lease, lock, and wait for the lease.
def oneSession : List Entry :=
  [.unlock 0 .listed, .lease, .lock 0, .end_lease 0, .drain 0, .teardown 0, .finish 0]

theorem one_session_safe :
    ∃ s, Machine.run Session.step Session.fresh oneSession = some s ∧ s.Safe ∧ s.state = .Locked ∧ s.closed 0 = 1 := by
  have horderly : Machine.Meets Session.step Session.Orderly Session.fresh oneSession := by
    simp [oneSession, Machine.Meets, Session.Orderly, Session.fresh, Session.Draining]
  obtain ⟨s, hrun, hstate, hclosed⟩ : ∃ s, Machine.run Session.step Session.fresh oneSession = some s ∧
      s.state = .Locked ∧ s.closed 0 = 1 := ⟨_, rfl, rfl, rfl⟩
  exact ⟨s, hrun, Session.safe_of_orderly oneSession horderly hrun, hstate, hclosed⟩

/-- A volume that opens and cannot be listed is never closed. -/
theorem unlisted_not_safe :
    ¬ ∀ entries s, Machine.run Session.step Session.fresh entries = some s → s.Safe := by
  intro h
  have hclosed := (h [.unlock 0 .unlisted] _ rfl).closed_once (by simp [Session.Unlocked])
  have hone := hclosed.1 0 (by decide)
  cases hone

end LuksAndroid.App

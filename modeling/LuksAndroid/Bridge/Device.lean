import LuksAndroid.Bridge.Code

/-!
# Volumes of one device

Volumes are opened, written to and dropped in any order, the same partition several times
perhaps. One of them at most may write. What it has in memory is what it read when it was
mounted, and what it did itself since.
-/

namespace LuksAndroid.Bridge

structure Partition where
  offset_bytes : Nat
  is_luks : Bool
deriving DecidableEq, Repr

/-- An operation that got to the filesystem, with the memory and the disk that it began with. -/
structure Begun (F D W : Type) where
  op : Operation W
  fs : F
  disk : D

/-- A live handle, with the number of writes to its partition that it knows of, and the operations it ran. -/
structure Volume (F D W : Type) where
  handle : VolumeHandle F
  seen : Nat
  log : List (Begun F D W)

/-- The device: the flag that its volumes share, what the partitions hold, and how often each was
written to. -/
structure DeviceHandle (F D W : Type) where
  partitions : List Partition
  writer : Bool
  disk : Nat → D
  writes : Nat → Nat
  volumes : Nat → Option (Volume F D W)
  next_volume_id : Nat

/-- A call from Java. The header of an encrypted partition is opened or is not. -/
inductive Call (W : Type) where
  | unlock (partition_offset : Nat) (header : Except LuksError Unit)
  | open_plain (partition_offset : Nat)
  | arm (id : Nat)
  | write (id : Nat) (op : Operation W) (cancelled : Bool)
  | drop (id : Nat)

namespace DeviceHandle

variable {F D W V : Type} (display : LuksError → String) (fs : Filesystem F D W) (dev : DeviceHandle F D W)

/-- Mount a partition and hand out a handle. -/
def mount (partition_offset : Nat) (encrypted : Bool) : DeviceHandle F D W :=
  match fs.mount (dev.disk partition_offset) with
  | .error _ => dev
  | .ok f =>
    { dev with
      volumes := Function.update dev.volumes dev.next_volume_id
        (some ⟨⟨f, false, partition_offset, encrypted, none, false, encrypted⟩, dev.writes partition_offset, []⟩)
      next_volume_id := dev.next_volume_id + 1 }

def unlock (partition_offset : Nat) (header : Except LuksError Unit) : DeviceHandle F D W :=
  match header with
  | .error _ => dev
  | .ok _ => dev.mount fs partition_offset true

def open_plain (partition_offset : Nat) : DeviceHandle F D W :=
  match dev.partitions.find? fun p => p.offset_bytes = partition_offset with
  | none => dev
  | some p => if p.is_luks then dev else dev.mount fs partition_offset false

/-- The handle after `guarding_writes`. -/
def guarded (r : VolumeHandle.Region F D) : VolumeHandle F :=
  match r.result with
  | some (.error e) => if latches e then r.handle.fence_writes fs (display e) else r.handle
  | _ => r.handle

/-- A whole call: the checks before the lock, the lock region, and the fence after a bad failure. -/
def write (id : Nat) (v : Volume F D W) (op : Operation W) : DeviceHandle F D W :=
  match v.handle.check_writable with
  | .error _ => dev
  | .ok _ =>
    let offset := v.handle.partition_offset
    let r := v.handle.locked fs op dev.writer (dev.disk offset)
    let writes := dev.writes offset + if r.ran = some true then 1 else 0
    { dev with
      writer := r.device_writer
      disk := Function.update dev.disk offset r.disk
      writes := Function.update dev.writes offset writes
      -- a handle that has missed a write stays behind
      volumes := Function.update dev.volumes id
        (some ⟨guarded display fs r, if v.seen = dev.writes offset then writes else v.seen,
          if r.ran.isSome then v.log ++ [⟨op, v.handle.fs, dev.disk offset⟩] else v.log⟩) }

def step : Call W → DeviceHandle F D W
  | .unlock partition_offset header => dev.unlock fs partition_offset header
  | .open_plain partition_offset => dev.open_plain fs partition_offset
  | .arm id =>
    match dev.volumes id with
    | none => dev
    | some v => { dev with
        volumes := Function.update dev.volumes id
          (some { v with handle := { v.handle with plain_writes_armed := true } }) }
  | .write id op cancelled =>
    match dev.volumes id with
    | none => dev
    | some v =>
      if op.is_cancelled cancelled then dev else dev.write display fs id v op
  | .drop id =>
    match dev.volumes id with
    | none => dev
    | some v => { dev with
        writer := v.handle.drop dev.writer
        volumes := Function.update dev.volumes id none }

def run (calls : List (Call W)) : DeviceHandle F D W := calls.foldl (fun dev c => dev.step display fs c) dev

/-- A device before anything was opened. -/
def Attached (dev : DeviceHandle F D W) : Prop := (∀ id, dev.volumes id = none) ∧ dev.writer = false

/-- At most one live handle holds the claim. -/
def SingleWriter (dev : DeviceHandle F D W) : Prop :=
  ∀ id id' v v', dev.volumes id = some v → dev.volumes id' = some v' → v.handle.holds_writer = true →
    v'.handle.holds_writer = true → id = id'

/-- The operation gets as far as `claim_writer`, and that lets it through. -/
def LetsThrough (dev : DeviceHandle F D W) (v : Volume F D W) (op : Operation W) : Prop :=
  v.handle.check_writable = .ok () ∧ v.handle.lock_for_writing = .ok () ∧ op.claims = true ∧
    ∃ r, v.handle.claim_writer dev.writer = .ok r

end DeviceHandle

/-- A mount would read what is in memory. -/
def Filesystem.Reads {F D W V : Type} (fs : Filesystem F D W) (view : F → V) (f : F) (d : D) : Prop :=
  ∃ f', fs.mount d = .ok f' ∧ view f' = view f

/-- An operation that leaves the memory ahead of the disk, and does not end the session. One of its steps failed
after it had changed the counters, or its undo did, and nobody is told. -/
def Filesystem.Strays {F D W V : Type} (fs : Filesystem F D W) (view : F → V) (b : Begun F D W) : Prop :=
  fs.Reads view b.fs b.disk ∧
    (∃ result, (fs.run b.op b.fs b.disk).result = some result ∧ ∀ e, result = .error e → latches e = false) ∧
    ¬ fs.Reads view (fs.run b.op b.fs b.disk).fs (fs.run b.op b.fs b.disk).disk

namespace DeviceHandle

variable {F D W V : Type} (fs : Filesystem F D W)

/-- The handle has in memory what a mount of its partition would read now. -/
def UpToDate (view : F → V) (dev : DeviceHandle F D W) (v : Volume F D W) : Prop :=
  fs.Reads view v.handle.fs (dev.disk v.handle.partition_offset)

/-- No other handle wrote to the partition since this one was mounted, and none of its own operations left its
memory ahead of the disk. -/
structure Followed (view : F → V) (dev : DeviceHandle F D W) (v : Volume F D W) : Prop where
  alone : v.seen = dev.writes v.handle.partition_offset
  steady : ∀ b ∈ v.log, ¬ fs.Strays view b

end DeviceHandle

namespace DeviceHandle

variable {F D W V : Type} {display : LuksError → String} {fs : Filesystem F D W} {view : F → V}
    {dev : DeviceHandle F D W}

/-- The invariant. A handle that followed its partition is up to date, unless its session is over. -/
structure Sound (fs : Filesystem F D W) (view : F → V) (dev : DeviceHandle F D W) : Prop where
  flag : ∀ id v, dev.volumes id = some v → v.handle.holds_writer = true → dev.writer = true
  single : dev.SingleWriter
  free : ∀ id, dev.next_volume_id ≤ id → dev.volumes id = none
  seen_le : ∀ id v, dev.volumes id = some v → v.seen ≤ dev.writes v.handle.partition_offset
  memory : ∀ id v, dev.volumes id = some v → dev.Followed fs view v →
    v.handle.write_fence = none → v.handle.poisoned = false → dev.UpToDate fs view v

theorem Sound.mount (h : Sound fs view dev) (partition_offset : Nat) (encrypted : Bool) :
    Sound fs view (dev.mount fs partition_offset encrypted) := by
  unfold DeviceHandle.mount
  split
  · exact h
  · rename_i f hmount
    have hcases : ∀ id v, Function.update dev.volumes dev.next_volume_id
        (some ⟨⟨f, false, partition_offset, encrypted, none, false, encrypted⟩, dev.writes partition_offset, []⟩) id =
          some v →
        v = ⟨⟨f, false, partition_offset, encrypted, none, false, encrypted⟩, dev.writes partition_offset, []⟩ ∨
          dev.volumes id = some v := by
      intro id v hv
      by_cases hid : id = dev.next_volume_id
      · subst hid
        rw [Function.update_self] at hv
        exact .inl (Option.some.inj hv).symm
      · rw [Function.update_of_ne hid] at hv
        exact .inr hv
    refine ⟨?_, ?_, ?_, ?_, ?_⟩
    · intro id v hv hholds
      rcases hcases id v hv with rfl | hold
      · cases hholds
      · exact h.flag id v hold hholds
    · intro id id' v v' hv hv' hholds hholds'
      rcases hcases id v hv with rfl | hold
      · cases hholds
      · rcases hcases id' v' hv' with rfl | hold'
        · cases hholds'
        · exact h.single id id' v v' hold hold' hholds hholds'
    · intro id hid
      have hid : dev.next_volume_id + 1 ≤ id := hid
      simp only [Function.update_of_ne (show id ≠ dev.next_volume_id by omega)]
      exact h.free id (by omega)
    · intro id v hv
      rcases hcases id v hv with rfl | hold
      · exact le_rfl
      · exact h.seen_le id v hold
    · intro id v hv hfollowed hfence hpoisoned
      rcases hcases id v hv with rfl | hold
      · exact ⟨f, hmount, rfl⟩
      · exact h.memory id v hold ⟨hfollowed.alone, hfollowed.steady⟩ hfence hpoisoned

theorem Sound.drop (h : Sound fs view dev) {id : Nat} {v : Volume F D W} (hv : dev.volumes id = some v) :
    Sound fs view { dev with writer := v.handle.drop dev.writer, volumes := Function.update dev.volumes id none } := by
  have hcases : ∀ id' v', Function.update dev.volumes id none id' = some v' → id' ≠ id ∧ dev.volumes id' = some v' := by
    intro id' v' hv'
    by_cases hid : id' = id
    · subst hid
      rw [Function.update_self] at hv'
      cases hv'
    · rw [Function.update_of_ne hid] at hv'
      exact ⟨hid, hv'⟩
  refine ⟨?_, ?_, ?_, ?_, ?_⟩
  · intro id' v' hv' hholds
    obtain ⟨hne, hold⟩ := hcases id' v' hv'
    have hother : ¬ v.handle.holds_writer = true := fun hh => hne (h.single id' id v' v hold hv hholds hh)
    simp only [VolumeHandle.drop, hother]
    exact h.flag id' v' hold hholds
  · intro id' id'' v' v'' hv' hv''
    exact h.single id' id'' v' v'' (hcases id' v' hv').2 (hcases id'' v'' hv'').2
  · intro id' hid
    by_cases hne : id' = id
    · simp only [hne, Function.update_self]
    · simp only [Function.update_of_ne hne]
      exact h.free id' hid
  · intro id' v' hv'
    exact h.seen_le id' v' (hcases id' v' hv').2
  · intro id' v' hv' hfollowed
    exact h.memory id' v' (hcases id' v' hv').2 ⟨hfollowed.alone, hfollowed.steady⟩

theorem Sound.arm (h : Sound fs view dev) {id : Nat} {v : Volume F D W} (hv : dev.volumes id = some v) :
    Sound fs view { dev with
      volumes := Function.update dev.volumes id
        (some { v with handle := { v.handle with plain_writes_armed := true } }) } := by
  have hcases : ∀ id' v', Function.update dev.volumes id
      (some { v with handle := { v.handle with plain_writes_armed := true } }) id' = some v' →
      ∃ old, dev.volumes id' = some old ∧ v'.seen = old.seen ∧ v'.log = old.log ∧
        v'.handle = { old.handle with plain_writes_armed := v'.handle.plain_writes_armed } := by
    intro id' v' hv'
    by_cases hid : id' = id
    · subst hid
      rw [Function.update_self] at hv'
      cases hv'
      exact ⟨v, hv, rfl, rfl, rfl⟩
    · rw [Function.update_of_ne hid] at hv'
      exact ⟨v', hv', rfl, rfl, rfl⟩
  refine ⟨?_, ?_, ?_, ?_, ?_⟩
  · intro id' v' hv' hholds
    obtain ⟨old, hold, -, -, hh⟩ := hcases id' v' hv'
    rw [hh] at hholds
    exact h.flag id' old hold hholds
  · intro id' id'' v' v'' hv' hv'' hholds hholds'
    obtain ⟨old, hold, -, -, hh⟩ := hcases id' v' hv'
    obtain ⟨old', hold', -, -, hh'⟩ := hcases id'' v'' hv''
    rw [hh] at hholds
    rw [hh'] at hholds'
    exact h.single id' id'' old old' hold hold' hholds hholds'
  · intro id' hid
    have hfree := h.free id' hid
    by_cases hne : id' = id
    · rw [hne, hv] at hfree
      cases hfree
    · simp only [Function.update_of_ne hne]
      exact hfree
  · intro id' v' hv'
    obtain ⟨old, hold, hseen, -, hh⟩ := hcases id' v' hv'
    rw [hseen, hh]
    exact h.seen_le id' old hold
  · intro id' v' hv' hfollowed hfence hpoisoned
    obtain ⟨old, hold, hseen, hlog, hh⟩ := hcases id' v' hv'
    have halone := hfollowed.alone
    have hsteady := hfollowed.steady
    rw [hh] at hfence hpoisoned halone
    rw [hseen] at halone
    rw [hlog] at hsteady
    unfold UpToDate
    rw [hh]
    exact h.memory id' old hold ⟨halone, hsteady⟩ hfence hpoisoned

/-- The volume after a call, as far as the device cares. -/
structure Written (fs : Filesystem F D W) (view : F → V) (dev : DeviceHandle F D W) (v : Volume F D W)
    (op : Operation W) (handle : VolumeHandle F) (writer : Bool) (disk : D) (ran : Option Bool) : Prop where
  offset : handle.partition_offset = v.handle.partition_offset
  /-- The claim is as it was, or was free and is made now. -/
  claim : (handle.holds_writer = v.handle.holds_writer ∧ writer = dev.writer) ∨ (dev.writer = false ∧ writer = true)
  unwritten : ran ≠ some true → disk = dev.disk v.handle.partition_offset
  /-- The handle is up to date if it was before, and did not stray. -/
  memory : (ran.isSome → ¬ fs.Strays view ⟨op, v.handle.fs, dev.disk v.handle.partition_offset⟩) →
    (v.handle.write_fence = none → v.handle.poisoned = false → dev.UpToDate fs view v) →
    handle.write_fence = none → handle.poisoned = false → fs.Reads view handle.fs disk

theorem written_of_locked (display : LuksError → String) (view : F → V) (dev : DeviceHandle F D W) (v : Volume F D W)
    (op : Operation W) {r : VolumeHandle.Region F D}
    (hr : v.handle.locked fs op dev.writer (dev.disk v.handle.partition_offset) = r) :
    Written fs view dev v op (guarded display fs r) r.device_writer r.disk r.ran := by
  rcases v.handle.locked_cases fs op dev.writer (dev.disk v.handle.partition_offset) with
    ⟨e, heq, hlatch, -⟩ | ⟨hfence, hpoisoned, h', dw', hclaimed, heq⟩
  · rw [← hr, heq]
    simp only [guarded, hlatch]
    exact ⟨rfl, .inl ⟨rfl, rfl⟩, fun _ => rfl, fun _ h hfence hpoisoned => h hfence hpoisoned⟩
  · rw [← hr, heq]
    have hsame : h'.fs = v.handle.fs ∧ h'.partition_offset = v.handle.partition_offset ∧ h'.write_fence = none := by
      rcases hclaimed with ⟨rfl, -⟩ | ⟨-, -, rfl, -⟩
      · exact ⟨rfl, rfl, hfence⟩
      · exact ⟨rfl, rfl, hfence⟩
    obtain ⟨hfs, hoffset, hfence'⟩ := hsame
    have hclaim : (h'.holds_writer = v.handle.holds_writer ∧ dw' = dev.writer) ∨ (dev.writer = false ∧ dw' = true) := by
      rcases hclaimed with ⟨rfl, rfl⟩ | ⟨-, hfree, -, rfl⟩
      · exact .inl ⟨rfl, rfl⟩
      · exact .inr ⟨hfree, rfl⟩
    simp only [VolumeHandle.operate, hfs]
    obtain ⟨ran, hran⟩ : ∃ ran, fs.run op v.handle.fs (dev.disk v.handle.partition_offset) = ran := ⟨_, rfl⟩
    simp only [hran]
    have hunwritten : some ran.wrote ≠ some true → ran.disk = dev.disk v.handle.partition_offset := by
      intro hw
      rw [← hran] at hw ⊢
      exact fs.unwritten op _ _ (by simpa using hw)
    -- the session goes on only after an operation that did not stray
    have hkept : ∀ result, ran.result = some result → (∀ e, result = .error e → latches e = false) →
        ((some ran.wrote).isSome → ¬ fs.Strays view ⟨op, v.handle.fs, dev.disk v.handle.partition_offset⟩) →
        (v.handle.write_fence = none → v.handle.poisoned = false → dev.UpToDate fs view v) →
        fs.Reads view ran.fs ran.disk := by
      intro result hresult hbenign hsteady hold
      by_contra hahead
      rw [← hran] at hresult hahead
      exact hsteady rfl ⟨hold hfence hpoisoned, ⟨result, hresult, hbenign⟩, hahead⟩
    simp only [guarded]
    cases hresult : ran.result with
    | none => exact ⟨hoffset, hclaim, hunwritten, fun _ _ _ hp => nomatch hp⟩
    | some result =>
      cases result with
      | ok u =>
        exact ⟨hoffset, hclaim, hunwritten, fun hsteady hold _ _ =>
          hkept _ hresult (fun e he => nomatch he) hsteady hold⟩
      | error e =>
        by_cases hlatch : latches e = true
        · simp only [hlatch, if_true, VolumeHandle.fence_writes, hfence']
          exact ⟨hoffset, hclaim, hunwritten, fun _ _ hf => nomatch hf⟩
        · simp only [hlatch]
          refine ⟨hoffset, hclaim, hunwritten, fun hsteady hold _ _ =>
            hkept _ hresult (fun e' he => ?_) hsteady hold⟩
          cases he
          simpa using hlatch

theorem Sound.write (h : Sound fs view dev) {id : Nat} {v : Volume F D W}
    (hv : dev.volumes id = some v) (op : Operation W) : Sound fs view (dev.write display fs id v op) := by
  unfold DeviceHandle.write
  split
  · exact h
  · obtain ⟨r, hr⟩ : ∃ r, v.handle.locked fs op dev.writer (dev.disk v.handle.partition_offset) = r := ⟨_, rfl⟩
    have hw := written_of_locked display view dev v op hr
    simp only [hr]
    have hcases : ∀ id' v', Function.update dev.volumes id (some ⟨guarded display fs r,
        if v.seen = dev.writes v.handle.partition_offset then
          dev.writes v.handle.partition_offset + if r.ran = some true then 1 else 0 else v.seen,
        if r.ran.isSome then v.log ++ [⟨op, v.handle.fs, dev.disk v.handle.partition_offset⟩] else v.log⟩) id' =
          some v' →
        (id' = id ∧ v' = ⟨guarded display fs r, if v.seen = dev.writes v.handle.partition_offset then
          dev.writes v.handle.partition_offset + if r.ran = some true then 1 else 0 else v.seen,
          if r.ran.isSome then v.log ++ [⟨op, v.handle.fs, dev.disk v.handle.partition_offset⟩] else v.log⟩) ∨
          (id' ≠ id ∧ dev.volumes id' = some v') := by
      intro id' v' hv'
      by_cases hid : id' = id
      · subst hid
        rw [Function.update_self] at hv'
        exact .inl ⟨rfl, (Option.some.inj hv').symm⟩
      · rw [Function.update_of_ne hid] at hv'
        exact .inr ⟨hid, hv'⟩
    refine ⟨?_, ?_, ?_, ?_, ?_⟩
    · intro id' v' hv' hholds
      rcases hcases id' v' hv' with ⟨rfl, rfl⟩ | ⟨-, hold⟩
      · rcases hw.claim with ⟨hsame, hwriter⟩ | ⟨-, hnew⟩
        · rw [hwriter]
          exact h.flag id' v hv (hsame ▸ hholds)
        · exact hnew
      · rcases hw.claim with ⟨-, hwriter⟩ | ⟨-, hnew⟩
        · rw [hwriter]
          exact h.flag id' v' hold hholds
        · exact hnew
    · intro id₁ id₂ v₁ v₂ hv₁ hv₂ hholds₁ hholds₂
      -- a claim that is new finds no other holder
      have hother : ∀ id' v', id' ≠ id → dev.volumes id' = some v' → v'.handle.holds_writer = true →
          (guarded display fs r).holds_writer = true → False := by
        intro id' v' hne hold hholds hmine
        rcases hw.claim with ⟨hsame, -⟩ | ⟨hfree, -⟩
        · exact hne (h.single id' id v' v hold hv hholds (hsame ▸ hmine))
        · rw [h.flag id' v' hold hholds] at hfree
          cases hfree
      rcases hcases id₁ v₁ hv₁ with ⟨rfl, rfl⟩ | ⟨hne₁, hold₁⟩
      · rcases hcases id₂ v₂ hv₂ with ⟨rfl, -⟩ | ⟨hne₂, hold₂⟩
        · rfl
        · exact (hother id₂ v₂ hne₂ hold₂ hholds₂ hholds₁).elim
      · rcases hcases id₂ v₂ hv₂ with ⟨rfl, rfl⟩ | ⟨hne₂, hold₂⟩
        · exact (hother id₁ v₁ hne₁ hold₁ hholds₁ hholds₂).elim
        · exact h.single id₁ id₂ v₁ v₂ hold₁ hold₂ hholds₁ hholds₂
    · intro id' hid
      have hfree := h.free id' hid
      by_cases hne : id' = id
      · rw [hne, hv] at hfree
        cases hfree
      · simp only [Function.update_of_ne hne]
        exact hfree
    · intro id' v' hv'
      rcases hcases id' v' hv' with ⟨rfl, rfl⟩ | ⟨-, hold⟩
      · have hle := h.seen_le id' v hv
        simp only [hw.offset, Function.update_self]
        split <;> omega
      · have hle := h.seen_le id' v' hold
        by_cases hpart : v'.handle.partition_offset = v.handle.partition_offset
        · rw [hpart] at hle ⊢
          simp only [Function.update_self]
          omega
        · simp only [Function.update_of_ne hpart]
          exact hle
    · intro id' v' hv' hfollowed hfence hpoisoned
      have hseen := hfollowed.alone
      rcases hcases id' v' hv' with ⟨rfl, rfl⟩ | ⟨-, hold⟩
      · have hle := h.seen_le id' v hv
        simp only [hw.offset, Function.update_self] at hseen
        have hcurrent : v.seen = dev.writes v.handle.partition_offset := by
          split at hseen <;> omega
        have hsteady : ∀ b ∈ v.log, ¬ fs.Strays view b := by
          intro b hb
          refine hfollowed.steady b ?_
          dsimp only
          split
          · exact List.mem_append_left _ hb
          · exact hb
        have hthis : r.ran.isSome → ¬ fs.Strays view ⟨op, v.handle.fs, dev.disk v.handle.partition_offset⟩ := by
          intro hran
          refine hfollowed.steady _ ?_
          simp only [hran, if_true, List.mem_append, List.mem_singleton, or_true]
        unfold UpToDate
        simp only [hw.offset, Function.update_self]
        exact hw.memory hthis (h.memory id' v hv ⟨hcurrent, hsteady⟩) hfence hpoisoned
      · have hle := h.seen_le id' v' hold
        have hmemory : v'.seen = dev.writes v'.handle.partition_offset → _ :=
          fun halone => h.memory id' v' hold ⟨halone, hfollowed.steady⟩
        unfold UpToDate at hmemory ⊢
        by_cases hpart : v'.handle.partition_offset = v.handle.partition_offset
        · rw [hpart] at hle hseen hmemory ⊢
          simp only [Function.update_self] at hseen ⊢
          have hquiet : ¬ r.ran = some true := by
            intro hran
            rw [if_pos hran] at hseen
            omega
          rw [if_neg hquiet, Nat.add_zero] at hseen
          rw [hw.unwritten hquiet]
          exact hmemory hseen hfence hpoisoned
        · simp only [Function.update_of_ne hpart] at hseen ⊢
          exact hmemory hseen hfence hpoisoned

theorem Sound.step (h : Sound fs view dev) (c : Call W) :
    Sound fs view (dev.step display fs c) := by
  cases c with
  | unlock partition_offset header =>
    simp only [DeviceHandle.step, DeviceHandle.unlock]
    split
    · exact h
    · exact h.mount _ _
  | open_plain partition_offset =>
    simp only [DeviceHandle.step, DeviceHandle.open_plain]
    split
    · exact h
    · split
      · exact h
      · exact h.mount _ _
  | arm id =>
    simp only [DeviceHandle.step]
    split
    · exact h
    · exact h.arm ‹_›
  | write id op cancelled =>
    simp only [DeviceHandle.step]
    split
    · exact h
    · split
      · exact h
      · exact h.write ‹_› op
  | drop id =>
    simp only [DeviceHandle.step]
    split
    · exact h
    · exact h.drop ‹_›

theorem Sound.run (h : Sound fs view dev) (calls : List (Call W)) :
    Sound fs view (dev.run display fs calls) := by
  induction calls generalizing dev with
  | nil => exact h
  | cons c rest ih => exact ih (h.step c)

theorem Attached.sound (h : dev.Attached) : Sound fs view dev where
  flag id v hv := by
    rw [h.1 id] at hv
    cases hv
  single id _ v _ hv := by
    rw [h.1 id] at hv
    cases hv
  free id _ := h.1 id
  seen_le id v hv := by
    rw [h.1 id] at hv
    cases hv
  memory id v hv := by
    rw [h.1 id] at hv
    cases hv

/-- One handle writes at most, and what it writes from is current, if it followed its partition. -/
theorem writer_up_to_date_of_followed (hattached : dev.Attached) (calls : List (Call W)) :
    (dev.run display fs calls).SingleWriter ∧
      ∀ (id : Nat) (v : Volume F D W) (op : Operation W), (dev.run display fs calls).volumes id = some v →
        (dev.run display fs calls).LetsThrough v op → (dev.run display fs calls).Followed fs view v →
          (dev.run display fs calls).UpToDate fs view v := by
  have hsound : Sound fs view (dev.run display fs calls) := hattached.sound.run calls
  refine ⟨hsound.single, fun id v op hv hlets hfollowed => hsound.memory id v hv hfollowed ?_ ?_⟩
  · have hcheck := hlets.1
    unfold VolumeHandle.check_writable at hcheck
    split at hcheck
    · cases hcheck
    · split at hcheck
      · cases hcheck
      · assumption
  · have hlock := hlets.2.1
    unfold VolumeHandle.lock_for_writing at hlock
    split at hlock
    · cases hlock
    · rename_i hpoisoned
      simpa using hpoisoned

end DeviceHandle

/-- A filesystem that is a counter, kept in memory and written back. A directory counts, nothing is there to
delete, the cable is pulled during a rename, and a new file stops between the memory and the disk. -/
def counter : Filesystem Nat Nat Unit where
  mount d := .ok d
  run op f d :=
    match op with
    | .create_directory _ _ => ⟨some (.ok ()), f + 1, f + 1, true⟩
    | .delete_file path => ⟨some (.error (.NotFound path)), f, d, false⟩
    | .rename _ _ _ _ => ⟨some (.error (.UsbTransfer "bulk OUT failed")), f + 1, d, false⟩
    | _ => ⟨some (.error (.CorruptFs "inode table pointer outside the filesystem")), f + 1, d, false⟩
  discard_active_batch f := f
  unwritten op f d h := by cases op <;> first | rfl | nomatch h
  own_errors op f d := by cases op <;> exact ⟨(fun h => nomatch h), fun _ h => nomatch h⟩

/-- Two partitions, nothing opened. -/
def stick : DeviceHandle Nat Nat Unit :=
  ⟨[⟨0, true⟩, ⟨100, true⟩], false, fun _ => 0, fun _ => 0, fun _ => none, 0⟩

/-- The first partition is unlocked twice. The first handle writes and is dropped. -/
def twice : List (Call Unit) :=
  [.unlock 0 (.ok ()), .unlock 0 (.ok ()), .write 0 (.create_directory "/" "a") false, .drop 0]

/-- Both partitions are unlocked. The handle of the second one loses its session and is dropped, the other one
makes a directory, and fails to delete what is not there. -/
def both : List (Call Unit) :=
  [.unlock 0 (.ok ()), .unlock 100 (.ok ()), .write 1 (.rename "/" "a" "/" "b") false, .drop 1,
    .write 0 (.create_directory "/" "a") false, .write 0 (.delete_file "/b") false]

theorem writer_up_to_date_alone :
    ∃ v, (stick.run (fun _ => "failed") counter both).volumes 0 = some v ∧
      (stick.run (fun _ => "failed") counter both).UpToDate counter (fun f => f) v := by
  let v : Volume Nat Nat Unit := ⟨⟨1, false, 0, true, none, true, true⟩, 1,
    [⟨.create_directory "/" "a", 0, 0⟩, ⟨.delete_file "/b", 1, 1⟩]⟩
  have hattached : stick.Attached := ⟨fun _ => rfl, rfl⟩
  have hsteady : ∀ b ∈ v.log, ¬ counter.Strays (fun f => f) b := by
    rintro b hb ⟨-, -, hahead⟩
    rcases List.mem_pair.mp hb with rfl | rfl
    · exact hahead ⟨1, rfl, rfl⟩
    · exact hahead ⟨1, rfl, rfl⟩
  exact ⟨v, rfl, (DeviceHandle.writer_up_to_date_of_followed hattached both).2 0 v (.create_directory "/" "b") rfl
    ⟨rfl, rfl, rfl, (true, v.handle), rfl⟩ ⟨rfl, hsteady⟩⟩

/-- The second handle may write then, from what it read before the first one wrote. -/
theorem twice_stale :
    ¬ ∀ (calls : List (Call Unit)) (id : Nat) (v : Volume Nat Nat Unit) (op : Operation Unit),
      (stick.run (fun _ => "failed") counter calls).volumes id = some v →
      (stick.run (fun _ => "failed") counter calls).LetsThrough v op →
        (stick.run (fun _ => "failed") counter calls).UpToDate counter (fun f => f) v := by
  intro h
  let v : Volume Nat Nat Unit := ⟨⟨0, false, 0, true, none, false, true⟩, 0, []⟩
  obtain ⟨f, hmount, hview⟩ := h twice 1 v (.delete_file "/a") rfl
    ⟨rfl, rfl, rfl, (true, { v.handle with holds_writer := true }), rfl⟩
  cases hmount
  cases hview

end LuksAndroid.Bridge

import LuksAndroid.Lib.Bytes
import LuksAndroid.Error

/-!
# Volume handles

`jni/src/bridge.rs` and `jni/src/bridge/writer.rs`: the handles that Java holds on mounted
filesystems, the fence that ends a write session, and the claim of the one writer of a
device. The filesystem under the lock is a parameter.
-/

namespace LuksAndroid.Bridge

/-! ## The filesystem -/

/-- The write operations, with writers of type `W`. -/
inductive Operation (W : Type) where
  | begin_file (size : Nat)
  | begin_file_streaming
  | write_file_chunk (writer : W) (data : Bytes) (cancel_token : Nat)
  | finish_file (writer : W) (parent_path name : String)
  | commit_active_batch
  | abandon_file (writer : W)
  | write_file (parent_path name : String) (data : Bytes)
  | delete_file (path : String)
  | create_directory (parent_path name : String)
  | rename (old_parent old_name new_parent new_name : String)

/-- Whether the operation claims the device before it touches the filesystem. A writer that exists was
begun, and that claimed it. -/
def Operation.claims {W : Type} : Operation W → Bool
  | .begin_file _ | .begin_file_streaming | .write_file _ _ _ | .delete_file _ | .create_directory _ _
  | .rename _ _ _ _ => true
  | .write_file_chunk _ _ _ | .finish_file _ _ _ | .commit_active_batch | .abandon_file _ => false

/-- `write_file_chunk` asks whether it was cancelled, before anything else. -/
def Operation.is_cancelled {W : Type} (cancelled : Bool) : Operation W → Bool
  | .write_file_chunk _ _ cancel_token => cancel_token ≠ 0 ∧ cancelled
  | _ => false

/-- What an operation did under the lock. Without a result it panicked. -/
structure Ran (F D : Type) where
  result : Option (Except LuksError Unit)
  fs : F
  disk : D
  wrote : Bool

/-- `MountedFs` on a partition: `mount` reads it, operations change both. The errors of a session are not
errors of a filesystem. -/
structure Filesystem (F D W : Type) where
  mount : D → Except LuksError F
  run : Operation W → F → D → Ran F D
  discard_active_batch : F → F
  unwritten : ∀ op f d, (run op f d).wrote = false → (run op f d).disk = d
  own_errors : ∀ op f d, (run op f d).result ≠ some (.error .SessionPoisoned) ∧
    ∀ reason, (run op f d).result ≠ some (.error (.WriteSessionFenced reason))

/-! ## The handle -/

structure VolumeHandle (F : Type) where
  fs : F
  /-- A panic happened under the lock of `fs`. -/
  poisoned : Bool
  partition_offset : Nat
  encrypted : Bool
  write_fence : Option String
  holds_writer : Bool
  plain_writes_armed : Bool

namespace VolumeHandle

variable {F D W : Type} (h : VolumeHandle F)

/-- The consent gate and the first look at the fence, before the lock. -/
def check_writable : Except LuksError Unit :=
  if ¬ h.encrypted ∧ ¬ h.plain_writes_armed then .error .ReadOnlyVolume
  else match h.write_fence with
    | some reason => .error (.WriteSessionFenced reason)
    | none => .ok ()

/-- Taking the lock, and the second look at the fence. -/
def lock_for_writing : Except LuksError Unit :=
  if h.poisoned then .error .SessionPoisoned
  else match h.write_fence with
    | some reason => .error (.WriteSessionFenced reason)
    | none => .ok ()

/-- `compare_exchange` on the flag that all volumes of the device share. -/
def claim_writer (device_writer : Bool) : Except LuksError (Bool × VolumeHandle F) :=
  if ¬ h.holds_writer then
    if device_writer then .error .WriterBusy else .ok (true, { h with holds_writer := true })
  else .ok (device_writer, h)

/-- What one lock region leaves behind: how the operation ended, and whether it got to the filesystem and wrote. -/
structure Region (F D : Type) where
  handle : VolumeHandle F
  device_writer : Bool
  disk : D
  result : Option (Except LuksError Unit)
  ran : Option Bool

/-- The body of an operation that holds the lock. A panic poisons it. -/
def operate (fs : Filesystem F D W) (op : Operation W) (device_writer : Bool) (disk : D) : Region F D :=
  let r := fs.run op h.fs disk
  ⟨{ h with fs := r.fs, poisoned := r.result.isNone }, device_writer, r.disk, r.result, some r.wrote⟩

/-- From the lock to its release. -/
def locked (fs : Filesystem F D W) (op : Operation W) (device_writer : Bool) (disk : D) : Region F D :=
  match h.lock_for_writing with
  | .error e => ⟨h, device_writer, disk, some (.error e), none⟩
  | .ok _ =>
    if op.claims then
      match h.claim_writer device_writer with
      | .error e => ⟨h, device_writer, disk, some (.error e), none⟩
      | .ok (device_writer, h) => h.operate fs op device_writer disk
    else h.operate fs op device_writer disk

/-- Latch the fence, once, and drop the active batch. -/
def fence_writes (fs : Filesystem F D W) (reason : String) : VolumeHandle F :=
  match h.write_fence with
  | some _ => h
  | none => { h with write_fence := some reason, fs := fs.discard_active_batch h.fs }

/-- Release the claim, if this handle made it. -/
def drop (device_writer : Bool) : Bool := if h.holds_writer then false else device_writer

end VolumeHandle

/-- The errors that `guarding_writes` fences on. -/
def latches : LuksError → Bool
  | .SessionPoisoned | .WriteSessionFenced _ => false
  | e => e.fences_write_session

/-! ## What a lock region can do -/

namespace VolumeHandle

variable {F D W : Type}

/-- The handle and the flag, before and after a claim that went through. -/
def Claimed (h : VolumeHandle F) (device_writer : Bool) (h' : VolumeHandle F) (device_writer' : Bool) : Prop :=
  (h' = h ∧ device_writer' = device_writer) ∨
    (h.holds_writer = false ∧ device_writer = false ∧ h' = { h with holds_writer := true } ∧ device_writer' = true)

theorem claim_writer_cases (h : VolumeHandle F) (device_writer : Bool) :
    h.claim_writer device_writer = .error .WriterBusy ∨
      ∃ h' dw', h.claim_writer device_writer = .ok (dw', h') ∧ h.Claimed device_writer h' dw' := by
  unfold claim_writer
  by_cases hholds : h.holds_writer = true
  · exact .inr ⟨h, device_writer, by simp [hholds], .inl ⟨rfl, rfl⟩⟩
  · cases device_writer with
    | true => exact .inl (by simp [hholds])
    | false => exact .inr ⟨_, true, by simp [hholds], .inr ⟨by simpa using hholds, rfl, rfl, rfl⟩⟩

theorem locked_cases (h : VolumeHandle F) (fs : Filesystem F D W) (op : Operation W) (device_writer : Bool) (disk : D) :
    (∃ e, h.locked fs op device_writer disk = ⟨h, device_writer, disk, some (.error e), none⟩ ∧ latches e = false ∧
      (e.fences_write_session = true → h.write_fence ≠ none ∨ h.poisoned = true)) ∨
    (h.write_fence = none ∧ h.poisoned = false ∧ ∃ (h' : VolumeHandle F) (dw' : Bool), h.Claimed device_writer h' dw' ∧
      h.locked fs op device_writer disk = h'.operate fs op dw' disk) := by
  unfold locked lock_for_writing
  by_cases hpoisoned : h.poisoned = true
  · exact .inl ⟨.SessionPoisoned, by simp [hpoisoned], rfl, fun _ => .inr hpoisoned⟩
  · cases hfence : h.write_fence with
    | some reason => exact .inl ⟨.WriteSessionFenced reason, by simp [hpoisoned], rfl, fun _ => .inl (by simp)⟩
    | none =>
      simp only [hpoisoned]
      by_cases hclaims : op.claims = true
      · rcases h.claim_writer_cases device_writer with hbusy | ⟨h', dw', hclaim, hclaimed⟩
        · exact .inl ⟨.WriterBusy, by simp [hclaims, hbusy], rfl, fun hf => nomatch hf⟩
        · exact .inr ⟨trivial, by simp, h', dw', hclaimed, by simp [hclaims, hclaim]⟩
      · exact .inr ⟨trivial, by simp, h, device_writer, .inl ⟨rfl, rfl⟩, by simp [hclaims]⟩

end VolumeHandle

end LuksAndroid.Bridge

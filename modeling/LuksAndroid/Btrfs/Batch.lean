import LuksAndroid.Btrfs.Txn.Converge

/-!
# Committing a batch

The commits of `core/src/fs/btrfs/write/batch.rs`. The caches of parsed nodes and the
start time are left out.
-/

namespace LuksAndroid.Btrfs

namespace Batch

/-- The tree that the batch has built. -/
def new_fs_tree (fs : Mount) (b : Batch) : TreeRoot :=
  { (b.target_tree.map (·.root)).getD fs.fs_tree with
    bytenr := b.fs_root.1, level := b.fs_root.2, generation := b.generation }

/-- What both commits hand to `converge_and_finalize`. -/
def finalize_args (fs : Mount) (b : Batch) : Finalize where
  new_generation := b.generation
  new_fs_tree := b.new_fs_tree fs
  csum_root := b.csum_root
  dev_root := none
  chunk_root := none
  extent_root := none
  pending_data := []
  data_extents_to_add := b.data_extents_to_add
  data_extents_to_remove := []

def commit (fs : Mount) (b : Batch) : Except LuksError Transaction :=
  converge_and_finalize fs (b.finalize_args fs) b.recording

/-- What `std::mem::take` leaves of the batch while the transaction is built. -/
def taken (b : Batch) : Batch :=
  { b with
    recording := { b.recording with
      blocks_to_add := [], blocks_to_remove := [], pending_blocks := .empty }
    data_extents_to_add := [] }

def rearmed (b : Batch) (txn : Transaction) : Batch :=
  let root := (txn.new_fs_tree.bytenr, txn.new_fs_tree.level)
  { b.taken with
    generation := txn.new_generation
    recording := { b.taken.recording with allocator := unpin_freed txn.final_allocator }
    fs_root := root
    csum_root := none
    target := b.target.map fun (t, next_ino) =>
      (t.update_root txn.new_fs_tree.bytenr txn.new_fs_tree.level txn.new_generation, next_ino)
    handed_out := ⟨[]⟩
    accumulated_files := 0
    accumulated_data_bytes := 0 }

/-- The result, and the batch after the call. -/
def commit_and_rearm (fs : Mount) (b : Batch) : Except LuksError Transaction × Batch :=
  match converge_and_finalize fs (b.finalize_args fs) b.recording with
  | .error e => (.error e, b.taken)
  | .ok txn => (.ok txn, b.rearmed txn)

/-! ## A commit that fails -/

/-- Nothing waits to be recorded or written. -/
structure Idle (b : Batch) : Prop where
  pending_blocks : b.recording.pending_blocks = .empty
  blocks_to_add : b.recording.blocks_to_add = []
  blocks_to_remove : b.recording.blocks_to_remove = []
  data_extents_to_add : b.data_extents_to_add = []

theorem taken_eq_self_iff (b : Batch) : b.taken = b ↔ b.Idle := by
  obtain ⟨generation, ⟨add, remove, allocator, pending⟩, fs_root, csum_root, extents, rest⟩ := b
  constructor
  · intro h
    simp only [taken, mk.injEq, Recording.mk.injEq] at h
    obtain ⟨-, ⟨hadd, hremove, -, hpending⟩, -, -, hextents, -⟩ := h
    exact ⟨hpending.symm, hadd.symm, hremove.symm, hextents.symm⟩
  · rintro ⟨hpending, hadd, hremove, hextents⟩
    simp only at hpending hadd hremove hextents
    simp only [taken, hpending, hadd, hremove, hextents]

theorem commit_and_rearm_error {fs : Mount} {b b' : Batch} {e : LuksError}
    (h : b.commit_and_rearm fs = (.error e, b')) : b' = b.taken := by
  unfold commit_and_rearm at h
  split at h
  · cases h
    rfl
  · cases h

/-- A mount whose drive does not answer any more. -/
def unplugged (sb : Superblock) : Mount where
  device _ := .error .OutOfBounds
  sb := sb
  chunks := ⟨[]⟩
  fs_tree_root := ⟨FS_TREE_OBJECTID, 0, 0, 256, 0, 0⟩
  active_batch := none
  has_open_writer := false

theorem commit_and_rearm_unplugged (sb : Superblock) (b : Batch) :
    b.commit_and_rearm (unplugged sb) = (.error .OutOfBounds, b.taken) := rfl

/-- A commit that fails leaves the batch as it was exactly when the batch was idle: everything that
waits is moved out before the transaction is built, and only the allocator is kept. -/
theorem commit_and_rearm_keeps_iff (b : Batch) :
    (∀ fs e b', b.commit_and_rearm fs = (.error e, b') → b' = b) ↔ b.Idle := by
  rw [← taken_eq_self_iff]
  constructor
  · intro h
    exact h (unplugged ⟨[], 0, 0, 0, 0, 0, 0, 0, 0, 0, 0, 0, 0, 0, 0, 0, 0, .Crc32c, 0, 0, "", [], []⟩) _ _
      (commit_and_rearm_unplugged _ b)
  · intro htaken fs e b' h
    exact (commit_and_rearm_error h).trans htaken

/-- A batch with one new leaf. -/
def oneLeaf : Batch where
  generation := 8
  recording := ⟨[(1048576, 0, FS_TREE_OBJECTID)], [(65536, 0, FS_TREE_OBJECTID)], ⟨[]⟩,
    Pending.empty.insert 1048576 (.leaf ⟨1048576, 8, FS_TREE_OBJECTID, HEADER_FLAG_WRITTEN, [], [], []⟩)⟩
  fs_root := (1048576, 0)
  csum_root := none
  data_extents_to_add := []
  target := none
  next_dir_index := []
  parents := []
  handed_out := ⟨[]⟩
  accumulated_files := 1
  accumulated_data_bytes := 0

/-- The drive is unplugged before the commit: the leaf and its record are gone from the batch. -/
theorem commit_and_rearm_loses_leaf :
    ∃ fs e b', oneLeaf.commit_and_rearm fs = (.error e, b') ∧ b' ≠ oneLeaf ∧
      b'.recording.pending_blocks.get 1048576 = none ∧ b'.recording.blocks_to_add = [] := by
  refine ⟨unplugged ⟨[], 0, 7, 0, 0, 0, 0, 0, 0, 0, 1, 1, 4096, 16384, 0, 0, 0, .Crc32c, 0, 0, "", [], []⟩,
    .OutOfBounds,
    oneLeaf.taken, rfl, ?_, rfl, rfl⟩
  intro h
  have := congrArg (·.recording.blocks_to_add.length) h
  cases this

end Batch

end LuksAndroid.Btrfs

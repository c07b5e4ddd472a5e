import LuksAndroid.Btrfs.IntervalSet
import LuksAndroid.Btrfs.Cow.Code
import LuksAndroid.Btrfs.Cursor.Code
import LuksAndroid.Lib.Utf8

/-!
# The mounted filesystem

The state of `core/src/fs/btrfs/mod.rs`, the tree handles of
`core/src/fs/btrfs/write/target.rs`, the batch of
`core/src/fs/btrfs/write/batch.rs`, and the refusals of
`core/src/fs/btrfs/write/gate.rs`. A Rust string is its bytes. The node caches are
left out: they only save reads.
-/

namespace LuksAndroid.Btrfs

inductive CsumType where
  | Crc32c
  | Sha256
deriving DecidableEq, Repr

def CsumType.size : CsumType → Nat
  | Crc32c => 4
  | Sha256 => 32

structure Superblock where
  fsid : Bytes
  bytenr : Nat
  generation : Nat
  root : Nat
  chunk_root : Nat
  chunk_root_generation : Nat
  log_root : Nat
  total_bytes : Nat
  bytes_used : Nat
  root_dir_objectid : Nat
  num_devices : Nat
  dev_id : Nat
  sector_size : Nat
  node_size : Nat
  stripe_size : Nat
  incompat_flags : Nat
  compat_ro_flags : Nat
  csum_type : CsumType
  root_level : Nat
  chunk_root_level : Nat
  label : String
  metadata_uuid : Bytes
  sys_chunk_array : Bytes
deriving DecidableEq, Repr

def INCOMPAT_SKINNY_METADATA : Nat := 0x100
def BTRFS_FEATURE_COMPAT_RO_FREE_SPACE_TREE : Nat := 0x1
def BTRFS_FEATURE_COMPAT_RO_FREE_SPACE_TREE_VALID : Nat := 0x2

def Superblock.has_skinny_metadata (sb : Superblock) : Bool :=
  sb.incompat_flags &&& INCOMPAT_SKINNY_METADATA ≠ 0

/-! ## Tree handles -/

structure TreeRoot where
  objectid : Nat
  bytenr : Nat
  level : Nat
  root_dirid : Nat
  generation : Nat
  flags : Nat
deriving DecidableEq, Repr

structure TargetTree where
  objectid : Nat
  root : TreeRoot
deriving DecidableEq, Repr

namespace TargetTree

def new (root : TreeRoot) : TargetTree := ⟨root.objectid, root⟩

def bytenr (t : TargetTree) : Nat := t.root.bytenr

def level (t : TargetTree) : Nat := t.root.level

def root_dirid (t : TargetTree) : Nat := t.root.root_dirid

def update_root (t : TargetTree) (bytenr level generation : Nat) : TargetTree :=
  { t with root := { t.root with bytenr, level, generation } }

end TargetTree

/-! ## Batches -/

/-- The fields that a transaction also has are kept together in `recording`. -/
structure Batch where
  generation : Nat
  recording : Recording
  fs_root : Nat × Nat
  csum_root : Option (Nat × Nat)
  data_extents_to_add : List (Nat × Nat × Nat × Nat × Nat)
  target : Option (TargetTree × Nat)
  next_dir_index : List (Nat × Nat)
  parents : List (Bytes × Nat × Nat × Nat)
  handed_out : IntervalSet
  accumulated_files : Nat
  accumulated_data_bytes : Nat

def Batch.target_tree (b : Batch) : Option TargetTree := b.target.map Prod.fst

/-! ## The filesystem -/

/-- The struct `Btrfs`. -/
structure Mount where
  device : Nat → Except LuksError Node
  sb : Superblock
  chunks : ChunkMap
  fs_tree_root : TreeRoot
  active_batch : Option Batch
  has_open_writer : Bool

namespace Mount

/-- The blocks as a reader of this mount sees them: those of an open batch first. -/
def blocks (fs : Mount) (logical : Nat) : Except LuksError Node :=
  match fs.active_batch.bind fun b => b.recording.pending_blocks.get logical with
  | some raw => .ok raw
  | none => fs.device logical

def view (fs : Mount) : BtrfsView := ⟨fs.sb.node_size, fs.sb.metadata_uuid, fs.blocks⟩

def read_node (fs : Mount) : Reader := fs.view.read_node

def fs_tree (fs : Mount) : TreeRoot :=
  match fs.active_batch with
  | some batch =>
    if batch.target_tree.all fun t => t.objectid = FS_TREE_OBJECTID then
      { fs.fs_tree_root with
        bytenr := batch.fs_root.1, level := batch.fs_root.2, generation := batch.generation }
    else fs.fs_tree_root
  | none => fs.fs_tree_root

end Mount

/-! ## Refusals -/

def to_hex (n : Nat) : String := String.ofList (Nat.toDigits 16 n)

def SUPPORTED_WRITE_COMPAT_RO : Nat :=
  BTRFS_FEATURE_COMPAT_RO_FREE_SPACE_TREE ||| BTRFS_FEATURE_COMPAT_RO_FREE_SPACE_TREE_VALID

def check_writeable_fs (sb : Superblock) : Except LuksError Unit := do
  if sb.log_root ≠ 0 then throw .FsNeedsRecovery
  if ¬ sb.has_skinny_metadata then throw (.UnsupportedFsFeature "btrfs non-skinny metadata")
  let unsupported_compat_ro := sb.compat_ro_flags &&& (2 ^ 64 - 1 - SUPPORTED_WRITE_COMPAT_RO)
  if unsupported_compat_ro ≠ 0 then
    throw (.UnsupportedFsFeature
      ("btrfs unsupported compat_ro flags: 0x" ++ to_hex unsupported_compat_ro))
  if sb.num_devices ≠ 1 then
    throw (.UnsupportedFsFeature ("btrfs spanning " ++ toString sb.num_devices ++ " devices"))
  if sb.csum_type ≠ .Crc32c then
    throw (.UnsupportedFsFeature
      "btrfs write on Sha256 checksums (read is supported; only crc32c can be written)")

end LuksAndroid.Btrfs

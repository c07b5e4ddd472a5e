import LuksAndroid.Crc32c
import LuksAndroid.Device
import LuksAndroid.FileType
import LuksAndroid.Lib.Bits
import LuksAndroid.Lib.Word

/-!
# The mounted ext4 filesystem

The superblock, the group descriptors and the checksum seed of
`core/src/fs/ext4/mod.rs` and `core/src/fs/ext4/csum.rs`, and the state that every
call works on. A call ends with an error of its own, or with a panic, or it never
ends. Plain arithmetic wraps.
-/

namespace LuksAndroid.Ext4

open Word

def SUPERBLOCK_OFFSET : Nat := 1024
def EXT4_MAGIC : Nat := 0xEF53
def EXTENT_MAGIC : Nat := 0xF30A
def ROOT_INODE : Nat := 2

def INCOMPAT_FILETYPE : Nat := 0x0002
def INCOMPAT_RECOVER : Nat := 0x0004
def INCOMPAT_JOURNAL_DEV : Nat := 0x0008
def INCOMPAT_META_BG : Nat := 0x0010
def INCOMPAT_EXTENTS : Nat := 0x0040
def INCOMPAT_64BIT : Nat := 0x0080
def INCOMPAT_CSUM_SEED : Nat := 0x2000
def INCOMPAT_INLINE_DATA : Nat := 0x8000
def INCOMPAT_ENCRYPT : Nat := 0x10000

def RO_COMPAT_SPARSE_SUPER : Nat := 0x0001
def RO_COMPAT_GDT_CSUM : Nat := 0x0010
def RO_COMPAT_QUOTA : Nat := 0x0100
def RO_COMPAT_BIGALLOC : Nat := 0x0200
def RO_COMPAT_METADATA_CSUM : Nat := 0x0400

def COMPAT_RESIZE_INODE : Nat := 0x0010

def STATE_CLEANLY_UNMOUNTED : Nat := 0x0001
def STATE_ERRORS_SEEN : Nat := 0x0002

def SB_BLOCKS_COUNT_HI : Nat := 0x150
def SB_FREE_BLOCKS_COUNT_HI : Nat := 0x158
def SB_MIN_EXTRA_ISIZE : Nat := 0x15C

def BG_INODE_UNINIT : Nat := 0x0001
def BG_BLOCK_UNINIT : Nat := 0x0002

def INODE_FL_EXTENTS : Nat := 0x00080000
def INODE_FL_INLINE_DATA : Nat := 0x10000000

/-- Whether one of the bits of `flag` is set. -/
def has (flags flag : Nat) : Bool := flags &&& flag ≠ 0

/-! ## The superblock -/

structure Superblock where
  inodes_count : Nat
  blocks_count : Nat
  first_data_block : Nat
  block_size : Nat
  blocks_per_group : Nat
  inodes_per_group : Nat
  inode_size : Nat
  feature_incompat : Nat
  feature_ro_compat : Nat
  desc_size : Nat
  uuid : Bytes
  free_blocks_count : Nat
  free_inodes_count : Nat
  clusters_per_group : Nat
  first_ino : Nat
  checksum_seed : Option Nat
  min_extra_isize : Nat
  state : Nat
  reserved_gdt_blocks : Nat
deriving DecidableEq, Repr

namespace Superblock

def parse (b : Bytes) : Except LuksError Superblock := do
  let magic := b.get 56 2
  if magic ≠ EXT4_MAGIC then throw (.NotExt4 magic)
  let log_block_size := b.get 24 4
  if log_block_size > 6 then throw (.CorruptFs "implausible block size")
  let dynamic : Bool := b.get 76 4 ≥ 1
  let feature_compat := if dynamic then b.get 92 4 else 0
  let feature_incompat := if dynamic then b.get 96 4 else 0
  let inode_size := if dynamic then b.get 88 2 else 128
  if inode_size < 128 then throw (.CorruptFs "inode size below 128")
  let high := fun offset => if has feature_incompat INCOMPAT_64BIT then b.get offset 4 * 2 ^ 32 else 0
  let inodes_per_group := b.get 40 4
  let blocks_per_group := b.get 32 4
  if inodes_per_group = 0 ∨ blocks_per_group = 0 then
    throw (.CorruptFs "zero inodes or blocks per group")
  return {
    inodes_count := b.get 0 4
    blocks_count := b.get 4 4 + high SB_BLOCKS_COUNT_HI
    first_data_block := b.get 20 4
    block_size := 1024 * 2 ^ log_block_size
    blocks_per_group
    inodes_per_group
    inode_size
    feature_incompat
    feature_ro_compat := if dynamic then b.get 100 4 else 0
    desc_size := if dynamic then b.get 254 2 else 0
    uuid := b.slice 104 16
    free_blocks_count := b.get 12 4 + high SB_FREE_BLOCKS_COUNT_HI
    free_inodes_count := b.get 16 4
    clusters_per_group := if b.get 36 4 = 0 then blocks_per_group else b.get 36 4
    first_ino := if dynamic then b.get 84 4 else 11
    checksum_seed := if has feature_incompat INCOMPAT_CSUM_SEED then some (b.get 0x270 4) else none
    min_extra_isize := if dynamic then b.get SB_MIN_EXTRA_ISIZE 2 else 0
    state := b.get 0x3A 2
    reserved_gdt_blocks := if has feature_compat COMPAT_RESIZE_INODE then b.get 206 2 else 0 }

def is_64bit (sb : Superblock) : Bool := has sb.feature_incompat INCOMPAT_64BIT

def group_first_block (sb : Superblock) (group : Nat) : Nat :=
  wrapping_add (wrapping_mul group sb.blocks_per_group) sb.first_data_block

/-- Divide as long as it goes. The quotient of a power is 1. -/
def strip_factor (p : Nat) : Nat → Nat → Nat
  | 0, n => n
  | fuel + 1, n => if n % p = 0 then strip_factor p fuel (n / p) else n

def group_has_super (sb : Superblock) (group : Nat) : Bool :=
  group ≤ 1 ∨ ¬ has sb.feature_ro_compat RO_COMPAT_SPARSE_SUPER ∨ strip_factor 3 64 group = 1 ∨
    strip_factor 5 64 group = 1 ∨ strip_factor 7 64 group = 1

def has_metadata_csum (sb : Superblock) : Bool := has sb.feature_ro_compat RO_COMPAT_METADATA_CSUM

def has_gdt_csum_only (sb : Superblock) : Bool :=
  has sb.feature_ro_compat RO_COMPAT_GDT_CSUM ∧ ¬ sb.has_metadata_csum

def group_desc_size (sb : Superblock) : Nat :=
  if sb.is_64bit ∧ sb.desc_size ≥ 64 then sb.desc_size else 32

def group_count (sb : Superblock) : Nat :=
  div_ceil (wrapping_sub sb.blocks_count sb.first_data_block) sb.blocks_per_group

def group_desc_offset (sb : Superblock) : Nat := (sb.first_data_block + 1) * sb.block_size

end Superblock

/-! ## Group descriptors -/

structure GroupDesc where
  block_bitmap : Nat
  inode_bitmap : Nat
  inode_table : Nat
  free_blocks_count : Nat
  free_inodes_count : Nat
  used_dirs_count : Nat
  flags : Nat
  itable_unused : Nat
  checksum : Nat
  block_bitmap_csum : Nat
  inode_bitmap_csum : Nat
deriving DecidableEq, Repr

namespace GroupDesc

/-- The high halves are those of a descriptor of at least 64 bytes. -/
def parse (d : Bytes) : GroupDesc :=
  let hi16 := fun offset => if d.length ≥ 64 then d.get offset 2 * 2 ^ 16 else 0
  let hi32 := fun offset => if d.length ≥ 64 then d.get offset 4 * 2 ^ 32 else 0
  { block_bitmap := d.get 0x00 4 + hi32 0x20
    inode_bitmap := d.get 0x04 4 + hi32 0x24
    inode_table := d.get 0x08 4 + hi32 0x28
    free_blocks_count := d.get 0x0C 2 + hi16 0x2C
    free_inodes_count := d.get 0x0E 2 + hi16 0x2E
    used_dirs_count := d.get 0x10 2 + hi16 0x30
    flags := d.get 0x12 2
    block_bitmap_csum := d.get 0x18 2 + hi16 0x38
    inode_bitmap_csum := d.get 0x1A 2 + hi16 0x3A
    itable_unused := d.get 0x1C 2 + hi16 0x32
    checksum := d.get 0x1E 2 }

def block_bitmap_uninit (g : GroupDesc) : Bool := has g.flags BG_BLOCK_UNINIT

def inode_bitmap_uninit (g : GroupDesc) : Bool := has g.flags BG_INODE_UNINIT

end GroupDesc

/-! ## Runs -/

/-- How a call ends when it does not return. -/
inductive Halt where
  | err (e : LuksError)
  | panic
  | spin
deriving DecidableEq, Repr

/-- The struct `Ext4`, and the device with its record. -/
structure Mount (σ : Type) where
  sb : Superblock
  groups : List GroupDesc
  io : Io σ

abbrev FsM (σ : Type) := EStateM Halt (Mount σ)

variable {σ α : Type}

def fail (e : LuksError) : FsM σ α := throw (.err e)

def panicked : FsM σ α := throw .panic

def check (x : Except LuksError α) : FsM σ α :=
  match x with
  | .ok a => pure a
  | .error e => fail e

/-- The result of a call, as a value. A panic is not one. -/
def attempt (x : FsM σ α) : FsM σ (Except LuksError α) := fun fs =>
  match x fs with
  | .ok a fs => .ok (.ok a) fs
  | .error (.err e) fs => .ok (.error e) fs
  | .error h fs => .error h fs

/-- `let _ = x`. -/
def ignore (x : FsM σ α) : FsM σ Unit := do
  let _ ← attempt x

/-- Something asked of the device. -/
def device (x : IoM σ α) : FsM σ α := fun fs =>
  match x fs.io with
  | .ok a io => .ok a { fs with io }
  | .error e io => .error (.err e) { fs with io }

def read_at (d : WriteAt σ) (offset n : Nat) : FsM σ Bytes := device (d.toReadAt.read offset n)

def write_at (d : WriteAt σ) (offset : Nat) (data : Bytes) : FsM σ Unit := device (d.write offset data)

def flush (d : WriteAt σ) : FsM σ Unit := device d.sync

/-! ## Checksums -/

structure Seed where
  seed : Nat
  enabled : Bool
deriving DecidableEq, Repr

def DIR_TAIL_SIZE : Nat := 12
def BG_CHECKSUM_OFFSET : Nat := 0x1E
def SB_CHECKSUM_OFFSET : Nat := 0x3FC
def INODE_CSUM_LO_OFFSET : Nat := 0x7C
def INODE_CSUM_HI_OFFSET : Nat := 0x82

namespace Seed

def of (sb : Superblock) : Seed where
  seed := sb.checksum_seed.getD (crc32c_seed 0xFFFFFFFF sb.uuid)
  enabled := sb.has_metadata_csum

def refuse (what : String) : LuksError :=
  .UnsupportedFsFeature (what ++ " — this filesystem can be read but not written")

/-- The write gate. -/
def for_writing (sb : Superblock) : Except LuksError Seed := do
  if sb.has_gdt_csum_only then throw (refuse "gdt_csum group descriptors (crc16)")
  if has sb.feature_ro_compat RO_COMPAT_BIGALLOC then throw (refuse "bigalloc (cluster-based allocation)")
  if has sb.feature_incompat INCOMPAT_INLINE_DATA then throw (refuse "inline_data")
  if ¬ has sb.feature_incompat INCOMPAT_FILETYPE then
    throw (refuse "a directory format without file types (no filetype feature)")
  if ¬ has sb.feature_incompat INCOMPAT_EXTENTS then
    throw (refuse "an indirect-block filesystem (no extents feature; ext2/ext3)")
  if has sb.feature_ro_compat RO_COMPAT_QUOTA then throw (refuse "quota tracking")
  if ¬ has sb.state STATE_CLEANLY_UNMOUNTED then throw (refuse "a filesystem that was not cleanly unmounted")
  if has sb.state STATE_ERRORS_SEEN then throw (refuse "a filesystem with recorded errors (run e2fsck)")
  return Seed.of sb

def superblock (s : Seed) (sb_bytes : Bytes) : Option Nat :=
  if s.enabled then some (crc32c_seed 0xFFFFFFFF (sb_bytes.take SB_CHECKSUM_OFFSET)) else none

def group_desc (s : Seed) (group : Nat) (desc : Bytes) : Option Nat :=
  if s.enabled then
    let crc := crc32c_seed s.seed (Bytes.le 4 group)
    let crc := crc32c_seed crc (desc.take BG_CHECKSUM_OFFSET)
    let crc := crc32c_seed crc [0, 0]
    let crc := crc32c_seed crc (desc.drop (BG_CHECKSUM_OFFSET + 2))
    some (crc % 2 ^ 16)
  else none

def bitmap (s : Seed) (bitmap : Bytes) : Option Nat :=
  if s.enabled then some (crc32c_seed s.seed bitmap) else none

def inode_has_csum_hi (raw : Bytes) : Bool :=
  raw.length ≥ 130 ∧ 128 + raw.get 128 2 ≥ INODE_CSUM_HI_OFFSET + 2

/-- A record of 130 or 131 bytes has no room for the high half that its extra size announces. -/
def inode (s : Seed) (ino : Nat) (raw : Bytes) : FsM σ (Option Nat) := do
  if ¬ s.enabled then return none
  let crc := crc32c_seed s.seed (Bytes.le 4 ino)
  let crc := crc32c_seed crc (Bytes.le 4 (raw.get 100 4))
  let copy := raw.put INODE_CSUM_LO_OFFSET [0, 0]
  if inode_has_csum_hi raw then
    if raw.length < INODE_CSUM_HI_OFFSET + 2 then panicked
    return some (crc32c_seed crc (copy.put INODE_CSUM_HI_OFFSET [0, 0]))
  return some (crc32c_seed crc copy)

def dir_block (s : Seed) (dir_ino dir_generation : Nat) (block : Bytes) : Option Nat :=
  if ¬ s.enabled ∨ block.length < DIR_TAIL_SIZE then none
  else
    let crc := crc32c_seed s.seed (Bytes.le 4 dir_ino)
    let crc := crc32c_seed crc (Bytes.le 4 dir_generation)
    some (crc32c_seed crc (block.take (block.length - DIR_TAIL_SIZE)))

def extent_block (s : Seed) (ino generation : Nat) (block : Bytes) : Option Nat :=
  if ¬ s.enabled ∨ block.length < 4 then none
  else
    let crc := crc32c_seed s.seed (Bytes.le 4 ino)
    let crc := crc32c_seed crc (Bytes.le 4 generation)
    some (crc32c_seed crc (block.take (block.length - 4)))

end Seed

/-! ## Mounting -/

def read_group_descriptors (d : ReadAt σ) (sb : Superblock) : IoM σ (List GroupDesc) := do
  let count := sb.group_count
  let desc_size := sb.group_desc_size
  match checked_mul count desc_size with
  | none => throw (.CorruptFs "group descriptor table too large")
  | some total =>
    let buf ← d.read sb.group_desc_offset total
    return (List.range count).map fun g => GroupDesc.parse (buf.slice (g * desc_size) desc_size)

def mount (d : ReadAt σ) : IoM σ (Superblock × List GroupDesc) := do
  let sb_buf ← d.read SUPERBLOCK_OFFSET 1024
  let sb ← IoM.lift (Superblock.parse sb_buf)
  if has sb.feature_incompat INCOMPAT_RECOVER then throw .FsNeedsRecovery
  if has sb.feature_incompat INCOMPAT_ENCRYPT then
    throw (.UnsupportedFsFeature "fscrypt per-file encryption")
  if has sb.feature_incompat INCOMPAT_JOURNAL_DEV then
    throw (.UnsupportedFsFeature "external journal device")
  if has sb.feature_incompat INCOMPAT_META_BG then throw (.UnsupportedFsFeature "meta_bg layout")
  let groups ← read_group_descriptors d sb
  return (sb, groups)

end LuksAndroid.Ext4

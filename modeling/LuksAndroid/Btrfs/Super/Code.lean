import LuksAndroid.Btrfs.Txn.Converge
import LuksAndroid.Crc32c
import LuksAndroid.Device

/-!
# Superblock copies and the commit

`core/src/fs/btrfs/superblock.rs` and `core/src/fs/btrfs/write/commit.rs`. The digest of
the `sha2` crate and the lossy text decoder are parameters.
-/

namespace LuksAndroid.Btrfs

open Word

/-- `_BHRfS_M`. -/
def MAGIC : Bytes := [0x5F, 0x42, 0x48, 0x52, 0x66, 0x53, 0x5F, 0x4D]

def SUPER_OFFSETS : List Nat := [0x10000, 0x4000000, 0x4000000000]

def SUPER_SIZE : Nat := 4096

def BTRFS_SYSTEM_CHUNK_ARRAY_SIZE : Nat := 2048

def CSUM_START : Nat := 32

/-! ## Feature flags -/

def INCOMPAT_RAID56 : Nat := 0x80
def INCOMPAT_METADATA_UUID : Nat := 0x400
def INCOMPAT_ZONED : Nat := 0x1000
def INCOMPAT_EXTENT_TREE_V2 : Nat := 0x2000
def INCOMPAT_RAID_STRIPE_TREE : Nat := 0x4000

/-- Mixed backrefs, default subvolume, mixed groups, LZO, ZSTD, big metadata, extended refs, skinny
metadata, no holes, metadata uuid, RAID1C34 and simple quotas. -/
def SUPPORTED_INCOMPAT : Nat := 0x8F7F

def named_incompat : List (Nat × String) :=
  [(INCOMPAT_RAID56, "RAID5/6"), (INCOMPAT_ZONED, "zoned devices"),
    (INCOMPAT_EXTENT_TREE_V2, "extent tree v2"), (INCOMPAT_RAID_STRIPE_TREE, "raid stripe tree")]

def describe_incompat (bits : Nat) : String :=
  let parts := (named_incompat.filter fun n => bits &&& n.1 ≠ 0).map (·.2)
  let leftover := bits &&& (size - 1 - (named_incompat.map (·.1)).sum)
  let parts := if leftover ≠ 0 then parts ++ ["unknown incompat flags 0x" ++ to_hex leftover] else parts
  "btrfs " ++ ", ".intercalate parts

/-! ## Checksums -/

/-- SHA-256, as far as its digest is 32 bytes long. -/
structure Digest where
  digest : Bytes → Bytes
  length_digest : ∀ b, (digest b).length = 32

namespace CsumType

def from_raw (raw : Nat) : Except LuksError CsumType :=
  match raw with
  | 0 => .ok .Crc32c
  | 2 => .ok .Sha256
  | 1 => .error (.UnsupportedFsFeature "btrfs xxhash64 checksums")
  | 3 => .error (.UnsupportedFsFeature "btrfs blake2b checksums")
  | other => .error (.UnsupportedFsFeature ("btrfs checksum type " ++ toString other))

def verify (sha256 : Digest) (t : CsumType) (stored data : Bytes) : Bool :=
  match t with
  | Crc32c => crc32c data = stored.get 0 4
  | Sha256 => sha256.digest data = stored.slice 0 32

def calculate (sha256 : Digest) (t : CsumType) (data : Bytes) : Bytes :=
  match t with
  | Crc32c => Bytes.le 4 (crc32c data) ++ List.replicate 28 0
  | Sha256 => sha256.digest data

end CsumType

/-! ## One copy -/

def LABEL_OFFSET : Nat := 0x12b
def SYS_CHUNK_ARRAY_OFFSET : Nat := 0x32b

/-- The label field up to its first zero byte. -/
def label_bytes (b : Bytes) : Bytes := (b.slice LABEL_OFFSET 256).takeWhile (· ≠ 0)

def uuid_of (incompat_flags : Nat) (b : Bytes) : Bytes :=
  if incompat_flags &&& INCOMPAT_METADATA_UUID ≠ 0 then b.slice 0x23b 16 else b.slice 0x20 16

namespace Superblock

variable (sha256 : Digest) (from_utf8_lossy : Bytes → String)

/-- The checks of `parse` on a whole copy, in order. -/
def check_copy (b : Bytes) (offset : Nat) : Except LuksError CsumType := do
  if b.slice 0x40 8 ≠ MAGIC then throw (.NotBtrfs (b.slice 0x40 8))
  let csum_type ← CsumType.from_raw (b.get 0xc4 2)
  if ¬ csum_type.verify sha256 (b.take 32) (b.drop CSUM_START) then
    throw (.FsChecksumMismatch "btrfs superblock")
  if b.get 0x30 8 ≠ offset then throw (.CorruptFs "btrfs superblock is not where it says it is")
  let sector_size := b.get 0x90 4
  let node_size := b.get 0x94 4
  if ¬ is_power_of_two sector_size ∨ sector_size < 512 ∨ sector_size > 65536 then
    throw (.CorruptFs "implausible btrfs sector size")
  if ¬ is_power_of_two node_size ∨ node_size < sector_size ∨ node_size > 65536 then
    throw (.CorruptFs "implausible btrfs node size")
  let unsupported := b.get 0xbc 8 &&& (size - 1 - SUPPORTED_INCOMPAT)
  if unsupported ≠ 0 then throw (.UnsupportedFsFeature (describe_incompat unsupported))
  let num_devices := b.get 0x88 8
  if num_devices ≠ 1 then
    throw (.UnsupportedFsFeature ("btrfs spanning " ++ toString num_devices ++ " devices"))
  if b.get 0xa0 4 > BTRFS_SYSTEM_CHUNK_ARRAY_SIZE then
    throw (.CorruptFs "btrfs sys_chunk_array overruns")
  return csum_type

/-- The fields of a copy. -/
def fields_of (b : Bytes) (csum_type : CsumType) : Superblock where
  fsid := b.slice 0x20 16
  bytenr := b.get 0x30 8
  generation := b.get 0x48 8
  root := b.get 0x50 8
  chunk_root := b.get 0x58 8
  chunk_root_generation := b.get 0xa4 8
  log_root := b.get 0x60 8
  total_bytes := b.get 0x70 8
  bytes_used := b.get 0x78 8
  root_dir_objectid := b.get 0x80 8
  num_devices := b.get 0x88 8
  dev_id := b.get 0xc9 8
  sector_size := b.get 0x90 4
  node_size := b.get 0x94 4
  stripe_size := b.get 0x9c 4
  incompat_flags := b.get 0xbc 8
  compat_ro_flags := b.get 0xb4 8
  csum_type := csum_type
  root_level := b.get 0xc6 1
  chunk_root_level := b.get 0xc7 1
  label := from_utf8_lossy (label_bytes b)
  metadata_uuid := uuid_of (b.get 0xbc 8) b
  sys_chunk_array := b.slice SYS_CHUNK_ARRAY_OFFSET (b.get 0xa0 4)

def parse (raw : Bytes) (offset : Nat) : Except LuksError Superblock := do
  if raw.length < SUPER_SIZE then throw (.Truncated SUPER_SIZE raw.length)
  let b : Bytes := raw.take SUPER_SIZE
  let csum_type ← check_copy sha256 b offset
  return fields_of from_utf8_lossy b csum_type

/-- The fields that `emit_copy` writes over the template, in its order. -/
def emitted_fields (sb : Superblock) (bytenr : Nat) : List (Nat × Bytes) :=
  [(0x40, MAGIC), (0x30, Bytes.le 8 bytenr), (0x48, Bytes.le 8 sb.generation),
    (0x50, Bytes.le 8 sb.root), (0x58, Bytes.le 8 sb.chunk_root), (0x60, Bytes.le 8 sb.log_root),
    (0x70, Bytes.le 8 sb.total_bytes), (0x78, Bytes.le 8 sb.bytes_used),
    (0x80, Bytes.le 8 sb.root_dir_objectid), (0x88, Bytes.le 8 sb.num_devices),
    (0x90, Bytes.le 4 sb.sector_size), (0x94, Bytes.le 4 sb.node_size),
    (0x98, Bytes.le 4 sb.node_size), (0x9c, Bytes.le 4 sb.stripe_size),
    (0xa4, Bytes.le 8 sb.chunk_root_generation), (0xb4, Bytes.le 8 sb.compat_ro_flags),
    (0xbc, Bytes.le 8 sb.incompat_flags), (0xc6, Bytes.le 1 sb.root_level),
    (0xc7, Bytes.le 1 sb.chunk_root_level)]

/-- The template, cut or padded to the size of a copy. -/
def template_buf (raw_template : Bytes) : Bytes :=
  raw_template.take SUPER_SIZE ++ List.replicate (SUPER_SIZE - raw_template.length) 0

def emit_copy (sb : Superblock) (raw_template : Bytes) (bytenr : Nat) : Bytes :=
  let buf := (template_buf raw_template).patch (sb.emitted_fields bytenr)
  buf.put 0 (sb.csum_type.calculate sha256 (buf.drop CSUM_START))

/-! ## All copies -/

variable {σ : Type}

/-- Whether the device is long enough for the copy at `offset`. An unknown length is. -/
def copy_exists (device_len : Option Nat) (offset : Nat) : Bool :=
  device_len.all fun len => offset + SUPER_SIZE ≤ len

/-- The loop over the copies: the newest one so far, and the first error. -/
def find_loop (d : ReadAt σ) : List Nat → Option Superblock → Option LuksError →
    IoM σ (Option Superblock × Option LuksError)
  | [], best, first_error => return (best, first_error)
  | offset :: rest, best, first_error => do
    if ¬ copy_exists d.len offset then find_loop d rest best first_error
    else
      match ← (d.read offset SUPER_SIZE).ok with
      | none => find_loop d rest best first_error
      | some buf =>
        match parse sha256 from_utf8_lossy buf offset with
        | .ok sb =>
          if best.all fun b => sb.generation > b.generation then find_loop d rest (some sb) first_error
          else find_loop d rest best first_error
        | .error e => find_loop d rest best (first_error.or (some e))

def find (d : ReadAt σ) : IoM σ Superblock := do
  match ← find_loop sha256 from_utf8_lossy d SUPER_OFFSETS none none with
  | (some best, _) => return best
  | (none, first_error) => throw (first_error.getD (.NotBtrfs (List.replicate 8 0)))

end Superblock

/-! ## The commit -/

variable {σ : Type}

def write_stripes (d : WriteAt σ) (raw : Bytes) : List Nat → IoM σ Unit
  | [] => return ()
  | phys :: rest => do
    d.write phys raw
    write_stripes d raw rest

def write_blocks (d : WriteAt σ) (chunks : ChunkMap) : List (Nat × Bytes) → IoM σ Unit
  | [] => return ()
  | (bytenr, raw) :: rest => do
    let stripes ← IoM.lift (chunks.map_all_stripes bytenr)
    write_stripes d raw stripes
    write_blocks d chunks rest

def write_copies (sha256 : Digest) (d : WriteAt σ) (sb : Superblock) (template : Bytes) :
    List Nat → IoM σ Unit
  | [] => return ()
  | offset :: rest => do
    if ¬ Superblock.copy_exists d.len offset then write_copies sha256 d sb template rest
    else
      d.write offset (sb.emit_copy sha256 template offset)
      write_copies sha256 d sb template rest

/-- The superblock that the transaction installs. -/
def Superblock.advance (sb : Superblock) (txn : Transaction) : Superblock :=
  let sb := { sb with
    generation := txn.new_generation, root := txn.final_root.1, root_level := txn.final_root.2 }
  let sb := match txn.final_chunk_root with
    | some root => { sb with
        chunk_root := root.1, chunk_root_level := root.2, chunk_root_generation := txn.new_generation }
    | none => sb
  { sb with bytes_used := txn.final_bytes_used }

/-- The mount as the reader sees it after the commit. The blocks are those that were written. -/
def Mount.update_mount_state (fs : Mount) (sb : Superblock) (txn : Transaction) : Mount :=
  { fs with
    device := fun b =>
      match txn.pending_blocks.get b with
      | some n => .ok n
      | none => fs.device b
    sb := sb
    fs_tree_root := if txn.new_fs_tree.objectid = FS_TREE_OBJECTID then txn.new_fs_tree
      else fs.fs_tree_root }

/-- `encode` stands for the bytes of a block, which the transaction carries. -/
def commit_transaction (sha256 : Digest) (from_utf8_lossy : Bytes → String) (encode : Node → Bytes)
    (fs : Mount) (d : WriteAt σ) (txn : Transaction) : IoM σ Mount := do
  let template ← d.toReadAt.read 0x10000 SUPER_SIZE
  let _ ← IoM.lift (Superblock.parse sha256 from_utf8_lossy template 0x10000)
  write_blocks d fs.chunks txn.pending_data
  write_blocks d fs.chunks (txn.pending_blocks.entries.map fun e => (e.1, encode e.2))
  d.sync
  let new_sb := fs.sb.advance txn
  write_copies sha256 d new_sb template SUPER_OFFSETS
  d.sync
  return fs.update_mount_state new_sb txn

end LuksAndroid.Btrfs

import LuksAndroid.Ext4.Code

/-!
# Inodes and their blocks

The reading side of `core/src/fs/ext4/mod.rs`: where an inode's record is, and which
block of the device holds a block of a file. The walk down an extent tree has no bound
of its own, so it takes fuel. An owner and the times of an inode are left out: nothing
here reads them.
-/

namespace LuksAndroid.Ext4

open Word

variable {σ : Type}

def read_block (d : WriteAt σ) (block n : Nat) : FsM σ Bytes := do
  let sb := (← get).sb
  if block ≥ sb.blocks_count then fail (.CorruptFs "block pointer past end of filesystem")
  read_at d (wrapping_mul block sb.block_size) n

def Superblock.metadata_block_offset (sb : Superblock) (block : Nat) : Except LuksError Nat :=
  if block ≤ sb.first_data_block ∨ block ≥ sb.blocks_count then
    .error (.CorruptFs "a block pointer reaches outside the filesystem")
  else .ok (wrapping_mul block sb.block_size)

/-- Where the record is that its table and its place in it name. -/
def Superblock.record_offset (sb : Superblock) (inode_table index : Nat) : Except LuksError Nat := do
  let _ ← sb.metadata_block_offset inode_table
  let offset := wrapping_add (wrapping_mul inode_table sb.block_size) (index * sb.inode_size)
  match checked_mul sb.blocks_count sb.block_size with
  | none => throw (.CorruptFs "filesystem size overflows")
  | some fs_bytes =>
    if (checked_add offset sb.inode_size).all fun stop => stop > fs_bytes then
      throw (.CorruptFs "an inode table places an inode outside the filesystem")
    return offset

def inode_offset (sb : Superblock) (groups : List GroupDesc) (ino : Nat) : Except LuksError Nat :=
  if ino = 0 ∨ ino > sb.inodes_count then .error (.BadInode ino)
  else
    match groups[(ino - 1) / sb.inodes_per_group]? with
    | none => .error (.BadInode ino)
    | some g => sb.record_offset g.inode_table ((ino - 1) % sb.inodes_per_group)

structure Inode where
  number : Nat
  mode : Nat
  size : Nat
  links : Nat
  flags : Nat
  generation : Nat
  block_area : Bytes
deriving DecidableEq, Repr

namespace Inode

def file_type (i : Inode) : FileType :=
  match i.mode &&& 0xF000 with
  | 0x8000 => .Regular
  | 0x4000 => .Directory
  | 0xA000 => .Symlink
  | 0x2000 => .CharDevice
  | 0x6000 => .BlockDevice
  | 0x1000 => .Fifo
  | 0xC000 => .Socket
  | _ => .Unknown

def uses_extents (i : Inode) : Bool := has i.flags INODE_FL_EXTENTS

def is_inline (i : Inode) : Bool := has i.flags INODE_FL_INLINE_DATA

/-- Only a regular file has a high half of its size. -/
def parse (number : Nat) (raw : Bytes) : Inode :=
  let mode := raw.get 0 2
  { number
    mode
    size := raw.get 4 4 + if mode &&& 0xF000 = 0x8000 then raw.get 108 4 * 2 ^ 32 else 0
    links := raw.get 26 2
    flags := raw.get 32 4
    generation := raw.get 100 4
    block_area := raw.slice 40 60 }

end Inode

def read_raw_inode (d : WriteAt σ) (ino : Nat) : FsM σ Bytes := do
  let fs ← get
  let offset ← check (inode_offset fs.sb fs.groups ino)
  read_at d offset fs.sb.inode_size

def read_inode (d : WriteAt σ) (ino : Nat) : FsM σ Inode := do
  let raw ← read_raw_inode d ino
  return Inode.parse ino raw

/-! ## Extents -/

/-- The length of an extent, and whether its blocks are written. -/
def extent_len (raw_len : Nat) : Nat × Bool :=
  if raw_len > 32768 then (raw_len - 32768, false) else (raw_len, true)

/-- Look for `lblock` in a leaf. The first extent behind it bounds a hole. -/
def leaf_run (node : Bytes) (lblock : Nat) : List Nat → Option Nat × Nat
  | [] => (none, 1)
  | i :: rest =>
    let ee_block := node.get (12 + i * 12) 4
    let (len, initialised) := extent_len (node.get (12 + i * 12 + 4) 2)
    if len = 0 then leaf_run node lblock rest
    else if lblock ≥ ee_block ∧ lblock < ee_block + len then
      let run := len - (lblock - ee_block)
      if ¬ initialised then (none, run)
      else
        let start := node.get (12 + i * 12 + 8) 4 + node.get (12 + i * 12 + 6) 2 * 2 ^ 32
        (some (start + (lblock - ee_block)), run)
    else if ee_block > lblock then (none, ee_block - lblock)
    else leaf_run node lblock rest

/-- The last index at or below `lblock`. -/
def index_child (node : Bytes) (lblock : Nat) : List Nat → Option Nat → Option Nat
  | [], next => next
  | i :: rest, next =>
    if node.get (12 + i * 12) 4 ≤ lblock then
      index_child node lblock rest
        (some (node.get (12 + i * 12 + 4) 4 + node.get (12 + i * 12 + 8) 2 * 2 ^ 32))
    else next

def map_run_extents (d : WriteAt σ) (lblock : Nat) : Nat → Bytes → FsM σ (Option Nat × Nat)
  | 0, _ => throw .spin
  | fuel + 1, node => do
    let magic := node.get 0 2
    if magic ≠ EXTENT_MAGIC then fail (.BadExtentHeader magic)
    let entries := node.get 2 2
    let depth := node.get 6 2
    if 12 + entries * 12 > node.length then fail (.BadExtentTree "entry count exceeds node size")
    if depth = 0 then return leaf_run node lblock (List.range entries)
    else
      match index_child node lblock (List.range entries) none with
      | none => fail (.BadExtentTree "no index covers this block")
      | some child => do
        let buf ← read_block d child (← get).sb.block_size
        map_run_extents d lblock fuel buf

/-! ## Indirect blocks -/

def direct (b : Bytes) (i : Nat) : Option Nat := if b.get (i * 4) 4 = 0 then none else some (b.get (i * 4) 4)

/-- Down `level` blocks of pointers. -/
def walk_indirect (d : WriteAt σ) (per_block : Nat) : Nat → Nat → Nat → FsM σ (Option Nat)
  | 0, ptr, _ => return some ptr
  | level + 1, ptr, idx => do
    let buf ← read_block d ptr (← get).sb.block_size
    match direct buf (idx / per_block ^ level) with
    | none => return none
    | some next => walk_indirect d per_block level next (idx % per_block ^ level)

/-- From the slot of the block area that `depth` blocks of pointers hang on. -/
def map_slot (d : WriteAt σ) (inode : Inode) (per_block depth slot idx : Nat) : FsM σ (Option Nat) :=
  match direct inode.block_area slot with
  | none => return none
  | some ptr => walk_indirect d per_block depth ptr idx

def map_via_indirect (d : WriteAt σ) (inode : Inode) (lblock : Nat) : FsM σ (Option Nat) := do
  let per_block := (← get).sb.block_size / 4
  if lblock < 12 then return direct inode.block_area lblock
  let idx := lblock - 12
  if idx < per_block then map_slot d inode per_block 1 12 idx
  else if idx - per_block < per_block ^ 2 then map_slot d inode per_block 2 13 (idx - per_block)
  else if idx - per_block - per_block ^ 2 < per_block ^ 3 then
    map_slot d inode per_block 3 14 (idx - per_block - per_block ^ 2)
  else return none

def map_run (d : WriteAt σ) (fuel : Nat) (inode : Inode) (lblock : Nat) : FsM σ (Option Nat × Nat) := do
  if inode.uses_extents then map_run_extents d lblock fuel inode.block_area
  else return (← map_via_indirect d inode lblock, 1)

def map_block (d : WriteAt σ) (fuel : Nat) (inode : Inode) (lblock : Nat) : FsM σ (Option Nat) := do
  return (← map_run d fuel inode lblock).1

end LuksAndroid.Ext4

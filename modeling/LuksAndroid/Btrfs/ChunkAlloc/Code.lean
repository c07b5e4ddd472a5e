import LuksAndroid.Lib.Holes
import LuksAndroid.Btrfs.Batch
import LuksAndroid.Btrfs.Super.Code

/-!
# Chunk allocation

`core/src/fs/btrfs/write/chunk_alloc.rs`, the gates of
`core/src/fs/btrfs/write/gate.rs` that only it needs, and its callers in
`core/src/fs/btrfs/write/mod.rs`. A pair of an offset and a length is a `Span`. The
chunk map of the mount leaves out the uuids of the devices. They come in a list of
their own: the device id and the uuid of every stripe, in the order of the map.
-/

namespace LuksAndroid.Btrfs

open Word

def SZ_64K : Nat := 64 * 1024
def SZ_16M : Nat := 16 * 1024 * 1024
def SZ_1G : Nat := 1024 * 1024 * 1024
def SZ_10G : Nat := 10 * 1024 * 1024 * 1024
def BTRFS_BLOCK_RESERVED_1M_FOR_SUPER : Nat := 1024 * 1024
def MIN_STRIPE_SIZE_FLOOR : Nat := SZ_64K

/-! ## The searches -/

/-- `iter().map(..).max().unwrap_or(0)`. -/
def next_logical (chunk_map : ChunkMap) : Nat :=
  (chunk_map.chunks.map fun c => saturating_add c.logical c.length).foldl max 0

def decide_data_chunk_size (total_rw_bytes : Nat) : Nat :=
  let max_chunk := min (total_rw_bytes / 10) SZ_10G
  let stripe :=
    if SZ_1G > max_chunk then
      min (saturating_add max_chunk (SZ_16M - 1) / SZ_16M * SZ_16M) SZ_1G
    else SZ_1G
  min stripe SZ_1G / SZ_64K * SZ_64K

/-- The end of the search: the largest hole, shortened. -/
def shrink_hole (min_stripe_size : Nat) : Option Span → Except LuksError (Nat × Nat)
  | none => .error .FilesystemFull
  | some hole =>
    let usable_len := hole.length / SZ_64K * SZ_64K
    if usable_len ≥ min_stripe_size ∧ usable_len > 0 then .ok (hole.start, usable_len)
    else .error .FilesystemFull

/-- The loop over the sorted extents, and what follows it. -/
def search_holes (total_dev_bytes requested_chunk_size min_stripe_size : Nat) :
    List Span → Nat → Option Span → Except LuksError (Nat × Nat)
  | [], cur_offset, max_hole =>
    if cur_offset < total_dev_bytes then
      let hole_len := total_dev_bytes - cur_offset
      if hole_len ≥ requested_chunk_size then .ok (cur_offset, requested_chunk_size)
      else shrink_hole min_stripe_size (Spans.longer max_hole ⟨cur_offset, hole_len⟩)
    else shrink_hole min_stripe_size max_hole
  | ext :: rest, cur_offset, max_hole =>
    let search := search_holes total_dev_bytes requested_chunk_size min_stripe_size rest
    let next_offset := max cur_offset (saturating_add ext.start ext.length)
    if ext.length = 0 then search cur_offset max_hole
    else if ext.start > cur_offset then
      let hole_len := ext.start - cur_offset
      if hole_len ≥ requested_chunk_size then .ok (cur_offset, requested_chunk_size)
      else search next_offset (Spans.longer max_hole ⟨cur_offset, hole_len⟩)
    else search next_offset max_hole

def find_free_dev_extent (dev_extents : List Span)
    (total_dev_bytes requested_chunk_size min_stripe_size : Nat) : Except LuksError (Nat × Nat) :=
  if total_dev_bytes ≤ BTRFS_BLOCK_RESERVED_1M_FOR_SUPER then .error .FilesystemFull
  else
    search_holes total_dev_bytes requested_chunk_size min_stripe_size
      (dev_extents.insertionSort Spans.byStart) BTRFS_BLOCK_RESERVED_1M_FOR_SUPER none

/-! ## Device extents -/

def DEV_EXTENT_SIZE : Nat := 48

structure DevExtent where
  devid : Nat
  physical_offset : Nat
  chunk_tree : Nat
  chunk_objectid : Nat
  chunk_offset : Nat
  length : Nat
  chunk_tree_uuid : Bytes
deriving DecidableEq, Repr

namespace DevExtent

def parse (key : Key) (data : Bytes) : Except LuksError DevExtent := do
  if key.item_type ≠ DEV_EXTENT_KEY then throw (.CorruptFs "not a btrfs dev extent key")
  if data.length < DEV_EXTENT_SIZE then throw (.CorruptFs "btrfs dev extent item truncated")
  let length := data.get 0x18 8
  if length = 0 then throw (.CorruptFs "btrfs dev extent has zero length")
  if (checked_add key.offset length).isNone then
    throw (.CorruptFs "btrfs dev extent wraps physical address space")
  return ⟨key.objectid, key.offset, data.get 0 8, data.get 8 8, data.get 0x10 8, length,
    data.slice 0x20 16⟩

def new (devid physical_offset chunk_offset length : Nat) (chunk_tree_uuid : Bytes) : DevExtent :=
  ⟨devid, physical_offset, CHUNK_TREE_OBJECTID, FIRST_CHUNK_TREE_OBJECTID, chunk_offset, length,
    chunk_tree_uuid⟩

def emit (e : DevExtent) : LeafItem :=
  ⟨⟨e.devid, DEV_EXTENT_KEY, e.physical_offset⟩,
    Bytes.le 8 e.chunk_tree ++ Bytes.le 8 e.chunk_objectid ++ Bytes.le 8 e.chunk_offset ++
      Bytes.le 8 e.length ++ e.chunk_tree_uuid⟩

end DevExtent

def visit_dev_extent (devid : Nat) (extents : List Span) (key : Key) (data : Bytes) :
    Except LuksError (List Span) := do
  if key.item_type = DEV_EXTENT_KEY ∧ key.objectid = devid then
    let dev_extent ← DevExtent.parse key data
    return extents ++ [⟨dev_extent.physical_offset, dev_extent.length⟩]
  return extents

def read_dev_extents (fs : Mount) (devid : Nat) : Except LuksError (List Span) := do
  let dev_tree ← fs.tree_root DEV_TREE_OBJECTID
  let extents ← walk_tree fs.read_node dev_tree.bytenr (visit_dev_extent devid) []
  return extents.insertionSort Spans.byStart

/-! ## Chunks -/

namespace Chunk

def new_single (logical length chunk_type devid physical_offset : Nat) : Chunk :=
  ⟨logical, length, chunk_type, [⟨devid, physical_offset⟩]⟩

/-- The item of a chunk that `new_single` made. Its other fields are constants. -/
def emit (c : Chunk) (dev_uuid : Bytes) : LeafItem :=
  ⟨⟨FIRST_CHUNK_TREE_OBJECTID, CHUNK_ITEM_KEY, c.logical⟩,
    Bytes.le 8 c.length ++ Bytes.le 8 EXTENT_TREE_OBJECTID ++ Bytes.le 8 65536 ++
      Bytes.le 8 c.chunk_type ++ Bytes.le 4 65536 ++ Bytes.le 4 65536 ++ Bytes.le 4 4096 ++
      Bytes.le 2 c.stripes.length ++ Bytes.le 2 1 ++
      c.stripes.flatMap fun s => Bytes.le 8 s.devid ++ Bytes.le 8 s.offset ++ dev_uuid⟩

end Chunk

/-- A chunk at a logical address that is taken replaces the chunk there. -/
def ChunkMap.insert (m : ChunkMap) (chunk : Chunk) : ChunkMap :=
  let before := m.chunks.takeWhile fun c => c.logical < chunk.logical
  let after := m.chunks.dropWhile fun c => c.logical < chunk.logical
  ⟨before ++ chunk :: after.dropWhile fun c => c.logical = chunk.logical⟩

def BlockGroupItem.emit (bg : BlockGroupItem) : LeafItem :=
  ⟨⟨bg.start, BLOCK_GROUP_ITEM_KEY, bg.length⟩,
    Bytes.le 8 bg.used ++ Bytes.le 8 bg.chunk_objectid ++ Bytes.le 8 bg.flags⟩

/-! ## Gates -/

def BTRFS_SYSTEM_CHUNK_ENTRY_SIZE : Nat := 129

def check_sys_chunk_array_capacity (sb : Superblock) : Except LuksError Unit :=
  let current_size := sb.sys_chunk_array.length
  if current_size + BTRFS_SYSTEM_CHUNK_ENTRY_SIZE > BTRFS_SYSTEM_CHUNK_ARRAY_SIZE then
    .error (.UnsupportedFsFeature ("btrfs sys_chunk_array capacity exhausted (" ++
      toString current_size ++ "/" ++ toString BTRFS_SYSTEM_CHUNK_ARRAY_SIZE ++
      " bytes used, needs " ++ toString BTRFS_SYSTEM_CHUNK_ENTRY_SIZE ++
      " bytes for system chunk entry)"))
  else .ok ()

def check_chunk_allocation_profile (flags : Nat) : Except LuksError Unit :=
  if flags ≠ BLOCK_GROUP_DATA then
    .error (.UnsupportedFsFeature
      ("btrfs chunk allocation only supports DATA|single profile (0x1), got flags 0x" ++ to_hex flags))
  else .ok ()

def refuse_bitmap (_ : Unit) (key : Key) (_ : Bytes) : Except LuksError Unit :=
  if key.item_type = FREE_SPACE_BITMAP_KEY then
    .error (.UnsupportedFsFeature "btrfs free-space tree bitmap items (key type 200) not supported")
  else .ok ()

def check_free_space_tree_no_bitmaps (fs : Mount) : Except LuksError Unit :=
  if fs.sb.compat_ro_flags &&& BTRFS_FEATURE_COMPAT_RO_FREE_SPACE_TREE ≠ 0 then
    match fs.tree_root FREE_SPACE_TREE_OBJECTID with
    | .ok fst_root => walk_tree fs.read_node fst_root.bytenr refuse_bitmap ()
    | .error _ => .ok ()
  else .ok ()

/-! ## The transaction -/

def Mount.chunk_tree_uuid (fs : Mount) : Except LuksError Bytes := do
  return (← fs.read_node fs.sb.chunk_root).chunk_tree_uuid

def find_dev_uuid (dev_uuids : List (Nat × Bytes)) (devid : Nat) : Except LuksError Bytes :=
  match dev_uuids.find? fun u => u.1 = devid with
  | some u => .ok u.2
  | none => .error (.CorruptFs "no existing chunk found for device id")

/-- What the searches of a transaction decide on. -/
structure Placement where
  logical : Nat
  physical : Nat
  alloc_len : Nat

/-- The gates and the searches. -/
def place_data_chunk (fs : Mount) : Except LuksError Placement := do
  check_writeable_fs fs.sb
  check_chunk_allocation_profile BLOCK_GROUP_DATA
  check_free_space_tree_no_bitmaps fs
  check_sys_chunk_array_capacity fs.sb
  let dev_extents ← read_dev_extents fs fs.sb.dev_id
  let decided_size := decide_data_chunk_size fs.sb.total_bytes
  let (physical, alloc_len) ←
    find_free_dev_extent dev_extents fs.sb.total_bytes decided_size MIN_STRIPE_SIZE_FLOOR
  if alloc_len < MIN_STRIPE_SIZE_FLOOR then throw .FilesystemFull
  return ⟨next_logical fs.chunks, physical, alloc_len⟩

/-- `bytes_used += alloc_len` in the device item. -/
def grow_dev_item (alloc_len : Nat) (data : Bytes) : Except LuksError Bytes :=
  if data.length < 24 then .error (.CorruptFs "dev item truncated")
  else
    match checked_add (data.get 0x10 8) alloc_len with
    | none => .error (.CorruptFs "dev item bytes_used overflow")
    | some new_used => .ok (data.put 0x10 (Bytes.le 8 new_used))

/-- The trees that the transaction changes before it converges. -/
structure ChunkRoots where
  dev : Root
  chunk : Root
  extent : Root

/-- Steps 3 to 5: the device extent, the device item, the chunk item and the block group. -/
def insert_chunk_items (fs : Mount) (new_generation : Nat) (dev_extent : DevExtent) (chunk_item : LeafItem)
    (new_bg_item : BlockGroupItem) : TxnM ChunkRoots := do
  let dev_tree ← TxnM.lift (fs.tree_root DEV_TREE_OBJECTID)
  let dev_ext := dev_extent.emit
  let dev ← tree_insert fs.view new_generation DEV_TREE_OBJECTID (dev_tree.bytenr, dev_tree.level)
    dev_ext.key dev_ext.data
  let chunk ← tree_edit fs.view new_generation CHUNK_TREE_OBJECTID
    (fs.sb.chunk_root, fs.sb.chunk_root_level) "dev item not found in chunk tree"
    ⟨DEV_ITEMS_OBJECTID, DEV_ITEM_KEY, dev_extent.devid⟩ (grow_dev_item dev_extent.length)
  let chunk ← tree_insert fs.view new_generation CHUNK_TREE_OBJECTID chunk chunk_item.key chunk_item.data
  let extent_root ← TxnM.lift (fs.tree_root EXTENT_TREE_OBJECTID)
  let bg := new_bg_item.emit
  let extent ← tree_insert fs.view new_generation EXTENT_TREE_OBJECTID
    (extent_root.bytenr, extent_root.level) bg.key bg.data
  return ⟨dev, chunk, extent⟩

/-- The allocator with the new block group, less the superblock mirrors. -/
def seed_allocator (fs : Mount) (new_bg_item : BlockGroupItem) (new_chunk : Chunk) (m : FreeSpaceMap) :
    FreeSpaceMap :=
  let new_bg_free : BlockGroupFreeSpace :=
    ⟨new_bg_item, [], [⟨new_bg_item.start, new_bg_item.length⟩], [], [], 0, new_bg_item.length⟩
  exclude_ranges ⟨m.block_groups ++ [new_bg_free]⟩
    (compute_sb_exclusions (fs.chunks.insert new_chunk))

/-- What the searches read besides the extents: the allocator and the objectid of its chunks. -/
def chunk_allocator (fs : Mount) (reserved : List (Nat × Nat)) :
    Except LuksError (FreeSpaceMap × Nat) := do
  let extent_tree ← ExtentTree.read fs
  let allocator ← from_extent_tree_and_chunk_map extent_tree fs.chunks
  let allocator :=
    if reserved.isEmpty then allocator
    else exclude_ranges allocator (reserved.map fun (start, len) => ⟨start, saturating_add start len⟩)
  let chunk_objectid := (extent_tree.block_groups.head?.map (·.chunk_objectid)).getD
    FIRST_CHUNK_TREE_OBJECTID
  return (allocator, chunk_objectid)

def allocate_data_chunk_transaction_excluding (fs : Mount) (dev_uuids : List (Nat × Bytes))
    (reserved : List (Nat × Nat)) : Except LuksError (Transaction × Chunk) := do
  let p ← place_data_chunk fs
  let devid := fs.sb.dev_id
  let chunk_tree_uuid ← fs.chunk_tree_uuid
  let dev_uuid ← find_dev_uuid dev_uuids devid
  let new_chunk := Chunk.new_single p.logical p.alloc_len BLOCK_GROUP_DATA devid p.physical
  let new_generation := wrapping_add fs.sb.generation 1
  let (allocator, chunk_objectid) ← chunk_allocator fs reserved
  let new_bg_item : BlockGroupItem := ⟨p.logical, p.alloc_len, 0, chunk_objectid, BLOCK_GROUP_DATA⟩
  let dev_extent := DevExtent.new devid p.physical p.logical p.alloc_len chunk_tree_uuid
  match insert_chunk_items fs new_generation dev_extent (new_chunk.emit dev_uuid) new_bg_item
      ⟨[], [], allocator, .empty⟩ with
  | .error e _ => throw e
  | .ok roots r =>
    let txn ← converge_and_finalize fs
      { new_generation := new_generation
        new_fs_tree := fs.fs_tree
        csum_root := none
        dev_root := some roots.dev
        chunk_root := some roots.chunk
        extent_root := some roots.extent
        pending_data := []
        data_extents_to_add := []
        data_extents_to_remove := [] }
      { r with allocator := seed_allocator fs new_bg_item new_chunk r.allocator }
    return (txn, new_chunk)

/-! ## The call -/

variable {σ : Type}

def Batch.has_uncommitted_files (b : Batch) : Bool :=
  b.accumulated_files > 0 ∨ ¬ b.recording.pending_blocks.entries.isEmpty ∨
    ¬ b.recording.blocks_to_add.isEmpty ∨ ¬ b.recording.blocks_to_remove.isEmpty ∨
    ¬ b.data_extents_to_add.isEmpty

def commit_active_batch (sha256 : Digest) (from_utf8_lossy : Bytes → String) (encode : Node → Bytes)
    (fs : Mount) (d : WriteAt σ) : IoM σ Mount := do
  if fs.has_open_writer then
    throw (.CorruptFs "attempted to commit active batch while a file writer is open")
  match fs.active_batch with
  | none => return fs
  | some batch =>
    let fs := { fs with active_batch := none }
    if ¬ batch.has_uncommitted_files then return fs
    let txn ← IoM.lift (batch.commit fs)
    commit_transaction sha256 from_utf8_lossy encode fs d txn

def commit_any_batch (sha256 : Digest) (from_utf8_lossy : Bytes → String) (encode : Node → Bytes)
    (fs : Mount) (d : WriteAt σ) : IoM σ Mount :=
  if fs.active_batch.isSome then commit_active_batch sha256 from_utf8_lossy encode fs d else pure fs

/-- The mount after a call that succeeds, and the new logical address. -/
def allocate_data_chunk_excluding (sha256 : Digest) (from_utf8_lossy : Bytes → String)
    (encode : Node → Bytes) (fs : Mount) (d : WriteAt σ) (dev_uuids : List (Nat × Bytes))
    (reserved : List (Nat × Nat)) : IoM σ (Mount × Nat) := do
  let fs ← commit_any_batch sha256 from_utf8_lossy encode fs d
  let (txn, new_chunk) ← IoM.lift (allocate_data_chunk_transaction_excluding fs dev_uuids reserved)
  let fs := { fs with chunks := fs.chunks.insert new_chunk }
  let fs ← commit_transaction sha256 from_utf8_lossy encode fs d txn
  return (fs, new_chunk.logical)

end LuksAndroid.Btrfs

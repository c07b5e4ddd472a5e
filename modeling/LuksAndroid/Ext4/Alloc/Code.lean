import LuksAndroid.Ext4.Read

/-!
# Allocating and freeing blocks and inodes

`core/src/fs/ext4/alloc.rs`. A bitmap of a group that was never initialised is computed,
not read. Blocks are claimed in a plan of bitmaps first, and written group by group.
-/

namespace LuksAndroid.Ext4

open Word

variable {σ : Type}

/-! ## Bits -/

def test_bit (bm : Bytes) (bit : Nat) : FsM σ Bool := do
  if bit / 8 ≥ bm.length then panicked
  return bm.bit bit

def set_bit (bm : Bytes) (bit : Nat) : FsM σ Bytes := do
  if bit / 8 ≥ bm.length then panicked
  return bm.setBit bit

def clear_bit (bm : Bytes) (bit : Nat) : FsM σ Bytes := do
  if bit / 8 ≥ bm.length then panicked
  return bm.clearBit bit

/-- The number of low bits that are set. -/
def trailing_ones (byte : UInt8) : Nat := ((List.range 8).takeWhile byte.toNat.testBit).length

/-- From the byte `i` on, the first of them already masked. -/
def scan_bytes (limit : Nat) : Nat → Bytes → Option Nat
  | _, [] => none
  | i, byte :: rest =>
    if byte ≠ 0xFF then
      let index := i * 8 + trailing_ones byte
      if index ≥ limit then none else some index
    else scan_bytes limit (i + 1) rest

/-- The first clear bit at or after `start` and below `limit`. -/
def find_free_bit_from (bm : Bytes) (start limit : Nat) : Option Nat :=
  if start ≥ limit then none
  else
    match bm.drop (start / 8) with
    | [] => none
    | byte :: rest => scan_bytes limit (start / 8) ((byte ||| UInt8.ofNat (2 ^ (start % 8) - 1)) :: rest)

def find_free_bit (bm : Bytes) (limit : Nat) : Option Nat := find_free_bit_from bm 0 limit

/-! ## Bitmaps -/

inductive Bitmap where
  | Block
  | Inode
deriving DecidableEq, Repr

def GroupDesc.bitmap (g : GroupDesc) : Bitmap → Nat
  | .Block => g.block_bitmap
  | .Inode => g.inode_bitmap

def GroupDesc.bitmap_uninit (g : GroupDesc) : Bitmap → Bool
  | .Block => g.block_bitmap_uninit
  | .Inode => g.inode_bitmap_uninit

/-- How many bits of a bitmap its checksum covers. -/
def Superblock.bitmap_bits (sb : Superblock) : Bitmap → Nat
  | .Block => sb.clusters_per_group
  | .Inode => sb.inodes_per_group

/-- `self.groups[group]`. -/
def group_at (group : Nat) : FsM σ GroupDesc := do
  match (← get).groups[group]? with
  | some g => return g
  | none => panicked

def bitmap_extent (group : Nat) (which : Bitmap) : FsM σ (Nat × Nat) := do
  let g ← group_at group
  let sb := (← get).sb
  let offset ← check (sb.metadata_block_offset (g.bitmap which))
  return (offset, div_ceil (sb.bitmap_bits which) 8)

/-- Set the bits that are in the map. -/
def set_bits (bm : Bytes) (bits : List Nat) : Bytes :=
  bits.foldl (fun bm bit => if bit / 8 < bm.length then bm.setBit bit else bm) bm

/-- The bits from `lo` up to, but without, `hi`. -/
def span (lo hi : Nat) : List Nat := List.range' lo (hi - lo)

def valid_inodes (sb : Superblock) (group : Nat) : Nat :=
  let first_inode := (group * sb.inodes_per_group + 1) % 2 ^ 32
  if first_inode > sb.inodes_count then 0
  else if (first_inode + sb.inodes_per_group - 1) % 2 ^ 32 > sb.inodes_count then
    (sb.inodes_count - first_inode + 1) % 2 ^ 32
  else sb.inodes_per_group

def valid_blocks (sb : Superblock) (first_block : Nat) : Nat :=
  if wrapping_add first_block sb.blocks_per_group > sb.blocks_count then
    (sb.blocks_count - first_block) % 2 ^ 32
  else sb.blocks_per_group

/-- The blocks of a backup of the superblock and of the descriptors. The raw descriptor size is
used here, which is 0 on a filesystem without 64-bit descriptors. -/
def backup_blocks (sb : Superblock) (ngroups : Nat) : Nat :=
  (1 + sb.reserved_gdt_blocks + div_ceil (ngroups * sb.desc_size) sb.block_size) % 2 ^ 32

/-- The bits of one descriptor's bitmaps and inode table that lie in the group. -/
def table_bits (sb : Superblock) (first_block last_block : Nat) (g : GroupDesc) : List Nat :=
  let here := fun b => if first_block ≤ b ∧ b ≤ last_block then [b - first_block] else []
  let it_blocks := div_ceil (sb.inodes_per_group * sb.inode_size) sb.block_size
  let it_end := wrapping_sub (wrapping_add g.inode_table it_blocks) 1
  here g.block_bitmap ++ here g.inode_bitmap ++
    span (max g.inode_table first_block - first_block) (min it_end last_block + 1 - first_block)

/-- The bitmap of a group that has none on the device yet. -/
def materialize (sb : Superblock) (groups : List GroupDesc) (group : Nat) (which : Bitmap) (len : Nat) :
    Bytes :=
  let buf : Bytes := List.replicate len 0
  match which with
  | .Inode => set_bits buf (span (valid_inodes sb group) (len * 8))
  | .Block =>
    let first_block := sb.group_first_block group
    let valid := valid_blocks sb first_block
    let buf := set_bits buf (span valid (len * 8))
    let buf := if sb.group_has_super group then set_bits buf (span 0 (backup_blocks sb groups.length)) else buf
    let last_block := wrapping_sub (wrapping_add first_block valid) 1
    groups.foldl (fun buf g => set_bits buf (table_bits sb first_block last_block g)) buf

def read_bitmap (d : WriteAt σ) (group : Nat) (which : Bitmap) : FsM σ Bytes := do
  let (offset, _) ← bitmap_extent group which
  let fs ← get
  let g ← group_at group
  if g.bitmap_uninit which then return materialize fs.sb fs.groups group which fs.sb.block_size
  read_at d offset fs.sb.block_size

def set_group (group : Nat) (f : GroupDesc → GroupDesc) : FsM σ Unit :=
  modify fun fs => { fs with groups := fs.groups.modify group f }

def GroupDesc.with_csum (g : GroupDesc) (which : Bitmap) (csum : Nat) : GroupDesc :=
  match which with
  | .Block => { g with block_bitmap_csum := csum }
  | .Inode => { g with inode_bitmap_csum := csum }

/-- The checksum covers as many bytes as the superblock says, whether or not the map has them. -/
def write_bitmap (d : WriteAt σ) (group : Nat) (which : Bitmap) (bm : Bytes) (seed : Seed) : FsM σ Unit := do
  let (offset, csum_len) ← bitmap_extent group which
  write_at d offset bm
  if csum_len > bm.length then panicked
  match seed.bitmap (bm.take csum_len) with
  | none => return
  | some csum => set_group group fun g => g.with_csum which csum

/-! ## Descriptors and the superblock -/

/-- The fields of a descriptor that are written, without its checksum. -/
def GroupDesc.fields (g : GroupDesc) (wide : Bool) : List (Nat × Bytes) :=
  [(0x0C, Bytes.le 2 g.free_blocks_count), (0x0E, Bytes.le 2 g.free_inodes_count),
    (0x10, Bytes.le 2 g.used_dirs_count), (0x12, Bytes.le 2 g.flags),
    (0x18, Bytes.le 2 g.block_bitmap_csum), (0x1A, Bytes.le 2 g.inode_bitmap_csum),
    (0x1C, Bytes.le 2 g.itable_unused)] ++
  if wide then
    [(0x2C, Bytes.le 2 (g.free_blocks_count / 2 ^ 16)), (0x2E, Bytes.le 2 (g.free_inodes_count / 2 ^ 16)),
      (0x30, Bytes.le 2 (g.used_dirs_count / 2 ^ 16)), (0x32, Bytes.le 2 (g.itable_unused / 2 ^ 16)),
      (0x38, Bytes.le 2 (g.block_bitmap_csum / 2 ^ 16)), (0x3A, Bytes.le 2 (g.inode_bitmap_csum / 2 ^ 16))]
  else []

def Superblock.desc_offset (sb : Superblock) (group : Nat) : Nat :=
  wrapping_add sb.group_desc_offset (group * sb.group_desc_size)

def write_group_desc (d : WriteAt σ) (group : Nat) (seed : Seed) : FsM σ Unit := do
  let sb := (← get).sb
  let size := sb.group_desc_size
  let raw ← read_at d (sb.desc_offset group) size
  let g ← group_at group
  let raw := raw.patch (g.fields (size ≥ 64))
  match seed.group_desc group raw with
  | none => write_at d (sb.desc_offset group) raw
  | some csum =>
    set_group group fun g => { g with checksum := csum }
    write_at d (sb.desc_offset group) (raw.put BG_CHECKSUM_OFFSET (Bytes.le 2 csum))

def Superblock.fields (sb : Superblock) : List (Nat × Bytes) :=
  [(12, Bytes.le 4 sb.free_blocks_count), (16, Bytes.le 4 sb.free_inodes_count)] ++
  if sb.is_64bit then [(SB_FREE_BLOCKS_COUNT_HI, Bytes.le 4 (sb.free_blocks_count / 2 ^ 32))] else []

def write_superblock (d : WriteAt σ) (seed : Seed) : FsM σ Unit := do
  let raw ← read_at d SUPERBLOCK_OFFSET 1024
  let raw := raw.patch (← get).sb.fields
  match seed.superblock raw with
  | none => write_at d SUPERBLOCK_OFFSET raw
  | some csum => write_at d SUPERBLOCK_OFFSET (raw.put SB_CHECKSUM_OFFSET (Bytes.le 4 csum))

def GroupDesc.initialised (g : GroupDesc) (which : Bitmap) : GroupDesc :=
  let flag := match which with
    | .Block => BG_BLOCK_UNINIT
    | .Inode => BG_INODE_UNINIT
  { g with flags := g.flags &&& (0xFFFF - flag) }

def commit (d : WriteAt σ) (group : Nat) (which : Bitmap) (bm : Bytes) (seed : Seed) : FsM σ Unit := do
  set_group group fun g => g.initialised which
  write_bitmap d group which bm seed
  write_group_desc d group seed
  write_superblock d seed

/-! ## Blocks -/

structure Extent where
  physical : Nat
  len : Nat
deriving DecidableEq, Repr

def Superblock.blocks_in_group (sb : Superblock) (group : Nat) : Nat :=
  min (wrapping_sub sb.blocks_count (wrapping_add sb.first_data_block (group * sb.blocks_per_group)))
    sb.blocks_per_group

/-- One more block at the end of the runs. -/
def push_block (out : List Extent) (block : Nat) : List Extent :=
  match out.getLast? with
  | some e =>
    if wrapping_add e.physical e.len = block then out.dropLast ++ [{ e with len := e.len + 1 }]
    else out ++ [⟨block, 1⟩]
  | none => [⟨block, 1⟩]

structure Taking where
  bm : Bytes
  out : List Extent
  taken : Nat

/-- Claim up to `allowance` bits of one map. -/
def take_bits (start_block limit : Nat) : Nat → Nat → Taking → Taking
  | 0, _, t => t
  | allowance + 1, cursor, t =>
    match find_free_bit_from t.bm cursor limit with
    | none => t
    | some bit => take_bits start_block limit allowance (bit + 1)
      ⟨t.bm.setBit bit, push_block t.out (wrapping_add start_block bit), t.taken + 1⟩

structure Plan where
  plan : List (Nat × Bytes × Nat)
  out : List Extent
  remaining : Nat

/-- Read one group's map and claim what it has. -/
def plan_group (d : WriteAt σ) (p : Plan) (group : Nat) : FsM σ Plan := do
  let g ← group_at group
  if g.free_blocks_count = 0 then return p
  let bm ← read_bitmap d group .Block
  let sb := (← get).sb
  let allowance := min g.free_blocks_count p.remaining
  let start_block := wrapping_add sb.first_data_block (group * sb.blocks_per_group)
  let t := take_bits start_block (sb.blocks_in_group group) allowance 0 ⟨bm, p.out, 0⟩
  if t.taken > 0 then return ⟨p.plan ++ [(group, t.bm, t.taken)], t.out, p.remaining - t.taken⟩
  return p

def plan_groups (d : WriteAt σ) : List Nat → Plan → FsM σ Plan
  | [], p => return p
  | group :: rest, p => do
    if p.remaining = 0 then return p
    plan_groups d rest (← plan_group d p group)

/-- The bitmap and the descriptor of one group of a plan, once its counters are changed. -/
def write_planned (d : WriteAt σ) (group : Nat) (bm : Bytes) (seed : Seed) : FsM σ Unit := do
  write_bitmap d group .Block bm seed
  write_group_desc d group seed

/-- The descriptor of a group that has given out blocks. -/
def GroupDesc.take_blocks (g : GroupDesc) (taken : Nat) : GroupDesc :=
  { g.initialised .Block with free_blocks_count := (g.free_blocks_count + 2 ^ 32 - taken) % 2 ^ 32 }

def Superblock.take_blocks (sb : Superblock) (taken : Nat) : Superblock :=
  { sb with free_blocks_count := sb.free_blocks_count - taken }

def commit_taken (d : WriteAt σ) (seed : Seed) : List (Nat × Bytes × Nat) → FsM σ Unit
  | [] => return
  | (group, bm, taken) :: rest => do
    set_group group fun g => g.take_blocks taken
    modify fun fs => { fs with sb := fs.sb.take_blocks taken }
    write_planned d group bm seed
    commit_taken d seed rest

/-- The groups in the order of the search, from the goal's own. -/
def search_order (sb : Superblock) (ngroups goal : Nat) : List Nat :=
  let start := if goal ≥ sb.first_data_block
    then min ((goal - sb.first_data_block) / sb.blocks_per_group) (ngroups - 1) else 0
  (List.range ngroups).map fun n => (start + n) % ngroups

def alloc_blocks (d : WriteAt σ) (goal count : Nat) : FsM σ (List Extent) := do
  if count = 0 then return []
  let fs ← get
  let seed ← check (Seed.for_writing fs.sb)
  let p ← plan_groups d (search_order fs.sb fs.groups.length goal) ⟨[], [], count⟩
  if p.remaining > 0 then fail .FilesystemFull
  commit_taken d seed p.plan
  write_superblock d seed
  return p.out

/-- Clear one block's bit in the plan, reading its group's map the first time. -/
def plan_free (d : WriteAt σ) (plan : List (Nat × Bytes × Nat)) (block : Nat) :
    FsM σ (List (Nat × Bytes × Nat)) := do
  let sb := (← get).sb
  if block < sb.first_data_block ∨ block ≥ sb.blocks_count then
    fail (.CorruptFs "free of a block outside the filesystem")
  let group := (block - sb.first_data_block) / sb.blocks_per_group
  let bit := (block - sb.first_data_block) % sb.blocks_per_group
  let plan ← match plan.find? (·.1 = group) with
    | some _ => pure plan
    | none => do
      let bm ← read_bitmap d group .Block
      pure (plan ++ [(group, bm, 0)])
  match plan.find? (·.1 = group) with
  | none => return plan
  | some (_, bm, freed) => do
    if ¬ (← test_bit bm bit) then fail (.CorruptFs "double free of a block")
    let bm ← clear_bit bm bit
    return plan.map fun e => if e.1 = group then (group, bm, freed + 1) else e

def plan_frees (d : WriteAt σ) : List Nat → List (Nat × Bytes × Nat) → FsM σ (List (Nat × Bytes × Nat))
  | [], plan => return plan
  | block :: rest, plan => do plan_frees d rest (← plan_free d plan block)

/-- The descriptor of a group that has taken blocks back. -/
def GroupDesc.give_back_blocks (g : GroupDesc) (freed : Nat) : GroupDesc :=
  { g.initialised .Block with free_blocks_count := (g.free_blocks_count + freed) % 2 ^ 32 }

def Superblock.give_back_blocks (sb : Superblock) (freed : Nat) : Superblock :=
  { sb with free_blocks_count := wrapping_add sb.free_blocks_count freed }

def commit_freed (d : WriteAt σ) (seed : Seed) : List (Nat × Bytes × Nat) → FsM σ Unit
  | [] => return
  | (group, bm, freed) :: rest => do
    set_group group fun g => g.give_back_blocks freed
    modify fun fs => { fs with sb := fs.sb.give_back_blocks freed }
    write_planned d group bm seed
    commit_freed d seed rest

/-- The blocks of a run. The end of a run may wrap, and the run is then empty. -/
def Extent.blocks (e : Extent) : List Nat := span e.physical (wrapping_add e.physical e.len)

def free_blocks (d : WriteAt σ) (extents : List Extent) : FsM σ Unit := do
  if extents.isEmpty then return
  let seed ← check (Seed.for_writing (← get).sb)
  let plan ← plan_frees d (extents.flatMap Extent.blocks) []
  commit_freed d seed plan
  write_superblock d seed

/-! ## Inodes -/

/-- The descriptor of a group that has given out the inode at `bit`. -/
def GroupDesc.take_inode (g : GroupDesc) (per bit : Nat) (is_dir : Bool) : GroupDesc :=
  { g with
    free_inodes_count := g.free_inodes_count - 1
    used_dirs_count := if is_dir then (g.used_dirs_count + 1) % 2 ^ 32 else g.used_dirs_count
    itable_unused := min g.itable_unused (per - (bit + 1)) }

def Superblock.take_inode (sb : Superblock) : Superblock :=
  { sb with free_inodes_count := sb.free_inodes_count - 1 }

def claim_inode (d : WriteAt σ) (seed : Seed) (group bit : Nat) (bm : Bytes) (is_dir : Bool) :
    FsM σ Nat := do
  let per := (← get).sb.inodes_per_group
  let ino := group * per + bit + 1
  let bm ← set_bit bm bit
  set_group group fun g => g.take_inode per bit is_dir
  modify fun fs => { fs with sb := fs.sb.take_inode }
  let fs ← get
  let offset ← check (inode_offset fs.sb fs.groups ino)
  write_at d offset (List.replicate fs.sb.inode_size 0)
  commit d group .Inode bm seed
  return ino

def alloc_inode_in (d : WriteAt σ) (seed : Seed) (is_dir : Bool) : List Nat → FsM σ Nat
  | [] => fail .NoFreeInodes
  | group :: rest => do
    let g ← group_at group
    if g.free_inodes_count = 0 then alloc_inode_in d seed is_dir rest
    else
      let bm ← read_bitmap d group .Inode
      let sb := (← get).sb
      match find_free_bit bm sb.inodes_per_group with
      | none => alloc_inode_in d seed is_dir rest
      | some bit =>
        if group * sb.inodes_per_group + bit + 1 < sb.first_ino then alloc_inode_in d seed is_dir rest
        else claim_inode d seed group bit bm is_dir

def alloc_inode (d : WriteAt σ) (is_dir : Bool) : FsM σ Nat := do
  let fs ← get
  let seed ← check (Seed.for_writing fs.sb)
  alloc_inode_in d seed is_dir (List.range fs.groups.length)

def GroupDesc.give_back_inode (g : GroupDesc) (was_dir : Bool) : GroupDesc :=
  { g with
    free_inodes_count := (g.free_inodes_count + 1) % 2 ^ 32
    used_dirs_count := if was_dir then g.used_dirs_count - 1 else g.used_dirs_count }

def Superblock.give_back_inode (sb : Superblock) : Superblock :=
  { sb with free_inodes_count := (sb.free_inodes_count + 1) % 2 ^ 32 }

def free_inode (d : WriteAt σ) (ino : Nat) (was_dir : Bool) : FsM σ Unit := do
  let fs ← get
  let seed ← check (Seed.for_writing fs.sb)
  if ino < fs.sb.first_ino ∨ ino > fs.sb.inodes_count then fail (.BadInode ino)
  -- `ino - 1` wraps when both bounds let 0 through
  let group := wrapping_sub ino 1 / fs.sb.inodes_per_group
  let bit := wrapping_sub ino 1 % fs.sb.inodes_per_group
  if group ≥ fs.groups.length then fail (.BadInode ino)
  let g ← group_at group
  if g.inode_bitmap_uninit then fail (.CorruptFs "free of an inode in an uninitialised group")
  let bm ← read_bitmap d group .Inode
  if ¬ (← test_bit bm bit) then fail (.CorruptFs "double free of an inode")
  let offset ← check (inode_offset fs.sb fs.groups ino)
  write_at d offset (List.replicate fs.sb.inode_size 0)
  let bm ← clear_bit bm bit
  set_group group fun g => g.give_back_inode was_dir
  modify fun fs => { fs with sb := fs.sb.give_back_inode }
  commit d group .Inode bm seed

end LuksAndroid.Ext4

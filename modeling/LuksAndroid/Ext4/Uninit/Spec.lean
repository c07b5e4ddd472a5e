import LuksAndroid.Ext4.Alloc.Code

/-!
# Groups whose block bitmap was never written

A group that is flagged `BLOCK_UNINIT` holds no file. Which of its blocks hold metadata
follows from the superblock and the descriptors, and its bitmap has to say just that.
-/

namespace LuksAndroid.Ext4

open Word

variable (sb : Superblock) (groups : List GroupDesc)

def Superblock.group_start (group : Nat) : Nat := sb.first_data_block + group * sb.blocks_per_group

/-- The last group may be short. -/
def Superblock.group_len (group : Nat) : Nat := min sb.blocks_per_group (sb.blocks_count - sb.group_start group)

/-- Whether the group begins with a copy of the superblock and of the descriptors. -/
def Superblock.Backs (group : Nat) : Prop :=
  group ≤ 1 ∨ has sb.feature_ro_compat RO_COMPAT_SPARSE_SUPER = false ∨
    ∃ k, group = 3 ^ k ∨ group = 5 ^ k ∨ group = 7 ^ k

/-- The superblock, the reserved descriptor blocks, and the descriptors. -/
def Superblock.backup_len (ngroups desc_size : Nat) : Nat :=
  1 + sb.reserved_gdt_blocks + div_ceil (ngroups * desc_size) sb.block_size

def Superblock.table_len : Nat := div_ceil (sb.inodes_per_group * sb.inode_size) sb.block_size

/-- A bitmap, or a block of the inode table. -/
def GroupDesc.Owns (g : GroupDesc) (b : Nat) : Prop :=
  b = g.block_bitmap ∨ b = g.inode_bitmap ∨ g.inode_table ≤ b ∧ b < g.inode_table + sb.table_len

def Owned (b : Nat) : Prop := ∃ g ∈ groups, g.Owns sb b

/-- What the block at `bit` of the group holds is metadata. -/
def Metadata (group bit : Nat) : Prop :=
  sb.Backs group ∧ bit < sb.backup_len groups.length sb.group_desc_size ∨
    Owned sb groups (sb.group_start group + bit)

/-- The geometry that `mke2fs` gives a filesystem. -/
structure Consistent : Prop where
  block_size : 1024 ≤ sb.block_size ∧ sb.block_size ≤ 65536
  blocks_per_group : 0 < sb.blocks_per_group ∧ sb.blocks_per_group ≤ 8 * sb.block_size
  table_len : 0 < sb.table_len
  fields : sb.desc_size < 2 ^ 16 ∧ sb.reserved_gdt_blocks < 2 ^ 16
  first : sb.first_data_block < sb.blocks_count
  word : sb.blocks_count * sb.block_size < 2 ^ 64
  count : groups.length = sb.group_count
  inside : ∀ b, Owned sb groups b → b < sb.blocks_count
  /-- There is room for every backup, and nothing else is there. -/
  room : ∀ group < groups.length, sb.Backs group →
    sb.backup_len groups.length sb.group_desc_size ≤ sb.group_len group
  apart : ∀ group < groups.length, sb.Backs group →
    ∀ bit < sb.backup_len groups.length sb.group_desc_size, ¬ Owned sb groups (sb.group_start group + bit)

/-- The bits of the map are those of the metadata, and those behind the last block. -/
def Exact (group : Nat) : Prop := ∀ bit < 8 * sb.block_size,
  (materialize sb groups group .Block sb.block_size).bit bit = true ↔
    sb.group_len group ≤ bit ∨ Metadata sb groups group bit

/-- No allocation gives out metadata of the group. -/
def Spares (group : Nat) : Prop :=
  ∀ (σ : Type) (d : WriteAt σ) (fs fs' : Mount σ) (goal count : Nat) (out : List Extent),
  fs.sb = sb → fs.groups = groups → alloc_blocks d goal count fs = .ok out fs' →
    ∀ e ∈ out, ∀ bit < sb.group_len group, Metadata sb groups group bit →
      ¬ (e.physical ≤ sb.group_start group + bit ∧ sb.group_start group + bit < e.physical + e.len)

/-- The field `s_desc_size` counts no fewer descriptor blocks than there are, and the blocks that it counts
beyond them hold metadata as well. -/
structure Covered (group : Nat) : Prop where
  enough : sb.backup_len groups.length sb.group_desc_size ≤ sb.backup_len groups.length sb.desc_size
  surplus : ∀ bit < sb.group_len group, sb.backup_len groups.length sb.group_desc_size ≤ bit →
    bit < sb.backup_len groups.length sb.desc_size → Owned sb groups (sb.group_start group + bit)

end LuksAndroid.Ext4

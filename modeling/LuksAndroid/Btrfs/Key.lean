import Mathlib

/-!
# Keys

`core/src/fs/btrfs/tree.rs`: a key is `(objectid, item_type, offset)`, and the
lexicographic order on keys is the only thing that orders a tree.
-/

namespace LuksAndroid.Btrfs

def HEADER_SIZE : Nat := 101
def ITEM_SIZE : Nat := 25
def KEY_PTR_SIZE : Nat := 33

/-! ## Item types -/

def INODE_ITEM_KEY : Nat := 1
def INODE_REF_KEY : Nat := 12
def XATTR_ITEM_KEY : Nat := 24
def DIR_ITEM_KEY : Nat := 84
def DIR_INDEX_KEY : Nat := 96
def EXTENT_DATA_KEY : Nat := 108
def EXTENT_CSUM_KEY : Nat := 128
def ROOT_ITEM_KEY : Nat := 132
def ROOT_BACKREF_KEY : Nat := 144
def ROOT_REF_KEY : Nat := 156
def EXTENT_ITEM_KEY : Nat := 168
def METADATA_ITEM_KEY : Nat := 169
def TREE_BLOCK_REF_KEY : Nat := 176
def EXTENT_DATA_REF_KEY : Nat := 178
def SHARED_BLOCK_REF_KEY : Nat := 182
def SHARED_DATA_REF_KEY : Nat := 184
def BLOCK_GROUP_ITEM_KEY : Nat := 192
def FREE_SPACE_INFO_KEY : Nat := 198
def FREE_SPACE_EXTENT_KEY : Nat := 199
def FREE_SPACE_BITMAP_KEY : Nat := 200
def DEV_EXTENT_KEY : Nat := 204
def DEV_ITEM_KEY : Nat := 216
def CHUNK_ITEM_KEY : Nat := 228

def item_type_name (item_type : Nat) : String :=
  if item_type = INODE_ITEM_KEY then "inode item"
  else if item_type = INODE_REF_KEY then "inode ref"
  else if item_type = XATTR_ITEM_KEY then "xattr item"
  else if item_type = DIR_ITEM_KEY then "directory item"
  else if item_type = DIR_INDEX_KEY then "directory index"
  else if item_type = EXTENT_DATA_KEY then "file extent item"
  else if item_type = EXTENT_CSUM_KEY then "checksum item"
  else if item_type = ROOT_ITEM_KEY then "root item"
  else if item_type = ROOT_BACKREF_KEY then "root backref"
  else if item_type = ROOT_REF_KEY then "root ref"
  else if item_type = EXTENT_ITEM_KEY then "extent item"
  else if item_type = METADATA_ITEM_KEY then "metadata item"
  else if item_type = TREE_BLOCK_REF_KEY then "tree block ref"
  else if item_type = EXTENT_DATA_REF_KEY then "extent data ref"
  else if item_type = SHARED_BLOCK_REF_KEY then "shared block ref"
  else if item_type = SHARED_DATA_REF_KEY then "shared data ref"
  else if item_type = BLOCK_GROUP_ITEM_KEY then "block group item"
  else if item_type = FREE_SPACE_INFO_KEY then "free space info"
  else if item_type = FREE_SPACE_EXTENT_KEY then "free space extent"
  else if item_type = FREE_SPACE_BITMAP_KEY then "free space bitmap"
  else if item_type = DEV_EXTENT_KEY then "device extent"
  else if item_type = DEV_ITEM_KEY then "device item"
  else if item_type = CHUNK_ITEM_KEY then "chunk item"
  else "tree item"

/-! ## Objectids -/

def DEV_ITEMS_OBJECTID : Nat := 1
def ROOT_TREE_OBJECTID : Nat := 1
def EXTENT_TREE_OBJECTID : Nat := 2
def CHUNK_TREE_OBJECTID : Nat := 3
def DEV_TREE_OBJECTID : Nat := 4
def FS_TREE_OBJECTID : Nat := 5
def CSUM_TREE_OBJECTID : Nat := 7
def FREE_SPACE_TREE_OBJECTID : Nat := 10
def FIRST_CHUNK_TREE_OBJECTID : Nat := 256
def EXTENT_CSUM_OBJECTID : Nat := 2 ^ 64 - 1 - 9

/-! ## The order -/

structure Key where
  objectid : Nat
  item_type : Nat
  offset : Nat
deriving DecidableEq, Repr

namespace Key

def toProd (k : Key) : ℕ ×ₗ ℕ ×ₗ ℕ := toLex (k.objectid, toLex (k.item_type, k.offset))

theorem toProd_injective : Function.Injective toProd := by
  rintro ⟨a, b, c⟩ ⟨a', b', c'⟩ h
  simpa [toProd] using h

instance : LinearOrder Key := LinearOrder.lift' toProd toProd_injective

theorem lt_iff {k l : Key} :
    k < l ↔ k.objectid < l.objectid ∨ k.objectid = l.objectid ∧
      (k.item_type < l.item_type ∨ k.item_type = l.item_type ∧ k.offset < l.offset) := by
  change toProd k < toProd l ↔ _
  simp [toProd, Prod.Lex.toLex_lt_toLex]

end Key

end LuksAndroid.Btrfs

import LuksAndroid.Ext4.Alloc.Basic
import LuksAndroid.Ext4.Rename.Reads

/-!
# What a rename should do

At every moment the file has its old name or its new one. A rename that fails leaves all
names as they were. The directory's blocks, and the way to them, are apart from the bytes of the
filesystem itself.
-/

namespace LuksAndroid.Ext4

open Word

/-- The block `b` of the device. -/
def Mount.block (fs : Mount Disk) (b : Nat) : Bytes := load fs.io.state (b * fs.sb.block_size) fs.sb.block_size

/-- What a name stands for in these blocks. -/
def Mount.named (fs : Mount Disk) (blocks : List Nat) (name : Bytes) : Option Nat :=
  lookup fs.sb.block_size fs.io.state blocks name

/-! ## Directories -/

/-- The bytes of the directory's blocks, and of the filesystem itself but for the directory's inode. -/
def Shape.Busy (S : Shape) (dir_ino : Nat) (blocks : List Nat) (i : Nat) : Prop :=
  (∃ b ∈ blocks, b * S.bs ≤ i ∧ i < b * S.bs + S.bs) ∨
    ∃ c, S.Meta c ∧ c ≠ .inode dir_ino ∧ (S.range c).1 ≤ i ∧ i < (S.range c).1 + (S.range c).2

/-- The same filesystem, but for the bytes that a rename may change. -/
structure Mount.Beside (dir_ino : Nat) (blocks : List Nat) (fs s : Mount Disk) : Prop where
  shape : s.shape = fs.shape
  state : ∀ i, ¬ fs.shape.Busy dir_ino blocks i → s.io.state i = fs.io.state i

/-- A directory without a hash index. Neither its inode nor what maps its blocks is among the bytes that a
rename may change. No two of its records have one name. -/
structure Directory (cap : Nat) (known : Bool) (fuel : Nat) (fs : Mount Disk) (dir_ino : Nat) (dir : Inode)
    (blocks : List Nat) : Prop where
  is_dir : dir.file_type.is_dir = true
  plain : has dir.flags INODE_FL_INDEX = false ∧ dir.is_inline = false
  reads : ∀ s, fs.Beside dir_ino blocks s → (∃ t, read_inode (memory cap known) dir_ino s = .ok dir t) ∧
    ∃ places t, map_blocks (memory cap known) fuel dir (dir_blocks fs.sb dir) s = .ok places t ∧
      places.reduceOption = blocks
  block_size : 1024 ≤ fs.sb.block_size
  placed : ∀ b ∈ blocks, Placed cap fs.sb b
  apart : ∀ b ∈ blocks, ∀ c, fs.shape.Meta c → c ≠ .inode dir_ino →
    Bytes.Apart (fs.shape.range c) (b * fs.sb.block_size, fs.sb.block_size)
  readable : ∀ b ∈ blocks, Readable (usable fs.sb (Seed.of fs.sb)) (fs.block b)
  unique : ∀ b ∈ blocks, ∀ b' ∈ blocks, ∀ name,
    find (fs.block b) name ≠ none → find (fs.block b') name ≠ none → b = b'

/-! ## Renames -/

/-- Neither the inode nor one of the blocks is marked as used. -/
structure Freed (fs : Mount Disk) (ino : Nat) (extents : List Extent) : Prop where
  inode : (fs.bitmapOf .Inode ((ino - 1) / fs.sb.inodes_per_group)).bit ((ino - 1) % fs.sb.inodes_per_group) = false
  blocks : ∀ e ∈ extents, ∀ b ∈ e.blocks,
    (fs.bitmapOf .Block ((b - fs.sb.first_data_block) / fs.sb.blocks_per_group)).bit
      ((b - fs.sb.first_data_block) % fs.sb.blocks_per_group) = false

/-- The calls that take the name from the file that is replaced. -/
def take_name {σ : Type} (d : WriteAt σ) (fuel dir_ino : Nat) (new_name : Bytes) (dest_ino : Nat) :
    FsM σ (Nat × List Extent × List Extent) := do
  let dest ← read_inode d dest_ino
  let (data, index) ← collect_extents d dest
  let removed_ino ← unlink_file d fuel dir_ino new_name
  return (removed_ino, data, index)

/-- The calls of a rename, up to there. -/
def make_way {σ : Type} (d : WriteAt σ) (fuel dir_ino : Nat) (old_name new_name : Bytes) :
    FsM σ (Nat × List Extent × List Extent) := do
  let dir ← read_inode d dir_ino
  match ← find_entry d fuel dir old_name with
  | none => fail (.NotFound (Utf8.text old_name))
  | some old_ino => do
    let _ ← read_inode d old_ino
    match ← find_entry d fuel dir new_name with
    | none => fail (.NotFound (Utf8.text new_name))
    | some dest_ino => take_name d fuel dir_ino new_name dest_ino

section

variable (cap : Nat) (known : Bool) (fuel : Nat) (fs : Mount Disk) (dir_ino : Nat) (blocks : List Nat)
  (old_name new_name : Bytes)

/-- A rename that succeeds does what it says. -/
def Moves : Prop := ∀ u s, rename_file (memory cap known) fuel dir_ino old_name new_name fs = .ok u s →
  (∃ ino, fs.named blocks old_name = some ino ∧ s.named blocks new_name = some ino) ∧
  s.named blocks old_name = none ∧
  (∀ name, name ≠ old_name → name ≠ new_name → s.named blocks name = fs.named blocks name) ∧
  ∀ dest inode t data index t', fs.named blocks new_name = some dest →
    read_inode (memory cap known) dest fs = .ok inode t → inode.file_type.is_file = true →
    collect_extents (memory cap known) inode fs = .ok (data, index) t' → Freed s dest (data ++ index)

/-- An error that is not the device's own changes no name. -/
def Keeps : Prop := ∀ e s, rename_file (memory cap known) fuel dir_ino old_name new_name fs = .error (.err e) s →
  s.io.failed = false → ∀ name, s.named blocks name = fs.named blocks name

/-- What is on the device after some of the writes still has the file. -/
def Holds : Prop := ∀ log, (after (rename_file (memory cap known) fuel dir_ino old_name new_name fs)).io.accesses =
    fs.io.accesses ++ log →
  ∀ ino, fs.named blocks old_name = some ino → ∀ k,
    lookup fs.sb.block_size (persist cap fs.io.state (log.take k)) blocks old_name = some ino ∨
      lookup fs.sb.block_size (persist cap fs.io.state (log.take k)) blocks new_name = some ino

structure RenameOk : Prop where
  moves : Moves cap known fuel fs dir_ino blocks old_name new_name
  keeps : Keeps cap known fuel fs dir_ino blocks old_name new_name
  holds : Holds cap known fuel fs dir_ino blocks old_name new_name

/-! ## Renames that expose no file -/

/-- The old name is of no regular file. -/
def NotMovable : Prop := ∀ ino, fs.named blocks old_name = some ino →
  ∀ inode s, read_inode (memory cap known) ino fs = .ok inode s → inode.file_type.is_file = false

/-- What has the new name cannot be replaced. -/
def NotReplaceable : Prop := ∃ dest, fs.named blocks new_name = some dest ∧
  ∀ inode s, read_inode (memory cap known) dest fs = .ok inode s → inode.file_type.is_dir = true ∨ inode.links > 1 ∨
    ∀ p s', collect_extents (memory cap known) inode fs ≠ .ok p s'

/-- The rename is refused before it changes anything. -/
def Refused : Prop :=
  (∀ seed, Seed.for_writing fs.sb ≠ .ok seed) ∨ validate_name old_name ≠ .ok () ∨ validate_name new_name ≠ .ok () ∨
    NotMovable cap known fs blocks old_name ∨ NotReplaceable cap known fs blocks new_name

/-- The file that is replaced has lost its name, and the device fails, or the code panics, before its inode
and its blocks are given back. The old name is still there. -/
def Halfway : Prop := ∃ dest data index t e s,
  make_way (memory cap known) fuel dir_ino old_name new_name fs = .ok (dest, data, index) t ∧
    t.named blocks old_name ≠ none ∧ release (memory cap known) dest false data index t = .error e s ∧
    ∀ err, e = .err err → s.io.failed = true

/-- The file that is replaced can be given back, unless the device fails. -/
def Releasable : Prop := ∀ dest data index t e s,
  make_way (memory cap known) fuel dir_ino old_name new_name fs = .ok (dest, data, index) t →
    release (memory cap known) dest false data index t = .error (.err e) s → s.io.failed = true

end

end LuksAndroid.Ext4

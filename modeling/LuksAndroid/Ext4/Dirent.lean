import LuksAndroid.Ext4.Read
import LuksAndroid.Lib.Utf8

/-!
# Directory entries

`core/src/fs/ext4/dirent.rs`. A directory block is a chain of records, each as long as its
`rec_len` says. The walks over a chain take the block's length as fuel: every record they
step over has at least 8 bytes.
-/

namespace LuksAndroid.Ext4

open Word

variable {σ : Type}

def INODE_FL_INDEX : Nat := 0x00001000
def DIRENT_HEADER : Nat := 8

def record_len (name_len : Nat) : Nat := div_ceil (DIRENT_HEADER + name_len) 4 * 4

def validate_name (name : Bytes) : Except LuksError Unit := do
  if name.isEmpty ∨ name.length > 255 then throw (.CorruptFs "directory entry name length")
  if name.contains 0x2F ∨ name.contains 0 then throw (.CorruptFs "directory entry name characters")
  if name = [0x2E] ∨ name = [0x2E, 0x2E] then throw (.CorruptFs "directory entry name is . or ..")

def type_code : FileType → UInt8
  | .Regular => 1
  | .Directory => 2
  | .CharDevice => 3
  | .BlockDevice => 4
  | .Fifo => 5
  | .Socket => 6
  | .Symlink => 7
  | .Unknown => 0

/-! ## One block -/

/-- A step that stays in the chain. -/
def step_ok (block : Bytes) (limit pos : Nat) : Bool :=
  let rec_len := block.get (pos + 4) 2
  rec_len ≥ DIRENT_HEADER ∧ rec_len % 4 = 0 ∧ pos + rec_len ≤ limit

/-- Whether the record at `pos` is live and has this name. -/
def is_entry (block name : Bytes) (limit pos : Nat) : Bool :=
  let name_len := block.get (pos + 6) 1
  block.get pos 4 ≠ 0 ∧ pos + DIRENT_HEADER + name_len ≤ limit ∧
    block.slice (pos + DIRENT_HEADER) name_len = name

def find_in_block (block name : Bytes) (bs : Nat) : Nat → Nat → Option Nat
  | 0, _ => none
  | fuel + 1, pos =>
    if pos + DIRENT_HEADER ≤ bs then
      if ¬ step_ok block bs pos then none
      else if is_entry block name bs pos then some (block.get pos 4)
      else find_in_block block name bs fuel (pos + block.get (pos + 4) 2)
    else none

/-- A record of `len` bytes, padded with zeros. -/
def record (ino len : Nat) (name : Bytes) (file_type : FileType) : Bytes :=
  Bytes.le 4 ino ++ Bytes.le 2 len ++ [UInt8.ofNat name.length, type_code file_type] ++ name ++
    List.replicate (len - DIRENT_HEADER - name.length) 0

/-- The bytes of the record at `pos` that its own name needs. -/
def in_use (block : Bytes) (pos : Nat) : Nat :=
  if block.get pos 4 = 0 then 0 else record_len (block.get (pos + 6) 1)

/-- Split the record at `pos`: what is not in use goes to the new entry. -/
def split_record (block : Bytes) (pos ino : Nat) (name : Bytes) (file_type : FileType) : Bytes :=
  let rec_len := block.get (pos + 4) 2
  let used := in_use block pos
  let block := if used = 0 then block else block.put (pos + 4) (Bytes.le 2 used)
  block.put (pos + used) (record ino (rec_len - used) name file_type)

def insert_into_block (block : Bytes) (usable : Nat) (name : Bytes) (ino : Nat) (file_type : FileType)
    (needed : Nat) : Nat → Nat → Option Bytes
  | 0, _ => none
  | fuel + 1, pos =>
    if pos + DIRENT_HEADER ≤ usable then
      let rec_len := block.get (pos + 4) 2
      if ¬ step_ok block usable pos ∨ in_use block pos > rec_len then none
      else if rec_len - in_use block pos ≥ needed then some (split_record block pos ino name file_type)
      else insert_into_block block usable name ino file_type needed fuel (pos + rec_len)
    else none

/-- The record before a removed one takes over its bytes. The first one is only marked as free. -/
def remove_from_block (block : Bytes) (usable : Nat) (name : Bytes) :
    Nat → Nat → Option Nat → Option (Nat × Bytes)
  | 0, _, _ => none
  | fuel + 1, pos, prev_pos =>
    if pos + DIRENT_HEADER ≤ usable then
      let rec_len := block.get (pos + 4) 2
      if ¬ step_ok block usable pos then none
      else if is_entry block name usable pos then
        match prev_pos with
        | some prev =>
          some (block.get pos 4, block.put (prev + 4) (Bytes.le 2 (block.get (prev + 4) 2 + rec_len)))
        | none => some (block.get pos 4, block.put pos (Bytes.le 4 0))
      else remove_from_block block usable name fuel (pos + rec_len) (some pos)
    else none

/-! ## The whole directory -/

def find_in_blocks (d : WriteAt σ) (fuel : Nat) (dir : Inode) (name : Bytes) : List Nat → FsM σ (Option Nat)
  | [] => return none
  | lblock :: rest => do
    match ← map_block d fuel dir lblock with
    | none => find_in_blocks d fuel dir name rest
    | some phys => do
      let sb := (← get).sb
      let offset ← check (sb.metadata_block_offset phys)
      let block ← read_at d offset sb.block_size
      match find_in_block block name sb.block_size sb.block_size 0 with
      | some ino => return some ino
      | none => find_in_blocks d fuel dir name rest

def dir_blocks (sb : Superblock) (dir : Inode) : List Nat := List.range (div_ceil dir.size sb.block_size)

def find_entry (d : WriteAt σ) (fuel : Nat) (dir : Inode) (name : Bytes) : FsM σ (Option Nat) := do
  find_in_blocks d fuel dir name (dir_blocks (← get).sb dir)

def usable (sb : Superblock) (seed : Seed) : Nat :=
  if seed.enabled then sb.block_size - DIR_TAIL_SIZE else sb.block_size

/-- A directory block with its checksum. -/
def signed_dir_block (seed : Seed) (dir_ino generation : Nat) (block : Bytes) : Bytes :=
  match seed.dir_block dir_ino generation block with
  | some csum => block.put (block.length - 4) (Bytes.le 4 csum)
  | none => block

/-- The inode of a directory that can be changed. -/
def open_dir (d : WriteAt σ) (dir_ino : Nat) (what : String) : FsM σ Inode := do
  let dir ← read_inode d dir_ino
  if ¬ dir.file_type.is_dir then fail (.NotADirectory ("inode " ++ toString dir_ino))
  if has dir.flags INODE_FL_INDEX then
    fail (.UnsupportedFsFeature (what ++ " a hash-indexed (htree) directory"))
  if dir.is_inline then fail (.UnsupportedFsFeature (what ++ " an inline_data directory"))
  return dir

def link_in_blocks (d : WriteAt σ) (fuel : Nat) (seed : Seed) (dir : Inode) (dir_ino : Nat) (name : Bytes)
    (ino : Nat) (file_type : FileType) : List Nat → FsM σ Unit
  | [] => fail (.UnsupportedFsFeature "directory is full and extending a directory is not implemented")
  | lblock :: rest => do
    match ← map_block d fuel dir lblock with
    | none => link_in_blocks d fuel seed dir dir_ino name ino file_type rest
    | some phys => do
      let sb := (← get).sb
      let offset ← check (sb.metadata_block_offset phys)
      let block ← read_at d offset sb.block_size
      match insert_into_block block (usable sb seed) name ino file_type (record_len name.length)
          sb.block_size 0 with
      | none => link_in_blocks d fuel seed dir dir_ino name ino file_type rest
      | some block => write_at d offset (signed_dir_block seed dir_ino dir.generation block)

def link_file (d : WriteAt σ) (fuel : Nat) (dir_ino : Nat) (name : Bytes) (ino : Nat) (file_type : FileType) :
    FsM σ Unit := do
  let seed ← check (Seed.for_writing (← get).sb)
  check (validate_name name)
  let dir ← open_dir d dir_ino "writing into"
  if (← find_entry d fuel dir name).isSome then fail (.AlreadyExists (Utf8.text name))
  link_in_blocks d fuel seed dir dir_ino name ino file_type (dir_blocks (← get).sb dir)

def unlink_in_blocks (d : WriteAt σ) (fuel : Nat) (seed : Seed) (dir : Inode) (dir_ino : Nat) (name : Bytes) :
    List Nat → FsM σ Nat
  | [] => fail (.NotFound (Utf8.text name))
  | lblock :: rest => do
    match ← map_block d fuel dir lblock with
    | none => unlink_in_blocks d fuel seed dir dir_ino name rest
    | some phys => do
      let sb := (← get).sb
      let offset ← check (sb.metadata_block_offset phys)
      let block ← read_at d offset sb.block_size
      match remove_from_block block (usable sb seed) name sb.block_size 0 none with
      | none => unlink_in_blocks d fuel seed dir dir_ino name rest
      | some (removed_ino, block) => do
        write_at d offset (signed_dir_block seed dir_ino dir.generation block)
        return removed_ino

def unlink_file (d : WriteAt σ) (fuel : Nat) (dir_ino : Nat) (name : Bytes) : FsM σ Nat := do
  let seed ← check (Seed.for_writing (← get).sb)
  check (validate_name name)
  let dir ← open_dir d dir_ino "modifying"
  unlink_in_blocks d fuel seed dir dir_ino name (dir_blocks (← get).sb dir)

end LuksAndroid.Ext4

import LuksAndroid.Ext4.File
import LuksAndroid.Ext4.Path

/-!
# Directories, renames and deletions

`create_directory` and `rename_file` of `core/src/fs/ext4/file.rs`, and `delete_file` of
`core/src/fs/ext4/mod.rs`. A directory is emptied before it is deleted.
-/

namespace LuksAndroid.Ext4

open Word

variable {σ : Type}

def MAX_DELETE_DEPTH : Nat := 1024

/-! ## New directories -/

/-- The first block of a directory, without its checksum. -/
def dot_entries (seed : Seed) (bs ino dir_ino : Nat) : Bytes :=
  let dotdot_len := if seed.enabled then bs - 12 - DIR_TAIL_SIZE else bs - 12
  let dots := Bytes.le 4 ino ++ Bytes.le 2 12 ++ [1, 2, 0x2E, 0, 0, 0] ++
    Bytes.le 4 dir_ino ++ Bytes.le 2 dotdot_len ++ [2, 2, 0x2E, 0x2E]
  let tail := if seed.enabled then Bytes.le 4 0 ++ Bytes.le 2 DIR_TAIL_SIZE ++ [0, 0xDE, 0, 0, 0, 0] else []
  dots ++ List.replicate (bs - dots.length - tail.length) 0 ++ tail

def patch_inode_links_count (d : WriteAt σ) (ino : Nat) (delta : Int) : FsM σ Unit := do
  let fs ← get
  let seed ← check (Seed.for_writing fs.sb)
  let offset ← check (inode_offset fs.sb fs.groups ino)
  let raw ← read_at d offset fs.sb.inode_size
  let new_links : Int := raw.get 0x1A 2 + delta
  if new_links < 0 ∨ new_links ≥ 2 ^ 16 then fail (.CorruptFs "inode links count underflow/overflow")
  let raw ← sign_inode seed ino (raw.put 0x1A (Bytes.le 2 new_links.toNat))
  write_at d offset raw
  flush d

/-- The blocks of a directory, and the undoing of its inode alone when there are none. -/
def reserve_dir_block (d : WriteAt σ) (ino : Nat) : FsM σ (List Extent) :=
  or_undo (alloc_blocks d 0 1) do
    ignore (free_inode d ino true)
    ignore (flush d)

def create_directory (d : WriteAt σ) (fuel now dir_ino : Nat) (name : Bytes) : FsM σ Nat := do
  let sb := (← get).sb
  let seed ← check (Seed.for_writing sb)
  check (validate_name name)
  let parent ← read_inode d dir_ino
  if ¬ parent.file_type.is_dir then fail (.NotADirectory ("inode " ++ toString dir_ino))
  let ino ← alloc_inode d true
  let extents ← reserve_dir_block d ino
  let block_phys ← first_block extents
  let block := signed_dir_block seed ino 0 (dot_entries seed sb.block_size (ino % 2 ^ 32) dir_ino)
  let undo := undo_new_dir d ino extents
  let offset ← or_undo (check (sb.metadata_block_offset block_phys)) undo
  or_undo (write_at d offset block) undo
  or_undo (write_directory_inode_record d now ino block_phys seed) undo
  or_undo (flush d) undo
  or_undo (link_file d fuel dir_ino name ino .Directory) undo
  or_undo (patch_inode_links_count d dir_ino 1) do
    ignore (unlink_file d fuel dir_ino name)
    undo
  return ino % 2 ^ 32

/-! ## The blocks of an inode -/

/-- The extents of a leaf. -/
def leaf_extents (node : Bytes) (entries : Nat) : List Extent :=
  (List.range entries).filterMap fun i =>
    let len := (extent_len (node.get (12 + i * 12 + 4) 2)).1
    if len = 0 then none
    else some ⟨node.get (12 + i * 12 + 8) 4 + node.get (12 + i * 12 + 6) 2 * 2 ^ 32, len⟩

/-- The extents of the leaves that an index names. -/
def collect_leaves (d : WriteAt σ) : List Nat → FsM σ (List Extent)
  | [] => return []
  | child_phys :: rest => do
    let buf ← read_block d child_phys (← get).sb.block_size
    if buf.get 0 2 ≠ EXTENT_MAGIC then fail (.BadExtentHeader (buf.get 0 2))
    if buf.get 6 2 ≠ 0 then fail (.BadExtentTree "expected leaf node at depth 0 in extent tree")
    if 12 + buf.get 2 2 * 12 > buf.length then fail (.BadExtentTree "child entry count exceeds block size")
    return leaf_extents buf (buf.get 2 2) ++ (← collect_leaves d rest)

/-- The blocks of the contents and the blocks of the tree itself. -/
def collect_extents (d : WriteAt σ) (inode : Inode) : FsM σ (List Extent × List Extent) := do
  if inode.is_inline then return ([], [])
  if ¬ inode.uses_extents then fail (.UnsupportedFsFeature "deleting files with indirect block mapping")
  let area := inode.block_area
  if area.get 0 2 ≠ EXTENT_MAGIC then fail (.BadExtentHeader (area.get 0 2))
  let entries := area.get 2 2
  if 12 + entries * 12 > area.length then fail (.BadExtentTree "entry count exceeds node size")
  if area.get 6 2 = 0 then return (leaf_extents area entries, [])
  if area.get 6 2 = 1 then
    let children := (List.range entries).map fun i =>
      area.get (12 + i * 12 + 4) 4 + area.get (12 + i * 12 + 8) 2 * 2 ^ 32
    let data ← collect_leaves d children
    return (data, children.map fun b => ⟨b, 1⟩)
  fail (.UnsupportedFsFeature "file has extent tree depth > 1")

/-- Give back an inode and all its blocks. -/
def release (d : WriteAt σ) (ino : Nat) (was_dir : Bool) (data index : List Extent) : FsM σ Unit := do
  free_inode d ino was_dir
  free_blocks d data
  if ¬ index.isEmpty then free_blocks d index
  flush d

/-! ## Renames -/

/-- Delete the file that a rename replaces. -/
def replace_file (d : WriteAt σ) (fuel dir_ino : Nat) (new_name : Bytes) (dest_ino : Nat) : FsM σ Unit := do
  let dest ← read_inode d dest_ino
  if dest.file_type.is_dir then
    fail (.UnsupportedFsFeature "overwriting a directory with a file is not supported")
  if dest.links > 1 then fail (.UnsupportedFsFeature "overwriting a hardlinked file is not supported")
  let (data, index) ← collect_extents d dest
  let removed_ino ← unlink_file d fuel dir_ino new_name
  if removed_ino ≠ dest_ino then fail (.CorruptFs "unlinked dest inode number mismatch")
  release d dest_ino false data index

def rename_file (d : WriteAt σ) (fuel dir_ino : Nat) (old_name new_name : Bytes) : FsM σ Unit := do
  let _ ← check (Seed.for_writing (← get).sb)
  if old_name.contains SLASH ∨ new_name.contains SLASH then
    fail (.UnsupportedFsFeature "cross-directory rename is not supported")
  check (validate_name old_name)
  check (validate_name new_name)
  let dir ← read_inode d dir_ino
  if old_name = new_name then
    if (← find_entry d fuel dir old_name).isNone then fail (.NotFound (Utf8.text old_name))
    return
  if ¬ dir.file_type.is_dir then fail (.NotADirectory ("inode " ++ toString dir_ino))
  match ← find_entry d fuel dir old_name with
  | none => fail (.NotFound (Utf8.text old_name))
  | some old_ino => do
    let old_inode ← read_inode d old_ino
    if old_inode.file_type.is_dir then fail (.UnsupportedFsFeature "renaming a directory is not supported")
    if ¬ old_inode.file_type.is_file then
      fail (.UnsupportedFsFeature "renaming non-regular files is not supported")
    match ← find_entry d fuel dir new_name with
    | none => pure ()
    | some dest_ino => replace_file d fuel dir_ino new_name dest_ino
    let removed_ino ← unlink_file d fuel dir_ino old_name
    if removed_ino ≠ old_ino then fail (.CorruptFs "unlinked old inode number mismatch")
    or_undo (link_file d fuel dir_ino new_name old_ino .Regular) do
      ignore (link_file d fuel dir_ino old_name old_ino .Regular)
      ignore (flush d)
    flush d

/-! ## Deletions -/

/-- Delete what has no children any more. -/
def delete_leaf (d : WriteAt σ) (fuel depth : Nat) (path name : Bytes) (parent_ino : Nat) (target_is_dir : Bool) :
    FsM σ Unit := do
  let target ← resolve_no_follow d fuel depth path
  if ¬ target_is_dir ∧ target.links > 1 then
    fail (.UnsupportedFsFeature "deleting files with links_count > 1 (hardlinks)")
  let (data, index) ← collect_extents d target
  let removed_ino ← unlink_file d fuel parent_ino name
  if removed_ino ≠ target.number then fail (.CorruptFs "unlinked inode number mismatch")
  if target_is_dir then patch_inode_links_count d (parent_ino % 2 ^ 32) (-1)
  release d target.number target_is_dir data index

/-- Delete the children one after the other. `again` deletes one of them. -/
def delete_children (again : Bytes → FsM σ Unit) (base : Bytes) : List DirEntry → FsM σ Unit
  | [] => return
  | child :: rest => do
    again (base ++ SLASH :: child.name)
    delete_children again base rest

/-- The first number is how many levels down it may still go, counting its own. -/
def delete_file_at_depth (d : WriteAt σ) (fuel depth : Nat) : Nat → Bytes → FsM σ Unit
  | 0, _ => fail (.CorruptFs "directory delete recursed past a sane depth — likely a cycle")
  | levels + 1, path => do
    let trimmed := path.dropWhile (· = SLASH)
    if trimmed = [] then fail (.IsADirectory "/")
    let (parent_path, name) := (rsplit_once trimmed).getD ([], trimmed)
    let parent ← resolve d fuel depth parent_path
    if ¬ parent.file_type.is_dir then
      fail (.NotADirectory ("path /" ++ Utf8.text parent_path))
    let before ← resolve_no_follow d fuel depth path
    if before.file_type.is_dir then
      if before.is_inline then fail (.UnsupportedFsFeature "deleting an inline-data directory")
      let listed ← resolve d fuel depth path
      if ¬ listed.file_type.is_dir then fail (.NotADirectory (Utf8.text path))
      let children ← list_inode d fuel listed
      let base := path.rdropWhile (· = SLASH)
      delete_children (delete_file_at_depth d fuel depth levels) base children
    delete_leaf d fuel depth path name parent.number before.file_type.is_dir

def delete_file (d : WriteAt σ) (fuel depth : Nat) (path : Bytes) : FsM σ Unit := do
  if (path.splitOn SLASH).any fun c => c = [0x2E] ∨ c = [0x2E, 0x2E] then
    fail (.UnsupportedFsFeature "delete path containing '.' or '..' components")
  delete_file_at_depth d fuel depth (MAX_DELETE_DEPTH + 1) path

end LuksAndroid.Ext4

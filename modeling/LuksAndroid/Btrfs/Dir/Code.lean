import LuksAndroid.Btrfs.Fs
import LuksAndroid.Crc32c
import LuksAndroid.FileType

/-!
# Inodes, directory entries and paths

`core/src/fs/btrfs/inode.rs`, `core/src/fs/btrfs/dir.rs`, the name hash of
`core/src/fs/btrfs/crc32c.rs`, the payload builders of
`core/src/fs/btrfs/write/node.rs` and `tree_root` of `core/src/fs/btrfs/mod.rs`.
-/

namespace LuksAndroid.Btrfs

/-! ## The name hash -/

def name_hash (name : Bytes) : Nat := crc32c_seed 0xFFFFFFFE name

/-! ## Inodes -/

def INODE_ITEM_SIZE : Nat := 160

structure Inode where
  objectid : Nat
  size : Nat
  nbytes : Nat
  nlink : Nat
  uid : Nat
  gid : Nat
  mode : Nat
deriving DecidableEq, Repr

def Inode.parse (objectid : Nat) (data : Bytes) : Except LuksError Inode :=
  if data.length < INODE_ITEM_SIZE then .error (.CorruptFs "btrfs inode item truncated")
  else .ok {
    objectid
    size := data.get 16 8
    nbytes := data.get 24 8
    nlink := data.get 40 4
    uid := data.get 44 4
    gid := data.get 48 4
    mode := data.get 52 4 }

def mode_to_type (mode : Nat) : FileType :=
  match mode &&& 0xF000 with
  | 0x8000 => .Regular
  | 0x4000 => .Directory
  | 0xA000 => .Symlink
  | 0x2000 => .CharDevice
  | 0x6000 => .BlockDevice
  | 0x1000 => .Fifo
  | 0xC000 => .Socket
  | _ => .Unknown

def Inode.file_type (i : Inode) : FileType := mode_to_type i.mode

/-! ## Directory entries -/

def DIR_ITEM_HEAD : Nat := 30

def dir_type_to_file_type : Nat → FileType
  | 1 => .Regular
  | 2 => .Directory
  | 3 => .CharDevice
  | 4 => .BlockDevice
  | 5 => .Fifo
  | 6 => .Socket
  | 7 => .Symlink
  | _ => .Unknown

structure DirEntryItem where
  name : Bytes
  location : Key
  file_type : FileType
deriving DecidableEq, Repr

def DirEntryItem.is_subvolume (e : DirEntryItem) : Bool := e.location.item_type = ROOT_ITEM_KEY

def dir_entry_data_len (b : Bytes) : Nat := b.get 25 2

def dir_entry_name_len (b : Bytes) : Nat := b.get 27 2

/-- The entry at the start of the bytes. -/
def dir_entry_at (b : Bytes) : DirEntryItem where
  name := b.slice DIR_ITEM_HEAD (dir_entry_name_len b)
  location := ⟨b.get 0 8, b.get 8 1, b.get 9 8⟩
  file_type := dir_type_to_file_type (b.get 29 1)

def dir_entry_total (b : Bytes) : Nat := DIR_ITEM_HEAD + dir_entry_name_len b + dir_entry_data_len b

/-- The loop over the packed entries. Every round uses up bytes, so their number bounds the rounds. -/
def parse_dir_entries_loop : Nat → Bytes → Except LuksError (List DirEntryItem)
  | 0, _ => return []
  | rounds + 1, data => do
    if data.isEmpty then return []
    if data.length < DIR_ITEM_HEAD then
      throw (.CorruptFs "btrfs directory entry truncated")
    let total := dir_entry_total data
    if total > data.length then
      throw (.CorruptFs "btrfs directory entry overruns")
    let rest ← parse_dir_entries_loop rounds (data.drop total)
    return dir_entry_at data :: rest

def parse_dir_entries (data : Bytes) : Except LuksError (List DirEntryItem) :=
  parse_dir_entries_loop data.length data

/-! ## Payload builders -/

def build_empty_inode_item (generation mode uid gid nlink sec nsec : Nat) : Bytes :=
  let time := Bytes.le 8 sec ++ Bytes.le 4 nsec
  Bytes.le 8 generation ++ Bytes.le 8 generation ++ Bytes.le 8 0 ++ Bytes.le 8 0 ++ Bytes.le 8 0 ++
    Bytes.le 4 nlink ++ Bytes.le 4 uid ++ Bytes.le 4 gid ++ Bytes.le 4 mode ++ Bytes.le 8 0 ++
    Bytes.le 8 0 ++ Bytes.le 8 1 ++ List.replicate 32 0 ++ time ++ time ++ time ++ time

def build_dir_item (child_ino transid file_type : Nat) (name : Bytes) : Bytes :=
  Bytes.le 8 child_ino ++ Bytes.le 1 INODE_ITEM_KEY ++ Bytes.le 8 0 ++ Bytes.le 8 transid ++
    Bytes.le 2 0 ++ Bytes.le 2 name.length ++ Bytes.le 1 file_type ++ name

/-! ## Lookup -/

namespace Mount

def find_item (fs : Mount) (root : Nat) (key : Key) : Except LuksError (Option Bytes) :=
  Btrfs.find_item fs.read_node root key

def for_each_item {σ : Type} (fs : Mount) (root objectid item_type : Nat)
    (visit : σ → Key → Bytes → Except LuksError (σ × Bool)) (s : σ) : Except LuksError σ :=
  Btrfs.for_each_item fs.read_node root objectid item_type visit s

def read_inode (fs : Mount) (tree objectid : Nat) : Except LuksError Inode := do
  match ← fs.find_item tree ⟨objectid, INODE_ITEM_KEY, 0⟩ with
  | none => throw (.BadInode objectid)
  | some data => Inode.parse objectid data

def lookup (fs : Mount) (tree dir : Nat) (name : Bytes) : Except LuksError (Option DirEntryItem) := do
  match ← fs.find_item tree ⟨dir, DIR_ITEM_KEY, name_hash name⟩ with
  | none => return none
  | some data => return (← parse_dir_entries data).find? fun e => e.name = name

/-- Where the tree with this objectid is rooted: its newest root item. -/
def tree_root (fs : Mount) (objectid : Nat) : Except LuksError TreeRoot := do
  let c ← Cursor.search_le fs.read_node fs.sb.root ⟨objectid, ROOT_ITEM_KEY, 2 ^ 64 - 1⟩
  if ¬ c.valid then throw (.CorruptFs "btrfs root item is missing")
  let found ← c.key
  if found.objectid ≠ objectid ∨ found.item_type ≠ ROOT_ITEM_KEY then
    throw (.CorruptFs "btrfs root item is missing")
  let data ← c.data
  if data.length < 239 then throw (.CorruptFs "btrfs root item truncated")
  return {
    objectid
    bytenr := data.get 176 8
    level := data.get 238 1
    root_dirid := data.get 168 8
    generation := data.get 160 8
    flags := data.get 208 8 }

end Mount

/-! ## Paths -/

/-- An inode together with the tree it belongs to. -/
structure Located where
  tree : TreeRoot
  inode : Inode

/-- The components of a path that name something. -/
def components (path : Bytes) : List Bytes :=
  (path.splitOn 0x2F).filter fun c => c ≠ [] ∧ c ≠ [0x2E]

def resolve_components (fs : Mount) (path : Bytes) :
    List Bytes → TreeRoot → Nat → Except LuksError Located
  | [], tree, current => return ⟨tree, ← fs.read_inode tree.bytenr current⟩
  | component :: rest, tree, current => do
    if component = [0x2E, 0x2E] then
      throw (.UnsupportedFsFeature "btrfs path containing '..'")
    let parent ← fs.read_inode tree.bytenr current
    if ¬ parent.file_type.is_dir then throw (.NotADirectory (Utf8.text path))
    match ← fs.lookup tree.bytenr current component with
    | none => throw (.NotFound (Utf8.text path))
    | some entry =>
      if entry.is_subvolume then
        -- The location is a tree, not an inode: go on at that tree's root directory.
        let tree ← fs.tree_root entry.location.objectid
        resolve_components fs path rest tree tree.root_dirid
      else if entry.location.item_type ≠ INODE_ITEM_KEY then
        throw (.CorruptFs "btrfs directory entry points at something that is not an inode")
      else resolve_components fs path rest tree entry.location.objectid

def resolve_no_follow (fs : Mount) (start : TreeRoot) (path : Bytes) : Except LuksError Located :=
  resolve_components fs path (components path) start start.root_dirid

end LuksAndroid.Btrfs

import LuksAndroid.Ext4.Dirent

/-!
# Contents, listings and paths

The rest of the reading side of `core/src/fs/ext4/mod.rs`. A path is the bytes of its text.
Resolving a path may resolve others, and nothing bounds that, so it takes a depth. The type,
the size and the time of a listed entry are left out: nothing here uses them.
-/

namespace LuksAndroid.Ext4

open Word

variable {σ : Type}

def MAX_SYMLINK_DEPTH : Nat := 8

/-! ## Text -/

def SLASH : UInt8 := 0x2F

/-- U+FFFD. -/
def REPLACEMENT : Bytes := [0xEF, 0xBF, 0xBD]

/-- The bytes that may come second after this first one, and how many come after it. -/
def second_byte (b : UInt8) : Option (UInt8 × UInt8 × Nat) :=
  if 0xC2 ≤ b ∧ b ≤ 0xDF then some (0x80, 0xBF, 1)
  else if b = 0xE0 then some (0xA0, 0xBF, 2)
  else if b = 0xED then some (0x80, 0x9F, 2)
  else if 0xE1 ≤ b ∧ b ≤ 0xEF then some (0x80, 0xBF, 2)
  else if b = 0xF0 then some (0x90, 0xBF, 3)
  else if 0xF1 ≤ b ∧ b ≤ 0xF3 then some (0x80, 0xBF, 3)
  else if b = 0xF4 then some (0x80, 0x8F, 3)
  else none

/-- How many of the next bytes go on with a character, at most `n`. -/
def continued (lo hi : UInt8) : Nat → Bytes → Nat
  | 0, _ => 0
  | _, [] => 0
  | n + 1, b :: rest => if lo ≤ b ∧ b ≤ hi then continued 0x80 0xBF n rest + 1 else 0

/-- `String::from_utf8_lossy`. What does not go on as a character is replaced as one piece. -/
def from_utf8_lossy : Nat → Bytes → Bytes
  | 0, _ => []
  | _, [] => []
  | fuel + 1, b :: rest =>
    if b < 0x80 then b :: from_utf8_lossy fuel rest
    else
      match second_byte b with
      | none => REPLACEMENT ++ from_utf8_lossy fuel rest
      | some (lo, hi, n) =>
        let k := continued lo hi n rest
        (if k = n then b :: rest.take k else REPLACEMENT) ++ from_utf8_lossy fuel (rest.drop k)

/-- `path.split('/')`, without the empty pieces and those that are a dot. -/
def components (path : Bytes) : List Bytes :=
  (path.splitOn SLASH).filter fun c => c ≠ [] ∧ c ≠ [0x2E]

def join (walked : List Bytes) : Bytes := [SLASH].intercalate walked

/-- `path.rsplit_once('/')`. -/
def rsplit_once (path : Bytes) : Option (Bytes × Bytes) :=
  match path.reverse.span (· ≠ SLASH) with
  | (_, []) => none
  | (name, _ :: parent) => some (parent.reverse, name.reverse)

/-! ## Contents -/

/-- The loop of `read_inode_data`: from `pos` on, `want` bytes. -/
def read_runs (d : WriteAt σ) (fuel : Nat) (inode : Inode) : Nat → Nat → Nat → FsM σ Bytes
  | 0, _, _ => return []
  | n + 1, pos, want =>
    if want = 0 then return []
    else do
      let sb := (← get).sb
      let bs := sb.block_size
      let (phys, run_blocks) ← map_run d fuel inode (pos / bs)
      let within := pos % bs
      let take := min (min (run_blocks * bs) (size - 1) - within) want
      let head ← match phys with
        | none => pure (List.replicate take 0)
        | some start => do
          if (checked_add start run_blocks).all fun stop => stop > sb.blocks_count then
            fail (.CorruptFs "block pointer past end of filesystem")
          read_at d (wrapping_add (wrapping_mul start bs) within) take
      return head ++ (← read_runs d fuel inode n (pos + take) (want - take))

/-- The first `n` bytes of a file. -/
def read_inode_data (d : WriteAt σ) (fuel : Nat) (inode : Inode) (n : Nat) : FsM σ Bytes := do
  let want := min n inode.size
  if want = 0 then return []
  if inode.is_inline then
    if inode.size > 60 then fail (.UnsupportedFsFeature "inline_data larger than 60 bytes")
    return inode.block_area.take want
  read_runs d fuel inode want 0 want

def link_target (d : WriteAt σ) (fuel : Nat) (inode : Inode) : FsM σ Bytes := do
  if inode.size < 60 then
    return from_utf8_lossy inode.size (inode.block_area.take inode.size)
  return from_utf8_lossy inode.size (← read_inode_data d fuel inode inode.size)

/-! ## Listings -/

structure DirEntry where
  name : Bytes
  inode : Nat
deriving DecidableEq, Repr

/-- The entries of one block. The inode of each is read, and no harm comes from a failure. -/
def list_block (d : WriteAt σ) (block : Bytes) (bs : Nat) : Nat → Nat → FsM σ (List DirEntry)
  | 0, _ => return []
  | fuel + 1, pos =>
    if pos + DIRENT_HEADER ≤ bs ∧ step_ok block bs pos then do
      let ino := block.get pos 4
      let name_len := block.get (pos + 6) 1
      let raw := block.slice (pos + DIRENT_HEADER) name_len
      if ino ≠ 0 then ignore (read_inode d ino)
      let rest ← list_block d block bs fuel (pos + block.get (pos + 4) 2)
      if ino ≠ 0 ∧ pos + DIRENT_HEADER + name_len ≤ bs ∧ raw ≠ [0x2E] ∧ raw ≠ [0x2E, 0x2E] then
        return ⟨from_utf8_lossy raw.length raw, ino⟩ :: rest
      return rest
    else return []

def list_blocks (d : WriteAt σ) (fuel : Nat) (inode : Inode) : List Nat → FsM σ (List DirEntry)
  | [] => return []
  | lblock :: rest => do
    match ← map_block d fuel inode lblock with
    | none => list_blocks d fuel inode rest
    | some phys => do
      let bs := (← get).sb.block_size
      let block ← read_block d phys bs
      let entries ← list_block d block bs bs 0
      return entries ++ (← list_blocks d fuel inode rest)

def list_inode (d : WriteAt σ) (fuel : Nat) (inode : Inode) : FsM σ (List DirEntry) := do
  list_blocks d fuel inode (dir_blocks (← get).sb inode)

/-! ## Paths -/

/-- Follow a link in the middle of a path. `again` resolves another path. -/
def follow (d : WriteAt σ) (fuel : Nat) (again : Bytes → FsM σ Inode) (path : Bytes) :
    Nat → Inode → List Bytes → FsM σ (Inode × List Bytes)
  | n, current, walked =>
    if current.file_type ≠ .Symlink then return (current, walked)
    else
      match n with
      | 0 => fail (.SymlinkLoop (Utf8.text path))
      | n + 1 => do
        let target ← link_target d fuel current
        let next := if target.head? = some SLASH then target
          else SLASH :: join walked.dropLast ++ SLASH :: target
        let current ← again next
        follow d fuel again path n current (components next)

def walk (d : WriteAt σ) (fuel : Nat) (again : Bytes → FsM σ Inode) (path : Bytes) :
    List Bytes → Inode → List Bytes → FsM σ Inode
  | [], current, _ => return current
  | component :: rest, current, walked =>
    if component = [0x2E, 0x2E] then do
      let current ← again (SLASH :: join walked.dropLast)
      walk d fuel again path rest current walked.dropLast
    else do
      if ¬ current.file_type.is_dir then fail (.NotADirectory (Utf8.text (SLASH :: join walked)))
      let entries ← list_inode d fuel current
      match entries.find? (·.name = component) with
      | none => fail (.NotFound (Utf8.text path))
      | some found => do
        let current ← read_inode d found.inode
        let walked := walked ++ [component]
        if rest = [] then return current
        let (current, walked) ← follow d fuel again path MAX_SYMLINK_DEPTH current walked
        walk d fuel again path rest current walked

def resolve_no_follow (d : WriteAt σ) (fuel : Nat) : Nat → Bytes → FsM σ Inode
  | 0, _ => throw .spin
  | depth + 1, path => do
    let root ← read_inode d ROOT_INODE
    walk d fuel (resolve_no_follow d fuel depth) path (components path) root []

def resolve (d : WriteAt σ) (fuel depth : Nat) (path : Bytes) : FsM σ Inode := do
  let inode ← resolve_no_follow d fuel depth path
  if inode.file_type ≠ .Symlink then return inode
  let target ← link_target d fuel inode
  let resolved := if target.head? = some SLASH then target
    else ((rsplit_once path).map (·.1)).getD [] ++ SLASH :: target
  resolve_no_follow d fuel depth resolved

end LuksAndroid.Ext4

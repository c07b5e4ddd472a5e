import LuksAndroid.Ext4.Alloc.Code
import LuksAndroid.Ext4.Dirent

/-!
# Writing files

The creation of files and directories in `core/src/fs/ext4/file.rs`: in one call, or
through a writer that takes its bytes in chunks. The clock is a parameter.
-/

namespace LuksAndroid.Ext4

open Word

variable {σ : Type}

def MAX_INLINE_EXTENTS : Nat := 4
def MAX_EXTENT_LEN : Nat := 32768

/-- Consecutive blocks of a file on consecutive blocks of the device. -/
structure Run where
  logical : Nat
  physical : Nat
  len : Nat
deriving DecidableEq, Repr

/-! ## Runs -/

def coalesce_onto : Extent → List Extent → List Extent
  | last, [] => [last]
  | last, e :: rest =>
    if wrapping_add last.physical last.len = e.physical then
      coalesce_onto { last with len := wrapping_add last.len e.len } rest
    else last :: coalesce_onto e rest

def coalesce_extents : List Extent → List Extent
  | [] => []
  | e :: rest => coalesce_onto e rest

/-- Cut one extent into runs that an entry can describe. `left` blocks are still to go. -/
def cut_extent : Nat → Nat → Nat → Nat → List Run
  | 0, _, _, _ => []
  | fuel + 1, logical, physical, left =>
    if left = 0 then []
    else
      let len := min left MAX_EXTENT_LEN
      ⟨logical, physical, len⟩ :: cut_extent fuel (logical + len) (wrapping_add physical len) (left - len)

def lay_out : Nat → List Extent → List Run
  | _, [] => []
  | logical, e :: rest => cut_extent (e.len + 1) logical e.physical e.len ++ lay_out (logical + e.len) rest

def TOO_MANY_EXTENTS : LuksError := .UnsupportedFsFeature
  "file needs more extents than the max leaf node size — multi-leaf extent trees (depth > 1) are not supported"

def runs_from (extents : List Extent) (max_runs : Nat) : Except LuksError (List Run) :=
  let runs := lay_out 0 (coalesce_extents extents)
  if runs.length > max_runs then .error TOO_MANY_EXTENTS else .ok runs

def Superblock.max_runs (sb : Superblock) : Nat := (sb.block_size - 12 - 4) / 12

/-! ## Extent trees -/

def extent_entry (r : Run) : Bytes :=
  Bytes.le 4 r.logical ++ Bytes.le 2 r.len ++ Bytes.le 2 (r.physical / 2 ^ 32) ++ Bytes.le 4 r.physical

def extent_header (entries max depth : Nat) : Bytes :=
  Bytes.le 2 EXTENT_MAGIC ++ Bytes.le 2 entries ++ Bytes.le 2 max ++ Bytes.le 2 depth ++ Bytes.le 4 0

def pad (n : Nat) (b : Bytes) : Bytes := b ++ List.replicate (n - b.length) 0

/-- The 60 bytes of an inode's block area. -/
def write_extent_tree (runs : List Run) (leaf_block : Option Nat) : FsM σ Bytes := do
  match leaf_block with
  | some lb =>
    match runs with
    | [] => panicked
    | r :: _ =>
      return pad 60 (extent_header 1 MAX_INLINE_EXTENTS 1 ++ Bytes.le 4 r.logical ++ Bytes.le 4 lb ++
        Bytes.le 2 (lb / 2 ^ 32) ++ Bytes.le 2 0)
  | none =>
    if runs.length > MAX_INLINE_EXTENTS then fail (.UnsupportedFsFeature "more extents than fit inline")
    return pad 60 (extent_header runs.length MAX_INLINE_EXTENTS 0 ++ runs.flatMap extent_entry)

/-- A leaf block with its checksum. -/
def extent_leaf (seed : Seed) (bs max_runs ino : Nat) (runs : List Run) : Bytes :=
  let block := pad bs (extent_header runs.length max_runs 0 ++ runs.flatMap extent_entry)
  match seed.extent_block ino 0 block with
  | some csum => block.put (bs - 4) (Bytes.le 4 csum)
  | none => block

def write_extent_leaf_block (d : WriteAt σ) (leaf_block ino : Nat) (runs : List Run) (seed : Seed) :
    FsM σ Unit := do
  let sb := (← get).sb
  write_at d (wrapping_mul leaf_block sb.block_size) (extent_leaf seed sb.block_size sb.max_runs ino runs)

/-! ## Inode records -/

/-- What a new inode starts with. -/
structure NewInode where
  mode : Nat
  size : Nat
  links : Nat
  blocks : Nat
  tree : Bytes

/-- The extra size that a new record announces. -/
def extra_isize (sb : Superblock) : Nat :=
  (min (max sb.min_extra_isize 32) ((sb.inode_size - 128) % 2 ^ 16) + 3) / 4 * 4 % 2 ^ 16

def inode_fields (sb : Superblock) (now : Nat) (i : NewInode) : List (Nat × Bytes) :=
  [(0x00, Bytes.le 2 i.mode), (0x04, Bytes.le 4 i.size), (0x08, Bytes.le 4 now), (0x0C, Bytes.le 4 now),
    (0x10, Bytes.le 4 now), (0x1A, Bytes.le 2 i.links),
    (0x1C, Bytes.le 4 (i.blocks % 2 ^ 32 * (sb.block_size / 512))), (0x20, Bytes.le 4 INODE_FL_EXTENTS),
    (0x28, i.tree)] ++
  (if sb.inode_size > 128 then [(0x80, Bytes.le 2 (extra_isize sb))] else []) ++
  if sb.inode_size > 128 ∧ i.size ≥ 2 ^ 32 then [(0x6C, Bytes.le 4 (i.size / 2 ^ 32))] else []

/-- The record before its checksum. -/
def raw_inode (sb : Superblock) (now : Nat) (i : NewInode) : Bytes :=
  Bytes.patch (List.replicate sb.inode_size 0) (inode_fields sb now i)

/-- A record with its checksum. -/
def sign_inode (seed : Seed) (ino : Nat) (raw : Bytes) : FsM σ Bytes := do
  match ← seed.inode ino raw with
  | none => return raw
  | some csum =>
    let raw := raw.put INODE_CSUM_LO_OFFSET (Bytes.le 2 csum)
    if Seed.inode_has_csum_hi raw then return raw.put INODE_CSUM_HI_OFFSET (Bytes.le 2 (csum / 2 ^ 16))
    return raw

/-- Build a record and write it. One of 129 bytes has no room for its extra size. -/
def write_record (d : WriteAt σ) (now ino : Nat) (i : NewInode) (seed : Seed) : FsM σ Unit := do
  let fs ← get
  if fs.sb.inode_size = 129 then panicked
  let raw ← sign_inode seed ino (raw_inode fs.sb now i)
  let offset ← check (inode_offset fs.sb fs.groups ino)
  write_at d offset raw

def write_inode_record (d : WriteAt σ) (now ino size blocks_needed : Nat) (runs : List Run)
    (leaf_block : Option Nat) (seed : Seed) : FsM σ Unit := do
  let tree ← write_extent_tree runs leaf_block
  let total_blocks := if leaf_block.isSome then blocks_needed + 1 else blocks_needed
  write_record d now ino ⟨0x8000 + 0o644, size, 1, total_blocks, tree⟩ seed

def write_directory_inode_record (d : WriteAt σ) (now ino block_phys : Nat) (seed : Seed) : FsM σ Unit := do
  let tree ← write_extent_tree [⟨0, block_phys, 1⟩] none
  write_record d now ino ⟨0x4000 + 0o755, (← get).sb.block_size, 2, 1, tree⟩ seed

/-! ## Undoing -/

def undo_new_file (d : WriteAt σ) (ino : Nat) (extents : List Extent) : FsM σ Unit := do
  ignore (free_inode d ino false)
  ignore (free_blocks d extents)
  ignore (flush d)

def undo_new_dir (d : WriteAt σ) (ino : Nat) (extents : List Extent) : FsM σ Unit := do
  ignore (free_inode d ino true)
  ignore (free_blocks d extents)
  ignore (flush d)

/-- Run a step of a creation. When it fails, undo the creation and fail the same way. -/
def or_undo {α : Type} (x : FsM σ α) (undo : FsM σ Unit) : FsM σ α := do
  match ← attempt x with
  | .ok a => return a
  | .error e => do
    undo
    fail e

/-! ## The blocks of a new file -/

/-- The blocks of a new file: its runs, the block of its leaf if it needs one, and all of them. -/
structure Reserved where
  extents : List Extent
  runs : List Run
  leaf_block : Option Nat
deriving DecidableEq, Repr

/-- The first block of what was allocated. -/
def first_block (extents : List Extent) : FsM σ Nat :=
  match extents with
  | [] => panicked
  | e :: _ => return e.physical

/-- A leaf block, when there are more runs than the inode has room for. -/
def reserve_leaf (d : WriteAt σ) (ino : Nat) (extents : List Extent) (runs : List Run) : FsM σ Reserved := do
  if runs.length > MAX_INLINE_EXTENTS then
    let leaf ← or_undo (alloc_blocks d 0 1) (undo_new_file d ino extents)
    let lb ← first_block leaf
    return ⟨extents ++ leaf, runs, some lb⟩
  return ⟨extents, runs, none⟩

def reserve_blocks (d : WriteAt σ) (ino blocks_needed : Nat) : FsM σ Reserved := do
  let extents ← or_undo (alloc_blocks d 0 blocks_needed) (undo_new_file d ino [])
  let runs ← or_undo (check (runs_from extents (← get).sb.max_runs)) (undo_new_file d ino extents)
  reserve_leaf d ino extents runs

/-! ## Files in chunks -/

structure FileWriter where
  ino : Nat
  extents : List Extent
  runs : List Run
  seed : Seed
  size : Nat
  written : Nat
  blocks_needed : Nat
  leaf_block : Option Nat
  tail : Bytes
  is_streaming : Bool

def begin_file (d : WriteAt σ) (size : Nat) : FsM σ FileWriter := do
  let sb := (← get).sb
  let seed ← check (Seed.for_writing sb)
  let blocks_needed := div_ceil size (max sb.block_size 1)
  let ino ← alloc_inode d false
  let r ← reserve_blocks d ino blocks_needed
  return ⟨ino, r.extents, r.runs, seed, size, 0, blocks_needed, r.leaf_block, [], false⟩

def begin_file_streaming (d : WriteAt σ) : FsM σ FileWriter := do
  let seed ← check (Seed.for_writing (← get).sb)
  let ino ← alloc_inode d false
  return ⟨ino, [], [], seed, 0, 0, 0, none, [], true⟩

/-- Whole blocks from the file offset `at_byte` on. `fuel` bounds the number of runs they cross. -/
def write_full_blocks (d : WriteAt σ) (runs : List Run) : Nat → Nat → Bytes → FsM σ Unit
  | _, _, [] => return
  | 0, _, _ :: _ => throw .spin
  | fuel + 1, at_byte, data@(_ :: _) => do
    let bs := (← get).sb.block_size
    let logical := at_byte / bs
    match runs.find? fun r => r.logical ≤ logical ∧ logical < r.logical + r.len with
    | none => fail .OutOfBounds
    | some run => do
      let in_run := logical - run.logical
      let bytes := min ((run.len - in_run) * bs) data.length
      write_at d (wrapping_mul (wrapping_add run.physical in_run) bs) (data.take bytes)
      write_full_blocks d runs fuel (at_byte + bytes) (data.drop bytes)

/-- The blocks of the file, without the one of its leaf. -/
def FileWriter.data_extents (w : FileWriter) : List Extent :=
  w.extents.filter fun e => some e.physical ≠ w.leaf_block

/-- More blocks for a stream. The writer keeps what it has when the last step fails. -/
def grow (d : WriteAt σ) (w : FileWriter) (blocks_needed : Nat) : FsM σ (FileWriter × Option LuksError) := do
  let current_data_blocks := (w.runs.map (·.len)).sum
  if blocks_needed ≤ current_data_blocks then return (w, none)
  let max_runs := (← get).sb.max_runs
  if w.runs.length ≥ max_runs then return (w, some TOO_MANY_EXTENTS)
  let goal := (w.data_extents.getLast?.map fun e => wrapping_add e.physical e.len).getD 0
  match ← attempt (alloc_blocks d goal (blocks_needed - current_data_blocks)) with
  | .error e => return (w, some e)
  | .ok new_extents =>
    let grown := { w with extents := w.extents ++ new_extents }
    match runs_from grown.data_extents max_runs with
    | .error e => do
      ignore (free_blocks d new_extents)
      return (w, some e)
    | .ok runs =>
      let w := { grown with runs, blocks_needed }
      if runs.length > MAX_INLINE_EXTENTS ∧ w.leaf_block.isNone then
        match ← attempt (alloc_blocks d 0 1) with
        | .error e => return (w, some e)
        | .ok leaf => do
          let lb ← first_block leaf
          return ({ w with leaf_block := some lb, extents := w.extents ++ leaf }, none)
      else return (w, none)

/-- The chunk itself: the tail is filled up first, then whole blocks go out, and the rest waits. -/
def put_chunk (d : WriteAt σ) (w : FileWriter) (data : Bytes) (stop : Nat) :
    FsM σ (FileWriter × Option LuksError) := do
  let bs := (← get).sb.block_size
  let take := if w.tail.isEmpty then 0 else min (bs - w.tail.length) data.length
  let tail := w.tail ++ data.take take
  let input := data.drop take
  let flushed ← if tail.length = bs then
      attempt (write_full_blocks d w.runs (w.runs.length + bs) (w.written - (bs - take)) tail)
    else pure (.ok ())
  match flushed with
  | .error e => return ({ w with tail }, some e)
  | .ok () =>
    let tail := if tail.length = bs then [] else tail
    let full := input.length / bs * bs
    let written ← if full ≠ 0 then
        attempt (write_full_blocks d w.runs (w.runs.length + full) (stop - input.length) (input.take full))
      else pure (.ok ())
    match written with
    | .error e => return ({ w with tail }, some e)
    | .ok () => return ({ w with tail := tail ++ input.drop full, written := stop }, none)

def write_chunk (d : WriteAt σ) (w : FileWriter) (data : Bytes) : FsM σ (FileWriter × Option LuksError) := do
  match checked_add w.written data.length with
  | none => return (w, some .OutOfBounds)
  | some stop =>
    if w.is_streaming then do
      match ← grow d w (div_ceil stop (max (← get).sb.block_size 1)) with
      | (w, some e) => return (w, some e)
      | (w, none) => put_chunk d { w with size := stop } data stop
    else if stop > w.size then return (w, some .OutOfBounds)
    else put_chunk d w data stop

def abandon_file (d : WriteAt σ) (w : FileWriter) : FsM σ Unit := undo_new_file d w.ino w.extents

/-- The size of a stream is what was written. -/
def FileWriter.closed (w : FileWriter) (bs : Nat) : FileWriter :=
  if w.is_streaming then { w with size := w.written, blocks_needed := div_ceil w.written bs } else w

def finish_unlinked (d : WriteAt σ) (now : Nat) (w : FileWriter) : FsM σ Nat := do
  let bs := (← get).sb.block_size
  let w := w.closed bs
  if w.written ≠ w.size then fail .OutOfBounds
  if ¬ w.tail.isEmpty then
    write_full_blocks d w.runs (w.runs.length + bs) (w.written - w.tail.length) (pad bs w.tail)
  match w.leaf_block with
  | none => pure ()
  | some lb => write_extent_leaf_block d lb w.ino w.runs w.seed
  flush d
  write_inode_record d now w.ino w.size w.blocks_needed w.runs w.leaf_block w.seed
  return w.ino

def finish_file (d : WriteAt σ) (fuel now : Nat) (w : FileWriter) (dir_ino : Nat) (name : Bytes)
    (file_type : FileType) : FsM σ Nat := do
  or_undo (check (validate_name name)) (abandon_file d w)
  let ino ← or_undo (finish_unlinked d now w) (abandon_file d w)
  or_undo (link_file d fuel dir_ino name ino file_type) (abandon_file d w)
  return ino

end LuksAndroid.Ext4

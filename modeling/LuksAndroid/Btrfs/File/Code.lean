import LuksAndroid.Btrfs.Logical
import LuksAndroid.Btrfs.Csum.Items

/-!
# Writing a file piece by piece

`write_chunk` of `core/src/fs/btrfs/write/file.rs`. The last sector is kept in `tail_buf` while it
is not full. What is written of it so far is padded with zeros and has its checksum
already, so every piece that arrives takes that checksum back and makes it anew.
-/

namespace LuksAndroid.Btrfs

open Word

/-! ## The ledger -/

def Batch.record_allocation (b : Batch) (start length : Nat) : Except LuksError Batch :=
  match b.handed_out.insert start length with
  | (false, _) => .error (.CorruptFs "double allocation detected in batch allocation ledger")
  | (true, handed_out) => .ok { b with handed_out }

/-! ## The writer -/

structure BtrfsFileWriter where
  size : Nat
  written_bytes : Nat
  /-- Address and length of each run. -/
  data_runs : List (Nat × Nat)
  /-- Address and CRC32C of each sector. -/
  checksums : List (Nat × Nat)
  allocator : FreeSpaceMap
  is_streaming : Bool
  tail_buf : Bytes

/-- What `write_chunk` changes: the device, the open batch and the writer. -/
structure FileState (σ : Type) where
  io : Io σ
  active_batch : Option Batch
  writer : BtrfsFileWriter

abbrev FileM (σ : Type) := EStateM LuksError (FileState σ)

variable {σ : Type}

namespace FileM

def device {α : Type} (x : IoM σ α) : FileM σ α := fun s =>
  match x s.io with
  | .ok a io => .ok a { s with io }
  | .error e io => .error e { s with io }

def allocate {α : Type} (x : AllocM α) : FileM σ α := fun s =>
  match x s.writer.allocator with
  | .ok a allocator => .ok a { s with writer := { s.writer with allocator } }
  | .error e allocator => .error e { s with writer := { s.writer with allocator } }

/-- `if let Some(ref mut batch)`: without a batch nothing is recorded. -/
def record_allocation (start length : Nat) : FileM σ Unit := fun s =>
  match s.active_batch with
  | none => .ok () s
  | some batch =>
    match batch.record_allocation start length with
    | .error e => .error e s
    | .ok batch => .ok () { s with active_batch := some batch }

def writer : FileM σ BtrfsFileWriter := fun s => .ok s.writer s

def update (f : BtrfsFileWriter → BtrfsFileWriter) : FileM σ Unit := fun s => .ok () { s with writer := f s.writer }

end FileM

/-! ## `write_chunk` -/

/-- A whole sector that starts with `data`. -/
def zero_padded (sector_size : Nat) (data : Bytes) : Bytes := data ++ List.replicate (sector_size - data.length) 0

section

variable (d : WriteAt σ) (chunk_map : ChunkMap) (sector_size : Nat)

/-- The loop that makes room for a streamed piece. Each round adds at least one sector. -/
def allocate_more (disk_num_bytes : Nat) : Nat → Nat → FileM σ Unit
  | 0, _ => return ()
  | fuel + 1, allocated_new =>
    if allocated_new < disk_num_bytes then do
      let (bytenr, chunk_len) ← FileM.allocate (allocate_data_chunk (disk_num_bytes - allocated_new) sector_size)
      FileM.record_allocation bytenr chunk_len
      FileM.update fun w => { w with data_runs := w.data_runs ++ [(bytenr, chunk_len)] }
      allocate_more disk_num_bytes fuel (wrapping_add allocated_new chunk_len)
    else return ()

/-- Go on with the sector that the last piece left unfinished. -/
def write_tail (write_addr : Nat) (chunk : Bytes) : FileM σ Nat := do
  let w ← FileM.writer
  if w.tail_buf.isEmpty then return 0
  let needed := wrapping_sub sector_size w.tail_buf.length
  let take_tail := min needed chunk.length
  let tail_data := chunk.take take_tail
  let tail_buf := w.tail_buf ++ tail_data
  FileM.update fun w => { w with tail_buf }
  FileM.device (write_logical d chunk_map write_addr tail_data)
  let prev_bytenr := (w.checksums.getLast?.map Prod.fst).getD write_addr
  if tail_buf.length = sector_size then
    FileM.update fun w =>
      { w with checksums := w.checksums.dropLast ++ [(prev_bytenr, crc32c tail_buf)], tail_buf := [] }
  else
    FileM.update fun w =>
      { w with checksums := w.checksums.dropLast ++ [(prev_bytenr, crc32c (zero_padded sector_size tail_buf))] }
  return take_tail

/-- The whole sectors from `chunk_offset` on. -/
def write_body (write_addr : Nat) (chunk : Bytes) (chunk_offset : Nat) : FileM σ Nat := do
  let aligned_len := (chunk.length - chunk_offset) / sector_size * sector_size
  if aligned_len > 0 then
    let aligned_start_addr := wrapping_add write_addr chunk_offset
    let aligned_data := chunk.slice chunk_offset aligned_len
    FileM.device (write_logical d chunk_map aligned_start_addr aligned_data)
    FileM.update fun w =>
      { w with checksums := w.checksums ++ (List.range (aligned_len / sector_size)).map fun i =>
          (wrapping_add aligned_start_addr (i * sector_size),
            crc32c (aligned_data.slice (i * sector_size) sector_size)) }
    return chunk_offset + aligned_len
  else return chunk_offset

/-- What does not fill a sector. -/
def write_rest (write_addr : Nat) (chunk : Bytes) (chunk_offset : Nat) : FileM σ Unit :=
  if chunk.length > chunk_offset then do
    let sector_bytenr := wrapping_add write_addr chunk_offset
    let rem_data := chunk.drop chunk_offset
    FileM.update fun w => { w with tail_buf := rem_data }
    FileM.device (write_logical d chunk_map sector_bytenr (zero_padded sector_size rem_data))
    FileM.update fun w =>
      { w with checksums := w.checksums ++ [(sector_bytenr, crc32c (zero_padded sector_size rem_data))] }
  else return ()

def write_run (write_addr : Nat) (chunk : Bytes) : FileM σ Unit := do
  let chunk_offset ← write_tail d chunk_map sector_size write_addr chunk
  let chunk_offset ← write_body d chunk_map sector_size write_addr chunk chunk_offset
  write_rest d chunk_map sector_size write_addr chunk chunk_offset

/-- The loop over the runs. -/
def write_runs : List (Nat × Nat) → Bytes → Nat → Nat → FileM σ Unit
  | [], _, _, _ => return ()
  | (bytenr, run_len) :: runs, remaining, written_so_far, file_cursor =>
    let run_file_end := wrapping_add file_cursor run_len
    if written_so_far ≥ run_file_end then write_runs runs remaining written_so_far run_file_end
    else do
      let offset_in_run := wrapping_sub written_so_far file_cursor
      let space_in_run := wrapping_sub run_len offset_in_run
      let take := min space_in_run remaining.length
      write_run d chunk_map sector_size (wrapping_add bytenr offset_in_run) (remaining.take take)
      if (remaining.drop take).isEmpty then return ()
      write_runs runs (remaining.drop take) (wrapping_add written_so_far take) run_file_end

/-- Room for the bytes up to `stop`. -/
def make_room (w : BtrfsFileWriter) (stop : Nat) : FileM σ Unit :=
  if w.is_streaming then
    let total_allocated := (w.data_runs.map Prod.snd).foldl wrapping_add 0
    if stop > total_allocated then
      let disk_num_bytes := wrapping_mul (div_ceil (stop - total_allocated) sector_size) sector_size
      allocate_more sector_size disk_num_bytes disk_num_bytes 0
    else return ()
  else if stop > w.size then throw .OutOfBounds
  else return ()

def write_chunk (data : Bytes) : FileM σ Unit := do
  let w ← FileM.writer
  match checked_add w.written_bytes data.length with
  | none => throw .OutOfBounds
  | some stop =>
    make_room sector_size w stop
    let w ← FileM.writer
    write_runs d chunk_map sector_size w.data_runs data w.written_bytes 0
    FileM.update fun w =>
      { w with written_bytes := stop, size := if w.is_streaming then stop else w.size }

/-- One call after the other. -/
def write_chunks : List Bytes → FileM σ Unit
  | [] => return ()
  | data :: pieces => do
    write_chunk d chunk_map sector_size data
    write_chunks pieces

end

end LuksAndroid.Btrfs

import LuksAndroid.Device
import LuksAndroid.Lib.Word

/-!
# An unlocked volume

`core/src/luks/volume.rs`, the segments of `core/src/luks/header.rs` and the sector
loops of `core/src/luks/keyslot.rs`. The cipher of the `aes` and `xts-mode` crates is
a parameter. The scratch buffer, which every request overwrites, is left out.
-/

namespace LuksAndroid

open Word

inductive SegmentSize where
  | Dynamic
  | Fixed (n : Nat)
deriving DecidableEq, Repr

structure Segment where
  offset : Nat
  size : SegmentSize
  iv_tweak : Nat
  encryption : String
  sector_size : Nat
  flags : List String
deriving DecidableEq, Repr

def Segment.tweak_step (s : Segment) : Nat :=
  if s.flags.any (· = "iv-large-sectors") then 1 else max (s.sector_size / 512) 1

/-- The segments of the metadata, in the order of their names. -/
structure Luks2Header where
  segments : List Segment
deriving DecidableEq, Repr

def Luks2Header.primary_segment (h : Luks2Header) : Except LuksError Segment :=
  match h.segments with
  | [] => .error (.Missing "segments")
  | s :: _ => .ok s

/-! ## The cipher -/

/-- AES-XTS on one sector, in place. -/
structure SectorCipher where
  encrypt_sector : (key : Bytes) → (tweak : Nat) → Bytes → Bytes
  decrypt_sector : (key : Bytes) → (tweak : Nat) → Bytes → Bytes
  length_encrypt : ∀ key tweak b, (encrypt_sector key tweak b).length = b.length
  length_decrypt : ∀ key tweak b, (decrypt_sector key tweak b).length = b.length

/-- The loop over `n` sectors. -/
def xts_sectors (f : Nat → Bytes → Bytes) (sector_size tweak_step : Nat) : Nat → Nat → Bytes → Bytes
  | 0, _, _ => []
  | n + 1, tweak, buf =>
    f tweak (buf.take sector_size) ++
      xts_sectors f sector_size tweak_step n (tweak + tweak_step) (buf.drop sector_size)

/-- What `xts_decrypt` and `xts_encrypt` share. -/
def xts (f : Nat → Bytes → Bytes) (key buf : Bytes) (sector_size first_tweak tweak_step : Nat) :
    Except LuksError Bytes :=
  if sector_size = 0 ∨ buf.length % sector_size ≠ 0 then
    .error (.CorruptFs "XTS length is not a whole number of cipher sectors")
  else if key.length = 64 ∨ key.length = 32 then
    .ok (xts_sectors f sector_size tweak_step (buf.length / sector_size) first_tweak buf)
  else .error (.BadKeyLength key.length)

def xts_decrypt (cipher : SectorCipher) (key buf : Bytes) (sector_size first_tweak tweak_step : Nat) :
    Except LuksError Bytes :=
  xts (cipher.decrypt_sector key) key buf sector_size first_tweak tweak_step

def xts_encrypt (cipher : SectorCipher) (key buf : Bytes) (sector_size first_tweak tweak_step : Nat) :
    Except LuksError Bytes :=
  xts (cipher.encrypt_sector key) key buf sector_size first_tweak tweak_step

/-! ## The volume -/

structure LuksVolume where
  partition_offset : Nat
  segment_offset : Nat
  segment_len : Option Nat
  sector_size : Nat
  iv_tweak : Nat
  tweak_step : Nat
  master_key : Bytes
deriving DecidableEq, Repr

namespace LuksVolume

variable {σ : Type}

/-- The room for the ciphertext: what is left of the container, or of the device. -/
def room (device_len : Option Nat) (partition_offset : Nat) (partition_len : Option Nat)
    (seg : Segment) : Option Nat :=
  (partition_len.or (device_len.bind fun d => checked_sub d partition_offset)).bind fun p =>
    checked_sub p seg.offset

def segment_len_of (size : SegmentSize) (room : Option Nat) : Option Nat :=
  match size, room with
  | .Fixed n, some r => some (min n r)
  | .Fixed n, none => some n
  | .Dynamic, r => r

def with_master_key (device : ReadAt σ) (partition_offset : Nat) (partition_len : Option Nat)
    (header : Luks2Header) (master_key : Bytes) : Except LuksError LuksVolume := do
  let seg ← header.primary_segment
  if seg.encryption ≠ "aes-xts-plain64" then throw (.UnsupportedCipher seg.encryption)
  if seg.sector_size ∉ [512, 1024, 2048, 4096] then throw (.BadSectorSize seg.sector_size)
  return {
    partition_offset
    segment_offset := seg.offset
    segment_len := segment_len_of seg.size (room device.len partition_offset partition_len seg)
    sector_size := seg.sector_size
    iv_tweak := seg.iv_tweak
    tweak_step := seg.tweak_step
    master_key }

variable (cipher : SectorCipher) (v : LuksVolume)

/-- `checked_add`, as the requests use it. -/
def add_or_out_of_bounds (a b : Nat) : Except LuksError Nat :=
  match checked_add a b with
  | some c => .ok c
  | none => .error .OutOfBounds

/-- The end of a request that lies in the volume. -/
def check_range (offset len : Nat) : Except LuksError Nat := do
  let stop ← add_or_out_of_bounds offset len
  match v.segment_len with
  | some volume_len => if stop > volume_len then throw .OutOfBounds else return stop
  | none => return stop

/-- Where a sector of the volume lies on the device. -/
def disk_offset (first_sector : Nat) : Except LuksError Nat := do
  let o ← add_or_out_of_bounds v.partition_offset v.segment_offset
  add_or_out_of_bounds o (first_sector * v.sector_size)

def first_tweak (first_sector : Nat) : Nat := v.iv_tweak + first_sector * v.tweak_step

def read_at (d : ReadAt σ) (offset n : Nat) : IoM σ Bytes := do
  if n = 0 then return []
  let stop ← IoM.lift (v.check_range offset n)
  let ss := v.sector_size
  let first_sector := offset / ss
  let last_sector := div_ceil stop ss
  let span := (last_sector - first_sector) * ss
  let disk_offset ← IoM.lift (v.disk_offset first_sector)
  let scratch ← d.read disk_offset span
  let scratch ← IoM.lift
    (xts_decrypt cipher v.master_key scratch ss (v.first_tweak first_sector) v.tweak_step)
  let skip := offset - first_sector * ss
  return Bytes.slice scratch skip n

def WRITE_CHUNK_BYTES : Nat := 128 * 1024

/-- The plaintext of the covering sectors, with the caller's bytes in place. Whole sectors need no
read. -/
def patched (d : ReadAt σ) (first_sector disk_offset span skip : Nat) (buf : Bytes) : IoM σ Bytes := do
  if skip = 0 ∧ span = buf.length then return buf
  let scratch ← d.read disk_offset span
  let scratch ← IoM.lift
    (xts_decrypt cipher v.master_key scratch v.sector_size (v.first_tweak first_sector) v.tweak_step)
  return Bytes.put scratch skip buf

def write_at_chunk (d : WriteAt σ) (offset : Nat) (buf : Bytes) : IoM σ Unit := do
  let stop ← IoM.lift (add_or_out_of_bounds offset buf.length)
  let ss := v.sector_size
  let first_sector := offset / ss
  let last_sector := div_ceil stop ss
  let span := (last_sector - first_sector) * ss
  let skip := offset - first_sector * ss
  let disk_offset ← IoM.lift (v.disk_offset first_sector)
  let scratch ← v.patched cipher d.toReadAt first_sector disk_offset span skip buf
  let scratch ← IoM.lift
    (xts_encrypt cipher v.master_key scratch ss (v.first_tweak first_sector) v.tweak_step)
  d.write disk_offset scratch

/-- The loop over whole sectors: what is left of the buffer, and where it goes. Every round writes a
byte at least. -/
def write_whole (d : WriteAt σ) : Nat → Nat → Bytes → IoM σ (Nat × Bytes)
  | 0, pos, rest => return (pos, rest)
  | rounds + 1, pos, rest => do
    if rest.length < v.sector_size then return (pos, rest)
    let chunk := WRITE_CHUNK_BYTES / v.sector_size * v.sector_size
    let take := min (rest.length / v.sector_size * v.sector_size) chunk
    v.write_at_chunk cipher d pos (rest.take take)
    write_whole d rounds (pos + take) (rest.drop take)

/-- The bytes up to the first sector boundary. -/
def write_head (d : WriteAt σ) (pos : Nat) (rest : Bytes) : IoM σ (Nat × Bytes) := do
  if pos % v.sector_size = 0 then return (pos, rest)
  let first := min (v.sector_size - pos % v.sector_size) rest.length
  v.write_at_chunk cipher d pos (rest.take first)
  return (pos + first, rest.drop first)

/-- A request that is longer than a chunk. -/
def write_chunks (d : WriteAt σ) (offset : Nat) (buf : Bytes) : IoM σ Unit := do
  let (pos, rest) ← v.write_head cipher d offset buf
  let (pos, rest) ← v.write_whole cipher d rest.length pos rest
  if ¬ rest.isEmpty then v.write_at_chunk cipher d pos rest

def write_at (d : WriteAt σ) (offset : Nat) (buf : Bytes) : IoM σ Unit := do
  if buf.isEmpty then return
  let _ ← IoM.lift (v.check_range offset buf.length)
  if buf.length ≤ WRITE_CHUNK_BYTES then v.write_at_chunk cipher d offset buf
  else v.write_chunks cipher d offset buf

end LuksVolume

end LuksAndroid

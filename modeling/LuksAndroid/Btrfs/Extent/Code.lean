import LuksAndroid.Btrfs.Dir.Code
import LuksAndroid.Btrfs.Logical
import LuksAndroid.Btrfs.Txn.Csum
import LuksAndroid.Btrfs.Verify

/-!
# Reading a file

`read_inode_data` of `core/src/fs/btrfs/extent.rs`, the read of data with its checksums in
`core/src/fs/btrfs/csum.rs`, and the framing of `core/src/fs/btrfs/compress.rs`. The
decoders themselves are not part of the repository and are parameters. Where the code would
panic, over an index or an allocation, it gives no answer, and the model has an error there.
-/

namespace LuksAndroid.Btrfs

open Word

/-! ## Compression -/

/-- What the three decoders make of their input, with at most so many bytes of output. -/
structure Codecs where
  zlib : Bytes → Nat → Option Bytes
  zstd_header : Bytes → Bool
  zstd : Bytes → Nat → Option Bytes
  lzo : Bytes → Nat → Option Bytes

def COMPRESS_ZLIB : Nat := 1
def COMPRESS_LZO : Nat := 2
def COMPRESS_ZSTD : Nat := 3
def MAX_UNCOMPRESSED : Nat := 2 ^ 20
def LZO_LEN : Nat := 4

section

variable (codecs : Codecs)

def inflate (input : Bytes) (expected : Nat) : Except LuksError Bytes :=
  match codecs.zlib input (expected + 1) with
  | none => .error (.CorruptFs "btrfs zlib extent failed to decompress")
  | some out => .ok out

def zstd (input : Bytes) (expected : Nat) : Except LuksError Bytes :=
  if ¬ codecs.zstd_header input then .error (.CorruptFs "btrfs zstd extent has a bad frame header")
  else
    match codecs.zstd input (expected + 1) with
    | none => .error (.CorruptFs "btrfs zstd extent failed to decompress")
    | some out => .ok out

/-- The loop over the segments. Each round moves on by at least one byte. -/
def lzo_segments (input : Bytes) (expected sector total : Nat) : Nat → Nat → Bytes → Except LuksError Bytes
  | 0, _, out => .ok out
  | fuel + 1, pos, out =>
    if pos < total ∧ out.length < expected then
      let room := sector - pos % sector
      -- A segment header does not straddle a sector boundary.
      if room < LZO_LEN then lzo_segments input expected sector total fuel (pos + room) out
      else if pos + LZO_LEN > total then .ok out
      else
        let seg_len := input.get pos 4
        if seg_len = 0 ∨ pos + LZO_LEN + seg_len > input.length then
          .error (.CorruptFs "btrfs lzo segment overruns the extent")
        else
          match codecs.lzo (input.slice (pos + LZO_LEN) seg_len) sector with
          | none => .error (.CorruptFs "btrfs lzo segment failed to decompress")
          | some chunk => lzo_segments input expected sector total fuel (pos + LZO_LEN + seg_len) (out ++ chunk)
    else .ok out

def lzo_extent (input : Bytes) (expected sector : Nat) : Except LuksError Bytes := do
  if sector = 0 then throw (.CorruptFs "btrfs sector size is zero")
  if input.length < LZO_LEN then throw (.CorruptFs "btrfs lzo extent is truncated")
  let total := input.get 0 4
  if total > input.length then throw (.CorruptFs "btrfs lzo extent claims more data than it has")
  let out ← lzo_segments codecs input expected sector total total LZO_LEN []
  return out.take expected

/-- The extent in full, with zeros where the stream is shorter than it says. -/
def decompress (algorithm : Nat) (input : Bytes) (expected sector_size : Nat) : Except LuksError Bytes := do
  if expected > MAX_UNCOMPRESSED then
    throw (.CorruptFs "btrfs compressed extent claims an implausible uncompressed size")
  let out ←
    if algorithm = COMPRESS_ZLIB then inflate codecs input expected
    else if algorithm = COMPRESS_LZO then lzo_extent codecs input expected sector_size
    else if algorithm = COMPRESS_ZSTD then zstd codecs input expected
    else throw (.UnsupportedFsFeature ("btrfs compression algorithm " ++ toString algorithm))
  return out.take expected ++ List.replicate (expected - out.length) 0

end

/-! ## Extents -/

namespace FileExtent

/-- One past the last file offset of the extent. -/
def stop (e : FileExtent) : Nat := saturating_add e.file_offset e.num_bytes

def is_zeros (e : FileExtent) : Bool :=
  (e.kind = .Regular ∧ e.disk_bytenr = 0) ∨ e.kind = .Prealloc

def is_compressed (e : FileExtent) : Bool := e.compression ≠ 0

end FileExtent

section

variable {σ : Type} (sha256 : Digest) (codecs : Codecs) (d : ReadAt σ) (fs : Mount) (csum_tree : Option TreeRoot)

/-- The whole sectors around the range are read and verified. -/
def read_data (logical n : Nat) : IoM σ (Bytes × Verified) := do
  let sector := fs.sb.sector_size
  let aligned_start := logical - logical % sector
  let stop := wrapping_add logical n
  let aligned_end := wrapping_mul (div_ceil stop sector) sector
  if aligned_start = logical ∧ aligned_end = stop then
    let buf ← read_logical d fs.chunks logical n
    let outcome ← IoM.lift (verify_data sha256 fs csum_tree logical buf)
    return (buf, outcome)
  let whole ← read_logical d fs.chunks aligned_start (wrapping_sub aligned_end aligned_start)
  let outcome ← IoM.lift (verify_data sha256 fs csum_tree aligned_start whole)
  if logical - aligned_start + n > whole.length then throw .OutOfBounds
  return (whole.slice (logical - aligned_start) n, outcome)

def decompress_extent (extent : FileExtent) : IoM σ Bytes :=
  match extent.inline with
  | some payload => IoM.lift (decompress codecs extent.compression payload extent.ram_bytes fs.sb.sector_size)
  | none => do
    let raw ← read_data sha256 d fs csum_tree extent.disk_bytenr extent.disk_num_bytes
    IoM.lift (decompress codecs extent.compression raw.1 extent.ram_bytes fs.sb.sector_size)

/-- `take` bytes of bytes that are at hand, from `start` on. -/
def copy_from (source : Bytes) (start take : Nat) (message : String) : Except LuksError Bytes :=
  match checked_add start take with
  | none => .error (.CorruptFs message)
  | some stop => if stop ≤ source.length then .ok (source.slice start take) else .error (.CorruptFs message)

/-- The part of an extent that `read_inode_data` puts into the buffer. -/
def read_extent (extent : FileExtent) (within take : Nat) : IoM σ Bytes :=
  let start := wrapping_add extent.offset within
  if extent.is_zeros then return List.replicate take 0
  else if extent.is_compressed then do
    let plain ← decompress_extent sha256 codecs d fs csum_tree extent
    IoM.lift (copy_from plain start take "btrfs compressed extent is shorter than the range it covers")
  else
    match extent.inline with
    | some inline => IoM.lift (copy_from inline start take "btrfs inline extent is too short")
    | none =>
      if wrapping_add start take > extent.disk_num_bytes then
        throw (.CorruptFs "btrfs extent range falls outside the allocated extent")
      else do
        let out ← read_data sha256 d fs csum_tree (wrapping_add extent.disk_bytenr start) take
        return out.1

/-! ## `read_inode_data` -/

def extent_key (objectid offset : Nat) : Key := ⟨objectid, EXTENT_DATA_KEY, offset⟩

def is_extent_key (objectid : Nat) (key : Key) : Bool := key.objectid = objectid ∧ key.item_type = EXTENT_DATA_KEY

/-- What to do at the item under the cursor. -/
inductive ReadStep where
  /-- Nothing covers this many bytes. -/
  | gap (n : Nat)
  | advance
  | extent (e : FileExtent)

def read_step (objectid pos left : Nat) (c : Cursor) : Except LuksError ReadStep := do
  if ¬ c.valid then return .gap left
  let key ← c.key
  if ¬ is_extent_key objectid key then
    return if key < extent_key objectid 0 then .advance else .gap left
  let e ← FileExtent.parse key.offset (← c.data)
  if e.file_offset > pos then return .gap (min (e.file_offset - pos) left)
  return if e.stop ≤ pos then .advance else .extent e

/-- The loop from the byte `done` on. A round either fills some bytes or moves the cursor. -/
def read_extents (objectid offset want : Nat) : Nat → Cursor → Nat → IoM σ Bytes
  | 0, _, _ => return []
  | rounds + 1, c, done =>
    if done < want then do
      let pos := wrapping_add offset done
      match ← IoM.lift (read_step objectid pos (want - done) c) with
      | .gap n =>
        let rest ← read_extents objectid offset want rounds c (done + n)
        return List.replicate n 0 ++ rest
      | .advance =>
        let c ← IoM.lift (c.advance fs.read_node)
        read_extents objectid offset want rounds c done
      | .extent e =>
        let within := pos - e.file_offset
        let take := min (wrapping_sub e.num_bytes within) (want - done)
        let out ← read_extent sha256 codecs d fs csum_tree e within take
        let c ← IoM.lift (if wrapping_add pos take ≥ e.stop then c.advance fs.read_node else .ok c)
        let rest ← read_extents objectid offset want rounds c (done + take)
        return out ++ rest
    else return []

/-- What is put into a buffer of `len` bytes. The length of it is the number that the code returns. -/
def read_inode_data (tree : Nat) (inode : Inode) (offset len : Nat) : IoM σ Bytes :=
  if offset ≥ inode.size then return []
  else
    let want := min len (inode.size - offset)
    if want = 0 then return []
    else do
      let c ← IoM.lift (Cursor.search_le fs.read_node tree (extent_key inode.objectid offset))
      read_extents sha256 codecs d fs csum_tree inode.objectid offset want (want + c.remaining fs.read_node) c 0

/-- One read after the other, each from where the last one ended. -/
def read_in_pieces (tree : Nat) (inode : Inode) : List Nat → Nat → IoM σ Bytes
  | [], _ => return []
  | len :: lens, offset => do
    let out ← read_inode_data sha256 codecs d fs csum_tree tree inode offset len
    let rest ← read_in_pieces tree inode lens (offset + out.length)
    return out ++ rest

end

end LuksAndroid.Btrfs

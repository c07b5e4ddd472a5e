import LuksAndroid.Error
import LuksAndroid.Lib.Word
import LuksAndroid.Lib.Spans

/-!
# The chunk map and the superblock exclusions

`core/src/fs/btrfs/chunk.rs` and `core/src/fs/btrfs/write/exclude.rs`: which
physical bytes a logical address stands for, and which logical ranges must never
be allocated because a superblock mirror lies there.
-/

namespace LuksAndroid.Btrfs

open Word

def BLOCK_GROUP_DATA : Nat := 0x1
def BLOCK_GROUP_SYSTEM : Nat := 0x2
def BLOCK_GROUP_METADATA : Nat := 0x4

structure Stripe where
  devid : Nat
  offset : Nat
deriving DecidableEq, Repr

structure Chunk where
  logical : Nat
  length : Nat
  chunk_type : Nat
  stripes : List Stripe
deriving DecidableEq, Repr

/-- Every chunk of the filesystem, sorted by logical address. -/
structure ChunkMap where
  chunks : List Chunk
deriving DecidableEq, Repr

namespace ChunkMap

/-- The last chunk that starts at or below `logical`, if there is one. -/
def chunk_at (m : ChunkMap) (logical : Nat) : Option Chunk :=
  (m.chunks.takeWhile fun c => c.logical ≤ logical).getLast?

def map_all_stripes (m : ChunkMap) (logical : Nat) : Except LuksError (List Nat) :=
  match m.chunk_at logical with
  | none => .error (.CorruptFs "btrfs logical address below the first chunk")
  | some chunk =>
    let within := logical - chunk.logical
    if within ≥ chunk.length then
      .error (.CorruptFs "btrfs logical address falls in an unmapped gap")
    else
      chunk.stripes.mapM fun stripe =>
        match checked_add stripe.offset within with
        | none => .error (.CorruptFs "btrfs physical address overflows")
        | some phys => .ok phys

end ChunkMap

/-! ## Superblock exclusions -/

def SB_MIRROR_0 : Nat := 65536
def SB_MIRROR_1 : Nat := 67108864
def SB_MIRROR_2 : Nat := 274877906944
def SB_OFFSETS : List Nat := [SB_MIRROR_0, SB_MIRROR_1, SB_MIRROR_2]
def SB_PROTECT_LEN : Nat := 65536

/-- A half-open range of logical addresses, Rust's `Range<u64>`. -/
structure LogicalRange where
  start : Nat
  stop : Nat
deriving DecidableEq, Repr

/-- The part of a chunk that one superblock mirror takes on one stripe. -/
def stripe_exclusion (chunk : Chunk) (chunk_end sb_offset : Nat) (stripe : Stripe) :
    Option LogicalRange :=
  match checked_add stripe.offset chunk.length with
  | none => none
  | some stripe_end =>
    if stripe.offset ≤ sb_offset ∧ sb_offset < stripe_end then
      let logical_start := chunk.logical + (sb_offset - stripe.offset)
      let logical_end := min (wrapping_add logical_start SB_PROTECT_LEN) chunk_end
      if logical_start < logical_end then some ⟨logical_start, logical_end⟩ else none
    else none

def chunk_exclusions (chunk : Chunk) : List LogicalRange :=
  match checked_add chunk.logical chunk.length with
  | none => []
  | some chunk_end =>
    let excl_end := min SB_MIRROR_0 chunk_end
    -- Nothing below the first mirror is ever handed out.
    let leading :=
      if chunk.logical < SB_MIRROR_0 ∧ chunk.logical < excl_end then
        [⟨chunk.logical, excl_end⟩] else []
    leading ++ SB_OFFSETS.flatMap fun sb_offset =>
      chunk.stripes.filterMap (stripe_exclusion chunk chunk_end sb_offset)

def merge_ranges_from : LogicalRange → List LogicalRange → List LogicalRange
  | last, [] => [last]
  | last, r :: rest =>
    if r.start ≥ r.stop then merge_ranges_from last rest
    else if r.start ≤ last.stop then merge_ranges_from ⟨last.start, max last.stop r.stop⟩ rest
    else last :: merge_ranges_from r rest

def merge_ranges_sorted : List LogicalRange → List LogicalRange
  | [] => []
  | r :: rest => if r.start ≥ r.stop then merge_ranges_sorted rest else merge_ranges_from r rest

def merge_ranges (ranges : List LogicalRange) : List LogicalRange :=
  merge_ranges_sorted (ranges.insertionSort fun a b => a.start ≤ b.start)

def compute_sb_exclusions (m : ChunkMap) : List LogicalRange :=
  merge_ranges (m.chunks.flatMap chunk_exclusions)

end LuksAndroid.Btrfs

import LuksAndroid.Btrfs.Chunk
import LuksAndroid.Btrfs.Node

/-!
# The free-space map

`core/src/fs/btrfs/write/alloc.rs`, function by function. Addresses and counters
are 64-bit words. Where a plain addition or subtraction can leave the word it is
written with the wrapping operations of the release build. Sums that stay inside a
block group are plain, because `from_extent_tree` checks that a group's end is a
word.
-/

namespace LuksAndroid.Btrfs

open Word

/-! ## What the extent tree records -/

inductive InlineBackref where
  | TreeBlock (root : Nat)
  | ExtentData (root objectid offset count : Nat)
  | SharedBlock (parent : Nat)
  | SharedData (parent count : Nat)
  | Other (item_type : Nat) (data : Bytes)
deriving DecidableEq, Repr

structure BlockGroupItem where
  start : Nat
  length : Nat
  used : Nat
  chunk_objectid : Nat
  flags : Nat
deriving DecidableEq, Repr

structure AllocatedExtent where
  bytenr : Nat
  length : Nat
  refs : Nat
  generation : Nat
  is_data : Bool
  is_tree_block : Bool
  level : Nat
  backrefs : List InlineBackref
deriving DecidableEq, Repr

structure ExtentTree where
  block_groups : List BlockGroupItem
  extents : List AllocatedExtent
deriving DecidableEq, Repr

/-! ## The map -/

abbrev FreeRange := Span

structure BlockGroupFreeSpace where
  block_group : BlockGroupItem
  allocated_extents : List AllocatedExtent
  free_ranges : List FreeRange
  pinned_freed : List FreeRange
  excluded_ranges : List FreeRange
  total_allocated_bytes : Nat
  total_free_bytes : Nat
deriving DecidableEq, Repr

structure FreeSpaceMap where
  block_groups : List BlockGroupFreeSpace
deriving DecidableEq, Repr

/-- A method on `&mut FreeSpaceMap`: an error keeps the map as the method left it. -/
abbrev AllocM := EStateM LuksError FreeSpaceMap

def bg_holds_data (flags : Nat) : Bool := flags &&& BLOCK_GROUP_DATA ≠ 0

def sum_lengths (l : List FreeRange) : Nat := l.foldl (fun acc r => wrapping_add acc r.length) 0

/-! ## Building the map -/

/-- The loop of `from_extent_tree` over the extents, for one block group. -/
structure ExtentScan where
  bg_extents : List AllocatedExtent
  free_ranges : List FreeRange
  total_allocated : Nat
  cursor : Nat

def scan_extent (bg_start bg_end : Nat) (s : ExtentScan) (ext : AllocatedExtent) : ExtentScan :=
  if ext.bytenr < bg_start ∨ ext.bytenr ≥ bg_end then s
  else
    { bg_extents := s.bg_extents ++ [ext]
      free_ranges :=
        if ext.bytenr > s.cursor then s.free_ranges ++ [⟨s.cursor, ext.bytenr - s.cursor⟩]
        else s.free_ranges
      total_allocated := wrapping_add s.total_allocated ext.length
      cursor := wrapping_add ext.bytenr ext.length }

def block_group_free_space (extents : List AllocatedExtent) (bg : BlockGroupItem) :
    Except LuksError BlockGroupFreeSpace := do
  match checked_add bg.start bg.length with
  | none => throw (.CorruptFs "block group range overflow")
  | some bg_end =>
    let s := extents.foldl (scan_extent bg.start bg_end) ⟨[], [], 0, bg.start⟩
    let free_ranges :=
      if s.cursor < bg_end then s.free_ranges ++ [⟨s.cursor, bg_end - s.cursor⟩] else s.free_ranges
    let total_free := sum_lengths free_ranges
    if s.total_allocated ≠ bg.used then
      throw (.CorruptFs "extent tree allocations do not match block group used counter")
    if wrapping_add s.total_allocated total_free ≠ bg.length then
      throw (.CorruptFs "sum of allocated and free space does not match block group length")
    return {
      block_group := bg
      allocated_extents := s.bg_extents
      free_ranges := free_ranges
      pinned_freed := []
      excluded_ranges := []
      total_allocated_bytes := s.total_allocated
      total_free_bytes := total_free }

def from_extent_tree (extent_tree : ExtentTree) : Except LuksError FreeSpaceMap := do
  let block_groups ← extent_tree.block_groups.mapM (block_group_free_space extent_tree.extents)
  return ⟨block_groups⟩

/-! ## Exclusions -/

/-- One range against the exclusion `[e_start, e_end)`: what stays free, and the slice that is
excluded now. -/
def split_free_range (e_start e_end : Nat) (r : FreeRange) : List FreeRange × List FreeRange :=
  let r_end := saturating_add r.start r.length
  if e_end ≤ r.start ∨ e_start ≥ r_end then ([r], [])
  else
    let overlap_start := max e_start r.start
    let overlap_end := min e_end r_end
    ((if r.start < e_start then [⟨r.start, e_start - r.start⟩] else []) ++
        (if r_end > e_end then [⟨e_end, r_end - e_end⟩] else []),
      if overlap_start < overlap_end then [⟨overlap_start, overlap_end - overlap_start⟩] else [])

def exclude_from_group (excl : LogicalRange) (bg : BlockGroupFreeSpace) : BlockGroupFreeSpace :=
  let bg_start := bg.block_group.start
  let bg_end := saturating_add bg_start bg.block_group.length
  if excl.stop ≤ bg_start ∨ excl.start ≥ bg_end then bg
  else
    let e_start := max excl.start bg_start
    let e_end := min excl.stop bg_end
    if e_start ≥ e_end then bg
    else
      let new_free := bg.free_ranges.flatMap fun r => (split_free_range e_start e_end r).1
      let slices := bg.free_ranges.flatMap fun r => (split_free_range e_start e_end r).2
      { bg with
        free_ranges := new_free
        total_free_bytes := sum_lengths new_free
        excluded_ranges :=
          Spans.merge ((bg.excluded_ranges ++ slices).insertionSort Spans.byStart) }

def exclude_range (m : FreeSpaceMap) (excl : LogicalRange) : FreeSpaceMap :=
  if excl.start ≥ excl.stop then m else ⟨m.block_groups.map (exclude_from_group excl)⟩

def exclude_ranges (m : FreeSpaceMap) (exclusions : List LogicalRange) : FreeSpaceMap :=
  exclusions.foldl exclude_range m

def from_extent_tree_and_chunk_map (extent_tree : ExtentTree) (chunk_map : ChunkMap) :
    Except LuksError FreeSpaceMap := do
  let map ← from_extent_tree extent_tree
  return exclude_ranges map (compute_sb_exclusions chunk_map)

/-! ## Allocation -/

/-- `remove(i)` and the two `insert`s that put back what lies around the allocated bytes. -/
def carve (range : FreeRange) (allocated_start needed : Nat) : List FreeRange :=
  let before_len := wrapping_sub allocated_start range.start
  let after_len :=
    wrapping_sub (wrapping_add range.start range.length) (wrapping_add allocated_start needed)
  (if before_len > 0 then [⟨range.start, before_len⟩] else []) ++
    (if after_len > 0 then [⟨wrapping_add allocated_start needed, after_len⟩] else [])

/-- The counters of a block group after `needed` more bytes are in use. -/
def count_allocated (bg : BlockGroupFreeSpace) (free_ranges : List FreeRange) (needed : Nat) :
    BlockGroupFreeSpace :=
  { bg with
    free_ranges := free_ranges
    total_allocated_bytes := wrapping_add bg.total_allocated_bytes needed
    total_free_bytes := wrapping_sub bg.total_free_bytes needed
    block_group := { bg.block_group with used := wrapping_add bg.block_group.used needed } }

/-- The first free range that holds `needed` bytes at the alignment. -/
def first_fit (needed alignment : Nat) : List FreeRange → Option (Nat × List FreeRange)
  | [] => none
  | range :: rest =>
    let aligned_start := align_up range.start alignment
    if wrapping_add aligned_start needed ≤ wrapping_add range.start range.length then
      some (aligned_start, carve range aligned_start needed ++ rest)
    else
      (first_fit needed alignment rest).map fun (b, l) => (b, range :: l)

/-- The shared loop of `allocate_metadata_for_owner` and `allocate_data`. -/
def allocate_in (is_match : Nat → Bool) (needed alignment : Nat) :
    List BlockGroupFreeSpace → Option (Nat × List BlockGroupFreeSpace)
  | [] => none
  | bg :: rest =>
    match (if is_match bg.block_group.flags then first_fit needed alignment bg.free_ranges
      else none) with
    | some (b, free_ranges) => some (b, count_allocated bg free_ranges needed :: rest)
    | none => (allocate_in is_match needed alignment rest).map fun (b, l) => (b, bg :: l)

def allocate_with (is_match : Nat → Bool) (needed alignment : Nat) : AllocM Nat := do
  match allocate_in is_match needed alignment (← get).block_groups with
  | some (b, block_groups) => set (⟨block_groups⟩ : FreeSpaceMap); return b
  | none => throw .FilesystemFull

/-- Whether a group with these flags serves the tree `owner`. -/
def metadata_match (owner flags : Nat) : Bool :=
  let target_flag := if owner = CHUNK_TREE_OBJECTID then BLOCK_GROUP_SYSTEM else BLOCK_GROUP_METADATA
  let mixed := BLOCK_GROUP_DATA ||| BLOCK_GROUP_METADATA
  (flags &&& target_flag ≠ 0) ∨ (flags &&& mixed = mixed ∧ target_flag = BLOCK_GROUP_METADATA)

def allocate_metadata_for_owner (size owner : Nat) : AllocM Nat :=
  allocate_with (metadata_match owner) size size

def allocate_data (size sector_size : Nat) : AllocM Nat :=
  allocate_with bg_holds_data size sector_size

/-- `best_choice` of `allocate_data_chunk`. -/
structure ChunkChoice where
  bg_idx : Nat
  range_idx : Nat
  aligned_start : Nat
  alloc_len : Nat
deriving DecidableEq, Repr

/-- The first usable range wins over nothing, a later one only if it is longer. -/
def improves (best : Option ChunkChoice) (alloc_len : Nat) : Bool :=
  match best with
  | none => true
  | some c => alloc_len > c.alloc_len

/-- The inner loop: it ends early at a range that gives all of `max_aligned`. -/
def scan_ranges (alignment max_aligned bg_idx : Nat) :
    Nat → List FreeRange → Option ChunkChoice → Option ChunkChoice
  | _, [], best => best
  | i, range :: rest, best =>
    let aligned_start := align_up range.start alignment
    let range_end := saturating_add range.start range.length
    if aligned_start ≥ range_end then scan_ranges alignment max_aligned bg_idx (i + 1) rest best
    else
      let usable := (range_end - aligned_start) / alignment * alignment
      if usable = 0 then scan_ranges alignment max_aligned bg_idx (i + 1) rest best
      else
        let alloc_len := min usable max_aligned
        if improves best alloc_len then
          let choice := some ⟨bg_idx, i, aligned_start, alloc_len⟩
          if alloc_len = max_aligned then choice
          else scan_ranges alignment max_aligned bg_idx (i + 1) rest choice
        else scan_ranges alignment max_aligned bg_idx (i + 1) rest best

def scan_groups (alignment max_aligned : Nat) :
    Nat → List BlockGroupFreeSpace → Option ChunkChoice → Option ChunkChoice
  | _, [], best => best
  | i, bg :: rest, best =>
    if ¬ bg_holds_data bg.block_group.flags then scan_groups alignment max_aligned (i + 1) rest best
    else
      match scan_ranges alignment max_aligned i 0 bg.free_ranges best with
      | none => scan_groups alignment max_aligned (i + 1) rest none
      | some c =>
        if c.alloc_len = max_aligned then some c
        else scan_groups alignment max_aligned (i + 1) rest (some c)

/-- Carve the chosen bytes out of range `range_idx`. -/
def carve_at (l : List FreeRange) (range_idx allocated_start alloc_len : Nat) : List FreeRange :=
  match l[range_idx]? with
  | none => l
  | some range => l.take range_idx ++ carve range allocated_start alloc_len ++ l.drop (range_idx + 1)

def allocate_data_chunk (max_size sector_size : Nat) : AllocM (Nat × Nat) := do
  if max_size = 0 then throw .FilesystemFull
  let max_aligned := max_size / sector_size * sector_size
  if max_aligned = 0 then throw .FilesystemFull
  let m ← get
  match scan_groups sector_size max_aligned 0 m.block_groups none with
  | none => throw .FilesystemFull
  | some c =>
    set (⟨m.block_groups.modify c.bg_idx fun bg =>
      count_allocated bg (carve_at bg.free_ranges c.range_idx c.aligned_start c.alloc_len)
        c.alloc_len⟩ : FreeSpaceMap)
    return (c.aligned_start, c.alloc_len)

/-! ## Marking a given range as allocated -/

def mark_in_ranges (bytenr stop : Nat) : List FreeRange → Option (List FreeRange)
  | [] => none
  | range :: rest =>
    let r_end := saturating_add range.start range.length
    if bytenr ≥ range.start ∧ stop ≤ r_end then
      some ((if bytenr - range.start > 0 then [⟨range.start, bytenr - range.start⟩] else []) ++
        (if r_end - stop > 0 then [⟨stop, r_end - stop⟩] else []) ++ rest)
    else (mark_in_ranges bytenr stop rest).map (range :: ·)

def mark_in_groups (bytenr stop length : Nat) :
    List BlockGroupFreeSpace → Except LuksError (List BlockGroupFreeSpace)
  | [] => .error .OutOfBounds
  | bg :: rest =>
    let bg_start := bg.block_group.start
    let bg_end := saturating_add bg_start bg.block_group.length
    if bytenr ≥ bg_start ∧ stop ≤ bg_end then
      match mark_in_ranges bytenr stop bg.free_ranges with
      | some free_ranges => .ok (count_allocated bg free_ranges length :: rest)
      | none => .error
          (.CorruptFs "range to mark allocated was not present in block group free ranges")
    else (mark_in_groups bytenr stop length rest).map (bg :: ·)

def mark_allocated (bytenr length : Nat) : AllocM Unit := do
  if length = 0 then return
  match checked_add bytenr length with
  | none => throw .OutOfBounds
  | some stop =>
    match mark_in_groups bytenr stop length (← get).block_groups with
    | .ok block_groups => set (⟨block_groups⟩ : FreeSpaceMap)
    | .error e => throw e

/-! ## Freeing -/

/-- The merge loop of `free_data` and `free_metadata`: only exact neighbours join. -/
def merge_adjacent_from : FreeRange → List FreeRange → List FreeRange
  | last, [] => [last]
  | last, r :: rest =>
    if last.start + last.length = r.start then
      merge_adjacent_from ⟨last.start, last.length + r.length⟩ rest
    else last :: merge_adjacent_from r rest

def merge_adjacent : List FreeRange → List FreeRange
  | [] => []
  | r :: rest => merge_adjacent_from r rest

/-- Insert at `partition_point(|r| r.start < bytenr)`, then merge. -/
def pin (pinned_freed : List FreeRange) (bytenr freed_len : Nat) : List FreeRange :=
  merge_adjacent (pinned_freed.takeWhile (fun r => r.start < bytenr) ++
    ⟨bytenr, freed_len⟩ :: pinned_freed.dropWhile (fun r => r.start < bytenr))

def overlaps_pinned (bytenr stop : Nat) (pinned_freed : List FreeRange) : Bool :=
  pinned_freed.any fun p => bytenr < p.start + p.length ∧ p.start < stop

def free_in_groups (bytenr stop freed_len : Nat) :
    List BlockGroupFreeSpace → Except LuksError (List BlockGroupFreeSpace)
  | [] => .error (.CorruptFs "free_data range is not contained in any block group")
  | bg :: rest =>
    if bytenr ≥ bg.block_group.start ∧ stop ≤ bg.block_group.start + bg.block_group.length then
      if bg.block_group.used < freed_len then
        .error (.CorruptFs "free_data would free more bytes than the block group has allocated")
      else if overlaps_pinned bytenr stop bg.pinned_freed then
        .error (.CorruptFs
          "free_data range overlaps a range already pending release in this transaction")
      else
        .ok ({ bg with
          pinned_freed := pin bg.pinned_freed bytenr freed_len
          block_group := { bg.block_group with used := bg.block_group.used - freed_len } } :: rest)
    else (free_in_groups bytenr stop freed_len rest).map (bg :: ·)

def free_data (bytenr size : Nat) : AllocM Unit := do
  if size = 0 then return
  match checked_add bytenr size with
  | none => throw (.CorruptFs "free_data range overflows u64")
  | some stop =>
    match free_in_groups bytenr stop size (← get).block_groups with
    | .ok block_groups => set (⟨block_groups⟩ : FreeSpaceMap)
    | .error e => throw e

/-- Nothing is checked here but that the range lies in a group. -/
def free_metadata_in_groups (bytenr freed_len : Nat) :
    List BlockGroupFreeSpace → List BlockGroupFreeSpace
  | [] => []
  | bg :: rest =>
    if bytenr ≥ bg.block_group.start ∧
        wrapping_add bytenr freed_len ≤ bg.block_group.start + bg.block_group.length then
      { bg with
        pinned_freed := pin bg.pinned_freed bytenr freed_len
        block_group := { bg.block_group with used := bg.block_group.used - freed_len } } :: rest
    else bg :: free_metadata_in_groups bytenr freed_len rest

def free_metadata (bytenr size : Nat) : AllocM Unit :=
  modify fun m => ⟨free_metadata_in_groups bytenr size m.block_groups⟩

/-! ## Unpinning -/

def subtract_excluded (merged : List FreeRange) (excl : FreeRange) : List FreeRange :=
  Spans.subtract merged excl.start excl.stop

def unpin_group (bg : BlockGroupFreeSpace) : BlockGroupFreeSpace :=
  if bg.pinned_freed.isEmpty then bg
  else
    let merged := Spans.merge ((bg.free_ranges ++ bg.pinned_freed).insertionSort Spans.byStart)
    let free_ranges := bg.excluded_ranges.foldl subtract_excluded merged
    { bg with
      pinned_freed := []
      free_ranges := free_ranges
      total_free_bytes := sum_lengths free_ranges }

def unpin_freed (m : FreeSpaceMap) : FreeSpaceMap := ⟨m.block_groups.map unpin_group⟩

/-! ## The free-space tree -/

def group_free_space (bg : BlockGroupFreeSpace) : List FreeRange :=
  Spans.merge
    ((bg.free_ranges ++ bg.pinned_freed ++ bg.excluded_ranges).insertionSort Spans.byStart)

def emit_group_items (bg : BlockGroupFreeSpace) : List LeafItem :=
  let merged := group_free_space bg
  ⟨⟨bg.block_group.start, FREE_SPACE_INFO_KEY, bg.block_group.length⟩,
      Bytes.le 4 merged.length ++ Bytes.le 4 0⟩ ::
    merged.map fun r => ⟨⟨r.start, FREE_SPACE_EXTENT_KEY, r.length⟩, []⟩

def emit_free_space_tree_items (m : FreeSpaceMap) : List LeafItem :=
  m.block_groups.flatMap emit_group_items

end LuksAndroid.Btrfs

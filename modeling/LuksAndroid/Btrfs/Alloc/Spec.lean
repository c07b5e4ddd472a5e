import LuksAndroid.Btrfs.Alloc.Code
import LuksAndroid.Lib.Machine

/-!
# What the free-space map keeps

The map is one view of a block group. Beside it stands the set of live addresses,
which the code never writes down: an address is live from the allocation that
returned it until it is freed. The accounts say that every byte of a group is
free, pinned, excluded or live, and never two of these.
-/

namespace LuksAndroid.Btrfs

open Word Spans

namespace BlockGroupItem

def stop (bg : BlockGroupItem) : Nat := bg.start + bg.length

def cells (bg : BlockGroupItem) : Set Nat := Set.Ico bg.start bg.stop

end BlockGroupItem

/-! ## The state -/

/-- The addresses of a list of ranges. -/
def rangeCells (l : List LogicalRange) : Set Nat := {x | ∃ r ∈ l, r.start ≤ x ∧ x < r.stop}

/-- The map, the live addresses, and those freed since the last `unpin_freed`. -/
structure AllocState where
  map : FreeSpaceMap
  live : Set Nat
  freed : Set Nat

/-- Groups in address order, disjoint, every end a word. -/
structure GroupsApart (l : List BlockGroupItem) : Prop where
  fits : ∀ g ∈ l, g.stop < size
  apart : l.Pairwise fun a b => a.stop ≤ b.start ∧ (a.start = b.start → a.length < b.length)

/-- The accounts of one block group. -/
structure GroupAccounts (live : Set Nat) (bg : BlockGroupFreeSpace) : Prop where
  free : Ordered bg.free_ranges
  pinned : Ordered bg.pinned_freed
  excluded : Ordered bg.excluded_ranges
  free_in : Within bg.block_group.start bg.block_group.stop bg.free_ranges
  pinned_in : Within bg.block_group.start bg.block_group.stop bg.pinned_freed
  excluded_in : Within bg.block_group.start bg.block_group.stop bg.excluded_ranges
  free_pinned : Disjoint (covers bg.free_ranges) (covers bg.pinned_freed)
  free_excluded : Disjoint (covers bg.free_ranges) (covers bg.excluded_ranges)
  pinned_excluded : Disjoint (covers bg.pinned_freed) (covers bg.excluded_ranges)
  live_rest : live ∩ bg.block_group.cells = bg.block_group.cells \
    (covers bg.free_ranges ∪ covers bg.pinned_freed ∪ covers bg.excluded_ranges)
  used : bg.block_group.used = (live ∩ bg.block_group.cells).ncard
  total_free : bg.total_free_bytes = total bg.free_ranges

namespace FreeSpaceMap

def items (m : FreeSpaceMap) : List BlockGroupItem := m.block_groups.map (·.block_group)

def pinned (m : FreeSpaceMap) : Set Nat := {x | ∃ bg ∈ m.block_groups, x ∈ covers bg.pinned_freed}

def excluded (m : FreeSpaceMap) : Set Nat :=
  {x | ∃ bg ∈ m.block_groups, x ∈ covers bg.excluded_ranges}

end FreeSpaceMap

namespace AllocState

structure Accounts (s : AllocState) : Prop where
  groups : GroupsApart s.map.items
  each : ∀ bg ∈ s.map.block_groups, GroupAccounts s.live bg
  freed : s.freed = s.map.pinned

/-- Every byte of a group is counted once. -/
def Conserved (s : AllocState) : Prop :=
  ∀ bg ∈ s.map.block_groups,
    bg.block_group.used + total bg.free_ranges + total bg.pinned_freed + total bg.excluded_ranges =
      bg.block_group.length

/-- The addresses that a list of free-space items names. -/
def listed (items : List LeafItem) : Set Nat :=
  {x | ∃ i ∈ items, i.key.item_type = FREE_SPACE_EXTENT_KEY ∧
    i.key.objectid ≤ x ∧ x < i.key.objectid + i.key.offset}

/-- The free-space items are the complement of the live bytes, in strict key order. -/
structure EmitsComplement (s : AllocState) : Prop where
  sorted : (emit_free_space_tree_items s.map).Pairwise fun a b => a.key < b.key
  exact : ∀ bg ∈ s.map.block_groups, ∀ x ∈ bg.block_group.cells,
    x ∈ listed (emit_free_space_tree_items s.map) ↔ x ∉ s.live
  inside : ∀ x ∈ listed (emit_free_space_tree_items s.map),
    ∃ bg ∈ s.map.block_groups, x ∈ bg.block_group.cells

structure Sound (s : AllocState) : Prop where
  accounts : s.Accounts
  conserved : s.Conserved
  emits : s.EmitsComplement

end AllocState

/-! ## The operations -/

inductive AllocOp where
  | exclude_ranges (exclusions : List LogicalRange)
  | allocate_metadata_for_owner (size owner : Nat)
  | allocate_data (size sector_size : Nat)
  | allocate_data_chunk (max_size sector_size : Nat)
  | mark_allocated (bytenr length : Nat)
  | free_data (bytenr size : Nat)
  | free_metadata (bytenr size : Nat)
  | unpin_freed

namespace AllocOp

/-- Run the operation. The result is the range it hands out or takes back. -/
def exec : AllocOp → AllocM Span
  | exclude_ranges l => do modify (Btrfs.exclude_ranges · l); return ⟨0, 0⟩
  | allocate_metadata_for_owner size owner => do
    return ⟨← Btrfs.allocate_metadata_for_owner size owner, size⟩
  | allocate_data size sector_size => do return ⟨← Btrfs.allocate_data size sector_size, size⟩
  | allocate_data_chunk max_size sector_size => do
    let (bytenr, length) ← Btrfs.allocate_data_chunk max_size sector_size
    return ⟨bytenr, length⟩
  | mark_allocated bytenr length => do Btrfs.mark_allocated bytenr length; return ⟨bytenr, length⟩
  | free_data bytenr size => do Btrfs.free_data bytenr size; return ⟨bytenr, size⟩
  | free_metadata bytenr size => do Btrfs.free_metadata bytenr size; return ⟨bytenr, size⟩
  | unpin_freed => do modify Btrfs.unpin_freed; return ⟨0, 0⟩

/-- The live addresses after the operation came back with the range `r`. -/
def live (l : Set Nat) (r : Span) : AllocOp → Set Nat
  | allocate_metadata_for_owner .. | allocate_data .. | allocate_data_chunk ..
  | mark_allocated .. => l ∪ r.cells
  | free_data .. | free_metadata .. => l \ r.cells
  | exclude_ranges _ | unpin_freed => l

def freed (f : Set Nat) (r : Span) : AllocOp → Set Nat
  | free_data .. | free_metadata .. => f ∪ r.cells
  | unpin_freed => ∅
  | _ => f

/-- The alignment that an allocation asks for. -/
def alignment : AllocOp → Option Nat
  | allocate_metadata_for_owner size _ => some size
  | allocate_data _ sector_size | allocate_data_chunk _ sector_size => some sector_size
  | _ => none

/-- Whether the operation hands out a range. -/
def allocates : AllocOp → Prop
  | allocate_metadata_for_owner .. | allocate_data .. | allocate_data_chunk ..
  | mark_allocated .. => True
  | _ => False

end AllocOp

namespace AllocState

/-- The state after the operation. A failed one leaves the live and freed sets alone. -/
def step (s : AllocState) (op : AllocOp) : AllocState :=
  match op.exec s.map with
  | .ok r m => ⟨m, op.live s.live r, op.freed s.freed r⟩
  | .error _ m => ⟨m, s.live, s.freed⟩

/-- What one operation may do in the state `s`. -/
def StepSound (s : AllocState) (op : AllocOp) : Prop :=
  match op.exec s.map with
  | .error _ m => m = s.map
  | .ok r _ =>
    (∀ a ∈ op.alignment, r.start % a = 0) ∧
    (op.allocates → Disjoint r.cells (s.live ∪ s.freed ∪ s.map.excluded))

/-- A size that the superblock parser admits: a power of two below `2 ^ 32`. -/
def BlockSize (a : Nat) : Prop := ∃ k < 32, a = 2 ^ k

/-- What the callers promise: sizes are words, alignments are block sizes, and a freed range is
allocated. -/
def Promised (s : AllocState) : AllocOp → Prop
  | .allocate_metadata_for_owner size _ => BlockSize size
  | .allocate_data n sector_size => n < size ∧ BlockSize sector_size
  | .allocate_data_chunk n sector_size => n < size ∧ BlockSize sector_size
  | .mark_allocated bytenr length => bytenr < size ∧ length < size
  | .free_data bytenr n => Set.Ico bytenr (bytenr + n) ⊆ s.live
  | .free_metadata bytenr n => Set.Ico bytenr (bytenr + n) ⊆ s.live
  | .exclude_ranges _ | .unpin_freed => True

/-- No sum of the allocation loops leaves the word, `free_metadata` is given a range that is not empty
and lies in one block group, and an exclusion names no byte that is live or waits to be unpinned. -/
def Fits (s : AllocState) : AllocOp → Prop
  | .allocate_metadata_for_owner n _ =>
    ∀ bg ∈ s.map.block_groups, ∀ r ∈ bg.free_ranges, r.start + n - 1 + n < size
  | .allocate_data n a =>
    ∀ bg ∈ s.map.block_groups, ∀ r ∈ bg.free_ranges, r.start + a - 1 + n < size
  | .allocate_data_chunk _ a =>
    ∀ bg ∈ s.map.block_groups, ∀ r ∈ bg.free_ranges, r.start + a - 1 < size
  | .free_metadata bytenr n =>
    0 < n ∧ ∃ g ∈ s.map.items, g.start ≤ bytenr ∧ bytenr + n ≤ g.stop
  | .exclude_ranges l => Disjoint (rangeCells l) (s.live ∪ s.freed)
  | .mark_allocated .. | .free_data .. | .unpin_freed => True

/-- The states that operations meeting `cond` lead to. -/
inductive Reaches (cond : AllocState → AllocOp → Prop) (s : AllocState) : AllocState → Prop where
  | refl : Reaches cond s s
  | step {t : AllocState} (op : AllocOp) : Reaches cond s t → cond t op → Reaches cond s (t.step op)

end AllocState

/-! ## The exclusions -/

/-- The addresses that were excluded after the operation. -/
def AllocOp.excluded (x : Set Nat) : AllocOp → Set Nat
  | exclude_ranges l => x ∪ rangeCells l
  | _ => x

/-- The state, with all addresses that `exclude_ranges` was ever given. -/
structure Ledger extends AllocState where
  excluded : Set Nat

namespace Ledger

def step (s : Ledger) (op : AllocOp) : Option Ledger :=
  some ⟨s.toAllocState.step op, op.excluded s.excluded⟩

structure Sound (s : Ledger) : Prop extends s.toAllocState.Sound where
  recorded : ∀ bg ∈ s.map.block_groups, s.excluded ∩ bg.block_group.cells ⊆ covers bg.excluded_ranges

/-- What one operation may do. What it hands out was never excluded. -/
structure StepSound (s : Ledger) (op : AllocOp) : Prop where
  step : s.toAllocState.StepSound op
  clear : ∀ r m, op.exec s.map = .ok r m → op.allocates → Disjoint r.cells s.excluded

def Promised (s : Ledger) (op : AllocOp) : Prop := s.toAllocState.Promised op

def Fits (s : Ledger) (op : AllocOp) : Prop := s.toAllocState.Promised op ∧ s.toAllocState.Fits op

end Ledger

/-! ## The extent tree that the map is built from -/

namespace ExtentTree

def live (tree : ExtentTree) : Set Nat :=
  {x | ∃ e ∈ tree.extents, e.bytenr ≤ x ∧ x < e.bytenr + e.length}

/-- As `ExtentTree::read` leaves it: both lists sorted, the groups disjoint. -/
structure WellRead (tree : ExtentTree) : Prop where
  groups : GroupsApart tree.block_groups
  sorted : tree.extents.Pairwise fun a b => a.bytenr ≤ b.bytenr

/-- The extents that `from_extent_tree` counts for a group. -/
def startingIn (tree : ExtentTree) (bg : BlockGroupItem) : List AllocatedExtent :=
  tree.extents.filter fun e => bg.start ≤ e.bytenr ∧ e.bytenr < bg.stop

/-- No extent ends past the word or reaches into a group from below it, and the extents of a group
do not add up to more than the group. -/
structure ExtentsFit (tree : ExtentTree) : Prop where
  ends : ∀ bg ∈ tree.block_groups, ∀ e ∈ tree.startingIn bg, e.bytenr + e.length < size
  sum : ∀ bg ∈ tree.block_groups, ((tree.startingIn bg).map (·.length)).sum ≤ bg.length
  below : ∀ bg ∈ tree.block_groups, ∀ e ∈ tree.extents,
    e.bytenr < bg.start → e.bytenr + e.length ≤ bg.start

def start (tree : ExtentTree) (m : FreeSpaceMap) : AllocState := ⟨m, tree.live, ∅⟩

end ExtentTree

/-- Building the map excludes the superblock mirrors. -/
def ExtentTree.ledger (tree : ExtentTree) (chunk_map : ChunkMap) (m : FreeSpaceMap) : Ledger :=
  ⟨tree.start m, rangeCells (compute_sb_exclusions chunk_map)⟩

/-- The contract of the map, for the trees and the runs that meet a condition. -/
def AllocatorContract (tree_ok : ExtentTree → ChunkMap → Prop) (cond : Ledger → AllocOp → Prop) : Prop :=
  ∀ (tree : ExtentTree) (chunk_map : ChunkMap) (m : FreeSpaceMap),
    tree.WellRead → tree_ok tree chunk_map → from_extent_tree_and_chunk_map tree chunk_map = .ok m →
    ∀ ops s, Machine.Meets Ledger.step cond (tree.ledger chunk_map m) ops →
      Machine.run Ledger.step (tree.ledger chunk_map m) ops = some s → s.Sound ∧ ∀ op, cond s op → s.StepSound op

end LuksAndroid.Btrfs

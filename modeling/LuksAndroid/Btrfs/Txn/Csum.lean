import LuksAndroid.Btrfs.Txn.Converge

/-!
# Freeing the checksums of data extents

`core/src/fs/btrfs/write/csum_delete.rs`, and the file extents of
`core/src/fs/btrfs/extent.rs` that say which extents a file has.
-/

namespace LuksAndroid.Btrfs

open Word

/-! ## File extents -/

inductive ExtentKind where
  | Inline
  | Regular
  | Prealloc
deriving DecidableEq, Repr

structure FileExtent where
  file_offset : Nat
  kind : ExtentKind
  ram_bytes : Nat
  compression : Nat
  disk_bytenr : Nat
  disk_num_bytes : Nat
  offset : Nat
  num_bytes : Nat
  inline : Option Bytes
deriving DecidableEq, Repr

def INLINE_HEADER : Nat := 21
def REGULAR_ITEM_SIZE : Nat := 53

def extent_kind : Nat → Except LuksError ExtentKind
  | 0 => .ok .Inline
  | 1 => .ok .Regular
  | 2 => .ok .Prealloc
  | _ => .error (.CorruptFs "btrfs extent has an unknown type")

def FileExtent.parse (file_offset : Nat) (data : Bytes) : Except LuksError FileExtent := do
  if data.length ≤ 20 then throw (.CorruptFs "btrfs extent item truncated")
  let ram_bytes := data.get 8 8
  let compression := data.get 16 1
  let kind ← extent_kind (data.get 20 1)
  if data.get 17 1 ≠ 0 then throw (.UnsupportedFsFeature "btrfs encrypted extent")
  if kind = .Inline then
    let payload := data.drop INLINE_HEADER
    return ⟨file_offset, kind, ram_bytes, compression, 0, payload.length, 0, ram_bytes, some payload⟩
  if data.length < REGULAR_ITEM_SIZE then throw (.CorruptFs "btrfs extent item truncated")
  return ⟨file_offset, kind, ram_bytes, compression, data.get 21 8, data.get 29 8, data.get 37 8,
    data.get 45 8, none⟩

/-! ## Ranges -/

/-- Merge sorted ranges that overlap or touch. -/
def merge_freed_from : Nat × Nat → List (Nat × Nat) → List (Nat × Nat)
  | last, [] => [last]
  | last, (start, stop) :: rest =>
    if start ≤ last.2 then merge_freed_from (last.1, max last.2 stop) rest
    else last :: merge_freed_from (start, stop) rest

def merge_freed (ranges : List (Nat × Nat)) : List (Nat × Nat) :=
  match ranges.insertionSort fun a b => a.1 ≤ b.1 with
  | [] => []
  | r :: rest => merge_freed_from r rest

/-- What is left of one interval without a freed range. -/
def cut_interval (f : Nat × Nat) (i : Nat × Nat) : List (Nat × Nat) :=
  let overlap_start := max i.1 f.1
  let overlap_end := min i.2 f.2
  if overlap_start < overlap_end then
    (if i.1 < overlap_start then [(i.1, overlap_start)] else []) ++
      if overlap_end < i.2 then [(overlap_end, i.2)] else []
  else [i]

def compute_surviving_intervals (item_start item_end : Nat) (freed_ranges : List (Nat × Nat)) :
    List (Nat × Nat) :=
  if item_start ≥ item_end then []
  else freed_ranges.foldl (fun current f => if f.1 ≥ f.2 then current else current.flatMap (cut_interval f))
    [(item_start, item_end)]

/-! ## The items to change -/

/-- `BTreeMap::insert`. -/
def put_item (it : LeafItem) (l : List LeafItem) : List LeafItem :=
  Keyed.insert LeafItem.key it (l.filter fun a => a.key ≠ it.key)

def csum_item_end (sector_size csum_size : Nat) (key : Key) (data : Bytes) : Nat :=
  saturating_add key.offset (data.length / csum_size * sector_size)

/-- Where the scan for one freed range starts. -/
def csum_scan_start (read : Reader) (root sector_size csum_size f_start : Nat) :
    Except LuksError Cursor := do
  let search_key := ⟨EXTENT_CSUM_OBJECTID, EXTENT_CSUM_KEY, f_start⟩
  let c ← Cursor.search_le read root search_key
  if ¬ c.valid then return ← Cursor.search read root search_key
  let key ← c.key
  if key.objectid = EXTENT_CSUM_OBJECTID ∧ key.item_type = EXTENT_CSUM_KEY then
    if csum_item_end sector_size csum_size key (← c.data) ≤ f_start then c.advance read else return c
  else c.advance read

/-- The body of the scan: collect the items that reach into the range. -/
def collect_csum_item (sector_size csum_size f_start f_end : Nat) (found : List LeafItem) (key : Key)
    (c : Cursor) : Except LuksError (List LeafItem × Bool) := do
  if key.objectid ≠ EXTENT_CSUM_OBJECTID ∨ key.item_type ≠ EXTENT_CSUM_KEY then
    return (found, decide (key < ⟨EXTENT_CSUM_OBJECTID, EXTENT_CSUM_KEY, 0⟩))
  if key.offset ≥ f_end then return (found, false)
  let data ← c.data
  if csum_item_end sector_size csum_size key data > f_start then
    return (put_item ⟨key, data⟩ found, true)
  return (found, true)

def collect_csum_items (read : Reader) (root sector_size csum_size : Nat) :
    List (Nat × Nat) → List LeafItem → Except LuksError (List LeafItem)
  | [], found => return found
  | (f_start, f_end) :: rest, found => do
    let c ← csum_scan_start read root sector_size csum_size f_start
    let found ← c.scan_from read (collect_csum_item sector_size csum_size f_start f_end) found
    collect_csum_items read root sector_size csum_size rest found

/-- The checksums of one surviving interval. -/
def csum_slice (sector_size csum_size item_start : Nat) (payload : Bytes) (i : Nat × Nat) : Bytes :=
  let start_sec := (i.1 - item_start) / sector_size
  let end_sec := (i.2 - item_start) / sector_size
  payload.slice (start_sec * csum_size) ((end_sec - start_sec) * csum_size)

def csum_item_at (sector_size csum_size item_start : Nat) (payload : Bytes) (i : Nat × Nat) : LeafItem :=
  ⟨⟨EXTENT_CSUM_OBJECTID, EXTENT_CSUM_KEY, i.1⟩, csum_slice sector_size csum_size item_start payload i⟩

/-- How one item changes. -/
def plan_csum_item (sector_size csum_size : Nat) (merged_freed : List (Nat × Nat)) (it : LeafItem) :
    ItemDiff :=
  let item_start := it.key.offset
  let item_end := csum_item_end sector_size csum_size it.key it.data
  let at_interval := csum_item_at sector_size csum_size item_start it.data
  match compute_surviving_intervals item_start item_end merged_freed with
  | [] => ⟨[it.key], [], []⟩
  | first :: rest =>
    if first.1 = item_start then
      let first_data := csum_slice sector_size csum_size item_start it.data first
      ⟨[], rest.map at_interval,
        if first_data.length < it.data.length then [⟨it.key, first_data⟩] else []⟩
    else ⟨[it.key], (first :: rest).map at_interval, []⟩

def delete_extent_csums (fs : Mount) (csum_root : Root) (data_extents_to_free : List (Nat × Nat))
    (new_generation : Nat) : TxnM (Option Root) := do
  let freed_ranges := (data_extents_to_free.filter fun e => e.2 > 0).map fun e =>
    (e.1, saturating_add e.1 e.2)
  if freed_ranges.isEmpty then return none
  let merged_freed := merge_freed freed_ranges
  let sector_size := fs.sb.sector_size
  let csum_size := fs.sb.csum_type.size
  if sector_size = 0 ∨ csum_size = 0 then throw (.CorruptFs "invalid sector_size or csum_size")
  let items_to_modify ← TxnM.lift
    (collect_csum_items fs.read_node csum_root.1 sector_size csum_size merged_freed [])
  let plans := items_to_modify.map (plan_csum_item sector_size csum_size merged_freed)
  let deletes := plans.flatMap (·.to_delete)
  let truncates := plans.flatMap (·.to_mutate)
  let inserts := plans.flatMap (·.to_insert)
  if deletes.isEmpty ∧ truncates.isEmpty ∧ inserts.isEmpty then return none
  let root ← delete_items fs.view new_generation CSUM_TREE_OBJECTID deletes csum_root
  let root ← mutate_items fs.view new_generation CSUM_TREE_OBJECTID
    "csum item to truncate not found in leaf" truncates root
  let root ← insert_items fs.view new_generation CSUM_TREE_OBJECTID inserts root
  return some root

end LuksAndroid.Btrfs

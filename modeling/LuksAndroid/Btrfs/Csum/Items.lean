import LuksAndroid.Btrfs.Verify

/-!
# Checksum items

The two builders of `core/src/fs/btrfs/write/node.rs`, and what `csum_at` reads out of the
items they make. One builder goes over the data of an extent, the other over
checksums made while the data was streamed, and that one steps by 4096 whatever the
sector size is.
-/

namespace LuksAndroid.Btrfs

open Word

def CSUM_ITEM_LEAF_HEADROOM : Nat := 30

def max_csum_item_bytes (node_size csum_size : Nat) : Nat :=
  let usable := node_size - HEADER_SIZE - ITEM_SIZE - CSUM_ITEM_LEAF_HEADROOM
  if csum_size = 0 then 0 else usable / csum_size * csum_size

/-! ## From the data -/

/-- Sector `i` of the data, with zeros past its end. -/
def sector_buf (sector : Nat) (data : Bytes) (i : Nat) : Bytes :=
  let piece := data.slice (i * sector) sector
  piece ++ List.replicate (sector - piece.length) 0

def csum_payload (sha256 : Digest) (csum_type : CsumType) (sector : Nat) (data : Bytes) (first count : Nat) : Bytes :=
  (List.range' first count).flatMap fun i =>
    (csum_type.calculate sha256 (sector_buf sector data i)).take csum_type.size

/-- The loop over the items, each of at least one sector. -/
def csum_items_from (sha256 : Digest) (csum_type : CsumType) (sector disk_bytenr : Nat) (data : Bytes)
    (sectors_per_item nr_sectors : Nat) : Nat → Nat → List (Nat × Bytes)
  | 0, _ => []
  | fuel + 1, first =>
    if first < nr_sectors then
      let count := min sectors_per_item (nr_sectors - first)
      (wrapping_add disk_bytenr (first * sector), csum_payload sha256 csum_type sector data first count) ::
        csum_items_from sha256 csum_type sector disk_bytenr data sectors_per_item nr_sectors fuel (first + count)
    else []

def build_extent_csum_items (sha256 : Digest)
    (csum_type : CsumType) (node_size sector_size disk_bytenr disk_num_bytes : Nat)
    (data : Bytes) : Except LuksError (List (Nat × Bytes)) :=
  let csum_size := csum_type.size
  let max_item := max_csum_item_bytes node_size csum_size
  if max_item = 0 then .error (.BtrfsItemTooLarge "checksum item" csum_size node_size)
  else
    let nr_sectors := (disk_num_bytes + sector_size - 1) / sector_size
    .ok (csum_items_from sha256 csum_type sector_size disk_bytenr data (max_item / csum_size) nr_sectors nr_sectors 0)

/-! ## From checksums -/

structure CsumRun where
  items : List (Nat × Bytes)
  current_item_start : Nat
  current_payload : Bytes
  current_count : Nat
  next_expected_bytenr : Nat

def push_checksum (sectors_per_item : Nat) (s : CsumRun) (c : Nat × Nat) : CsumRun :=
  if s.current_payload = [] then
    { s with
      current_item_start := c.1
      current_payload := Bytes.le 4 c.2
      current_count := 1
      next_expected_bytenr := saturating_add c.1 4096 }
  else if c.1 = s.next_expected_bytenr ∧ s.current_count < sectors_per_item then
    { s with
      current_payload := s.current_payload ++ Bytes.le 4 c.2
      current_count := s.current_count + 1
      next_expected_bytenr := saturating_add c.1 4096 }
  else
    { items := s.items ++ [(s.current_item_start, s.current_payload)]
      current_item_start := c.1
      current_payload := Bytes.le 4 c.2
      current_count := 1
      next_expected_bytenr := saturating_add c.1 4096 }

/-- The push behind the loop. -/
def push_last_item (s : CsumRun) : List (Nat × Bytes) :=
  if s.current_payload = [] then s.items else s.items ++ [(s.current_item_start, s.current_payload)]

def build_extent_csum_items_from_checksums (node_size : Nat) (checksums : List (Nat × Nat)) :
    Except LuksError (List (Nat × Bytes)) :=
  if checksums = [] then .ok []
  else
    let max_item := max_csum_item_bytes node_size 4
    if max_item = 0 then .error (.BtrfsItemTooLarge "checksum item" 4 node_size)
    else .ok (push_last_item (checksums.foldl (push_checksum (max_item / 4)) ⟨[], 0, [], 0, 0⟩))

/-! ## The reader -/

/-- What `csum_at` finds for the sector at `target` in the item under the cursor. -/
def item_csum (it : LeafItem) (target width sector : Nat) : Option Bytes :=
  if ¬ is_csum_key it.key ∨ it.key.offset > target then none
  else
    let index := (target - it.key.offset) / sector
    if index * width + width > it.data.length then none else some (it.data.slice (index * width) width)

/-- An item as it is put into the checksum tree. -/
def extent_csum_item (i : Nat × Bytes) : LeafItem := ⟨csum_key i.1, i.2⟩

end LuksAndroid.Btrfs

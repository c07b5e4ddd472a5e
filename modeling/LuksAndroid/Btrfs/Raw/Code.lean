import LuksAndroid.Btrfs.Super.Code

/-!
# Nodes as bytes

`Leaf::emit` and `InteriorNode::emit` of `core/src/fs/btrfs/write/node.rs`, and the
reader of `core/src/fs/btrfs/tree.rs` over the block they write. The descriptors grow
from the header, the payloads are packed from the end of the block. `Node::parse`
bounds the descriptors and `item_data` its own range, so no index is out of bounds.
-/

namespace LuksAndroid.Btrfs.Raw

open Word

def KEY_SIZE : Nat := 17

/-- A leaf together with the checksum type, which the model of the fields leaves out. -/
structure Leaf extends Btrfs.Leaf where
  csum_type : CsumType

structure InteriorNode extends Btrfs.InteriorNode where
  csum_type : CsumType

/-! ## Writing -/

/-- The header both kinds of node start with. -/
structure Header where
  metadata_uuid : Bytes
  bytenr : Nat
  flags : Nat
  chunk_tree_uuid : Bytes
  generation : Nat
  owner : Nat
  nr_items : Nat
  level : Nat

def Header.fields (h : Header) : List (Nat × Bytes) :=
  [(32, h.metadata_uuid), (48, Bytes.le 8 h.bytenr), (56, Bytes.le 8 h.flags), (64, h.chunk_tree_uuid),
    (80, Bytes.le 8 h.generation), (88, Bytes.le 8 h.owner), (96, Bytes.le 4 h.nr_items),
    (100, Bytes.le 1 h.level)]

/-- A zeroed block, the fields one after the other, and the checksum of all that follows it. -/
def write_out (sha256 : Digest) (csum_type : CsumType) (size : Nat) (fields : List (Nat × Bytes)) : Bytes :=
  let raw := Bytes.patch (List.replicate size 0) fields
  raw.put 0 (csum_type.calculate sha256 (raw.drop 32))

namespace Leaf

def header (l : Leaf) : Header where
  metadata_uuid := l.metadata_uuid
  bytenr := l.bytenr
  flags := l.flags
  chunk_tree_uuid := l.chunk_tree_uuid
  generation := l.generation
  owner := l.owner
  nr_items := l.items.length
  level := 0

def item_fields (i data_offset : Nat) (item : LeafItem) : List (Nat × Bytes) :=
  let desc_pos := HEADER_SIZE + i * ITEM_SIZE
  [(desc_pos, Bytes.le 8 item.key.objectid), (desc_pos + 8, Bytes.le 1 item.key.item_type),
    (desc_pos + 9, Bytes.le 8 item.key.offset), (desc_pos + 17, Bytes.le 4 data_offset),
    (desc_pos + 21, Bytes.le 4 item.data.length), (HEADER_SIZE + data_offset, item.data)]

/-- The loop over the items, from item `i` on, with the payloads of those before it from `data_offset` on. -/
def items_fields : Nat → Nat → List LeafItem → List (Nat × Bytes)
  | _, _, [] => []
  | i, data_offset, item :: rest =>
    item_fields i (data_offset - item.data.length) item ++
      items_fields (i + 1) (data_offset - item.data.length) rest

def emit (sha256 : Digest) (l : Leaf) (node_size : Nat) : Except LuksError Bytes :=
  let needed := HEADER_SIZE + l.items.length * ITEM_SIZE + l.total_data_bytes
  if needed > node_size then .error .FilesystemFull
  else
    .ok (write_out sha256 l.csum_type node_size
      (l.header.fields ++ items_fields 0 (node_size - HEADER_SIZE) l.items))

end Leaf

namespace InteriorNode

def header (n : InteriorNode) : Header where
  metadata_uuid := n.metadata_uuid
  bytenr := n.bytenr
  flags := n.flags
  chunk_tree_uuid := n.chunk_tree_uuid
  generation := n.generation
  owner := n.owner
  nr_items := n.entries.length
  level := n.level

def entry_fields (i : Nat) (entry : InteriorEntry) : List (Nat × Bytes) :=
  let pos := HEADER_SIZE + i * KEY_PTR_SIZE
  [(pos, Bytes.le 8 entry.key.objectid), (pos + 8, Bytes.le 1 entry.key.item_type),
    (pos + 9, Bytes.le 8 entry.key.offset), (pos + 17, Bytes.le 8 entry.blockptr),
    (pos + 25, Bytes.le 8 entry.generation)]

def entries_fields : Nat → List InteriorEntry → List (Nat × Bytes)
  | _, [] => []
  | i, entry :: rest => entry_fields i entry ++ entries_fields (i + 1) rest

def emit (sha256 : Digest) (n : InteriorNode) (node_size : Nat) : Except LuksError Bytes :=
  let needed := HEADER_SIZE + n.entries.length * KEY_PTR_SIZE
  if needed > node_size then .error .FilesystemFull
  else .ok (write_out sha256 n.csum_type node_size (n.header.fields ++ entries_fields 0 n.entries))

end InteriorNode

/-! ## Reading -/

structure Node where
  raw : Bytes
  level : Nat
  nr_items : Nat
  owner : Nat
  generation : Nat

def parse_key (b : Bytes) (pos : Nat) : Key where
  objectid := b.get pos 8
  item_type := b.get (pos + 8) 1
  offset := b.get (pos + 9) 8

namespace Node

def parse (sha256 : Digest) (raw : Bytes) (bytenr : Nat) (csum_type : CsumType) (metadata_uuid : Bytes) :
    Except LuksError Node :=
  if raw.length < HEADER_SIZE then .error (.Truncated HEADER_SIZE raw.length)
  else if ¬ csum_type.verify sha256 (raw.take 32) (raw.drop 32) then .error (.FsChecksumMismatch "btrfs tree node")
  else if raw.get 48 8 ≠ bytenr then
    .error (.CorruptFs "btrfs tree node is not at the address that pointed to it")
  else if raw.slice 32 16 ≠ metadata_uuid then
    .error (.CorruptFs "btrfs tree node belongs to a different filesystem")
  else
    let nr_items := raw.get 96 4
    let level := raw.get 100 1
    let per_entry := if level = 0 then ITEM_SIZE else KEY_PTR_SIZE
    if HEADER_SIZE + nr_items * per_entry > raw.length then
      .error (.CorruptFs "btrfs node item count overruns")
    else .ok ⟨raw, level, nr_items, raw.get 88 8, raw.get 80 8⟩

def is_leaf (n : Node) : Bool := n.level = 0

def bytenr (n : Node) : Nat := n.raw.get 48 8

def flags (n : Node) : Nat := n.raw.get 56 8

def metadata_uuid (n : Node) : Bytes := n.raw.slice 32 16

def chunk_tree_uuid (n : Node) : Bytes := n.raw.slice 64 16

def key (n : Node) (i : Nat) : Except LuksError Key :=
  if i ≥ n.nr_items then .error (.CorruptFs "btrfs node index out of range")
  else
    let stride := if n.is_leaf then ITEM_SIZE else KEY_PTR_SIZE
    .ok (parse_key n.raw (HEADER_SIZE + i * stride))

def key_ptr (n : Node) (i : Nat) : Except LuksError InteriorEntry := do
  if n.is_leaf then throw (.CorruptFs "btrfs leaf has no child pointers")
  let pos := HEADER_SIZE + i * KEY_PTR_SIZE
  return ⟨← n.key i, n.raw.get (pos + KEY_SIZE) 8, n.raw.get (pos + KEY_SIZE + 8) 8⟩

def item_data (n : Node) (i : Nat) : Except LuksError Bytes :=
  if ¬ n.is_leaf then .error (.CorruptFs "btrfs interior node has no item data")
  else if i ≥ n.nr_items then .error (.CorruptFs "btrfs node index out of range")
  else
    let pos := HEADER_SIZE + i * ITEM_SIZE
    let size := n.raw.get (pos + KEY_SIZE + 4) 4
    match checked_add HEADER_SIZE (n.raw.get (pos + KEY_SIZE) 4) with
    | none => .error (.CorruptFs "btrfs item offset overflows")
    | some start =>
      match checked_add start size with
      | none => .error (.CorruptFs "btrfs item length overflows")
      | some stop =>
        if stop > n.raw.length then .error (.CorruptFs "btrfs item data past end of node")
        else .ok (n.raw.slice start size)

end Node

def Leaf.from_node (node : Node) (csum_type : CsumType) : Except LuksError Leaf := do
  if ¬ node.is_leaf then throw (.CorruptFs "cannot convert interior node to leaf")
  let items ← (List.range node.nr_items).mapM fun i => do
    let key ← node.key i
    let data ← node.item_data i
    return (⟨key, data⟩ : LeafItem)
  return {
    bytenr := node.bytenr
    generation := node.generation
    owner := node.owner
    flags := node.flags
    metadata_uuid := node.metadata_uuid
    chunk_tree_uuid := node.chunk_tree_uuid
    items := items
    csum_type := csum_type }

def InteriorNode.from_node (node : Node) (csum_type : CsumType) : Except LuksError InteriorNode := do
  if node.is_leaf then throw (.CorruptFs "cannot convert leaf to interior node")
  let entries ← (List.range node.nr_items).mapM node.key_ptr
  return {
    bytenr := node.bytenr
    generation := node.generation
    owner := node.owner
    level := node.level
    flags := node.flags
    metadata_uuid := node.metadata_uuid
    chunk_tree_uuid := node.chunk_tree_uuid
    entries := entries
    csum_type := csum_type }

end LuksAndroid.Btrfs.Raw

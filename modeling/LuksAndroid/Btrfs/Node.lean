import LuksAndroid.Error
import LuksAndroid.Btrfs.Key
import LuksAndroid.Lib.Bytes
import LuksAndroid.Lib.Keyed

/-!
# Tree nodes

`core/src/fs/btrfs/write/node.rs` and the `Node` reader of
`core/src/fs/btrfs/tree.rs`. A node is kept as its fields. Writing one out is the
size check of `emit`, and reading one back is the address and filesystem check of
`Node::parse`. Every length in a node is below 65536, so the counts that `emit`
casts to 32 bits keep their value.
-/

namespace LuksAndroid.Btrfs

structure LeafItem where
  key : Key
  data : Bytes
deriving DecidableEq, Repr

structure Leaf where
  bytenr : Nat
  generation : Nat
  owner : Nat
  flags : Nat
  metadata_uuid : Bytes
  chunk_tree_uuid : Bytes
  items : List LeafItem
deriving DecidableEq, Repr

structure InteriorEntry where
  key : Key
  blockptr : Nat
  generation : Nat
deriving DecidableEq, Repr

structure InteriorNode where
  bytenr : Nat
  generation : Nat
  owner : Nat
  level : Nat
  flags : Nat
  metadata_uuid : Bytes
  chunk_tree_uuid : Bytes
  entries : List InteriorEntry
deriving DecidableEq, Repr

/-- A block as the reader sees it. -/
inductive Node where
  | leaf (l : Leaf)
  | interior (n : InteriorNode)
deriving DecidableEq, Repr

def HEADER_FLAG_WRITTEN : Nat := 1

def max_item_payload_bytes (node_size : Nat) : Nat := node_size - HEADER_SIZE - ITEM_SIZE

def leaf_payload_bytes (items : List LeafItem) : Nat :=
  HEADER_SIZE + items.length * ITEM_SIZE + (items.map (·.data.length)).sum

def leaf_fits (items : List LeafItem) (node_size : Nat) : Bool := leaf_payload_bytes items ≤ node_size

/-! ## Leaves -/

namespace Leaf

def total_data_bytes (l : Leaf) : Nat := (l.items.map (·.data.length)).sum

def free_space (l : Leaf) (node_size : Nat) : Nat :=
  node_size - (HEADER_SIZE + l.items.length * ITEM_SIZE + l.total_data_bytes)

def binary_search (l : Leaf) (key : Key) : Except Nat Nat := Keyed.binary_search LeafItem.key key l.items

def find_item (l : Leaf) (key : Key) : Option Nat := (l.binary_search key).toOption

def insert_item (l : Leaf) (key : Key) (data : Bytes) (node_size : Nat) : Except LuksError Leaf :=
  let needed := ITEM_SIZE + data.length
  if data.length > max_item_payload_bytes node_size then
    .error (.BtrfsItemTooLarge (item_type_name key.item_type) data.length node_size)
  else if needed > l.free_space node_size then .error .FilesystemFull
  else
    match l.binary_search key with
    | .ok _ => .error (.AlreadyExists "duplicate key in leaf")
    | .error pos => .ok { l with items := l.items.take pos ++ ⟨key, data⟩ :: l.items.drop pos }

def delete_item (l : Leaf) (key : Key) : Except LuksError Leaf :=
  match l.find_item key with
  | none => .error (.NotFound "item key not found in leaf")
  | some idx => .ok { l with items := l.items.eraseIdx idx }

def emit (l : Leaf) (node_size : Nat) : Except LuksError Node :=
  if HEADER_SIZE + l.items.length * ITEM_SIZE + l.total_data_bytes > node_size then
    .error .FilesystemFull
  else .ok (.leaf l)

end Leaf

/-! ## Interior nodes -/

namespace InteriorNode

def split (n : InteriorNode) (right_bytenr : Nat) :
    Except LuksError (InteriorNode × InteriorNode × Key) :=
  if n.entries.length < 2 then
    .error (.CorruptFs "cannot split interior node with fewer than 2 entries")
  else
    let mid := n.entries.length / 2
    let right_entries := n.entries.drop mid
    match right_entries with
    | [] => .error (.CorruptFs "cannot split interior node with fewer than 2 entries")
    | e :: _ =>
      .ok ({ n with entries := n.entries.take mid },
        { n with bytenr := right_bytenr, entries := right_entries }, e.key)

def emit (n : InteriorNode) (node_size : Nat) : Except LuksError Node :=
  if HEADER_SIZE + n.entries.length * KEY_PTR_SIZE > node_size then .error .FilesystemFull
  else .ok (.interior n)

end InteriorNode

/-! ## The reader -/

namespace Node

def bytenr : Node → Nat
  | leaf l => l.bytenr
  | interior n => n.bytenr

def generation : Node → Nat
  | leaf l => l.generation
  | interior n => n.generation

def owner : Node → Nat
  | leaf l => l.owner
  | interior n => n.owner

def level : Node → Nat
  | leaf _ => 0
  | interior n => n.level

def flags : Node → Nat
  | leaf l => l.flags
  | interior n => n.flags

def metadata_uuid : Node → Bytes
  | leaf l => l.metadata_uuid
  | interior n => n.metadata_uuid

def chunk_tree_uuid : Node → Bytes
  | leaf l => l.chunk_tree_uuid
  | interior n => n.chunk_tree_uuid

/-- The keys of either kind of node. -/
def keys : Node → List Key
  | leaf l => l.items.map (·.key)
  | interior n => n.entries.map (·.key)

def nr_items (n : Node) : Nat := n.keys.length

/-- The checks of `Node::parse` that do not concern the bytes. -/
def parse (n : Node) (bytenr : Nat) (metadata_uuid : Bytes) : Except LuksError Node :=
  if n.bytenr ≠ bytenr then
    .error (.CorruptFs "btrfs tree node is not at the address that pointed to it")
  else if n.metadata_uuid ≠ metadata_uuid then
    .error (.CorruptFs "btrfs tree node belongs to a different filesystem")
  else .ok n

def to_leaf : Node → Except LuksError Leaf
  | leaf l => .ok l
  | interior _ => .error (.CorruptFs "cannot convert interior node to leaf")

def to_interior : Node → Except LuksError InteriorNode
  | leaf _ => .error (.CorruptFs "cannot convert leaf to interior node")
  | interior n => .ok n

/-- The loop of `lower_bound`. The interval shrinks every round, so `nr_items` rounds are enough. -/
def lower_bound_loop (keys : List Key) (key : Key) : Nat → Nat → Nat → Except LuksError Nat
  | 0, lo, _ => .ok lo
  | fuel + 1, lo, hi =>
    if lo < hi then
      let mid := lo + (hi - lo) / 2
      match keys[mid]? with
      | none => .error (.CorruptFs "btrfs node index out of range")
      | some k =>
        if k < key then lower_bound_loop keys key fuel (mid + 1) hi
        else lower_bound_loop keys key fuel lo mid
    else .ok lo

def lower_bound (n : Node) (key : Key) : Except LuksError Nat :=
  lower_bound_loop n.keys key n.nr_items 0 n.nr_items

def child_for (n : Node) (key : Key) : Except LuksError Nat := do
  if n.nr_items = 0 then
    throw (.CorruptFs "btrfs interior node has no child pointers")
  let bound ← n.lower_bound key
  if n.keys[bound]? = some key then return bound
  return bound - 1

end Node

end LuksAndroid.Btrfs

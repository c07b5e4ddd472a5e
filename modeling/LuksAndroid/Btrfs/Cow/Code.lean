import LuksAndroid.Btrfs.Alloc.Code

/-!
# Copy-on-write descents

`core/src/fs/btrfs/write/cow.rs` and `record_cow_result` of
`core/src/fs/btrfs/write/extent_tree.rs`. The two descents recurse on the level
they are given, as the source does.
-/

namespace LuksAndroid.Btrfs

/-- The mounted filesystem as the write path reads it: blocks by logical address. -/
structure BtrfsView where
  node_size : Nat
  metadata_uuid : Bytes
  device : Nat → Except LuksError Node

/-- The blocks emitted so far in this transaction, by address. -/
structure Pending where
  entries : List (Nat × Node)

namespace Pending

def empty : Pending := ⟨[]⟩

def get (p : Pending) (b : Nat) : Option Node := (p.entries.find? (·.1 = b)).map (·.2)

def remove (p : Pending) (b : Nat) : Pending := ⟨p.entries.filter (·.1 ≠ b)⟩

def insert (p : Pending) (b : Nat) (n : Node) : Pending := ⟨(b, n) :: (p.remove b).entries⟩

@[simp] theorem get_empty (b : Nat) : empty.get b = none := rfl

@[simp] theorem get_remove_self (p : Pending) (b : Nat) : (p.remove b).get b = none := by
  simp [get, remove]

theorem get_remove_of_ne (p : Pending) {b x : Nat} (h : x ≠ b) : (p.remove b).get x = p.get x := by
  rw [get, get, remove, List.find?_filter]
  congr 2
  ext e
  by_cases he : e.1 = x
  · simp [he, h]
  · simp [he]

@[simp] theorem get_insert_self (p : Pending) (b : Nat) (n : Node) : (p.insert b n).get b = some n := by
  simp [get, insert]

theorem get_insert_of_ne (p : Pending) {b x : Nat} (n : Node) (h : x ≠ b) :
    (p.insert b n).get x = p.get x := by
  rw [← get_remove_of_ne p h]
  simp [get, insert, h.symm]

end Pending

namespace BtrfsView

def read_node (fs : BtrfsView) (logical : Nat) : Except LuksError Node := do
  (← fs.device logical).parse logical fs.metadata_uuid

end BtrfsView

def read_node (fs : BtrfsView) (pending : Pending) (bytenr : Nat) : Except LuksError Node :=
  match pending.get bytenr with
  | some raw => raw.parse bytenr fs.metadata_uuid
  | none => fs.read_node bytenr

/-! ## The state of a descent -/

structure CowState where
  allocator : FreeSpaceMap
  allocated : List (Nat × Nat)
  freed : List (Nat × Nat)

abbrev CowM := EStateM LuksError CowState

def CowM.lift {α : Type} (x : Except LuksError α) : CowM α :=
  match x with
  | .ok a => pure a
  | .error e => throw e

/-- `allocate_metadata_for_owner`, and the entry in `allocated`. -/
def alloc_block (fs : BtrfsView) (owner level : Nat) : CowM Nat := fun s =>
  match allocate_metadata_for_owner fs.node_size owner s.allocator with
  | .ok b m => .ok b { s with allocator := m, allocated := s.allocated ++ [(b, level)] }
  | .error e m => .error e { s with allocator := m }

def free_block (bytenr level : Nat) : CowM Unit :=
  modify fun s => { s with freed := s.freed ++ [(bytenr, level)] }

/-- Where the copy of the block goes: its own address when it is already new. -/
def target_block (fs : BtrfsView) (owner bytenr level : Nat) (is_already_new : Bool) : CowM Nat := do
  if is_already_new then return bytenr
  let b ← alloc_block fs owner level
  free_block bytenr level
  return b

def is_already_new (pending : Pending) (node : Node) (generation bytenr : Nat) : Bool :=
  node.generation = generation ∧ (pending.get bytenr).isSome

/-! ## Insertion -/

/-- The shape of the split and the items of each leaf, left to right. -/
def plan_leaf_split (items : List LeafItem) (pos : Nat) (new_item : LeafItem) (node_size : Nat) :
    Nat × List (List LeafItem) :=
  let left := items.take pos
  let right := items.drop pos
  let shape_1 := left ++ [new_item]
  let shape_2 := new_item :: right
  if leaf_fits shape_1 node_size then (1, [shape_1, right].filter (! ·.isEmpty))
  else if leaf_fits shape_2 node_size then (2, [left, shape_2].filter (! ·.isEmpty))
  else (3, [left, [new_item], right].filter (! ·.isEmpty))

structure InsertResult where
  bytenr : Nat
  first_key : Key
  extra_siblings : List (Key × Nat)
  emitted : List (Nat × Node)

def first_key_or (items : List LeafItem) (key : Key) : Key := (items.head?.map (·.key)).getD key

/-- The leaves of a split after the first one. -/
def emit_siblings (fs : BtrfsView) (owner generation : Nat) (key : Key) (leaf : Leaf) :
    List (List LeafItem) → CowM (List (Key × Nat) × List (Nat × Node))
  | [] => return ([], [])
  | group :: rest => do
    let b ← alloc_block fs owner 0
    let raw ← CowM.lift
      (Leaf.emit { leaf with bytenr := b, generation, owner, items := group } fs.node_size)
    let (extra_siblings, emitted) ← emit_siblings fs owner generation key leaf rest
    return ((first_key_or group key, b) :: extra_siblings, (b, raw) :: emitted)

/-- The leaf branch of `cow_descend_insert`. -/
def insert_in_leaf (fs : BtrfsView) (owner generation : Nat) (key : Key) (data : Bytes) (node : Node)
    (bytenr : Nat) (already_new : Bool) : CowM InsertResult := do
  -- A node that is no leaf here is an emptied interior root.
  let leaf := match node with
    | .leaf l => l
    | .interior n => ⟨n.bytenr, n.generation, n.owner, HEADER_FLAG_WRITTEN, n.metadata_uuid,
        n.chunk_tree_uuid, []⟩
  let needed := ITEM_SIZE + data.length
  if needed ≤ leaf.free_space fs.node_size then
    let leaf ← CowM.lift (leaf.insert_item key data fs.node_size)
    let target ← target_block fs owner bytenr 0 already_new
    let raw ← CowM.lift (Leaf.emit { leaf with bytenr := target, generation, owner } fs.node_size)
    return ⟨target, first_key_or leaf.items key, [], [(target, raw)]⟩
  else
    if data.length > max_item_payload_bytes fs.node_size then
      throw (.BtrfsItemTooLarge (item_type_name key.item_type) data.length fs.node_size)
    match leaf.binary_search key with
    | .ok _ => throw (.AlreadyExists "duplicate key in leaf")
    | .error pos =>
      match (plan_leaf_split leaf.items pos ⟨key, data⟩ fs.node_size).2 with
      | [] => return ⟨0, key, [], []⟩
      | group :: rest =>
        let target ← target_block fs owner bytenr 0 already_new
        let raw ← CowM.lift
          (Leaf.emit { leaf with bytenr := target, generation, owner, items := group } fs.node_size)
        let (extra_siblings, emitted) ← emit_siblings fs owner generation key leaf rest
        return ⟨target, first_key_or group key, extra_siblings, (target, raw) :: emitted⟩

/-- Point entry `idx` at the copied child. -/
def set_entry (entries : List InteriorEntry) (idx : Nat) (key : Key) (blockptr generation : Nat) :
    List InteriorEntry :=
  entries.set idx ⟨key, blockptr, generation⟩

def first_entry_key_or (entries : List InteriorEntry) (key : Key) : Key :=
  (entries.head?.map (·.key)).getD key

/-- Emit an interior node in place of the block it was read from. -/
def emit_interior (fs : BtrfsView) (owner generation : Nat) (key : Key) (interior : InteriorNode)
    (bytenr level : Nat) (already_new : Bool) (emitted : List (Nat × Node)) : CowM InsertResult := do
  let target ← target_block fs owner bytenr level already_new
  let raw ← CowM.lift
    (InteriorNode.emit { interior with bytenr := target, generation, owner } fs.node_size)
  return ⟨target, first_entry_key_or interior.entries key, [], emitted ++ [(target, raw)]⟩

/-- Emit an interior node as two blocks. -/
def split_interior (fs : BtrfsView) (owner generation : Nat) (key : Key) (interior : InteriorNode)
    (bytenr level : Nat) (already_new : Bool) (emitted : List (Nat × Node)) : CowM InsertResult := do
  let right_bytenr ← alloc_block fs owner level
  let (left, right, pivot_key) ← CowM.lift (interior.split right_bytenr)
  let left_bytenr ← target_block fs owner bytenr level already_new
  let left_raw ← CowM.lift
    (InteriorNode.emit { left with bytenr := left_bytenr, generation, owner } fs.node_size)
  let right_raw ← CowM.lift
    (InteriorNode.emit { right with bytenr := right_bytenr, generation, owner } fs.node_size)
  return ⟨left_bytenr, first_entry_key_or left.entries key, [(pivot_key, right_bytenr)],
    emitted ++ [(left_bytenr, left_raw), (right_bytenr, right_raw)]⟩

/-- The interior branch of `cow_descend_insert`, once the child is done. -/
def insert_in_interior (fs : BtrfsView) (owner generation : Nat) (key : Key) (interior : InteriorNode)
    (child_idx bytenr level : Nat) (already_new : Bool) (child : InsertResult) : CowM InsertResult := do
  let entries := set_entry interior.entries child_idx child.first_key child.bytenr generation
  match child.extra_siblings with
  | [] =>
    emit_interior fs owner generation key { interior with entries } bytenr level already_new
      child.emitted
  | extra =>
    let siblings := extra.map fun (k, b) => (⟨k, b, generation⟩ : InteriorEntry)
    let entries := (entries ++ siblings).insertionSort fun a b => a.key ≤ b.key
    if HEADER_SIZE + entries.length * KEY_PTR_SIZE ≤ fs.node_size then
      emit_interior fs owner generation key { interior with entries } bytenr level already_new
        child.emitted
    else
      split_interior fs owner generation key { interior with entries } bytenr level already_new
        child.emitted

def cow_descend_insert (fs : BtrfsView) (pending : Pending) (owner : Nat) (key : Key) (data : Bytes)
    (generation : Nat) : Nat → Nat → CowM InsertResult
  | 0, bytenr => do
    let node ← CowM.lift (read_node fs pending bytenr)
    let already_new := is_already_new pending node generation bytenr
    insert_in_leaf fs owner generation key data node bytenr already_new
  | level + 1, bytenr => do
    let node ← CowM.lift (read_node fs pending bytenr)
    let already_new := is_already_new pending node generation bytenr
    if node.nr_items = 0 then
      insert_in_leaf fs owner generation key data node bytenr already_new
    else
      let interior ← CowM.lift node.to_interior
      let child_idx ← CowM.lift (node.child_for key)
      match interior.entries[child_idx]? with
      | none => throw (.CorruptFs "btrfs node index out of range")
      | some child_ptr =>
        let child ← cow_descend_insert fs pending owner key data generation level child_ptr.blockptr
        insert_in_interior fs owner generation key interior child_idx bytenr (level + 1) already_new
          child

structure CowResult where
  new_root_bytenr : Nat
  new_root_level : Nat
  emitted_blocks : List (Nat × Node)
  allocated : List (Nat × Nat)
  freed : List (Nat × Nat)

/-- Run a descent with empty lists, and collect the lists in the result. -/
def CowM.run {α : Type} (x : CowM α) : AllocM (α × List (Nat × Nat) × List (Nat × Nat)) := fun m =>
  match x ⟨m, [], []⟩ with
  | .ok a s => .ok (a, s.allocated, s.freed) s.allocator
  | .error e s => .error e s.allocator

/-- The body of `cow_tree_insert`: the new root, its level and the emitted blocks. -/
def insert_root (fs : BtrfsView) (pending : Pending) (root_bytenr root_level owner : Nat) (key : Key)
    (data : Bytes) (generation : Nat) : CowM (Nat × Nat × List (Nat × Node)) := do
  let res ← cow_descend_insert fs pending owner key data generation root_level root_bytenr
  let root_node ← CowM.lift (read_node fs pending root_bytenr)
  match res.extra_siblings with
  | [] =>
    let actual_root_level := if root_node.nr_items = 0 then 0 else root_level
    return (res.bytenr, actual_root_level, res.emitted)
  | extra =>
    -- The root itself split. The level is an 8-bit field.
    let new_root_level := if root_node.nr_items = 0 then 1 else (root_level + 1) % 256
    let new_root_bytenr ← alloc_block fs owner new_root_level
    let entries := ⟨res.first_key, res.bytenr, generation⟩ ::
      extra.map fun (k, b) => (⟨k, b, generation⟩ : InteriorEntry)
    let raw ← CowM.lift (InteriorNode.emit ⟨new_root_bytenr, generation, owner, new_root_level,
      root_node.flags, fs.metadata_uuid, root_node.chunk_tree_uuid, entries⟩ fs.node_size)
    return (new_root_bytenr, new_root_level, res.emitted ++ [(new_root_bytenr, raw)])

def cow_tree_insert (fs : BtrfsView) (pending : Pending) (root_bytenr root_level owner : Nat)
    (key : Key) (data : Bytes) (generation : Nat) : AllocM CowResult := do
  let ((bytenr, level, emitted), allocated, freed) ←
    (insert_root fs pending root_bytenr root_level owner key data generation).run
  return ⟨bytenr, level, emitted, allocated, freed⟩

/-! ## Mutation -/

/-- What a descent reports to its parent: the copy, or that the node is gone. -/
abbrev MutateResult := Option (Nat × Key × Nat) × List (Nat × Node)

/-- The leaf branch of `cow_descend`. -/
def mutate_leaf (fs : BtrfsView) (owner : Nat) (key : Key) (generation : Nat)
    (mutate_fn : Leaf → Except LuksError Leaf) (is_root : Bool) (node : Node) (bytenr : Nat)
    (already_new : Bool) : CowM MutateResult := do
  let leaf ← CowM.lift node.to_leaf
  let pre_bytes := leaf_payload_bytes leaf.items
  let leaf ← CowM.lift (mutate_fn leaf)
  let post_bytes := leaf_payload_bytes leaf.items
  if post_bytes > pre_bytes then
    throw (.CorruptFs "btrfs mutation expanded leaf size without split capability")
  if leaf.items.isEmpty ∧ ¬ is_root then
    free_block bytenr 0
    return (none, [])
  let target ← target_block fs owner bytenr 0 already_new
  let raw ← CowM.lift (Leaf.emit { leaf with bytenr := target, generation, owner } fs.node_size)
  return (some (target, first_key_or leaf.items key, 0), [(target, raw)])

/-- An interior root without entries becomes an empty leaf. -/
def empty_root (fs : BtrfsView) (owner : Nat) (key : Key) (generation : Nat) (node : Node)
    (bytenr level : Nat) (emitted : List (Nat × Node)) : CowM MutateResult := do
  let target ← alloc_block fs owner 0
  free_block bytenr level
  let raw ← CowM.lift (Leaf.emit ⟨target, generation, owner, HEADER_FLAG_WRITTEN, node.metadata_uuid,
    node.chunk_tree_uuid, []⟩ fs.node_size)
  return (some (target, key, 0), emitted ++ [(target, raw)])

/-- Emit a node that was read from another address, with this generation and owner. -/
def restamp (fs : BtrfsView) (owner generation level new_bytenr : Nat) (key : Key) (node : Node)
    (emitted : List (Nat × Node)) : CowM MutateResult := do
  if level = 0 then
    let leaf ← CowM.lift node.to_leaf
    let raw ← CowM.lift (Leaf.emit { leaf with bytenr := new_bytenr, generation, owner } fs.node_size)
    return (some (new_bytenr, first_key_or leaf.items key, 0), emitted ++ [(new_bytenr, raw)])
  else
    let interior ← CowM.lift node.to_interior
    let raw ← CowM.lift
      (InteriorNode.emit { interior with bytenr := new_bytenr, generation, owner } fs.node_size)
    return (some (new_bytenr, first_entry_key_or interior.entries key, level),
      emitted ++ [(new_bytenr, raw)])

/-- An interior root with one entry gives way to its child, which must carry the generation. -/
def collapse_root (fs : BtrfsView) (pending : Pending) (owner generation bytenr level : Nat)
    (child : InteriorEntry) (emitted : List (Nat × Node)) : CowM MutateResult := do
  let child_level := level - 1
  free_block bytenr level
  if child.generation = generation then
    return (some (child.blockptr, child.key, child_level), emitted)
  else
    let child_node ← CowM.lift (read_node fs pending child.blockptr)
    let new_bytenr ← alloc_block fs owner child_level
    free_block child.blockptr child_level
    restamp fs owner generation child_level new_bytenr child.key child_node emitted

/-- Point entry `child_idx` at the copied child, or drop it with the child. -/
def replace_child (entries : List InteriorEntry) (child_idx generation : Nat) (child : MutateResult) :
    List InteriorEntry :=
  match child.1 with
  | some (b, k, _) => set_entry entries child_idx k b generation
  | none => entries.eraseIdx child_idx

/-- The interior branch of `cow_descend`, once the child is done. -/
def mutate_interior (fs : BtrfsView) (pending : Pending) (owner : Nat) (key : Key) (generation : Nat)
    (is_root : Bool) (node : Node) (interior : InteriorNode) (child_idx bytenr level : Nat)
    (already_new : Bool) (child : MutateResult) : CowM MutateResult := do
  match replace_child interior.entries child_idx generation child with
  | [] =>
    if ¬ is_root then
      free_block bytenr level
      return (none, child.2)
    else empty_root fs owner key generation node bytenr level child.2
  | e :: rest =>
    if is_root ∧ rest.isEmpty then
      collapse_root fs pending owner generation bytenr level e child.2
    else
      let target ← target_block fs owner bytenr level already_new
      let raw ← CowM.lift (InteriorNode.emit
        { interior with bytenr := target, generation, owner, entries := e :: rest } fs.node_size)
      return (some (target, e.key, level), child.2 ++ [(target, raw)])

def cow_descend (fs : BtrfsView) (pending : Pending) (owner : Nat) (key : Key) (generation : Nat)
    (mutate_fn : Leaf → Except LuksError Leaf) : Nat → Nat → Bool → CowM MutateResult
  | 0, bytenr, is_root => do
    let node ← CowM.lift (read_node fs pending bytenr)
    let already_new := is_already_new pending node generation bytenr
    mutate_leaf fs owner key generation mutate_fn is_root node bytenr already_new
  | level + 1, bytenr, is_root => do
    let node ← CowM.lift (read_node fs pending bytenr)
    let already_new := is_already_new pending node generation bytenr
    let interior ← CowM.lift node.to_interior
    let child_idx ← CowM.lift (node.child_for key)
    match interior.entries[child_idx]? with
    | none => throw (.CorruptFs "btrfs node index out of range")
    | some child_ptr =>
      let child ← cow_descend fs pending owner key generation mutate_fn level child_ptr.blockptr false
      mutate_interior fs pending owner key generation is_root node interior child_idx bytenr
        (level + 1) already_new child

def cow_tree_mutate (fs : BtrfsView) (pending : Pending) (root_bytenr root_level owner : Nat)
    (key : Key) (generation : Nat) (mutate_fn : Leaf → Except LuksError Leaf) : AllocM CowResult := do
  let ((root_res, emitted), allocated, freed) ←
    (cow_descend fs pending owner key generation mutate_fn root_level root_bytenr true).run
  match root_res with
  | none => throw (.CorruptFs
      "btrfs CoW removed the tree root; a root has no parent to be removed from")
  | some (bytenr, _, level) => return ⟨bytenr, level, emitted, allocated, freed⟩

/-- The closures that callers hand to `cow_tree_mutate`: find the item and change its data. -/
def edit_item (key : Key) (f : Bytes → Except LuksError Bytes) (l : Leaf) : Except LuksError Leaf :=
  match l.find_item key with
  | none => .error (.NotFound "item key not found in leaf")
  | some idx =>
    match l.items[idx]? with
    | none => .error (.CorruptFs "btrfs node index out of range")
    | some it => do
      let data ← f it.data
      return { l with items := l.items.set idx { it with data } }

/-! ## Recording a result -/

/-- What a transaction keeps between two descents. -/
structure Recording where
  blocks_to_add : List (Nat × Nat × Nat)
  blocks_to_remove : List (Nat × Nat × Nat)
  allocator : FreeSpaceMap
  pending_blocks : Pending

/-- A freed block that this transaction allocated is forgotten, any other one is queued. -/
def record_freed (node_size owner : Nat) (r : Recording) (f : Nat × Nat) : Recording :=
  match r.blocks_to_add.findIdx? (fun a => a.1 = f.1) with
  | some pos =>
    { r with
      blocks_to_add := r.blocks_to_add.eraseIdx pos
      pending_blocks := r.pending_blocks.remove f.1
      allocator := ⟨free_metadata_in_groups f.1 node_size r.allocator.block_groups⟩ }
  | none => { r with blocks_to_remove := r.blocks_to_remove ++ [(f.1, f.2, owner)] }

def record_cow_result (res : CowResult) (node_size owner : Nat) (r : Recording) : Recording :=
  let r := { r with
    blocks_to_add := r.blocks_to_add ++ res.allocated.map fun (b, level) => (b, level, owner) }
  let r := res.freed.foldl (record_freed node_size owner) r
  { r with pending_blocks := res.emitted_blocks.foldl (fun p e => p.insert e.1 e.2) r.pending_blocks }

end LuksAndroid.Btrfs

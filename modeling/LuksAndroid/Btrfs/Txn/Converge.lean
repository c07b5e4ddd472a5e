import LuksAndroid.Btrfs.Dir.Code

/-!
# Transactions and their bookkeeping

`core/src/fs/btrfs/write/extent_tree.rs`: reading the extent tree, the lookups
that see pending blocks, and `converge_and_finalize`, which records what a
transaction allocated and freed until nothing new is left to record.
-/

namespace LuksAndroid.Btrfs

open Word

/-! ## Reading the extent tree -/

def MAX_LEVEL : Nat := 8

/-- Visit the items below a node, in key order. -/
def walk_node {σ : Type} (read : Reader) (visit : σ → Key → Bytes → Except LuksError σ) :
    Nat → Node → σ → Except LuksError σ
  | _, .leaf l, s => l.items.foldlM (fun s it => visit s it.key it.data) s
  | 0, .interior n, s =>
    if n.entries.isEmpty then .ok s
    else .error (.CorruptFs "btrfs interior node has no item data")
  | level + 1, .interior n, s => n.entries.foldlM (fun s e => do
      let child ← read e.blockptr
      if child.level ≠ level then
        throw (.CorruptFs "btrfs child node is not one level below its parent")
      walk_node read visit level child s) s

def walk_tree {σ : Type} (read : Reader) (root : Nat) (visit : σ → Key → Bytes → Except LuksError σ)
    (s : σ) : Except LuksError σ := do
  let node ← read root
  if node.level > MAX_LEVEL then throw (.CorruptFs "btrfs tree is implausibly deep")
  walk_node read visit node.level node s

def EXTENT_FLAG_DATA : Nat := 0x1
def EXTENT_FLAG_TREE_BLOCK : Nat := 0x2

/-- The loop over the inline backreferences. Every round uses up a byte. -/
def parse_inline_backrefs_loop : Nat → Bytes → Except LuksError (List InlineBackref)
  | 0, _ => return []
  | _ + 1, [] => return []
  | rounds + 1, backref_type :: data => do
    if backref_type.toNat = TREE_BLOCK_REF_KEY then
      if data.length < 8 then throw (.CorruptFs "tree block ref truncated")
      let rest ← parse_inline_backrefs_loop rounds (data.drop 8)
      return .TreeBlock (Bytes.get data 0 8) :: rest
    else if backref_type.toNat = EXTENT_DATA_REF_KEY then
      if data.length < 28 then throw (.CorruptFs "extent data ref truncated")
      let rest ← parse_inline_backrefs_loop rounds (data.drop 28)
      return .ExtentData (Bytes.get data 0 8) (Bytes.get data 8 8) (Bytes.get data 16 8)
        (Bytes.get data 24 4) :: rest
    else if backref_type.toNat = SHARED_BLOCK_REF_KEY then
      if data.length < 8 then throw (.CorruptFs "shared block ref truncated")
      let rest ← parse_inline_backrefs_loop rounds (data.drop 8)
      return .SharedBlock (Bytes.get data 0 8) :: rest
    else if backref_type.toNat = SHARED_DATA_REF_KEY then
      if data.length < 12 then throw (.CorruptFs "shared data ref truncated")
      let rest ← parse_inline_backrefs_loop rounds (data.drop 12)
      return .SharedData (Bytes.get data 0 8) (Bytes.get data 8 4) :: rest
    else return [.Other backref_type.toNat data]

def parse_inline_backrefs (data : Bytes) : Except LuksError (List InlineBackref) :=
  parse_inline_backrefs_loop data.length data

def BlockGroupItem.parse (key : Key) (data : Bytes) : Except LuksError BlockGroupItem :=
  if data.length < 24 then .error (.CorruptFs "btrfs block group item truncated")
  else .ok ⟨key.objectid, key.offset, data.get 0 8, data.get 8 8, data.get 16 8⟩

/-- `ExtentItem::parse`, as the extent that `ExtentTree::read` makes of it. -/
def parse_extent_item (key : Key) (data : Bytes) : Except LuksError AllocatedExtent := do
  if data.length < 24 then throw (.CorruptFs "btrfs extent item truncated")
  let flags := data.get 16 8
  let backrefs ← parse_inline_backrefs (data.drop 24)
  return ⟨key.objectid, key.offset, data.get 0 8, data.get 8 8, flags &&& EXTENT_FLAG_DATA ≠ 0,
    flags &&& EXTENT_FLAG_TREE_BLOCK ≠ 0, 0, backrefs⟩

/-- `MetadataItem::parse`, as the extent that `ExtentTree::read` makes of it. -/
def parse_metadata_item (node_size : Nat) (key : Key) (data : Bytes) :
    Except LuksError AllocatedExtent := do
  if data.length < 24 then throw (.CorruptFs "btrfs metadata item truncated")
  let backrefs ← parse_inline_backrefs (data.drop 24)
  return ⟨key.objectid, node_size, data.get 0 8, data.get 8 8, false, true, key.offset % 256, backrefs⟩

def read_extent_item (node_size : Nat) (t : ExtentTree) (key : Key) (data : Bytes) :
    Except LuksError ExtentTree := do
  if key.item_type = BLOCK_GROUP_ITEM_KEY then
    return { t with block_groups := t.block_groups ++ [← BlockGroupItem.parse key data] }
  else if key.item_type = EXTENT_ITEM_KEY then
    return { t with extents := t.extents ++ [← parse_extent_item key data] }
  else if key.item_type = METADATA_ITEM_KEY then
    return { t with extents := t.extents ++ [← parse_metadata_item node_size key data] }
  else return t

def ExtentTree.read (fs : Mount) : Except LuksError ExtentTree := do
  if ¬ fs.sb.has_skinny_metadata then
    throw (.UnsupportedFsFeature
      "non-skinny metadata (legacy EXTENT_ITEM tree blocks) — this filesystem can be read but not written")
  let root ← fs.tree_root EXTENT_TREE_OBJECTID
  let t ← walk_tree fs.read_node root.bytenr (read_extent_item fs.sb.node_size) ⟨[], []⟩
  return ⟨t.block_groups.insertionSort fun a b => a.start ≤ b.start,
    t.extents.insertionSort fun a b => a.bytenr ≤ b.bytenr⟩

/-! ## Lookups that see pending blocks -/

/-- At most 16 levels are searched. -/
def find_item_in_tree_loop (fs : BtrfsView) (pending : Pending) (key : Key) :
    Nat → Nat → Except LuksError (Option Bytes)
  | 0, _ => return none
  | depth + 1, curr_bytenr => do
    match ← Btrfs.read_node fs pending curr_bytenr with
    | .leaf l => return (l.items.find? fun it => it.key = key).map (·.data)
    | .interior n =>
      match n.entries.reverse.find? fun e => e.key ≤ key with
      | none => return none
      | some e => find_item_in_tree_loop fs pending key depth e.blockptr

def find_item_in_tree (fs : BtrfsView) (pending : Pending) (root_bytenr : Nat) (key : Key) :
    Except LuksError (Option Bytes) :=
  find_item_in_tree_loop fs pending key 16 root_bytenr

/-- The recursion follows the child pointers. A level is one byte, so 256 steps reach every leaf of a
tree whose levels drop. -/
def collect_tree_items_loop (fs : BtrfsView) (pending : Pending) :
    Nat → Nat → Except LuksError (List LeafItem)
  | 0, _ => return []
  | depth + 1, bytenr => do
    if bytenr = 0 then return []
    match ← Btrfs.read_node fs pending bytenr with
    | .leaf l => return l.items
    | .interior n =>
      return (← n.entries.mapM fun e => collect_tree_items_loop fs pending depth e.blockptr).flatten

def collect_tree_items (fs : BtrfsView) (pending : Pending) (bytenr : Nat) :
    Except LuksError (List LeafItem) :=
  collect_tree_items_loop fs pending 256 bytenr

/-- The items that a cursor can still step back over. -/
def Cursor.passed (read : Reader) (c : Cursor) : Nat :=
  c.leaf.2 + (c.path.map fun f =>
    match f with
    | (.interior n, i) => ((n.entries.take i).map fun e => Cursor.size read (n.level - 1) e.blockptr).sum
    | (.leaf _, _) => 0).sum

/-! ## Edits of a transaction -/

abbrev TxnM := EStateM LuksError Recording

def TxnM.lift {α : Type} (x : Except LuksError α) : TxnM α :=
  match x with
  | .ok a => pure a
  | .error e => throw e

/-- Where a tree is rooted: the address and the level of its root. -/
abbrev Root := Nat × Nat

/-- `cow_tree_insert`, then `record_cow_result`. -/
def tree_insert (fs : BtrfsView) (generation owner : Nat) (root : Root) (key : Key) (data : Bytes) :
    TxnM Root := fun r =>
  match cow_tree_insert fs r.pending_blocks root.1 root.2 owner key data generation r.allocator with
  | .ok res m => .ok (res.new_root_bytenr, res.new_root_level)
      (record_cow_result res fs.node_size owner { r with allocator := m })
  | .error e m => .error e { r with allocator := m }

/-- `cow_tree_mutate`, then `settle` on the allocator, then `record_cow_result`. -/
def tree_mutate_settling (settle : FreeSpaceMap → FreeSpaceMap) (fs : BtrfsView)
    (generation owner : Nat) (root : Root) (key : Key) (mutate_fn : Leaf → Except LuksError Leaf) :
    TxnM Root := fun r =>
  match cow_tree_mutate fs r.pending_blocks root.1 root.2 owner key generation mutate_fn r.allocator with
  | .ok res m => .ok (res.new_root_bytenr, res.new_root_level)
      (record_cow_result res fs.node_size owner { r with allocator := settle m })
  | .error e m => .error e { r with allocator := m }

def tree_mutate (fs : BtrfsView) (generation owner : Nat) (root : Root) (key : Key)
    (mutate_fn : Leaf → Except LuksError Leaf) : TxnM Root :=
  tree_mutate_settling id fs generation owner root key mutate_fn

def tree_delete (fs : BtrfsView) (generation owner : Nat) (root : Root) (key : Key) : TxnM Root :=
  tree_mutate fs generation owner root key fun l => l.delete_item key

/-- Change the data of an item, as the closures of the callers do. -/
def edit_or (missing : String) (key : Key) (f : Bytes → Except LuksError Bytes) (l : Leaf) :
    Except LuksError Leaf :=
  match l.find_item key with
  | none => .error (.NotFound missing)
  | some idx =>
    match l.items[idx]? with
    | none => .error (.CorruptFs "btrfs node index out of range")
    | some it => do
      let data ← f it.data
      return { l with items := l.items.set idx { it with data } }

def tree_edit (fs : BtrfsView) (generation owner : Nat) (root : Root) (missing : String) (key : Key)
    (f : Bytes → Except LuksError Bytes) : TxnM Root :=
  tree_mutate fs generation owner root key (edit_or missing key f)

/-! ## What converges -/

def stamp_root_item (truncated : String) (generation : Nat) (root : Root) (data : Bytes) :
    Except LuksError Bytes :=
  if data.length < 239 then .error (.CorruptFs truncated)
  else .ok (((data.put 160 (Bytes.le 8 generation)).put 176 (Bytes.le 8 root.1)).put 238
    (Bytes.le 1 root.2))

/-- The root item of the file tree also keeps its generation in two later fields. -/
def stamp_fs_root_item (generation : Nat) (root : Root) (data : Bytes) : Except LuksError Bytes := do
  let data ← stamp_root_item "root item truncated" generation root data
  let data := if data.length ≥ 247 then data.put 239 (Bytes.le 8 generation) else data
  return if data.length ≥ 303 then data.put 295 (Bytes.le 8 generation) else data

def emit_data_extent (disk_bytenr disk_num_bytes generation root objectid offset : Nat) : LeafItem :=
  ⟨⟨disk_bytenr, EXTENT_ITEM_KEY, disk_num_bytes⟩,
    Bytes.le 8 1 ++ Bytes.le 8 generation ++ Bytes.le 8 EXTENT_FLAG_DATA ++
    Bytes.le 1 EXTENT_DATA_REF_KEY ++ Bytes.le 8 root ++ Bytes.le 8 objectid ++ Bytes.le 8 offset ++
    Bytes.le 4 1⟩

def emit_tree_block (bytenr level generation owner_root : Nat) : LeafItem :=
  ⟨⟨bytenr, METADATA_ITEM_KEY, level⟩,
    Bytes.le 8 1 ++ Bytes.le 8 generation ++ Bytes.le 8 EXTENT_FLAG_TREE_BLOCK ++
    Bytes.le 1 TREE_BLOCK_REF_KEY ++ Bytes.le 8 owner_root⟩

/-- The closure that drops the record of a block, unless the block is shared. -/
def drop_metadata_item (key : Key) (l : Leaf) : Except LuksError Leaf :=
  match l.find_item key with
  | none => .error (.NotFound "metadata item not found")
  | some idx =>
    match l.items[idx]? with
    | none => .error (.CorruptFs "btrfs node index out of range")
    | some it =>
      if it.data.length < 24 then .error (.CorruptFs "metadata item truncated")
      else if it.data.get 0 8 > 1 then
        .error (.UnsupportedFsFeature
          "modifying shared tree blocks is not supported (subvolume is snapshotted)")
      else l.delete_item key

def stamp_block_group (used : Nat) (data : Bytes) : Except LuksError Bytes :=
  if data.length < 24 then .error (.CorruptFs "block group item truncated")
  else .ok (data.put 0 (Bytes.le 8 used))

/-- The trees that the loop moves. -/
structure Roots where
  root_tree : Root
  extent : Root
  fst : Option Root

def update_root_item (fs : BtrfsView) (generation objectid : Nat) (missing truncated : String)
    (root : Root) (roots : Roots) : TxnM Roots := do
  let root_tree ← tree_edit fs generation ROOT_TREE_OBJECTID roots.root_tree missing
    ⟨objectid, ROOT_ITEM_KEY, 0⟩ (stamp_root_item truncated generation root)
  return { roots with root_tree }

def insert_data_extents (fs : BtrfsView) (generation : Nat) :
    List (Nat × Nat × Nat × Nat × Nat) → Root → TxnM Root
  | [], extent => return extent
  | (bytenr, len, root, ino, offset) :: rest, extent => do
    let it := emit_data_extent bytenr len generation root ino offset
    let extent ← tree_insert fs generation EXTENT_TREE_OBJECTID extent it.key it.data
    insert_data_extents fs generation rest extent

def delete_data_extents (fs : BtrfsView) (generation : Nat) : List (Nat × Nat) → Root → TxnM Root
  | [], extent => return extent
  | (bytenr, len) :: rest, extent => do
    let extent ← tree_delete fs generation EXTENT_TREE_OBJECTID extent ⟨bytenr, EXTENT_ITEM_KEY, len⟩
    delete_data_extents fs generation rest extent

/-- The freed blocks of a round. Each goes back to the allocator as its record goes. -/
def remove_metadata_items (fs : BtrfsView) (generation : Nat) :
    List (Nat × Nat × Nat) → Root → TxnM Root
  | [], extent => return extent
  | (old_b, old_lvl, _) :: rest, extent => do
    let key := ⟨old_b, METADATA_ITEM_KEY, old_lvl⟩
    let extent ← tree_mutate_settling
      (fun m => ⟨free_metadata_in_groups old_b fs.node_size m.block_groups⟩)
      fs generation EXTENT_TREE_OBJECTID extent key (drop_metadata_item key)
    remove_metadata_items fs generation rest extent

/-- The allocated blocks of a round. -/
def add_metadata_items (fs : BtrfsView) (generation : Nat) :
    List (Nat × Nat × Nat) → Root → TxnM Root
  | [], extent => return extent
  | (alloc_bytenr, alloc_level, alloc_owner) :: rest, extent => do
    let it := emit_tree_block alloc_bytenr alloc_level generation alloc_owner
    let extent ← tree_insert fs generation EXTENT_TREE_OBJECTID extent it.key it.data
    add_metadata_items fs generation rest extent

/-- What has to change for the first list of items to become the second. -/
structure ItemDiff where
  to_delete : List Key
  to_insert : List LeafItem
  to_mutate : List LeafItem

def diff_items : Nat → List LeafItem → List LeafItem → ItemDiff
  | 0, _, _ => ⟨[], [], []⟩
  | _ + 1, current, [] => ⟨current.map (·.key), [], []⟩
  | _ + 1, [], desired => ⟨[], desired, []⟩
  | rounds + 1, cur :: current, des :: desired =>
    if cur.key < des.key then
      let d := diff_items rounds current (des :: desired)
      { d with to_delete := cur.key :: d.to_delete }
    else if des.key < cur.key then
      let d := diff_items rounds (cur :: current) desired
      { d with to_insert := des :: d.to_insert }
    else
      let d := diff_items rounds current desired
      if cur.data ≠ des.data then { d with to_mutate := des :: d.to_mutate } else d

def delete_items (fs : BtrfsView) (generation owner : Nat) : List Key → Root → TxnM Root
  | [], root => return root
  | key :: rest, root => do
    delete_items fs generation owner rest (← tree_delete fs generation owner root key)

def mutate_items (fs : BtrfsView) (generation owner : Nat) (missing : String) :
    List LeafItem → Root → TxnM Root
  | [], root => return root
  | it :: rest, root => do
    mutate_items fs generation owner missing rest
      (← tree_edit fs generation owner root missing it.key fun _ => .ok it.data)

def insert_items (fs : BtrfsView) (generation owner : Nat) : List LeafItem → Root → TxnM Root
  | [], root => return root
  | it :: rest, root => do
    insert_items fs generation owner rest (← tree_insert fs generation owner root it.key it.data)

/-- Bring the free-space tree to what the allocator says now. -/
def reconcile_free_space (fs : BtrfsView) (generation : Nat) (roots : Roots) : TxnM Roots := do
  match roots.fst with
  | none => return roots
  | some fst =>
    let r ← get
    let current_items ← TxnM.lift (collect_tree_items fs r.pending_blocks fst.1)
    let desired_items := emit_free_space_tree_items r.allocator
    let d := diff_items (current_items.length + desired_items.length + 1) current_items desired_items
    if d.to_delete.isEmpty ∧ d.to_insert.isEmpty ∧ d.to_mutate.isEmpty then return roots
    let fst ← delete_items fs generation FREE_SPACE_TREE_OBJECTID d.to_delete fst
    let fst ← mutate_items fs generation FREE_SPACE_TREE_OBJECTID
      "fst item to mutate not found in leaf" d.to_mutate fst
    let fst ← insert_items fs generation FREE_SPACE_TREE_OBJECTID d.to_insert fst
    update_root_item fs generation FREE_SPACE_TREE_OBJECTID "fst root item not found in root tree"
      "root item truncated" fst { roots with fst := some fst }

def update_block_groups (fs : BtrfsView) (generation : Nat) :
    List (Nat × Nat × Nat) → Root → TxnM Root
  | [], extent => return extent
  | (bg_start, bg_len, bg_used) :: rest, extent => do
    let extent ← tree_edit fs generation EXTENT_TREE_OBJECTID extent
      "block group item not found in extent tree" ⟨bg_start, BLOCK_GROUP_ITEM_KEY, bg_len⟩
      (stamp_block_group bg_used)
    update_block_groups fs generation rest extent

/-- One round of the loop. -/
def converge_round (fs : BtrfsView) (generation : Nat) (roots : Roots) : TxnM Roots := do
  let to_remove := (← get).blocks_to_remove
  modify fun r => { r with blocks_to_remove := [] }
  let extent ← remove_metadata_items fs generation to_remove roots.extent
  let to_add := (← get).blocks_to_add
  modify fun r => { r with blocks_to_add := [] }
  let extent ← add_metadata_items fs generation to_add extent
  let roots ← reconcile_free_space fs generation { roots with extent }
  let bg_updates := (← get).allocator.block_groups.map fun bg =>
    (bg.block_group.start, bg.block_group.length, bg.block_group.used)
  let extent ← update_block_groups fs generation bg_updates roots.extent
  update_root_item fs generation EXTENT_TREE_OBJECTID "extent root item not found"
    "extent root item truncated" extent { roots with extent }

def MAX_CONVERGENCE_ROUNDS : Nat := 30

/-- The loop, and whether it settled. -/
def converge_rounds (fs : BtrfsView) (generation : Nat) : Nat → Roots → TxnM (Roots × Bool)
  | 0, roots => return (roots, false)
  | rounds + 1, roots => do
    let r ← get
    if r.blocks_to_add.isEmpty ∧ r.blocks_to_remove.isEmpty then return (roots, true)
    converge_rounds fs generation rounds (← converge_round fs generation roots)

/-- A completed transaction. -/
structure Transaction where
  new_generation : Nat
  final_root : Root
  final_chunk_root : Option Root
  final_bytes_used : Nat
  new_fs_tree : TreeRoot
  pending_blocks : Pending
  pending_data : List (Nat × Bytes)
  final_allocator : FreeSpaceMap

/-- What the callers hand over besides the recording. -/
structure Finalize where
  new_generation : Nat
  new_fs_tree : TreeRoot
  csum_root : Option Root
  dev_root : Option Root
  chunk_root : Option Root
  extent_root : Option Root
  pending_data : List (Nat × Bytes)
  data_extents_to_add : List (Nat × Nat × Nat × Nat × Nat)
  data_extents_to_remove : List (Nat × Nat)

def target_tree_modified (fs : Mount) (new_fs_tree : TreeRoot) : Bool :=
  if new_fs_tree.objectid = FS_TREE_OBJECTID then new_fs_tree.bytenr ≠ fs.fs_tree.bytenr
  else
    match fs.tree_root new_fs_tree.objectid with
    | .ok orig => new_fs_tree.bytenr ≠ orig.bytenr
    | .error _ => true

def publish_fs_root (fs : Mount) (f : Finalize) (roots : Roots) : TxnM Roots := do
  if ¬ target_tree_modified fs f.new_fs_tree then return roots
  let root_tree ← tree_edit fs.view f.new_generation ROOT_TREE_OBJECTID roots.root_tree
    "fs root item not found" ⟨f.new_fs_tree.objectid, ROOT_ITEM_KEY, 0⟩
    (stamp_fs_root_item f.new_generation (f.new_fs_tree.bytenr, f.new_fs_tree.level))
  return { roots with root_tree }

def publish_root (fs : Mount) (generation objectid : Nat) (missing truncated : String) :
    Option Root → Roots → TxnM Roots
  | some root, roots => update_root_item fs.view generation objectid missing truncated root roots
  | none, roots => return roots

/-- Point the root items at the trees that the transaction moved. -/
def publish_roots (fs : Mount) (f : Finalize) (roots : Roots) : TxnM Roots := do
  let roots ← publish_fs_root fs f roots
  let roots ← publish_root fs f.new_generation CSUM_TREE_OBJECTID "csum root item not found"
    "root item truncated" f.csum_root roots
  publish_root fs f.new_generation DEV_TREE_OBJECTID "dev root item not found in root tree"
    "dev root item truncated" f.dev_root roots

def finalize (fs : Mount) (f : Finalize) (roots : Roots) : TxnM Transaction := do
  let roots ← publish_roots fs f roots
  let extent ← insert_data_extents fs.view f.new_generation f.data_extents_to_add roots.extent
  let extent ← delete_data_extents fs.view f.new_generation f.data_extents_to_remove extent
  let (roots, converged) ←
    converge_rounds fs.view f.new_generation MAX_CONVERGENCE_ROUNDS { roots with extent }
  let r ← get
  if ¬ converged ∧ ¬ (r.blocks_to_add.isEmpty ∧ r.blocks_to_remove.isEmpty) then
    throw (.CorruptFs ("btrfs transaction did not converge: extent-tree bookkeeping still " ++
      "had blocks to record after the round limit"))
  return {
    new_generation := f.new_generation
    final_root := roots.root_tree
    final_chunk_root := f.chunk_root
    final_bytes_used := (r.allocator.block_groups.map (·.block_group.used)).foldl wrapping_add 0
    new_fs_tree := f.new_fs_tree
    pending_blocks := r.pending_blocks
    pending_data := f.pending_data
    final_allocator := r.allocator }

def converge_and_finalize (fs : Mount) (f : Finalize) (r : Recording) :
    Except LuksError Transaction := do
  let extent ← match f.extent_root with
    | some root => pure root
    | none => do
      let t ← fs.tree_root EXTENT_TREE_OBJECTID
      pure (t.bytenr, t.level)
  let fst :=
    if fs.sb.compat_ro_flags &&& BTRFS_FEATURE_COMPAT_RO_FREE_SPACE_TREE ≠ 0 then
      (fs.tree_root FREE_SPACE_TREE_OBJECTID).toOption.map fun t => (t.bytenr, t.level)
    else none
  match finalize fs f ⟨(fs.sb.root, fs.sb.root_level), extent, fst⟩ r with
  | .ok txn _ => .ok txn
  | .error e _ => .error e

end LuksAndroid.Btrfs

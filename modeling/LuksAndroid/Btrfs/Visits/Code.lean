import LuksAndroid.Btrfs.Txn.Converge
import LuksAndroid.Lib.Metered

/-!
# Traversals that note the nodes they read

The tree walks of `core/src/fs/btrfs/mod.rs`, `core/src/fs/btrfs/cursor.rs`,
`core/src/fs/btrfs/write/extent_tree.rs` and `core/src/fs/btrfs/write/cow.rs` once more,
each read noted by its address. A loop or a recursion that nothing in the code bounds
takes fuel. The level of a node is one byte, so one more than it wraps.
-/

namespace LuksAndroid.Btrfs

open Metered

/-- What `Node::parse` lets through, besides the widths of the fields. -/
def Node.Parsed (node_size : Nat) : Node → Prop
  | .leaf l => HEADER_SIZE + l.items.length * ITEM_SIZE ≤ node_size
  | .interior n => 0 < n.level ∧ n.level < 256 ∧
      HEADER_SIZE + n.entries.length * KEY_PTR_SIZE ≤ node_size ∧ ∀ e ∈ n.entries, e.blockptr < 2 ^ 64

/-- A drive and the blocks that a transaction has yet to write to it. -/
structure Drive where
  fs : BtrfsView
  pending : Pending
  parsed : ∀ b n, read_node fs pending b = .ok n → n.Parsed fs.node_size

def Drive.read (d : Drive) : Reader := read_node d.fs d.pending

namespace Visits

abbrev VisitM := MeterM LuksError Unit Nat

/-- Read a node and note it. -/
def visit {τ : Type} (read : Reader) (b : Nat) : MeterM LuksError τ Nat Node :=
  note b >>= fun _ => Metered.plain (except (read b))

def pure_step {α : Type} (x : Except LuksError α) : VisitM α := Metered.plain (except x)

/-! ## Walking a tree -/

def walk_node {σ : Type} (read : Reader) (visit_item : σ → Key → Bytes → Except LuksError σ) :
    Nat → Node → σ → VisitM σ
  | 0, _, _ => throw .spin
  | _ + 1, .leaf l, s => pure_step (l.items.foldlM (fun s it => visit_item s it.key it.data) s)
  | fuel + 1, .interior n, s => n.entries.foldlM (fun s e => do
      let child ← visit read e.blockptr
      if (child.level + 1) % 256 ≠ n.level then throw (.err Cursor.child_level_error)
      walk_node read visit_item fuel child s) s

def walk_tree {σ : Type} (read : Reader) (fuel root : Nat)
    (visit_item : σ → Key → Bytes → Except LuksError σ) (s : σ) : VisitM σ := do
  let node ← visit read root
  if node.level > MAX_LEVEL then throw (.err (.CorruptFs "btrfs tree is implausibly deep"))
  walk_node read visit_item fuel node s

/-! ## Cursors -/

def descend_leftmost (read : Reader) : Nat → Nat → Nat → List Frame → VisitM Cursor
  | 0, _, _, _ => throw .spin
  | fuel + 1, level, ptr, path => do
    let child ← visit read ptr
    if (child.level + 1) % 256 ≠ level then throw (.err Cursor.child_level_error)
    if child.is_leaf then return ⟨(child, 0), path⟩
    let next ← pure_step (child.key_ptr 0)
    descend_leftmost read fuel child.level next.blockptr ((child, 0) :: path)

def advance_leaf_from (read : Reader) (fuel : Nat) (c : Cursor) : List Frame → VisitM Cursor
  | [] => return c
  | (node, i) :: rest =>
    if i + 1 < node.nr_items then do
      let ptr ← pure_step (node.key_ptr (i + 1))
      descend_leftmost read fuel node.level ptr.blockptr ((node, i + 1) :: rest)
    else advance_leaf_from read fuel c rest

def advance_leaf (read : Reader) (fuel : Nat) (c : Cursor) : VisitM Cursor :=
  advance_leaf_from read fuel c c.path

def advance (read : Reader) (fuel : Nat) (c : Cursor) : VisitM Cursor :=
  let c := if c.valid then { c with leaf := (c.leaf.1, c.leaf.2 + 1) } else c
  if c.valid then return c else advance_leaf read fuel c

def descend_to (read : Reader) (key : Key) : Nat → Node → List Frame → VisitM Cursor
  | 0, _, _ => throw .spin
  | fuel + 1, node, path =>
    if node.level = 0 ∨ node.nr_items = 0 then do
      let i ← pure_step (node.lower_bound key)
      return ⟨(node, i), path⟩
    else do
      let i ← pure_step (node.child_for key)
      let ptr ← pure_step (node.key_ptr i)
      let child ← visit read ptr.blockptr
      if (child.level + 1) % 256 ≠ node.level then throw (.err Cursor.child_level_error)
      descend_to read key fuel child ((node, i) :: path)

def search (read : Reader) (fuel root : Nat) (key : Key) : VisitM Cursor := do
  let node ← visit read root
  let c ← descend_to read key fuel node []
  if c.valid then return c
  advance_leaf read fuel c

def descend_rightmost (read : Reader) : Nat → Nat → Nat → List Frame → VisitM Cursor
  | 0, _, _, _ => throw .spin
  | fuel + 1, level, ptr, path => do
    let child ← visit read ptr
    if (child.level + 1) % 256 ≠ level then throw (.err Cursor.child_level_error)
    if child.nr_items = 0 then throw (.err (.CorruptFs "btrfs node has no items"))
    let last_index := child.nr_items - 1
    if child.is_leaf then return ⟨(child, last_index), path⟩
    let next ← pure_step (child.key_ptr last_index)
    descend_rightmost read fuel child.level next.blockptr ((child, last_index) :: path)

def retreat_leaf (read : Reader) (fuel : Nat) : Frame → List Frame → VisitM Cursor
  | (node, _), [] => return ⟨(node, node.nr_items), []⟩
  | _, (node, i) :: rest =>
    if i = 0 then retreat_leaf read fuel (node, i) rest
    else do
      let ptr ← pure_step (node.key_ptr (i - 1))
      descend_rightmost read fuel node.level ptr.blockptr ((node, i - 1) :: rest)

def retreat (read : Reader) (fuel : Nat) (c : Cursor) : VisitM Cursor :=
  if c.leaf.2 > 0 then return { c with leaf := (c.leaf.1, c.leaf.2 - 1) }
  else retreat_leaf read fuel c.leaf c.path

/-! ## Looking through pending blocks -/

def find_item_in_tree_loop (read : Reader) (key : Key) : Nat → Nat → Nat → VisitM (Option Bytes)
  | 0, _, _ => throw .spin
  | fuel + 1, depth, curr_bytenr =>
    if depth < 16 then do
      match ← visit read curr_bytenr with
      | .leaf l => return (l.items.find? fun it => it.key = key).map (·.data)
      | .interior n =>
        match n.entries.reverse.find? fun e => e.key ≤ key with
        | none => return none
        | some e => find_item_in_tree_loop read key fuel (depth + 1) e.blockptr
    else return none

def find_item_in_tree (read : Reader) (fuel root_bytenr : Nat) (key : Key) : VisitM (Option Bytes) :=
  find_item_in_tree_loop read key fuel 0 root_bytenr

/-- Nothing compares the child with its parent. -/
def collect_tree_items (read : Reader) : Nat → Nat → VisitM (List LeafItem)
  | 0, _ => throw .spin
  | fuel + 1, bytenr => do
    if bytenr = 0 then return []
    match ← visit read bytenr with
    | .leaf l => return l.items
    | .interior n =>
      return (← n.entries.mapM fun e => collect_tree_items read fuel e.blockptr).flatten

/-! ## Copy-on-write descents -/

abbrev CowVisitM := MeterM LuksError CowState Nat

def cow_descend_insert (d : Drive) (owner : Nat) (key : Key) (data : Bytes) (generation : Nat) :
    Nat → Nat → CowVisitM InsertResult
  | 0, bytenr => do
    let node ← visit d.read bytenr
    let already_new := is_already_new d.pending node generation bytenr
    Metered.plain (insert_in_leaf d.fs owner generation key data node bytenr already_new)
  | level + 1, bytenr => do
    let node ← visit d.read bytenr
    let already_new := is_already_new d.pending node generation bytenr
    if node.nr_items = 0 then
      Metered.plain (insert_in_leaf d.fs owner generation key data node bytenr already_new)
    else
      let interior ← Metered.plain (CowM.lift node.to_interior)
      let child_idx ← Metered.plain (CowM.lift (node.child_for key))
      match interior.entries[child_idx]? with
      | none => throw (.err (.CorruptFs "btrfs node index out of range"))
      | some child_ptr =>
        let child ← cow_descend_insert d owner key data generation level child_ptr.blockptr
        Metered.plain (insert_in_interior d.fs owner generation key interior child_idx bytenr (level + 1)
          already_new child)

/-- `cow_tree_insert` up to the collected lists: the root is read a second time. -/
def insert_root (d : Drive) (root_bytenr root_level owner : Nat) (key : Key) (data : Bytes)
    (generation : Nat) : CowVisitM (Nat × Nat × List (Nat × Node)) := do
  let res ← cow_descend_insert d owner key data generation root_level root_bytenr
  let root_node ← visit d.read root_bytenr
  Metered.plain do
    match res.extra_siblings with
    | [] =>
      let actual_root_level := if root_node.nr_items = 0 then 0 else root_level
      return (res.bytenr, actual_root_level, res.emitted)
    | extra =>
      let new_root_level := if root_node.nr_items = 0 then 1 else (root_level + 1) % 256
      let new_root_bytenr ← alloc_block d.fs owner new_root_level
      let entries := ⟨res.first_key, res.bytenr, generation⟩ ::
        extra.map fun (k, b) => (⟨k, b, generation⟩ : InteriorEntry)
      let raw ← CowM.lift (InteriorNode.emit ⟨new_root_bytenr, generation, owner, new_root_level,
        root_node.flags, d.fs.metadata_uuid, root_node.chunk_tree_uuid, entries⟩ d.fs.node_size)
      return (new_root_bytenr, new_root_level, res.emitted ++ [(new_root_bytenr, raw)])

/-- A root that gives way to an old child reads it. -/
def collapse_root (d : Drive) (owner generation bytenr level : Nat) (child : InteriorEntry)
    (emitted : List (Nat × Node)) : CowVisitM MutateResult := do
  let child_level := level - 1
  Metered.plain (free_block bytenr level)
  if child.generation = generation then
    return (some (child.blockptr, child.key, child_level), emitted)
  else
    let child_node ← visit d.read child.blockptr
    Metered.plain do
      let new_bytenr ← alloc_block d.fs owner child_level
      free_block child.blockptr child_level
      restamp d.fs owner generation child_level new_bytenr child.key child_node emitted

def mutate_interior (d : Drive) (owner : Nat) (key : Key) (generation : Nat) (is_root : Bool) (node : Node)
    (interior : InteriorNode) (child_idx bytenr level : Nat) (already_new : Bool) (child : MutateResult) :
    CowVisitM MutateResult := do
  match replace_child interior.entries child_idx generation child with
  | [] =>
    Metered.plain do
      if ¬ is_root then
        free_block bytenr level
        return (none, child.2)
      else empty_root d.fs owner key generation node bytenr level child.2
  | e :: rest =>
    if is_root ∧ rest.isEmpty then
      collapse_root d owner generation bytenr level e child.2
    else
      Metered.plain do
        let target ← target_block d.fs owner bytenr level already_new
        let raw ← CowM.lift (InteriorNode.emit
          { interior with bytenr := target, generation, owner, entries := e :: rest } d.fs.node_size)
        return (some (target, e.key, level), child.2 ++ [(target, raw)])

def cow_descend (d : Drive) (owner : Nat) (key : Key) (generation : Nat)
    (mutate_fn : Leaf → Except LuksError Leaf) : Nat → Nat → Bool → CowVisitM MutateResult
  | 0, bytenr, is_root => do
    let node ← visit d.read bytenr
    let already_new := is_already_new d.pending node generation bytenr
    Metered.plain (mutate_leaf d.fs owner key generation mutate_fn is_root node bytenr already_new)
  | level + 1, bytenr, is_root => do
    let node ← visit d.read bytenr
    let already_new := is_already_new d.pending node generation bytenr
    let interior ← Metered.plain (CowM.lift node.to_interior)
    let child_idx ← Metered.plain (CowM.lift (node.child_for key))
    match interior.entries[child_idx]? with
    | none => throw (.err (.CorruptFs "btrfs node index out of range"))
    | some child_ptr =>
      let child ← cow_descend d owner key generation mutate_fn level child_ptr.blockptr false
      mutate_interior d owner key generation is_root node interior child_idx bytenr (level + 1) already_new
        child

end Visits

end LuksAndroid.Btrfs

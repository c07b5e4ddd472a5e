import LuksAndroid.Btrfs.Node

/-!
# Cursors

`core/src/fs/btrfs/cursor.rs`. A cursor holds the nodes on the way from the root
to a leaf, each with the index of the entry that was taken. Every descent drops
the level by one, so it recurses on the level of the node it starts from.
-/

namespace LuksAndroid.Btrfs

/-- How the nodes are read: `Btrfs::read_node`, with or without an open batch. -/
abbrev Reader := Nat → Except LuksError Node

namespace Node

def is_leaf (n : Node) : Bool := n.level = 0

def key (n : Node) (i : Nat) : Except LuksError Key :=
  match n.keys[i]? with
  | some k => .ok k
  | none => .error (.CorruptFs "btrfs node index out of range")

def key_ptr (n : Node) (i : Nat) : Except LuksError InteriorEntry :=
  match n with
  | leaf _ => .error (.CorruptFs "btrfs leaf has no child pointers")
  | interior n =>
    match n.entries[i]? with
    | some e => .ok e
    | none => .error (.CorruptFs "btrfs node index out of range")

def item_data (n : Node) (i : Nat) : Except LuksError Bytes :=
  match n with
  | interior _ => .error (.CorruptFs "btrfs interior node has no item data")
  | leaf l =>
    match l.items[i]? with
    | some it => .ok it.data
    | none => .error (.CorruptFs "btrfs node index out of range")

end Node

/-- A node of the path and the entry taken in it. -/
abbrev Frame := Node × Nat

/-- A position in a tree. The path is kept deepest first, without the leaf. -/
structure Cursor where
  leaf : Frame
  path : List Frame

namespace Cursor

def valid (c : Cursor) : Bool := c.leaf.2 < c.leaf.1.nr_items

def key (c : Cursor) : Except LuksError Key := c.leaf.1.key c.leaf.2

def data (c : Cursor) : Except LuksError Bytes := c.leaf.1.item_data c.leaf.2

def child_level_error : LuksError :=
  .CorruptFs "btrfs child node is not one level below its parent"

/-! ## Forward -/

/-- Descend along the first children. `level` is the level of the parent. -/
def descend_leftmost (read : Reader) : Nat → Nat → List Frame → Except LuksError Cursor
  | 0, ptr, _ => do
    let _ ← read ptr
    throw child_level_error
  | level + 1, ptr, path => do
    let child ← read ptr
    if child.level ≠ level then throw child_level_error
    if level = 0 then return ⟨(child, 0), path⟩
    let next ← child.key_ptr 0
    descend_leftmost read level next.blockptr ((child, 0) :: path)

/-- Climb to the nearest node with an unvisited child and take that child. The cursor stays where it
is when there is none. -/
def advance_leaf_from (read : Reader) (c : Cursor) : List Frame → Except LuksError Cursor
  | [] => return c
  | (node, i) :: rest =>
    if i + 1 < node.nr_items then do
      let ptr ← node.key_ptr (i + 1)
      descend_leftmost read node.level ptr.blockptr ((node, i + 1) :: rest)
    else advance_leaf_from read c rest

def advance_leaf (read : Reader) (c : Cursor) : Except LuksError Cursor :=
  advance_leaf_from read c c.path

def advance (read : Reader) (c : Cursor) : Except LuksError Cursor :=
  let c := if c.valid then { c with leaf := (c.leaf.1, c.leaf.2 + 1) } else c
  if c.valid then .ok c else c.advance_leaf read

/-! ## Search -/

/-- The descent of `search`, from a node at the given level. -/
def descend_to (read : Reader) (key : Key) : Nat → Node → List Frame → Except LuksError Cursor
  | 0, node, path => do
    let i ← node.lower_bound key
    return ⟨(node, i), path⟩
  | level + 1, node, path => do
    if node.nr_items = 0 then
      let i ← node.lower_bound key
      return ⟨(node, i), path⟩
    let i ← node.child_for key
    let ptr ← node.key_ptr i
    let child ← read ptr.blockptr
    if child.level ≠ level then throw child_level_error
    descend_to read key level child ((node, i) :: path)

/-- The first item whose key is not below `key`. -/
def search (read : Reader) (root : Nat) (key : Key) : Except LuksError Cursor := do
  let node ← read root
  let c ← descend_to read key node.level node []
  if c.valid then return c
  c.advance_leaf read

/-! ## Backward -/

/-- Descend along the last children. `level` is the level of the parent. -/
def descend_rightmost (read : Reader) : Nat → Nat → List Frame → Except LuksError Cursor
  | 0, ptr, _ => do
    let _ ← read ptr
    throw child_level_error
  | level + 1, ptr, path => do
    let child ← read ptr
    if child.level ≠ level then throw child_level_error
    if child.nr_items = 0 then throw (.CorruptFs "btrfs node has no items")
    let last_index := child.nr_items - 1
    if level = 0 then return ⟨(child, last_index), path⟩
    let next ← child.key_ptr last_index
    descend_rightmost read level next.blockptr ((child, last_index) :: path)

/-- Leave the frame. With nothing above it the cursor is parked past the end of the root. -/
def retreat_leaf (read : Reader) : Frame → List Frame → Except LuksError Cursor
  | (node, _), [] => return ⟨(node, node.nr_items), []⟩
  | _, (node, i) :: rest =>
    if i = 0 then retreat_leaf read (node, i) rest
    else do
      let ptr ← node.key_ptr (i - 1)
      descend_rightmost read node.level ptr.blockptr ((node, i - 1) :: rest)

def retreat (read : Reader) (c : Cursor) : Except LuksError Cursor :=
  if c.leaf.2 > 0 then .ok { c with leaf := (c.leaf.1, c.leaf.2 - 1) }
  else retreat_leaf read c.leaf c.path

/-- The last item whose key is not above `key`. -/
def search_le (read : Reader) (root : Nat) (key : Key) : Except LuksError Cursor := do
  let c ← search read root key
  if c.valid then
    if (← c.key) = key then return c
  c.retreat read

/-! ## Loops

A loop steps to the next item until it stops. `remaining` counts the items that a
cursor can still step to, which bounds the rounds. -/

/-- The items below a block, on whatever the reader finds. -/
def size (read : Reader) : Nat → Nat → Nat
  | 0, ptr => ((read ptr).toOption.map Node.nr_items).getD 0
  | level + 1, ptr =>
    match read ptr with
    | .ok (.interior n) => (n.entries.map fun e => size read level e.blockptr).sum
    | _ => 0

def frame_remaining (read : Reader) : Frame → Nat
  | (.interior n, i) => ((n.entries.drop (i + 1)).map fun e => size read (n.level - 1) e.blockptr).sum
  | (.leaf _, _) => 0

def remaining (read : Reader) (c : Cursor) : Nat :=
  c.leaf.1.nr_items - c.leaf.2 + (c.path.map (frame_remaining read)).sum

/-- `while cursor.valid() { … cursor.advance()?; }`, where the body says whether to go on. -/
def scan {σ : Type} (read : Reader) (body : σ → Key → Cursor → Except LuksError (σ × Bool)) :
    Nat → σ → Cursor → Except LuksError σ
  | 0, s, _ => return s
  | rounds + 1, s, c => do
    if ¬ c.valid then return s
    let (s, go_on) ← body s (← c.key) c
    if ¬ go_on then return s
    scan read body rounds s (← c.advance read)

def scan_from {σ : Type} (read : Reader) (body : σ → Key → Cursor → Except LuksError (σ × Bool))
    (s : σ) (c : Cursor) : Except LuksError σ :=
  scan read body (c.remaining read) s c

end Cursor

/-! ## The operations of a mounted filesystem -/

/-- The item with exactly this key, if it exists. -/
def find_item (read : Reader) (root : Nat) (key : Key) : Except LuksError (Option Bytes) := do
  let c ← Cursor.search read root key
  if c.valid then
    if (← c.key) = key then return some (← c.data)
  return none

/-- Visit the items of one type that belong to `objectid`, as long as `visit` asks for more. -/
def for_each_item {σ : Type} (read : Reader) (root objectid item_type : Nat)
    (visit : σ → Key → Bytes → Except LuksError (σ × Bool)) (s : σ) : Except LuksError σ := do
  let c ← Cursor.search read root ⟨objectid, item_type, 0⟩
  let body := fun s (key : Key) (c : Cursor) => do
    if key.objectid ≠ objectid ∨ key.item_type ≠ item_type then return (s, false)
    visit s key (← c.data)
  c.scan_from read body s

end LuksAndroid.Btrfs

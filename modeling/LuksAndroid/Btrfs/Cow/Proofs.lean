import LuksAndroid.Btrfs.Alloc.Free
import LuksAndroid.Btrfs.Cow.Insert
import LuksAndroid.Btrfs.Cow.Mutate

/-!
# Runs of insertions and mutations

Each result is recorded before the next operation starts. Over a whole run the
tree stays well-formed, and its items are what the operations make of a sorted
map.
-/

namespace LuksAndroid.Btrfs

open Keyed Spans

/-! ## Steps -/

inductive TreeOp where
  | insert (key : Key) (data : Bytes)
  | delete (key : Key)
  | mutate (key : Key) (f : Bytes → Except LuksError Bytes)

/-- One call, with the owner and the generation it is made for. -/
structure TreeStep where
  owner : Nat
  generation : Nat
  op : TreeOp

structure TreeState where
  recording : Recording
  root : Nat
  level : Nat

/-- The call itself. -/
def TreeStep.cow (fs : BtrfsView) (t : TreeStep) (st : TreeState) : AllocM CowResult :=
  match t.op with
  | .insert key data => cow_tree_insert fs st.recording.pending_blocks st.root st.level t.owner key
      data t.generation
  | .delete key => cow_tree_mutate fs st.recording.pending_blocks st.root st.level t.owner key
      t.generation fun l => l.delete_item key
  | .mutate key f => cow_tree_mutate fs st.recording.pending_blocks st.root st.level t.owner key
      t.generation (edit_item key f)

/-- The call, then `record_cow_result`. -/
def TreeStep.run (fs : BtrfsView) (t : TreeStep) (st : TreeState) : Except LuksError TreeState :=
  match t.cow fs st st.recording.allocator with
  | .ok res m => .ok ⟨record_cow_result res fs.node_size t.owner { st.recording with allocator := m },
      res.new_root_bytenr, res.new_root_level⟩
  | .error e _ => .error e

def runSteps (fs : BtrfsView) : List TreeStep → TreeState → Except LuksError TreeState
  | [], st => .ok st
  | t :: ts, st => do runSteps fs ts (← t.run fs st)

/-- The sorted map after an operation. A key is inserted once, and only a present one is changed. -/
def TreeOp.spec (items : List LeafItem) : TreeOp → Option (List LeafItem)
  | .insert key data =>
    if items.any (·.key = key) then none else some (Keyed.insert LeafItem.key ⟨key, data⟩ items)
  | .delete key =>
    if items.any (·.key = key) then some (alter LeafItem.key key (fun _ => []) items) else none
  | .mutate key f =>
    if items.any (·.key = key) then some (alter LeafItem.key key (edited f) items) else none

def specSteps (items : List LeafItem) (ts : List TreeStep) : Option (List LeafItem) :=
  ts.foldlM (fun items t => t.op.spec items) items

/-- A level is one byte, and a root at the last level cannot grow. -/
def TreeOp.grows (level : Nat) : TreeOp → Prop
  | .insert _ _ => level < 255
  | _ => True

/-- Every insertion of the run finds a root that can grow. -/
def Grows (fs : BtrfsView) : List TreeStep → TreeState → Prop
  | [], _ => True
  | t :: ts, st => t.op.grows st.level ∧ ∀ st', t.run fs st = .ok st' → Grows fs ts st'

/-- A well-formed tree with these items, and an allocator that can serve it: none of the tree's
blocks is free. -/
structure Ready (fs : BtrfsView) (st : TreeState) (items : List LeafItem) : Prop where
  wellFormed : WellFormed (view fs st.recording.pending_blocks) fs.node_size st.level st.root items
  serves : st.recording.allocator.Serves fs.node_size
  apart : ∀ p, Tree (view fs st.recording.pending_blocks) fs.node_size st.level st.root p →
    ∀ x ∈ p.2, x ∉ st.recording.allocator.freeCells

/-! ## Recording -/

/-- Where the groups are, and what is free in them. -/
def FreeSpaceMap.shape (m : FreeSpaceMap) : List (Nat × Nat × List FreeRange) :=
  m.block_groups.map fun bg => (bg.block_group.start, bg.block_group.length, bg.free_ranges)

theorem FreeSpaceMap.mem_of_shape {m m' : FreeSpaceMap} (h : m'.shape = m.shape)
    {bg : BlockGroupFreeSpace} (hbg : bg ∈ m'.block_groups) :
    ∃ o ∈ m.block_groups, o.block_group.start = bg.block_group.start ∧
      o.block_group.length = bg.block_group.length ∧ o.free_ranges = bg.free_ranges := by
  have hmem : (bg.block_group.start, bg.block_group.length, bg.free_ranges) ∈ m.shape := by
    rw [← h]
    exact List.mem_map_of_mem hbg
  obtain ⟨o, ho, heq⟩ := List.mem_map.mp hmem
  simp only [Prod.mk.injEq] at heq
  exact ⟨o, ho, heq⟩

theorem FreeSpaceMap.freeCells_congr {m m' : FreeSpaceMap} (h : m'.shape = m.shape) :
    m'.freeCells = m.freeCells := by
  have hsub : ∀ a b : FreeSpaceMap, a.shape = b.shape → a.freeCells ⊆ b.freeCells := by
    rintro a b hab x ⟨bg, hbg, hx⟩
    obtain ⟨o, ho, -, -, hfree⟩ := mem_of_shape hab hbg
    exact ⟨o, ho, hfree ▸ hx⟩
  exact Set.Subset.antisymm (hsub _ _ h) (hsub _ _ h.symm)

theorem FreeSpaceMap.Serves.congr {m m' : FreeSpaceMap} {n : Nat} (hs : m.Serves n)
    (h : m'.shape = m.shape) : m'.Serves n := by
  refine ⟨hs.block_size, hs.groups.congr ?_, ?_, ?_, ?_⟩
  · have h' := congrArg (List.map fun q => (q.1, q.2.1)) h
    simp only [shape, List.map_map] at h'
    simp only [items, List.map_map]
    exact h'
  · intro bg hbg
    obtain ⟨o, ho, -, -, hfree⟩ := mem_of_shape h hbg
    exact hfree ▸ hs.ordered o ho
  · intro bg hbg
    obtain ⟨o, ho, hstart, hlen, hfree⟩ := mem_of_shape h hbg
    have hin := hs.within o ho
    rwa [BlockGroupItem.stop, hstart, hlen, hfree] at hin
  · intro bg hbg
    obtain ⟨o, ho, hstart, hlen, -⟩ := mem_of_shape h hbg
    have hroom := hs.room o ho
    rwa [BlockGroupItem.stop, hstart, hlen] at hroom

theorem free_metadata_shape (b n : Nat) (gs : List BlockGroupFreeSpace) :
    FreeSpaceMap.shape ⟨free_metadata_in_groups b n gs⟩ = FreeSpaceMap.shape ⟨gs⟩ := by
  induction gs with
  | nil => rfl
  | cons bg rest ih =>
    simp only [FreeSpaceMap.shape] at ih
    rw [free_metadata_in_groups]
    split
    · rfl
    · rw [FreeSpaceMap.shape, FreeSpaceMap.shape, List.map_cons, List.map_cons, ih]

theorem record_freed_spec {n owner : Nat} (freed : List (Nat × Nat)) (r : Recording) :
    (∀ x, x ∉ freed.map Prod.fst →
      (freed.foldl (record_freed n owner) r).pending_blocks.get x = r.pending_blocks.get x) ∧
    (freed.foldl (record_freed n owner) r).allocator.shape = r.allocator.shape := by
  induction freed generalizing r with
  | nil => exact ⟨fun _ _ => rfl, rfl⟩
  | cons f freed ih =>
    obtain ⟨h1, h2⟩ := ih (record_freed n owner r f)
    rw [List.foldl_cons]
    constructor
    · intro x hx
      rw [List.map_cons, List.mem_cons, not_or] at hx
      rw [h1 x hx.2]
      unfold record_freed
      split
      · exact Pending.get_remove_of_ne _ hx.1
      · rfl
    · rw [h2]
      unfold record_freed
      split
      · exact free_metadata_shape _ _ _
      · rfl

theorem insert_emitted_spec (emitted : List (Nat × Node)) (p : Pending)
    (hnodup : (emitted.map Prod.fst).Nodup) :
    (∀ e ∈ emitted, (emitted.foldl (fun p e => p.insert e.1 e.2) p).get e.1 = some e.2) ∧
    ∀ x, x ∉ emitted.map Prod.fst →
      (emitted.foldl (fun p e => p.insert e.1 e.2) p).get x = p.get x := by
  induction emitted generalizing p with
  | nil => exact ⟨by simp, fun _ _ => rfl⟩
  | cons c l ih =>
    rw [List.map_cons, List.nodup_cons] at hnodup
    obtain ⟨h1, h2⟩ := ih (p.insert c.1 c.2) hnodup.2
    rw [List.foldl_cons]
    constructor
    · intro e he
      rcases List.mem_cons.mp he with rfl | he
      · rw [h2 e.1 hnodup.1]
        exact Pending.get_insert_self _ _ _
      · exact h1 e he
    · intro x hx
      rw [List.map_cons, List.mem_cons, not_or] at hx
      rw [h2 x hx.2]
      exact Pending.get_insert_of_ne _ _ hx.1

theorem record_pending (res : CowResult) (n owner : Nat) (r : Recording)
    (hnodup : (res.emitted_blocks.map Prod.fst).Nodup) :
    (∀ e ∈ res.emitted_blocks, (record_cow_result res n owner r).pending_blocks.get e.1 = some e.2) ∧
    ∀ x, x ∉ res.freed.map Prod.fst → x ∉ res.emitted_blocks.map Prod.fst →
      (record_cow_result res n owner r).pending_blocks.get x = r.pending_blocks.get x := by
  unfold record_cow_result
  obtain ⟨hnew, hold⟩ := insert_emitted_spec res.emitted_blocks (res.freed.foldl
    (record_freed n owner) { r with
      blocks_to_add := r.blocks_to_add ++ res.allocated.map fun a => (a.1, a.2, owner)
      }).pending_blocks hnodup
  refine ⟨hnew, fun x hxf hxe => ?_⟩
  exact (hold x hxe).trans ((record_freed_spec res.freed _).1 x hxf)

theorem record_shape (res : CowResult) (n owner : Nat) (r : Recording) :
    (record_cow_result res n owner r).allocator.shape = r.allocator.shape :=
  (record_freed_spec res.freed _).2

/-- The reader of the recorded blocks sees what was emitted, and the old blocks where nothing was
freed. -/
theorem record_holds {fs : BtrfsView} {generation : Nat} (owner : Nat) {blocks gone : List Nat}
    {s s' : CowState} {r : Recording} {res : CowResult}
    (he : Effect fs r.pending_blocks generation blocks s s' gone res.emitted_blocks)
    (hgone : res.freed.map Prod.fst = gone) (m : FreeSpaceMap) :
    Holds (view fs r.pending_blocks)
      (view fs (record_cow_result res fs.node_size owner { r with allocator := m }).pending_blocks)
      blocks gone res.emitted_blocks := by
  obtain ⟨hnew, hold⟩ := record_pending res fs.node_size owner { r with allocator := m } he.nodup
  constructor
  · intro e hemit
    obtain ⟨haddr, huuid, -⟩ := he.stamped e hemit
    have hparse : e.2.parse e.1 fs.metadata_uuid = .ok e.2 := by simp [Node.parse, haddr, huuid]
    rw [view, read_node, hnew e hemit]
    simp only [hparse]
    rfl
  · intro x _ hxg hxe
    rw [view, view, read_node, read_node, hold x (hgone ▸ hxg) hxe]

/-! ## One step -/

theorem CowM.run_ok {α : Type} {x : CowM α} {m m' : FreeSpaceMap} {a : α}
    {allocated freed : List (Nat × Nat)} :
    x.run m = .ok (a, allocated, freed) m' ↔ x ⟨m, [], []⟩ = .ok a ⟨m', allocated, freed⟩ := by
  unfold CowM.run
  cases h : x ⟨m, [], []⟩ with
  | error e s => simp
  | ok a' s =>
    obtain ⟨m₁, al, fr⟩ := s
    simp only [EStateM.Result.ok.injEq, Prod.mk.injEq, CowState.mk.injEq]
    constructor
    · rintro ⟨⟨rfl, rfl, rfl⟩, rfl⟩
      exact ⟨rfl, rfl, rfl, rfl⟩
    · rintro ⟨rfl, rfl, rfl, rfl⟩
      exact ⟨⟨rfl, rfl, rfl⟩, rfl⟩

theorem Rewritten.ready {fs : BtrfsView} {st : TreeState} {items items' : List LeafItem}
    {blocks gone : List Nat} {generation owner : Nat} {m : FreeSpaceMap} {res : CowResult}
    (hready : Ready fs st items)
    (htree : Tree (view fs st.recording.pending_blocks) fs.node_size st.level st.root (items, blocks))
    (hsorted : Sorted LeafItem.key items')
    (h : Rewritten fs st.recording.pending_blocks generation res.new_root_level res.new_root_bytenr
      items' (items, blocks) ⟨st.recording.allocator, [], []⟩ ⟨m, res.allocated, res.freed⟩ gone
      res.emitted_blocks) :
    Ready fs ⟨record_cow_result res fs.node_size owner { st.recording with allocator := m },
      res.new_root_bytenr, res.new_root_level⟩ items' := by
  have hgone : res.freed.map Prod.fst = gone := by simpa using h.effect.moved.freed
  have hshape := record_shape res fs.node_size owner { st.recording with allocator := m }
  obtain ⟨blocks', htree', hblocks⟩ := h.tree _ (record_holds owner h.effect hgone m)
  refine ⟨⟨hsorted, blocks', htree'⟩, h.effect.moved.serves.congr hshape, ?_⟩
  intro p hp x hx
  rw [hp.unique htree'] at hx
  rw [FreeSpaceMap.freeCells_congr hshape]
  rcases hblocks x hx with hx | ⟨hx, -⟩
  · exact h.effect.taken x hx
  · exact fun hf => hready.apart _ htree x hx (h.effect.moved.shrink hf)

theorem any_key {items : List LeafItem} {key : Key} :
    items.any (·.key = key) = true ↔ ∃ a ∈ items, a.key = key := by
  simp

theorem cow_tree_insert_ready {fs : BtrfsView} {st : TreeState} {items : List LeafItem}
    {owner generation : Nat} {key : Key} {data : Bytes} {res : CowResult} {m : FreeSpaceMap}
    (hready : Ready fs st items) (hlevel : st.level < 255)
    (hrun : cow_tree_insert fs st.recording.pending_blocks st.root st.level owner key data generation
      st.recording.allocator = .ok res m) :
    (∀ a ∈ items, a.key ≠ key) ∧
      Ready fs ⟨record_cow_result res fs.node_size owner { st.recording with allocator := m },
        res.new_root_bytenr, res.new_root_level⟩ (Keyed.insert LeafItem.key ⟨key, data⟩ items) := by
  obtain ⟨blocks, htree⟩ := hready.wellFormed.tree
  obtain ⟨⟨⟨root, level, emitted⟩, allocated, freed⟩, m', hcow, hrun⟩ := Run.bind_ok.mp hrun
  obtain ⟨rfl, rfl⟩ := Run.pure_ok.mp hrun
  obtain ⟨habsent, gone, hrw⟩ := insert_root_spec htree hready.wellFormed.sorted hready.serves
    (hready.apart _ htree) hlevel (CowM.run_ok.mp hcow)
  exact ⟨habsent, hrw.ready hready htree (hready.wellFormed.sorted.insert habsent)⟩

theorem cow_tree_mutate_ready {fs : BtrfsView} {st : TreeState} {items : List LeafItem}
    {owner generation : Nat} {key : Key} {mutate_fn : Leaf → Except LuksError Leaf}
    {ok : LeafItem → Prop} {f : LeafItem → List LeafItem} {res : CowResult} {m : FreeSpaceMap}
    (hready : Ready fs st items) (hf : Alters key mutate_fn ok f)
    (hrun : cow_tree_mutate fs st.recording.pending_blocks st.root st.level owner key generation
      mutate_fn st.recording.allocator = .ok res m) :
    Found key ok f items ∧
      Ready fs ⟨record_cow_result res fs.node_size owner { st.recording with allocator := m },
        res.new_root_bytenr, res.new_root_level⟩ (alter LeafItem.key key f items) := by
  obtain ⟨blocks, htree⟩ := hready.wellFormed.tree
  obtain ⟨⟨⟨root_res, emitted⟩, allocated, freed⟩, m', hcow, hrun⟩ := Run.bind_ok.mp hrun
  obtain ⟨hfound, gone, -, hroot⟩ := cow_descend_spec hf st.level htree hready.wellFormed.sorted
    hready.serves (hready.apart _ htree) (CowM.run_ok.mp hcow)
  obtain ⟨t, k, j, hres, hrw⟩ := hroot rfl
  simp only at hres
  subst hres
  obtain ⟨rfl, rfl⟩ := Run.pure_ok.mp hrun
  exact ⟨hfound, hrw.ready hready htree (hready.wellFormed.sorted.alter hf.length hf.keeps)⟩

/-- A step that succeeds does what the sorted map does. -/
theorem step_ready {fs : BtrfsView} {t : TreeStep} {st st' : TreeState} {items : List LeafItem}
    (hready : Ready fs st items) (hgrow : t.op.grows st.level) (hrun : t.run fs st = .ok st') :
    ∃ items', t.op.spec items = some items' ∧ Ready fs st' items' := by
  obtain ⟨owner, generation, op⟩ := t
  unfold TreeStep.run at hrun
  cases hcow : TreeStep.cow fs ⟨owner, generation, op⟩ st st.recording.allocator with
  | error e m => rw [hcow] at hrun; cases hrun
  | ok res m =>
    rw [hcow] at hrun
    cases hrun
    cases op with
    | insert key data =>
      obtain ⟨habsent, hready'⟩ := cow_tree_insert_ready hready hgrow hcow
      refine ⟨_, ?_, hready'⟩
      rw [TreeOp.spec, if_neg]
      rw [any_key]
      rintro ⟨a, ha, hk⟩
      exact habsent a ha hk
    | delete key =>
      obtain ⟨⟨a, ha, hk, -⟩, hready'⟩ := cow_tree_mutate_ready hready (delete_item_alters key) hcow
      exact ⟨_, if_pos (any_key.mpr ⟨a, ha, hk⟩), hready'⟩
    | mutate key f =>
      obtain ⟨⟨a, ha, hk, -⟩, hready'⟩ := cow_tree_mutate_ready hready (edit_item_alters key f) hcow
      exact ⟨_, if_pos (any_key.mpr ⟨a, ha, hk⟩), hready'⟩

/-! ## The run -/

/-- Every run of calls that succeed keeps the tree well-formed, and its items are those of the sorted
map. -/
theorem cow_run_refines {fs : BtrfsView} (ts : List TreeStep) {st st' : TreeState}
    {items : List LeafItem} (hready : Ready fs st items) (hgrow : Grows fs ts st)
    (hrun : runSteps fs ts st = .ok st') :
    ∃ items', specSteps items ts = some items' ∧ Ready fs st' items' := by
  induction ts generalizing st items with
  | nil =>
    cases hrun
    exact ⟨items, rfl, hready⟩
  | cons t ts ih =>
    rw [runSteps] at hrun
    cases hstep : t.run fs st with
    | error e => rw [hstep] at hrun; cases hrun
    | ok st₁ =>
      rw [hstep] at hrun
      obtain ⟨items₁, hspec, hready₁⟩ := step_ready hready hgrow.1 hstep
      obtain ⟨items', hspec', hready'⟩ := ih hready₁ (hgrow.2 st₁ hstep) hrun
      refine ⟨items', ?_, hready'⟩
      rw [specSteps, List.foldlM_cons, hspec]
      exact hspec'

/-! ## Full trees of every level

A path of full nodes from the root down to a full leaf. Beside the path every node
has eleven subtrees of one item each, so the tree is small at every level, and an
insertion at its right end splits every node of the path. -/

namespace Deep

def key (i : Nat) : Key := ⟨i, INODE_ITEM_KEY, 0⟩

/-- The block at level `d` of subtree `i` beside the path node at level `level`. Number 11 is the
path itself. -/
def addr (level i d : Nat) : Nat := ((level * 16 + i) * 256 + d) * 512

/-- The longest data that fits in a leaf of 512 bytes. -/
def fill : Bytes := List.replicate 386 0

theorem fill_length : fill.length = 386 := List.length_replicate

def sideKey (level i : Nat) : Key := key ((255 - level) * 16 + i)

def sideNode (level i : Nat) : Nat → Node
  | 0 => .leaf ⟨addr level i 0, 1, 5, HEADER_FLAG_WRITTEN, [], [], [⟨sideKey level i, []⟩]⟩
  | d + 1 => .interior ⟨addr level i (d + 1), 1, 5, d + 1, HEADER_FLAG_WRITTEN, [], [],
      [⟨sideKey level i, addr level i d, 1⟩]⟩

def pathKey : Nat → Key
  | 0 => key 4096
  | level + 1 => sideKey (level + 1) 0

def sideEntry (level i : Nat) : InteriorEntry := ⟨sideKey (level + 1) i, addr (level + 1) i level, 1⟩

def pathNode : Nat → Node
  | 0 => .leaf ⟨addr 0 11 0, 1, 5, HEADER_FLAG_WRITTEN, [], [], [⟨key 4096, fill⟩]⟩
  | level + 1 => .interior ⟨addr (level + 1) 11 (level + 1), 1, 5, level + 1, HEADER_FLAG_WRITTEN, [],
      [], (List.range 11).map (sideEntry level) ++ [⟨pathKey level, addr level 11 level, 1⟩]⟩

def device (b : Nat) : Except LuksError Node :=
  let level := b / 512 / 256 / 16
  let i := b / 512 / 256 % 16
  .ok (if i = 11 then pathNode level else sideNode level i (b / 512 % 256))

def fs : BtrfsView := ⟨512, [], device⟩

/-- One empty metadata group above all blocks of the trees. -/
def space : FreeSpaceMap :=
  ⟨[⟨⟨2 ^ 40, 2 ^ 20, 0, 256, BLOCK_GROUP_METADATA⟩, [], [⟨2 ^ 40, 2 ^ 20⟩], [], [], 0, 2 ^ 20⟩]⟩

def state (level : Nat) : TreeState := ⟨⟨[], [], space, .empty⟩, addr level 11 level, level⟩

def pathItems : Nat → List LeafItem
  | 0 => [⟨key 4096, fill⟩]
  | level + 1 => (List.range 11).map (fun i => ⟨sideKey (level + 1) i, []⟩) ++ pathItems level

theorem addr_decode (level : Nat) {i d : Nat} (hi : i < 16) (hd : d < 256) :
    addr level i d / 512 / 256 / 16 = level ∧ addr level i d / 512 / 256 % 16 = i ∧
      addr level i d / 512 % 256 = d := by
  unfold addr
  omega

theorem view_of_device {b : Nat} {n : Node} (hdev : device b = .ok n) (hb : n.bytenr = b)
    (huuid : n.metadata_uuid = []) : view fs .empty b = some n := by
  have hparse : n.parse b [] = .ok n := by simp [Node.parse, hb, huuid]
  simp only [view, read_node, BtrfsView.read_node, fs, hdev, bind, Except.bind, hparse]
  rfl

theorem view_side (level : Nat) {i d : Nat} (hi : i < 11) (hd : d < 256) :
    view fs .empty (addr level i d) = some (sideNode level i d) := by
  obtain ⟨h1, h2, h3⟩ := addr_decode level (by omega : i < 16) hd
  refine view_of_device ?_ (by cases d <;> rfl) (by cases d <;> rfl)
  simp only [device, h1, h2, h3, if_neg (by omega : ¬ i = 11)]

theorem view_path {level : Nat} (hd : level < 256) :
    view fs .empty (addr level 11 level) = some (pathNode level) := by
  obtain ⟨h1, h2, -⟩ := addr_decode level (by omega : 11 < 16) hd
  refine view_of_device ?_ (by cases level <;> rfl) (by cases level <;> rfl)
  simp only [device, h1, h2, if_true]

theorem addr_lt {level i d : Nat} (hl : level < 256) (hi : i < 16) (hd : d < 256) :
    addr level i d < 2 ^ 40 := by
  unfold addr
  omega

theorem side_tree {level i : Nat} (hl : level < 256) (hi : i < 11) (d : Nat) (hd : d < 256) :
    ∃ blocks, Tree (view fs .empty) 512 d (addr level i d) ([⟨sideKey level i, []⟩], blocks) ∧
      ∀ x ∈ blocks, x < 2 ^ 40 := by
  induction d with
  | zero =>
    refine ⟨[addr level i 0], ⟨_, view_side level hi hd, by simp [leaf_payload_bytes, HEADER_SIZE, ITEM_SIZE],
      rfl⟩, ?_⟩
    simpa using addr_lt hl (by omega) hd
  | succ d ih =>
    obtain ⟨blocks, htree, hlt⟩ := ih (by omega)
    refine ⟨addr level i (d + 1) :: blocks, ?_, ?_⟩
    · have h := tree_of_interior (view_side level hi hd) rfl
        (by simp [HEADER_SIZE, KEY_PTR_SIZE]) (by simp) (.cons htree rfl .nil)
      simpa using h
    · intro x hx
      rcases List.mem_cons.mp hx with rfl | hx
      · exact addr_lt hl (by omega) hd
      · exact hlt x hx

theorem path_children {level : Nat} (hl : level + 1 < 256) (is : List Nat) (his : ∀ i ∈ is, i < 11)
    {e : InteriorEntry} {p : Part} (htree : Tree (view fs .empty) 512 level e.blockptr p)
    (hkey : lowestKey p.1 = some e.key) (hlt : ∀ x ∈ p.2, x < 2 ^ 40) :
    ∃ parts, Children (view fs .empty) 512 level (is.map (sideEntry level) ++ [e]) parts ∧
      itemsOf parts = is.map (fun i => ⟨sideKey (level + 1) i, []⟩) ++ p.1 ∧
      ∀ x ∈ blocksOf parts, x < 2 ^ 40 := by
  induction is with
  | nil => exact ⟨[p], .cons htree hkey .nil, by simp, by simpa using hlt⟩
  | cons i is ih =>
    obtain ⟨parts, hch, hitems, hblocks⟩ := ih fun j hj => his j (by simp [hj])
    obtain ⟨blocks, hside, hside_lt⟩ := side_tree hl (his i (by simp)) level (by omega)
    refine ⟨([⟨sideKey (level + 1) i, []⟩], blocks) :: parts, .cons hside rfl hch, by simp [hitems], ?_⟩
    intro x hx
    rcases List.mem_append.mp hx with hx | hx
    · exact hside_lt x hx
    · exact hblocks x hx

theorem lowestKey_path (level : Nat) : lowestKey (pathItems level) = some (pathKey level) := by
  cases level with
  | zero => rfl
  | succ level => rfl

theorem path_tree (level : Nat) (hl : level < 256) :
    ∃ blocks, Tree (view fs .empty) 512 level (addr level 11 level)
      (pathItems level, blocks) ∧ ∀ x ∈ blocks, x < 2 ^ 40 := by
  induction level with
  | zero =>
    refine ⟨[addr 0 11 0], ⟨_, view_path hl, by
      simp [leaf_payload_bytes, HEADER_SIZE, ITEM_SIZE, fill_length], rfl⟩, ?_⟩
    simpa using addr_lt hl (by omega) hl
  | succ level ih =>
    obtain ⟨blocks, htree, hlt⟩ := ih (by omega)
    obtain ⟨parts, hch, hitems, hblocks⟩ := path_children hl (List.range 11)
      (fun i hi => List.mem_range.mp hi) (e := ⟨pathKey level, addr level 11 level, 1⟩) htree
      (lowestKey_path level) hlt
    refine ⟨addr (level + 1) 11 (level + 1) :: blocksOf parts, ?_, ?_⟩
    · have h := tree_of_interior (view_path hl) rfl (by simp [HEADER_SIZE, KEY_PTR_SIZE]) (by simp) hch
      rw [hitems] at h
      exact h
    · intro x hx
      rcases List.mem_cons.mp hx with rfl | hx
      · exact addr_lt hl (by omega) hl
      · exact hblocks x hx

theorem path_sorted (level : Nat) (hl : level < 256) : Sorted LeafItem.key (pathItems level) ∧
    ∀ a ∈ pathItems level, (255 - level) * 16 ≤ a.key.objectid := by
  induction level with
  | zero => exact ⟨List.pairwise_singleton _ _, by simp [pathItems, key]⟩
  | succ level ih =>
    obtain ⟨hsorted, hge⟩ := ih (by omega)
    refine ⟨sorted_append.mpr ⟨?_, hsorted, ?_⟩, ?_⟩
    · refine List.pairwise_map.mpr (List.pairwise_lt_range.imp ?_)
      intro i j hij
      exact Key.lt_iff.mpr (Or.inl (by simp only [sideKey, key]; omega))
    · intro a ha b hb
      obtain ⟨i, hi, rfl⟩ := List.mem_map.mp ha
      have hi' := List.mem_range.mp hi
      have hb' := hge b hb
      exact Key.lt_iff.mpr (Or.inl (by simp only [sideKey, key]; omega))
    · intro a ha
      rcases List.mem_append.mp ha with ha | ha
      · obtain ⟨i, -, rfl⟩ := List.mem_map.mp ha
        simp [sideKey, key]
      · have := hge a ha
        omega

theorem space_serves : space.Serves 512 where
  block_size := ⟨9, by decide, by decide⟩
  groups := ⟨by simp [FreeSpaceMap.items, space, BlockGroupItem.stop, Word.size],
    by simp [FreeSpaceMap.items, space]⟩
  ordered := by
    intro bg hbg
    rw [List.mem_singleton.mp hbg]
    exact ⟨by simp, List.pairwise_singleton _ _⟩
  within := by simp [space, Within, BlockGroupItem.stop, Span.stop]
  room := by simp [space, BlockGroupItem.stop, Word.size]

theorem ready (level : Nat) (hl : level < 256) : Ready fs (state level) (pathItems level) := by
  obtain ⟨blocks, htree, hlt⟩ := path_tree level hl
  refine ⟨⟨(path_sorted level hl).1, blocks, htree⟩, space_serves, ?_⟩
  intro p hp x hx hfree
  rw [hp.unique htree] at hx
  have hx' := hlt x hx
  obtain ⟨bg, hbg, r, hr, hge, -⟩ := hfree
  rw [List.mem_singleton.mp hbg, List.mem_singleton] at hr
  rw [hr] at hge
  exact absurd hx' (not_lt.mpr hge)

/-- An item at the right end, as long as a leaf allows. -/
def insertLast : TreeStep := ⟨5, 2, .insert (key 5000) fill⟩

def deleteLast : TreeStep := ⟨5, 2, .delete (key 5000)⟩

/-- An interior node stands where the level says a leaf does. -/
def interiorAtZero : Except LuksError TreeState → Bool
  | .ok st => st.level = 0 ∧ (st.recording.pending_blocks.get st.root).any fun n => n.to_interior.isOk
  | .error _ => false

end Deep

/-- A full tree of level 1 grows to level 2, and shrinks again. -/
theorem cow_run_refines_grow_and_shrink :
    ∃ st', runSteps Deep.fs [Deep.insertLast, Deep.deleteLast] (Deep.state 1) = .ok st' ∧
      ∃ items', specSteps (Deep.pathItems 1) [Deep.insertLast, Deep.deleteLast] = some items' ∧
        Ready Deep.fs st' items' := by
  have hok : (runSteps Deep.fs [Deep.insertLast, Deep.deleteLast] (Deep.state 1)).isOk = true := by
    decide +kernel
  cases hrun : runSteps Deep.fs [Deep.insertLast, Deep.deleteLast] (Deep.state 1) with
  | error e => rw [hrun] at hok; cases hok
  | ok st' =>
    refine ⟨st', rfl, cow_run_refines _ (Deep.ready 1 (by decide)) ⟨?_, ?_⟩ hrun⟩
    · exact (by decide : 1 < 255)
    · intro st₁ _
      exact ⟨trivial, fun _ _ => trivial⟩

/-- A full tree of level 255: the level of the new root wraps round to 0, and no tree of that level
is there. -/
theorem cow_insert_wraps_level :
    Ready Deep.fs (Deep.state 255) (Deep.pathItems 255) ∧
      ∃ st', runSteps Deep.fs [Deep.insertLast] (Deep.state 255) = .ok st' ∧
        ∀ items', ¬ WellFormed (view Deep.fs st'.recording.pending_blocks) Deep.fs.node_size st'.level
          st'.root items' := by
  refine ⟨Deep.ready 255 (by decide), ?_⟩
  have hzero : Deep.interiorAtZero (runSteps Deep.fs [Deep.insertLast] (Deep.state 255)) = true := by
    decide +kernel
  cases hrun : runSteps Deep.fs [Deep.insertLast] (Deep.state 255) with
  | error e => rw [hrun] at hzero; cases hzero
  | ok st' =>
    rw [hrun] at hzero
    simp only [Deep.interiorAtZero, decide_eq_true_eq, Option.any_eq_true] at hzero
    obtain ⟨hlevel, n, hn, hint⟩ := hzero
    refine ⟨st', rfl, ?_⟩
    rintro items' ⟨-, blocks, htree⟩
    rw [hlevel] at htree
    obtain ⟨l, hl, -, -⟩ := htree
    have hread := (view_eq_some hl).1
    rw [read_node, hn] at hread
    simp only [Node.parse] at hread
    split at hread
    · cases hread
    · split at hread
      · cases hread
      · cases hread
        cases hint

end LuksAndroid.Btrfs

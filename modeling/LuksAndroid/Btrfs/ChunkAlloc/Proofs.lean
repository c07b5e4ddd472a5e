import LuksAndroid.Btrfs.ChunkAlloc.Search
import LuksAndroid.Btrfs.Cursor.Proofs

/-!
# Where new chunks lie

A chunk is placed behind every chunk of the map and in a hole of the device. In a
run of allocations the map only grows, so this holds of all chunks of the run.
-/

namespace LuksAndroid.Btrfs

open Word Spans Run

/-! ## Walking a tree -/

theorem foldlM_keeps {σ α : Type} {f : σ → α → Except LuksError σ} {P : σ → Prop}
    (hf : ∀ s a t, P s → f s a = .ok t → P t) (l : List α) {s t : σ} (hs : P s)
    (h : l.foldlM f s = .ok t) : P t := by
  induction l generalizing s with
  | nil =>
    cases h
    exact hs
  | cons a l ih =>
    rw [List.foldlM_cons] at h
    obtain ⟨next, hstep, h⟩ := except_bind_ok.mp h
    exact ih (hf s a next hs hstep) h

section Walk

variable {σ : Type} {read : Reader} {node_size : Nat} {visit : σ → Key → Bytes → Except LuksError σ}

theorem walk_node_spec (level : Nat) {b : Nat} {p : Part} (h : Tree (seen read) node_size level b p) :
    ∃ node, read b = .ok node ∧ node.level = level ∧
      ∀ s, walk_node read visit level node s = p.1.foldlM (fun s it => visit s it.key it.data) s := by
  induction level generalizing b p with
  | zero =>
    obtain ⟨l, hl, -, rfl⟩ := h
    exact ⟨.leaf l, seen_eq_some hl, rfl, fun s => rfl⟩
  | succ level ih =>
    obtain ⟨n, parts, hn, hlevel, -, -, hch, rfl⟩ := h
    refine ⟨.interior n, seen_eq_some hn, hlevel, fun s => ?_⟩
    rw [walk_node]
    clear hn
    generalize n.entries = es at hch
    induction hch generalizing s with
    | nil => rfl
    | cons hc _ ihc =>
      obtain ⟨child, hread, hchild, hwalk⟩ := ih hc.1
      rw [List.foldlM_cons, itemsOf_cons, List.foldlM_append]
      simp only [hread, hchild, ne_eq, not_true_eq_false, if_false, hwalk, bind, Except.bind]
      split
      · rfl
      · exact ihc _

theorem walk_tree_ok {root level : Nat} {items : List LeafItem} {s t : σ}
    (h : WellFormed (seen read) node_size level root items) (hwalk : walk_tree read root visit s = .ok t) :
    items.foldlM (fun s it => visit s it.key it.data) s = .ok t := by
  obtain ⟨blocks, htree⟩ := h.tree
  obtain ⟨node, hread, hlevel, hnode⟩ := walk_node_spec level htree
  obtain ⟨node', hread', hwalk⟩ := except_bind_ok.mp hwalk
  rw [hread] at hread'
  cases hread'
  obtain ⟨-, hwalk⟩ := guard_bind_ok.mp hwalk
  rwa [hlevel, hnode] at hwalk

theorem walk_node_keeps {P : σ → Prop} (hvisit : ∀ s key data t, P s → visit s key data = .ok t → P t)
    (level : Nat) {node : Node} {s t : σ} (hs : P s) (hwalk : walk_node read visit level node s = .ok t) :
    P t := by
  induction level generalizing node s t with
  | zero =>
    cases node with
    | leaf l => exact foldlM_keeps (fun s it t hs h => hvisit s _ _ t hs h) l.items hs hwalk
    | interior n =>
      rw [walk_node] at hwalk
      split at hwalk
      · cases hwalk
        exact hs
      · cases hwalk
  | succ level ih =>
    cases node with
    | leaf l => exact foldlM_keeps (fun s it t hs h => hvisit s _ _ t hs h) l.items hs hwalk
    | interior n =>
      rw [walk_node] at hwalk
      refine foldlM_keeps (fun s e t hs h => ?_) n.entries hs hwalk
      obtain ⟨child, -, h⟩ := except_bind_ok.mp h
      obtain ⟨-, h⟩ := guard_bind_ok.mp h
      exact ih hs h

theorem walk_tree_keeps {P : σ → Prop} (hvisit : ∀ s key data t, P s → visit s key data = .ok t → P t)
    {root : Nat} {s t : σ} (hs : P s) (hwalk : walk_tree read root visit s = .ok t) : P t := by
  obtain ⟨node, -, hwalk⟩ := except_bind_ok.mp hwalk
  obtain ⟨-, hwalk⟩ := guard_bind_ok.mp hwalk
  exact walk_node_keeps hvisit _ hs hwalk

end Walk

/-! ## The device extents -/

/-- An item that names the device. -/
def IsDevExtent (devid : Nat) (it : LeafItem) : Prop :=
  it.key.item_type = DEV_EXTENT_KEY ∧ it.key.objectid = devid

def devSpan (it : LeafItem) : Span := ⟨it.key.offset, it.data.get 0x18 8⟩

theorem DevExtent.parse_ok {key : Key} {data : Bytes} {e : DevExtent} (h : DevExtent.parse key data = .ok e) :
    e.physical_offset = key.offset ∧ e.length = data.get 0x18 8 ∧ key.offset + data.get 0x18 8 < size := by
  unfold DevExtent.parse at h
  obtain ⟨-, h⟩ := guard_bind_ok.mp h
  obtain ⟨-, h⟩ := guard_bind_ok.mp h
  obtain ⟨-, h⟩ := guard_bind_ok.mp h
  obtain ⟨hfits, h⟩ := guard_bind_ok.mp h
  cases h
  refine ⟨rfl, rfl, ?_⟩
  unfold checked_add at hfits
  split at hfits
  · assumption
  · simp at hfits

theorem read_dev_extents_stop {fs : Mount} {devid : Nat} {extents : List Span}
    (h : read_dev_extents fs devid = .ok extents) : ∀ e ∈ extents, e.stop < size := by
  obtain ⟨root, -, h⟩ := except_bind_ok.mp h
  obtain ⟨found, hwalk, h⟩ := except_bind_ok.mp h
  cases h
  have hkeep : ∀ e ∈ found, e.stop < size := by
    refine walk_tree_keeps (P := fun l : List Span => ∀ e ∈ l, e.stop < size) ?_ (by simp) hwalk
    intro l key data next hl hvisit
    unfold visit_dev_extent at hvisit
    split at hvisit
    · obtain ⟨e, hparse, hvisit⟩ := except_bind_ok.mp hvisit
      cases hvisit
      obtain ⟨hoff, hlen, hfits⟩ := DevExtent.parse_ok hparse
      intro x hx
      rcases List.mem_append.mp hx with hx | hx
      · exact hl x hx
      · rw [List.mem_singleton.mp hx, Span.stop_mk, hoff, hlen]
        exact hfits
    · cases hvisit
      exact hl
  intro e he
  exact hkeep e ((List.perm_insertionSort byStart found).mem_iff.mp he)

theorem visit_dev_extents_ok {devid : Nat} {items : List LeafItem} {found extents : List Span}
    (h : items.foldlM (fun s it => visit_dev_extent devid s it.key it.data) found = .ok extents) :
    found ⊆ extents ∧ (∀ it ∈ items, IsDevExtent devid it → devSpan it ∈ extents) ∧
      ∀ e ∈ extents, e ∈ found ∨ ∃ it ∈ items, IsDevExtent devid it ∧ e = devSpan it := by
  induction items generalizing found with
  | nil =>
    cases h
    exact ⟨fun _ => id, by simp, fun e he => Or.inl he⟩
  | cons it items ih =>
    rw [List.foldlM_cons] at h
    obtain ⟨next, hvisit, h⟩ := except_bind_ok.mp h
    obtain ⟨hsub, hin, hout⟩ := ih h
    unfold visit_dev_extent at hvisit
    split at hvisit
    · rename_i hdev
      obtain ⟨e, hparse, hvisit⟩ := except_bind_ok.mp hvisit
      cases hvisit
      obtain ⟨hoff, hlen, -⟩ := DevExtent.parse_ok hparse
      have hspan : (⟨e.physical_offset, e.length⟩ : Span) = devSpan it := by rw [hoff, hlen, devSpan]
      rw [hspan] at hsub hout
      refine ⟨fun x hx => hsub (by simp [hx]), ?_, ?_⟩
      · intro it' hit' hdev'
        rcases List.mem_cons.mp hit' with rfl | hit'
        · exact hsub (by simp)
        · exact hin it' hit' hdev'
      · intro x hx
        rcases hout x hx with hx | ⟨it', hit', hx⟩
        · rcases List.mem_append.mp hx with hx | hx
          · exact Or.inl hx
          · have hx := List.mem_singleton.mp hx
            exact Or.inr ⟨it, by simp, hdev, hx⟩
        · exact Or.inr ⟨it', by simp [hit'], hx⟩
    · rename_i hdev
      cases hvisit
      refine ⟨hsub, ?_, ?_⟩
      · intro it' hit' hdev'
        rcases List.mem_cons.mp hit' with rfl | hit'
        · exact absurd hdev' hdev
        · exact hin it' hit' hdev'
      · intro x hx
        exact (hout x hx).imp id fun ⟨it', hit', hx⟩ => ⟨it', by simp [hit'], hx⟩

/-- The items of the device tree, when the tree is well-formed. -/
def DevItems (fs : Mount) (items : List LeafItem) : Prop :=
  ∃ root level, fs.tree_root DEV_TREE_OBJECTID = .ok root ∧
    WellFormed (seen fs.read_node) fs.sb.node_size level root.bytenr items

theorem read_dev_extents_ok {fs : Mount} {devid : Nat} {extents : List Span}
    (h : read_dev_extents fs devid = .ok extents) {items : List LeafItem} (hitems : DevItems fs items) :
    (∀ it ∈ items, IsDevExtent devid it → devSpan it ∈ extents) ∧
      ∀ e ∈ extents, ∃ it ∈ items, IsDevExtent devid it ∧ e = devSpan it := by
  obtain ⟨root, level, hroot, hwf⟩ := hitems
  obtain ⟨root', hroot', h⟩ := except_bind_ok.mp h
  rw [hroot] at hroot'
  cases hroot'
  obtain ⟨found, hwalk, h⟩ := except_bind_ok.mp h
  cases h
  obtain ⟨-, hin, hout⟩ := visit_dev_extents_ok (walk_tree_ok hwf hwalk)
  have hperm := List.perm_insertionSort byStart found
  refine ⟨fun it hit hdev => hperm.mem_iff.mpr (hin it hit hdev), fun e he => ?_⟩
  exact (hout e (hperm.mem_iff.mp he)).resolve_left (by simp)

/-! ## The chunk map -/

/-- The addresses of a chunk. Addresses have 64 bits. -/
def Chunk.addresses (c : Chunk) : Set Nat := {a | ∃ i < c.length, a = wrapping_add c.logical i}

theorem Chunk.addresses_of_lt {c : Chunk} (h : c.logical + c.length < size) :
    c.addresses = Set.Ico c.logical (c.logical + c.length) := by
  ext a
  constructor
  · rintro ⟨i, hi, rfl⟩
    rw [wrapping_add_of_lt (by omega)]
    exact ⟨by omega, by omega⟩
  · rintro ⟨hge, hlt⟩
    exact ⟨a - c.logical, by omega, by rw [wrapping_add_of_lt (by omega)]; omega⟩

/-- Every chunk ends inside the address space, which `Chunk::parse` checks. -/
def ChunkMap.Fits (m : ChunkMap) : Prop := ∀ c ∈ m.chunks, c.logical + c.length < size

theorem next_logical_ge {m : ChunkMap} (h : m.Fits) : ∀ c ∈ m.chunks, c.logical + c.length ≤ next_logical m := by
  intro c hc
  have hmax : ∀ (l : List Nat) (n : Nat), n ≤ l.foldl max n ∧ ∀ x ∈ l, x ≤ l.foldl max n := by
    intro l
    induction l with
    | nil => simp
    | cons a l ih =>
      intro n
      obtain ⟨h1, h2⟩ := ih (max n a)
      rw [List.foldl_cons]
      refine ⟨(le_max_left _ _).trans h1, fun x hx => ?_⟩
      rcases List.mem_cons.mp hx with rfl | hx
      · exact (le_max_right _ _).trans h1
      · exact h2 x hx
  rw [← saturating_add_of_lt (h c hc)]
  exact (hmax _ 0).2 _ (List.mem_map_of_mem hc)

theorem ChunkMap.mem_insert {m : ChunkMap} {chunk c : Chunk} (h : c ∈ (m.insert chunk).chunks) :
    c = chunk ∨ c ∈ m.chunks := by
  unfold ChunkMap.insert at h
  simp only [List.mem_append, List.mem_cons] at h
  rcases h with h | rfl | h
  · exact Or.inr (List.takeWhile_subset _ h)
  · exact Or.inl rfl
  · exact Or.inr (List.dropWhile_subset _ (List.dropWhile_subset _ h))

theorem ChunkMap.mem_insert_self (m : ChunkMap) (chunk : Chunk) : chunk ∈ (m.insert chunk).chunks := by
  simp [ChunkMap.insert]

theorem ChunkMap.mem_insert_of_ne {m : ChunkMap} {chunk c : Chunk} (hc : c ∈ m.chunks)
    (hne : c.logical ≠ chunk.logical) : c ∈ (m.insert chunk).chunks := by
  have hsplit := List.takeWhile_append_dropWhile (p := fun c : Chunk => decide (c.logical < chunk.logical))
    (l := m.chunks)
  rw [← hsplit, List.mem_append] at hc
  unfold ChunkMap.insert
  simp only [List.mem_append, List.mem_cons]
  rcases hc with hc | hc
  · exact Or.inl hc
  · refine Or.inr (Or.inr ?_)
    rw [← List.takeWhile_append_dropWhile (p := fun c : Chunk => decide (c.logical = chunk.logical))
      (l := m.chunks.dropWhile _), List.mem_append] at hc
    refine hc.resolve_left fun hin => hne ?_
    simpa using List.mem_takeWhile_imp hin

/-! ## One transaction -/

/-- The new chunk fits behind the others. -/
def Roomy (fs : Mount) : Prop :=
  next_logical fs.chunks + decide_data_chunk_size fs.sb.total_bytes < size

/-- Where a new chunk lies, seen from the mount before. -/
structure Placed (fs : Mount) (chunk : Chunk) : Prop where
  logical : ∀ c ∈ fs.chunks.chunks, Disjoint chunk.addresses c.addresses
  physical : ∃ physical, chunk.stripes = [⟨fs.sb.dev_id, physical⟩] ∧
    BTRFS_BLOCK_RESERVED_1M_FOR_SUPER ≤ physical ∧
    ∀ items, DevItems fs items →
      (∀ it ∈ items, IsDevExtent fs.sb.dev_id it →
        Disjoint (Set.Ico physical (physical + chunk.length)) (devSpan it).cells) ∧
      ((∀ it ∈ items, IsDevExtent fs.sb.dev_id it → (devSpan it).stop ≤ fs.sb.total_bytes) →
        physical + chunk.length ≤ fs.sb.total_bytes)

/-- A transaction that succeeds hands out what the searches found. -/
theorem allocate_transaction_ok {fs : Mount} {dev_uuids : List (Nat × Bytes)} {reserved : List (Nat × Nat)}
    {txn : Transaction} {chunk : Chunk}
    (h : allocate_data_chunk_transaction_excluding fs dev_uuids reserved = .ok (txn, chunk)) :
    ∃ extents physical alloc_len, read_dev_extents fs fs.sb.dev_id = .ok extents ∧
      find_free_dev_extent extents fs.sb.total_bytes (decide_data_chunk_size fs.sb.total_bytes)
        MIN_STRIPE_SIZE_FLOOR = .ok (physical, alloc_len) ∧
      MIN_STRIPE_SIZE_FLOOR ≤ alloc_len ∧
      chunk = .new_single (next_logical fs.chunks) alloc_len BLOCK_GROUP_DATA fs.sb.dev_id physical := by
  obtain ⟨p, hp, h⟩ := except_bind_ok.mp h
  obtain ⟨_, -, hp⟩ := except_bind_ok.mp hp
  obtain ⟨_, -, hp⟩ := except_bind_ok.mp hp
  obtain ⟨_, -, hp⟩ := except_bind_ok.mp hp
  obtain ⟨_, -, hp⟩ := except_bind_ok.mp hp
  obtain ⟨extents, hext, hp⟩ := except_bind_ok.mp hp
  obtain ⟨⟨physical, alloc_len⟩, hfind, hp⟩ := except_bind_ok.mp hp
  obtain ⟨hfloor, hp⟩ := guard_bind_ok.mp hp
  cases hp
  obtain ⟨_, -, h⟩ := except_bind_ok.mp h
  obtain ⟨_, -, h⟩ := except_bind_ok.mp h
  obtain ⟨⟨_, _⟩, -, h⟩ := except_bind_ok.mp h
  refine ⟨extents, physical, alloc_len, hext, hfind, not_lt.mp hfloor, ?_⟩
  simp only at h
  split at h
  · cases h
  · obtain ⟨_, -, h⟩ := except_bind_ok.mp h
    cases h
    rfl

theorem FirstFit.in_hole {hole : Span → Prop} {requested minimum start length : Nat}
    (h : FirstFit hole requested minimum (.ok (start, length))) :
    length ≤ requested ∧ ∃ g, hole g ∧ start = g.start ∧ length ≤ g.length := by
  cases h with
  | fits mem large _ => exact ⟨le_refl _, _, mem, rfl, large⟩
  | shrunk mem none_fits _ _ _ _ =>
    exact ⟨(roundDown_le _).trans (none_fits _ mem).le, _, mem, rfl, roundDown_le _⟩

theorem placed_of_ok {fs : Mount} (hfits : fs.chunks.Fits) (htotal : fs.sb.total_bytes < size)
    (hroom : Roomy fs) {dev_uuids : List (Nat × Bytes)} {reserved : List (Nat × Nat)} {txn : Transaction}
    {chunk : Chunk}
    (h : allocate_data_chunk_transaction_excluding fs dev_uuids reserved = .ok (txn, chunk)) :
    Placed fs chunk ∧ chunk.logical = next_logical fs.chunks ∧ 0 < chunk.length ∧
      chunk.logical + chunk.length < size := by
  obtain ⟨extents, physical, alloc_len, hext, hfind, hfloor, rfl⟩ := allocate_transaction_ok h
  have hstop := read_dev_extents_stop hext
  have hfirst := find_free_dev_extent_firstFit htotal
    (fun e he => lt_of_le_of_lt (Nat.le_add_right _ _) (hstop e he))
    (decide_data_chunk_size fs.sb.total_bytes) MIN_STRIPE_SIZE_FLOOR
  rw [hfind] at hfirst
  obtain ⟨hle, g, hg, hstart, hlen⟩ := hfirst.in_hole
  have hend : next_logical fs.chunks + alloc_len < size := lt_of_le_of_lt (by omega) hroom
  refine ⟨⟨?_, physical, rfl, ?_, ?_⟩, rfl, lt_of_lt_of_le (by decide) hfloor, hend⟩
  · intro c hc
    rw [Chunk.addresses_of_lt hend, Chunk.addresses_of_lt (hfits c hc), Set.disjoint_left]
    rintro a ⟨hge, -⟩ ⟨-, hlt⟩
    have := next_logical_ge hfits c hc
    simp only [Chunk.new_single] at hge
    omega
  · rw [hstart]
    exact hg.hole.low
  · intro items hitems
    obtain ⟨hin, hout⟩ := read_dev_extents_ok hext hitems
    simp only [Chunk.new_single]
    constructor
    · intro it hit hdev
      rw [Set.disjoint_left]
      rintro a ⟨hge, hlt⟩ ha
      exact hg.hole.clear a ⟨by omega, by rw [Span.stop]; omega⟩ ⟨_, hin it hit hdev, ha⟩
    · intro hinside
      have hreach : reach fs.sb.total_bytes (nonEmpty extents) ≤ fs.sb.total_bytes := by
        refine reach_le (le_refl _) fun r hr => ?_
        obtain ⟨it, hit, hdev, rfl⟩ := hout r (List.mem_of_mem_filter hr)
        exact hinside it hit hdev
      have := hg.hole.high
      rw [Span.stop] at this
      omega

/-! ## Runs -/

/-- A run of allocations, with the mount that each one started from. A commit that fails leaves the
new chunk in the map of the mount. Between two allocations the mount may change in any way that
leaves the chunk map as it is. -/
inductive ChunkRun (fs₀ : Mount) : List (Mount × Chunk) → Mount → Prop
  | start : ChunkRun fs₀ [] fs₀
  | other {steps : List (Mount × Chunk)} {fs fs' : Mount} (run : ChunkRun fs₀ steps fs)
      (chunks : fs'.chunks = fs.chunks) : ChunkRun fs₀ steps fs'
  | alloc {steps : List (Mount × Chunk)} {fs fs' : Mount} {dev_uuids : List (Nat × Bytes)}
      {reserved : List (Nat × Nat)} {txn : Transaction} {chunk : Chunk} (run : ChunkRun fs₀ steps fs)
      (total : fs.sb.total_bytes < size)
      (ok : allocate_data_chunk_transaction_excluding fs dev_uuids reserved = .ok (txn, chunk))
      (chunks : fs'.chunks = fs.chunks.insert chunk) : ChunkRun fs₀ (steps ++ [(fs, chunk)]) fs'

/-- A chunk map that fits, with the chunks of the run in it. -/
structure Grown (steps : List (Mount × Chunk)) (m : ChunkMap) : Prop where
  fits : m.Fits
  kept : ∀ s ∈ steps, s.2 ∈ m.chunks ∧ 0 < s.2.length
  placed : ∀ s ∈ steps, Placed s.1 s.2
  apart : (steps.map Prod.snd).Pairwise fun c d => Disjoint c.addresses d.addresses

theorem Grown.alloc {steps : List (Mount × Chunk)} {fs : Mount} (h : Grown steps fs.chunks)
    (htotal : fs.sb.total_bytes < size) (hroom : Roomy fs) {dev_uuids : List (Nat × Bytes)}
    {reserved : List (Nat × Nat)} {txn : Transaction} {chunk : Chunk}
    (hok : allocate_data_chunk_transaction_excluding fs dev_uuids reserved = .ok (txn, chunk)) :
    Grown (steps ++ [(fs, chunk)]) (fs.chunks.insert chunk) := by
  obtain ⟨hplaced, hlogical, hpos, hend⟩ := placed_of_ok h.fits htotal hroom hok
  refine ⟨?_, ?_, ?_, ?_⟩
  · intro c hc
    rcases ChunkMap.mem_insert hc with rfl | hc
    · exact hend
    · exact h.fits c hc
  · intro s hs
    rcases List.mem_append.mp hs with hs | hs
    · obtain ⟨hmem, hlen⟩ := h.kept s hs
      refine ⟨ChunkMap.mem_insert_of_ne hmem ?_, hlen⟩
      have := next_logical_ge h.fits s.2 hmem
      omega
    · rw [List.mem_singleton.mp hs]
      exact ⟨ChunkMap.mem_insert_self _ _, hpos⟩
  · intro s hs
    rcases List.mem_append.mp hs with hs | hs
    · exact h.placed s hs
    · rw [List.mem_singleton.mp hs]
      exact hplaced
  · rw [List.map_append, List.pairwise_append]
    refine ⟨h.apart, List.pairwise_singleton _ _, ?_⟩
    intro c hc d hd
    obtain ⟨s, hs, rfl⟩ := List.mem_map.mp hc
    rw [List.map_singleton, List.mem_singleton] at hd
    subst hd
    exact (hplaced.logical s.2 (h.kept s hs).1).symm

theorem ChunkRun.grown {fs₀ fs : Mount} {steps : List (Mount × Chunk)} (hrun : ChunkRun fs₀ steps fs)
    (hfits : fs₀.chunks.Fits) (hroom : ∀ s ∈ steps, Roomy s.1) : Grown steps fs.chunks := by
  induction hrun with
  | start => exact ⟨hfits, by simp, by simp, List.Pairwise.nil⟩
  | other _ hchunks ih => exact hchunks ▸ ih hroom
  | @alloc steps fs _ _ _ _ chunk _ htotal hok hchunks ih =>
    rw [hchunks]
    exact (ih fun s hs => hroom s (by simp [hs])).alloc htotal (hroom (fs, chunk) (by simp)) hok

/-! ## The call is such a step -/

section Call

variable {σ : Type} {sha256 : Digest} {from_utf8_lossy : Bytes → String} {encode : Node → Bytes}
  {fs fs' : Mount} {d : WriteAt σ} {io io' : Io σ}

theorem commit_transaction_keeps {txn : Transaction}
    (h : commit_transaction sha256 from_utf8_lossy encode fs d txn io = .ok fs' io') :
    fs'.chunks = fs.chunks ∧ fs'.sb.total_bytes = fs.sb.total_bytes := by
  obtain ⟨_, _, -, h⟩ := Run.bind_ok.mp h
  obtain ⟨_, _, -, h⟩ := Run.bind_ok.mp h
  obtain ⟨_, _, -, h⟩ := Run.bind_ok.mp h
  obtain ⟨_, _, -, h⟩ := Run.bind_ok.mp h
  obtain ⟨_, _, -, h⟩ := Run.bind_ok.mp h
  obtain ⟨_, _, -, h⟩ := Run.bind_ok.mp h
  obtain ⟨_, _, -, h⟩ := Run.bind_ok.mp h
  obtain ⟨rfl, -⟩ := Run.pure_ok.mp h
  refine ⟨rfl, ?_⟩
  simp only [Mount.update_mount_state, Superblock.advance]
  split <;> rfl

theorem commit_active_batch_keeps
    (h : commit_active_batch sha256 from_utf8_lossy encode fs d io = .ok fs' io') :
    fs'.chunks = fs.chunks ∧ fs'.sb.total_bytes = fs.sb.total_bytes := by
  unfold commit_active_batch at h
  split at h
  · obtain ⟨_, _, hthrow, -⟩ := Run.bind_ok.mp h
    cases hthrow
  · split at h
    · obtain ⟨rfl, -⟩ := Run.pure_ok.mp h
      exact ⟨rfl, rfl⟩
    · simp only at h
      split at h
      · obtain ⟨rfl, -⟩ := Run.pure_ok.mp h
        exact ⟨rfl, rfl⟩
      · obtain ⟨txn, _, -, h⟩ := Run.bind_ok.mp h
        have hkeeps := commit_transaction_keeps h
        exact hkeeps

theorem ChunkRun.call {fs₀ : Mount} {steps : List (Mount × Chunk)} (hrun : ChunkRun fs₀ steps fs)
    (htotal : fs.sb.total_bytes < size) {dev_uuids : List (Nat × Bytes)} {reserved : List (Nat × Nat)}
    {logical : Nat}
    (h : allocate_data_chunk_excluding sha256 from_utf8_lossy encode fs d dev_uuids reserved io =
      .ok (fs', logical) io') :
    ∃ fs₁ chunk, chunk.logical = logical ∧ ChunkRun fs₀ (steps ++ [(fs₁, chunk)]) fs' := by
  obtain ⟨fs₁, io₁, hbatch, h⟩ := Run.bind_ok.mp h
  obtain ⟨⟨txn, chunk⟩, io₂, htxn, h⟩ := Run.bind_ok.mp h
  obtain ⟨fs₂, io₃, hcommit, h⟩ := Run.bind_ok.mp h
  obtain ⟨heq, -⟩ := Run.pure_ok.mp h
  cases heq
  obtain ⟨hok, -⟩ := IoM.lift_ok.mp htxn
  have hkeeps : fs₁.chunks = fs.chunks ∧ fs₁.sb.total_bytes = fs.sb.total_bytes := by
    unfold commit_any_batch at hbatch
    split at hbatch
    · exact commit_active_batch_keeps hbatch
    · obtain ⟨rfl, -⟩ := Run.pure_ok.mp hbatch
      exact ⟨rfl, rfl⟩
  exact ⟨fs₁, chunk, rfl, (hrun.other hkeeps.1).alloc (hkeeps.2 ▸ htotal) hok
    (commit_transaction_keeps hcommit).1⟩

end Call

/-! ## Two chunks, and a place for a third -/

namespace TopChunk

def superblock (total_bytes : Nat) : Superblock where
  fsid := []
  bytenr := 0x10000
  generation := 7
  root := 1052672
  chunk_root := 1064960
  chunk_root_generation := 7
  log_root := 0
  total_bytes := total_bytes
  bytes_used := 20480
  root_dir_objectid := 6
  num_devices := 1
  dev_id := 1
  sector_size := 4096
  node_size := 4096
  stripe_size := 4096
  incompat_flags := INCOMPAT_SKINNY_METADATA
  compat_ro_flags := 0
  csum_type := .Crc32c
  root_level := 0
  chunk_root_level := 0
  label := ""
  metadata_uuid := []
  sys_chunk_array := []

def rootItem (objectid bytenr : Nat) : LeafItem :=
  ⟨⟨objectid, ROOT_ITEM_KEY, 0⟩, Bytes.put (List.replicate 239 0) 176 (Bytes.le 8 bytenr)⟩

def uuid : Bytes := List.replicate 16 0

def leaf (bytenr owner : Nat) (items : List LeafItem) : Node :=
  .leaf ⟨bytenr, 7, owner, HEADER_FLAG_WRITTEN, [], uuid, items⟩

/-- The metadata chunk at 1 MiB, and a data chunk that starts at `top`. The chunks of `added` came later. -/
def low : Chunk := ⟨1048576, 1048576, BLOCK_GROUP_METADATA ||| BLOCK_GROUP_SYSTEM, [⟨1, 1048576⟩]⟩
def high (top : Nat) : Chunk := ⟨top, 65536, BLOCK_GROUP_DATA, [⟨1, 2097152⟩]⟩

def lowGroup : BlockGroupItem :=
  ⟨1048576, 1048576, 20480, 256, BLOCK_GROUP_METADATA ||| BLOCK_GROUP_SYSTEM⟩

def extentItems (top : Nat) (added : List Chunk) : List LeafItem :=
  [emit_tree_block 1048576 0 7 FS_TREE_OBJECTID, lowGroup.emit,
    emit_tree_block 1052672 0 7 ROOT_TREE_OBJECTID, emit_tree_block 1056768 0 7 EXTENT_TREE_OBJECTID,
    emit_tree_block 1060864 0 7 DEV_TREE_OBJECTID, emit_tree_block 1064960 0 7 CHUNK_TREE_OBJECTID,
    BlockGroupItem.emit ⟨top, 65536, 0, 256, BLOCK_GROUP_DATA⟩] ++
    added.map fun c => BlockGroupItem.emit ⟨c.logical, c.length, 0, 256, c.chunk_type⟩

def devItems (top : Nat) (added : List Chunk) : List LeafItem :=
  [(DevExtent.new 1 1048576 1048576 1048576 uuid).emit, (DevExtent.new 1 2097152 top 65536 uuid).emit] ++
    added.flatMap fun c => c.stripes.map fun s => (DevExtent.new 1 s.offset c.logical c.length uuid).emit

def device (top : Nat) (added : List Chunk) (b : Nat) : Except LuksError Node :=
  if b = 1048576 then .ok (leaf b FS_TREE_OBJECTID [])
  else if b = 1052672 then .ok (leaf b ROOT_TREE_OBJECTID
    [rootItem EXTENT_TREE_OBJECTID 1056768, rootItem DEV_TREE_OBJECTID 1060864])
  else if b = 1056768 then .ok (leaf b EXTENT_TREE_OBJECTID (extentItems top added))
  else if b = 1060864 then .ok (leaf b DEV_TREE_OBJECTID (devItems top added))
  else if b = 1064960 then .ok (leaf b CHUNK_TREE_OBJECTID <|
    [⟨⟨DEV_ITEMS_OBJECTID, DEV_ITEM_KEY, 1⟩, List.replicate 98 0⟩, low.emit uuid, (high top).emit uuid] ++
      added.map (·.emit uuid))
  else .error .OutOfBounds

def mount (total_bytes top : Nat) (added : List Chunk) : Mount where
  device := device top added
  sb := superblock total_bytes
  chunks := added.foldl ChunkMap.insert ⟨[low, high top]⟩
  fs_tree_root := ⟨FS_TREE_OBJECTID, 1048576, 0, 256, 7, 0⟩
  active_batch := none
  has_open_writer := false

/-- The chunk that a transaction on the mount allocates. -/
def allocated (total_bytes top : Nat) (added : List Chunk) : Option Chunk :=
  (allocate_data_chunk_transaction_excluding (mount total_bytes top added) [(1, uuid)] []).toOption.map Prod.snd

theorem ok_of_allocated {total_bytes top : Nat} {added : List Chunk} {chunk : Chunk}
    (h : allocated total_bytes top added = some chunk) :
    ∃ txn, allocate_data_chunk_transaction_excluding (mount total_bytes top added) [(1, uuid)] [] =
      .ok (txn, chunk) := by
  unfold allocated at h
  cases hrun : allocate_data_chunk_transaction_excluding (mount total_bytes top added) [(1, uuid)] [] with
  | error e =>
    rw [hrun] at h
    cases h
  | ok res =>
    rw [hrun] at h
    cases h
    exact ⟨res.1, rfl⟩

/-- One more allocation in a run. The mount after it has the chunk in its trees. -/
theorem run_of_allocated {total_bytes top : Nat} {added : List Chunk} {steps : List (Mount × Chunk)} {fs₀ : Mount}
    {chunk : Chunk} (htotal : total_bytes < size) (hrun : ChunkRun fs₀ steps (mount total_bytes top added))
    (h : allocated total_bytes top added = some chunk) :
    ChunkRun fs₀ (steps ++ [(mount total_bytes top added, chunk)]) (mount total_bytes top (added ++ [chunk])) := by
  obtain ⟨txn, hok⟩ := ok_of_allocated h
  exact hrun.alloc htotal hok (by simp [mount])

end TopChunk

/-! ## The law -/

/-- In every run of allocations whose chunks fit behind the others, each new chunk is disjoint from
all chunks and all device extents there are, starts at 1 MiB or later and ends inside the device when
all device extents do. The search for its place is first fit over the holes, for every list of
extents. -/
theorem data_chunks_apart {fs₀ fs : Mount} {steps : List (Mount × Chunk)} (hfits : fs₀.chunks.Fits)
    (hrun : ChunkRun fs₀ steps fs) (hroom : ∀ s ∈ steps, Roomy s.1) :
    (∀ s ∈ steps, Placed s.1 s.2) ∧
      (steps.map Prod.snd).Pairwise (fun c d => Disjoint c.addresses d.addresses) ∧
      ∀ extents total requested minimum, total < size → (∀ e ∈ extents, e.start < size) →
        FirstFit (DeviceHole total extents) requested minimum
          (find_free_dev_extent extents total requested minimum) := by
  have hgrown := hrun.grown hfits hroom
  exact ⟨hgrown.placed, hgrown.apart, fun extents total requested minimum htotal hext =>
    find_free_dev_extent_firstFit htotal hext requested minimum⟩

def third : Chunk := .new_single 2162688 16777216 BLOCK_GROUP_DATA 1 2162688
def fourth : Chunk := .new_single 18939904 16777216 BLOCK_GROUP_DATA 1 18939904

/-- Two allocations, one after the other. -/
theorem data_chunks_apart_fourth :
    Placed (TopChunk.mount 41943040 2097152 []) third ∧ Placed (TopChunk.mount 41943040 2097152 [third]) fourth ∧
      Disjoint third.addresses fourth.addresses := by
  have htotal : 41943040 < size := by unfold size; decide
  have hthird := TopChunk.run_of_allocated htotal .start
    (by decide +kernel : TopChunk.allocated 41943040 2097152 [] = some third)
  have hfourth := TopChunk.run_of_allocated htotal hthird
    (by decide +kernel : TopChunk.allocated 41943040 2097152 [third] = some fourth)
  have hfits : (TopChunk.mount 41943040 2097152 []).chunks.Fits := by
    unfold ChunkMap.Fits size
    decide
  obtain ⟨hplaced, hapart, -⟩ := data_chunks_apart hfits hfourth (by
    intro s hs
    simp only [List.nil_append, List.cons_append, List.mem_cons, List.not_mem_nil, or_false] at hs
    unfold Roomy
    rcases hs with rfl | rfl
    · decide +kernel
    · decide +kernel)
  exact ⟨hplaced _ (.head _), hplaced _ (.tail _ (.head _)), by simpa using hapart⟩

/-- The data chunk ends 64 KiB below the last address. The next one wraps round and lies over the
metadata chunk. -/
theorem data_chunk_wraps :
    (TopChunk.mount 20971520 18446744073709420544 []).chunks.Fits ∧
      ∃ fs chunk, ChunkRun (TopChunk.mount 20971520 18446744073709420544 [])
        [(TopChunk.mount 20971520 18446744073709420544 [], chunk)] fs ∧
        ¬ Placed (TopChunk.mount 20971520 18446744073709420544 []) chunk := by
  refine ⟨by unfold ChunkMap.Fits size; decide, ?_⟩
  have hrun := TopChunk.run_of_allocated (by unfold size; decide) .start
    (by decide +kernel : TopChunk.allocated 20971520 18446744073709420544 [] =
      some (.new_single 18446744073709486080 16777216 BLOCK_GROUP_DATA 1 2162688))
  refine ⟨_, _, hrun, fun hplaced => ?_⟩
  have hlow := hplaced.logical TopChunk.low (by decide)
  -- Byte 1114112 of the new chunk is the first one of the metadata chunk.
  have hnew : 1048576 ∈ (Chunk.new_single 18446744073709486080 16777216 BLOCK_GROUP_DATA 1 2162688).addresses :=
    ⟨1114112, by decide, by unfold wrapping_add size; decide⟩
  have hold : 1048576 ∈ TopChunk.low.addresses := ⟨0, by decide, by unfold wrapping_add size; decide⟩
  exact Set.disjoint_left.mp hlow hnew hold

end LuksAndroid.Btrfs

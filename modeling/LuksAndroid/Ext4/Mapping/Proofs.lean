import LuksAndroid.Ext4.Mapping.Extents

/-!
# Reading a file by runs

`read_inode_data` maps a run at a time. It returns what mapping each block on its own would
return, except where the range begins in front of the first key of an index node in the
inode: there it fails.
-/

namespace LuksAndroid.Ext4

open Word

variable {cap : Nat} {known : Bool} {sb : Superblock} {m : Disk}

/-! ## Contents -/

/-- `read_inode_data`: up to `len` bytes of a file from `offset` on. -/
def read_inode_data_at {σ : Type} (d : WriteAt σ) (fuel : Nat) (inode : Inode) (offset len : Nat) :
    FsM σ Bytes := do
  if offset ≥ inode.size then return []
  let want := min len (inode.size - offset)
  if want = 0 then return []
  if inode.is_inline then
    if inode.size > 60 then fail (.UnsupportedFsFeature "inline_data larger than 60 bytes")
    return inode.block_area.slice offset want
  read_runs d fuel inode want offset want

/-- The byte at `pos` of a file whose blocks are mapped by `map`. A hole reads as zeros. -/
def content_byte (sb : Superblock) (m : Disk) (map : Nat → Option Nat) (pos : Nat) : UInt8 :=
  ((map (pos / sb.block_size)).map fun b => m (b * sb.block_size + pos % sb.block_size)).getD 0

def content (sb : Superblock) (m : Disk) (map : Nat → Option Nat) (offset n : Nat) : Bytes :=
  (List.range n).map fun i => content_byte sb m map (offset + i)

/-! ## Maps of indirect blocks -/

/-- Where the pointer to a block of the file is: the slot of the block area, and the place in each block
of pointers below it. -/
def indirect_path (per_block l : Nat) : Option (Nat × List Nat) :=
  if l < 12 then some (l, [])
  else if l < 12 + per_block then some (12, [l - 12])
  else if l < 12 + per_block + per_block ^ 2 then
    some (13, [(l - 12 - per_block) / per_block, (l - 12 - per_block) % per_block])
  else if l < 12 + per_block + per_block ^ 2 + per_block ^ 3 then
    let idx := l - 12 - per_block - per_block ^ 2
    some (14, [idx / per_block ^ 2, idx / per_block % per_block, idx % per_block])
  else none

/-- Follow pointers from a block on. A zero is a hole. -/
def follow_pointers (sb : Superblock) (m : Disk) : Nat → List Nat → Option Nat
  | ptr, [] => some ptr
  | ptr, i :: rest =>
    (direct (load m (ptr * sb.block_size) sb.block_size) i).bind fun next => follow_pointers sb m next rest

def indirect_lookup (sb : Superblock) (m : Disk) (inode : Inode) (l : Nat) : Option Nat :=
  (indirect_path (sb.block_size / 4) l).bind fun path =>
    (direct inode.block_area path.1).bind fun ptr => follow_pointers sb m ptr path.2

/-- All blocks that hang on `ptr` are blocks of the filesystem. -/
def PointersOk (sb : Superblock) (m : Disk) : Nat → Nat → Prop
  | 0, ptr => ptr < sb.blocks_count
  | depth + 1, ptr => ptr < sb.blocks_count ∧
      ∀ i < sb.block_size / 4, ∀ next, direct (load m (ptr * sb.block_size) sb.block_size) i = some next →
        PointersOk sb m depth next

/-! ## Valid files -/

/-- The filesystem is on the device. -/
structure OnDevice (sb : Superblock) (cap : Nat) : Prop where
  le_block_size : 1024 ≤ sb.block_size
  block_size_le : sb.block_size ≤ 65536
  fits : sb.blocks_count * sb.block_size ≤ cap
  addressed : cap ≤ size

theorem OnDevice.block_size_pos (h : OnDevice sb cap) : 0 < sb.block_size :=
  Nat.lt_of_lt_of_le (by decide) h.le_block_size

/-- The map of a valid inode, of either kind. -/
inductive MapsTo (sb : Superblock) (cap : Nat) (m : Disk) (inode : Inode) : (Nat → Option Nat) → Prop
  | extents {depth : Nat} {exts : List Stretch} (huses : inode.uses_extents = true)
      (htree : TreeAt sb cap m depth inode.block_area exts) (hord : Stretches.Ordered exts)
      (hbelow : Stretches.Below sb.blocks_count exts) : MapsTo sb cap m inode (Stretches.lookup exts)
  | indirect (huses : inode.uses_extents = false)
      (hdirect : ∀ slot < 12, ∀ ptr, direct inode.block_area slot = some ptr → PointersOk sb m 0 ptr)
      (hindirect : ∀ depth < 3, ∀ ptr, direct inode.block_area (12 + depth) = some ptr →
        PointersOk sb m (depth + 1) ptr) : MapsTo sb cap m inode (indirect_lookup sb m inode)

/-- A file without extents, a file whose extents are all in the inode, or a block from the first key on. -/
def Indexed (inode : Inode) (l : Nat) : Prop :=
  inode.uses_extents = false ∨ inode.block_area.get 6 2 = 0 ∨ index_key inode.block_area 0 ≤ l

/-! ## One run -/

/-- A run of the map from `l` on, within a filesystem of `limit` blocks. -/
structure GoodRun (limit : Nat) (map : Nat → Option Nat) (l : Nat) (phys : Option Nat) (n : Nat) : Prop where
  pos : 0 < n
  le : n ≤ 2 ^ 33
  maps : ∀ j < n, map (l + j) = phys.map (· + j)
  below : ∀ p, phys = some p → p + n ≤ limit

theorem read_block_run (hdev : OnDevice sb cap) (fs : Mount Disk) (hsb : fs.sb = sb) {block : Nat}
    (hblock : block < sb.blocks_count) :
    ∃ fs', fs.Same fs' ∧ read_block (memory cap known) block sb.block_size fs =
      .ok (load fs.io.state (block * sb.block_size) sb.block_size) fs' := by
  have hend : block * sb.block_size + sb.block_size ≤ sb.blocks_count * sb.block_size := by
    rw [← Nat.succ_mul]
    exact Nat.mul_le_mul_right _ hblock
  have hfits := hdev.fits
  have hpos := hdev.block_size_pos
  have haddressed := hdev.addressed
  have hoffset : wrapping_mul block sb.block_size = block * sb.block_size := Nat.mod_eq_of_lt (by omega)
  have hread := read_block_eq cap known fs block
  subst hsb
  unfold block_bytes at hread
  rw [hoffset, if_pos ⟨hblock, by omega⟩] at hread
  rcases hread with ⟨child, hchild, fs', hsame, hrun⟩ | ⟨hnone, -⟩
  · cases hchild
    exact ⟨fs', hsame, hrun⟩
  · cases hnone

/-- The places in the blocks of pointers, as the loop works them out. -/
def digits (per_block : Nat) : Nat → Nat → List Nat
  | 0, _ => []
  | level + 1, idx => idx / per_block ^ level :: digits per_block level (idx % per_block ^ level)

theorem digits_one (per_block idx : Nat) : digits per_block 1 idx = [idx] := by
  simp [digits]

theorem digits_two (per_block idx : Nat) : digits per_block 2 idx = [idx / per_block, idx % per_block] := by
  simp [digits]

theorem digits_three (per_block idx : Nat) :
    digits per_block 3 idx = [idx / per_block ^ 2, idx / per_block % per_block, idx % per_block] := by
  have hmiddle : idx % per_block ^ 2 / per_block = idx / per_block % per_block := by
    rw [pow_two, Nat.mod_mul_right_div_self]
  have hlast : idx % per_block ^ 2 % per_block = idx % per_block := by
    rw [pow_two, Nat.mod_mul_right_mod]
  simp [digits, hmiddle, hlast]

theorem walk_indirect_run (hdev : OnDevice sb cap) (depth : Nat) : ∀ (fs : Mount Disk) (ptr idx : Nat),
    fs.sb = sb → fs.io.state = m → PointersOk sb m depth ptr → idx < (sb.block_size / 4) ^ depth →
    ∃ fs', fs.Same fs' ∧
      walk_indirect (memory cap known) (sb.block_size / 4) depth ptr idx fs =
        .ok (follow_pointers sb m ptr (digits (sb.block_size / 4) depth idx)) fs' ∧
      ∀ p, follow_pointers sb m ptr (digits (sb.block_size / 4) depth idx) = some p → p < sb.blocks_count := by
  induction depth with
  | zero =>
    intro fs ptr idx _ _ hok _
    refine ⟨fs, .refl fs, rfl, ?_⟩
    rintro p ⟨⟩
    exact hok
  | succ depth ih =>
    intro fs ptr idx hsb hm hok hidx
    obtain ⟨fs', hsame, hread⟩ := @read_block_run _ known _ hdev fs hsb _ hok.1
    have hdigit : idx / (sb.block_size / 4) ^ depth < sb.block_size / 4 := by
      apply Nat.div_lt_of_lt_mul
      rw [← Nat.pow_succ]
      exact hidx
    have hpos : 0 < (sb.block_size / 4) ^ depth := Nat.pow_pos (Nat.zero_lt_of_lt hdigit)
    have hstep : walk_indirect (memory cap known) (sb.block_size / 4) (depth + 1) ptr idx fs =
        ((direct (load m (ptr * sb.block_size) sb.block_size) (idx / (sb.block_size / 4) ^ depth)).elim
          (pure none) fun next =>
            walk_indirect (memory cap known) (sb.block_size / 4) depth next
              (idx % (sb.block_size / 4) ^ depth)) fs' := by
      subst hsb hm
      simp only [walk_indirect, bind, EStateM.bind, get, getThe, MonadStateOf.get, EStateM.get, hread]
      cases direct (load fs.io.state (ptr * fs.sb.block_size) fs.sb.block_size)
        (idx / (fs.sb.block_size / 4) ^ depth) with
      | none => rfl
      | some next => rfl
    rw [hstep, digits, follow_pointers]
    cases hnext : direct (load m (ptr * sb.block_size) sb.block_size) (idx / (sb.block_size / 4) ^ depth) with
    | none =>
      refine ⟨fs', hsame, rfl, ?_⟩
      rintro p ⟨⟩
    | some next =>
      obtain ⟨fs'', hsame', hrun, hlt⟩ := ih fs' next (idx % (sb.block_size / 4) ^ depth)
        (hsame.sb.trans hsb) (hsame.state.trans hm) (hok.2 _ hdigit next hnext) (Nat.mod_lt _ hpos)
      exact ⟨fs'', hsame.trans hsame', hrun, hlt⟩

theorem map_slot_run (hdev : OnDevice sb cap) {inode : Inode} {depth slot idx : Nat} (fs : Mount Disk)
    (hsb : fs.sb = sb) (hm : fs.io.state = m)
    (hok : ∀ ptr, direct inode.block_area slot = some ptr → PointersOk sb m depth ptr)
    (hidx : idx < (sb.block_size / 4) ^ depth) :
    ∃ fs', fs.Same fs' ∧ map_slot (memory cap known) inode (sb.block_size / 4) depth slot idx fs =
      .ok ((direct inode.block_area slot).bind fun ptr =>
        follow_pointers sb m ptr (digits (sb.block_size / 4) depth idx)) fs' ∧
      ∀ p, ((direct inode.block_area slot).bind fun ptr =>
        follow_pointers sb m ptr (digits (sb.block_size / 4) depth idx)) = some p → p < sb.blocks_count := by
  unfold map_slot
  cases hptr : direct inode.block_area slot with
  | none =>
    refine ⟨fs, .refl fs, rfl, ?_⟩
    rintro p ⟨⟩
  | some ptr => exact walk_indirect_run hdev depth fs ptr idx hsb hm (hok ptr hptr) hidx

theorem map_via_indirect_run (hdev : OnDevice sb cap) {inode : Inode} (fs : Mount Disk) (hsb : fs.sb = sb)
    (hm : fs.io.state = m)
    (hdirect : ∀ slot < 12, ∀ ptr, direct inode.block_area slot = some ptr → PointersOk sb m 0 ptr)
    (hindirect : ∀ depth < 3, ∀ ptr, direct inode.block_area (12 + depth) = some ptr →
      PointersOk sb m (depth + 1) ptr) (l : Nat) :
    ∃ fs', fs.Same fs' ∧ map_via_indirect (memory cap known) inode l fs =
      .ok (indirect_lookup sb m inode l) fs' ∧
      ∀ p, indirect_lookup sb m inode l = some p → p < sb.blocks_count := by
  have hrun : map_via_indirect (memory cap known) inode l fs =
      (if l < 12 then (pure (direct inode.block_area l) : FsM Disk (Option Nat))
      else if l - 12 < sb.block_size / 4 then
        map_slot (memory cap known) inode (sb.block_size / 4) 1 12 (l - 12)
      else if l - 12 - sb.block_size / 4 < (sb.block_size / 4) ^ 2 then
        map_slot (memory cap known) inode (sb.block_size / 4) 2 13 (l - 12 - sb.block_size / 4)
      else if l - 12 - sb.block_size / 4 - (sb.block_size / 4) ^ 2 < (sb.block_size / 4) ^ 3 then
        map_slot (memory cap known) inode (sb.block_size / 4) 3 14
          (l - 12 - sb.block_size / 4 - (sb.block_size / 4) ^ 2)
      else pure none) fs := by
    subst hsb
    rfl
  rw [hrun]
  unfold indirect_lookup indirect_path
  by_cases h12 : l < 12
  · rw [if_pos h12, if_pos h12]
    refine ⟨fs, .refl fs, ?_, ?_⟩
    · cases hptr : direct inode.block_area l with
      | none => simp [hptr, pure, EStateM.pure]
      | some ptr => simp [hptr, follow_pointers, pure, EStateM.pure]
    · intro p hp
      simp only [Option.bind_some, follow_pointers, Option.bind_eq_some_iff, Option.some.injEq] at hp
      obtain ⟨ptr, hptr, rfl⟩ := hp
      exact hdirect l h12 ptr hptr
  rw [if_neg h12, if_neg h12]
  by_cases h1 : l - 12 < sb.block_size / 4
  · rw [if_pos h1, if_pos (c := l < 12 + sb.block_size / 4) (by omega), ← digits_one]
    exact map_slot_run hdev fs hsb hm (hindirect 0 (by omega)) (by rwa [Nat.pow_one])
  rw [if_neg h1, if_neg (c := l < 12 + sb.block_size / 4) (by omega)]
  by_cases h2 : l - 12 - sb.block_size / 4 < (sb.block_size / 4) ^ 2
  · rw [if_pos h2, if_pos (c := l < 12 + sb.block_size / 4 + (sb.block_size / 4) ^ 2) (by omega), ← digits_two]
    exact map_slot_run hdev fs hsb hm (hindirect 1 (by omega)) h2
  rw [if_neg h2, if_neg (c := l < 12 + sb.block_size / 4 + (sb.block_size / 4) ^ 2) (by omega)]
  by_cases h3 : l - 12 - sb.block_size / 4 - (sb.block_size / 4) ^ 2 < (sb.block_size / 4) ^ 3
  · rw [if_pos h3,
      if_pos (c := l < 12 + sb.block_size / 4 + (sb.block_size / 4) ^ 2 + (sb.block_size / 4) ^ 3) (by omega)]
    simp only
    rw [← digits_three]
    exact map_slot_run hdev fs hsb hm (hindirect 2 (by omega)) h3
  · rw [if_neg h3,
      if_neg (c := l < 12 + sb.block_size / 4 + (sb.block_size / 4) ^ 2 + (sb.block_size / 4) ^ 3) (by omega)]
    refine ⟨fs, .refl fs, rfl, ?_⟩
    rintro p ⟨⟩

/-! ## Runs of a valid file -/

theorem map_run_good (hdev : OnDevice sb cap) {inode : Inode} {map : Nat → Option Nat}
    (hmap : MapsTo sb cap m inode map) :
    ∃ fuel, ∀ (fs : Mount Disk) (l : Nat), fs.sb = sb → fs.io.state = m → Indexed inode l →
      ∃ phys run fs', fs.Same fs' ∧
        map_run (memory cap known) fuel inode l fs = .ok (phys, run) fs' ∧
        GoodRun sb.blocks_count map l phys run := by
  cases hmap with
  | @extents depth exts huses htree hord hbelow =>
    refine ⟨depth + 1, fun fs l hsb hm hindexed => ?_⟩
    have hstart : depth = 0 ∨ ∃ e ∈ exts.head?, e.block ≤ l := by
      cases depth with
      | zero => exact .inl rfl
      | succ depth =>
        right
        obtain ⟨e, he, hkey⟩ := htree.first_key
        refine ⟨e, he, ?_⟩
        have hheader : inode.block_area.get 6 2 = depth + 1 := htree.1.depth
        rcases hindexed with h | h | h
        · rw [huses] at h
          cases h
        · omega
        · omega
    have htree' : TreeAt fs.sb cap fs.io.state depth inode.block_area exts := by
      rw [hsb, hm]
      exact htree
    obtain ⟨phys, run, fs', hrun, hsame, hrunAt⟩ :=
      @map_run_extents_runAt _ known _ depth (depth + 1) fs inode.block_area exts htree' hord hstart
        (Nat.lt_succ_self depth)
    refine ⟨phys, run, fs', hsame, ?_, ?_⟩
    · unfold map_run
      rw [if_pos huses, hrun]
    · refine ⟨hrunAt.pos, hrunAt.le_bound htree.stop_le (by decide), hrunAt.maps, ?_⟩
      rintro p rfl
      exact hrunAt.below hbelow
  | indirect huses hdirect hindirect =>
    refine ⟨0, fun fs l hsb hm _ => ?_⟩
    obtain ⟨fs', hsame, hrun, hlt⟩ := @map_via_indirect_run _ known _ _ hdev _ fs hsb hm hdirect hindirect l
    refine ⟨indirect_lookup sb m inode l, 1, fs', hsame, ?_, ?_⟩
    · unfold map_run
      rw [if_neg (by rw [huses]; exact Bool.false_ne_true)]
      simp only [bind, EStateM.bind, hrun]
      rfl
    · refine ⟨Nat.one_pos, by decide, ?_, ?_⟩
      · intro j hj
        obtain rfl : j = 0 := by omega
        simp
      · intro p hp
        have hp' := hlt p hp
        omega

theorem content_add (map : Nat → Option Nat) (pos n k : Nat) :
    content sb m map pos (n + k) = content sb m map pos n ++ content sb m map (pos + n) k := by
  unfold content
  rw [List.range_add, List.map_append, List.map_map]
  congr 1
  apply List.map_congr_left
  intro i _
  simp only [Function.comp, Nat.add_assoc]

theorem content_byte_run (hbs : 0 < sb.block_size) {map : Nat → Option Nat} {pos : Nat}
    {phys : Option Nat} {run limit : Nat}
    (hrun : GoodRun limit map (pos / sb.block_size) phys run) {i : Nat}
    (hi : pos % sb.block_size + i < run * sb.block_size) :
    content_byte sb m map (pos + i) =
      (phys.map fun p => m (p * sb.block_size + pos % sb.block_size + i)).getD 0 := by
  have hdiv : (pos + i) / sb.block_size = pos / sb.block_size + (pos % sb.block_size + i) / sb.block_size := by
    conv_lhs => rw [← Nat.div_add_mod pos sb.block_size, Nat.add_assoc, Nat.mul_add_div hbs]
  have hmod : (pos + i) % sb.block_size = (pos % sb.block_size + i) % sb.block_size := by
    rw [Nat.mod_add_mod]
  have hsplit := Nat.div_add_mod (pos % sb.block_size + i) sb.block_size
  rw [content_byte, hdiv, hmod, hrun.maps _ (Nat.div_lt_of_lt_mul (by rwa [Nat.mul_comm]))]
  cases phys with
  | none => rfl
  | some p =>
    simp only [Option.map_some, Option.getD_some]
    congr 1
    rw [Nat.add_mul, Nat.mul_comm ((pos % sb.block_size + i) / sb.block_size)]
    omega

theorem content_run (hbs : 0 < sb.block_size) {map : Nat → Option Nat} {pos : Nat} {phys : Option Nat}
    {run limit take : Nat} (hrun : GoodRun limit map (pos / sb.block_size) phys run)
    (htake : take ≤ run * sb.block_size - pos % sb.block_size) :
    content sb m map pos take = (phys.map fun p =>
      load m (p * sb.block_size + pos % sb.block_size) take).getD (List.replicate take 0) := by
  have hbytes : content sb m map pos take = (List.range take).map fun i =>
      (phys.map fun p => m (p * sb.block_size + pos % sb.block_size + i)).getD 0 := by
    apply List.map_congr_left
    intro i hi
    have hlt := List.mem_range.mp hi
    exact content_byte_run hbs hrun (by omega)
  rw [hbytes]
  cases phys with
  | none => simp
  | some p => rfl

theorem Indexed.mono {inode : Inode} {l l' : Nat} (h : Indexed inode l) (hle : l ≤ l') : Indexed inode l' := by
  rcases h with h | h | h
  · exact .inl h
  · exact .inr (.inl h)
  · exact .inr (.inr (h.trans hle))

/-- The part of a round of the loop that fills the buffer. -/
def read_run {σ : Type} (d : WriteAt σ) (sb : Superblock) (phys : Option Nat) (run within take : Nat) :
    FsM σ Bytes :=
  match phys with
  | none => pure (List.replicate take 0)
  | some start => do
    if (checked_add start run).all fun stop => stop > sb.blocks_count then
      fail (.CorruptFs "block pointer past end of filesystem")
    read_at d (wrapping_add (wrapping_mul start sb.block_size) within) take

theorem read_run_run (hdev : OnDevice sb cap) {map : Nat → Option Nat} {pos : Nat} {phys : Option Nat}
    {run take : Nat} (hrun : GoodRun sb.blocks_count map (pos / sb.block_size) phys run) (fs : Mount Disk)
    (hm : fs.io.state = m) (htake : take ≤ run * sb.block_size - pos % sb.block_size) (hpos : 0 < take) :
    ∃ fs', fs.Same fs' ∧ read_run (memory cap known) sb phys run (pos % sb.block_size) take fs =
      .ok (content sb m map pos take) fs' := by
  rw [content_run hdev.block_size_pos hrun htake]
  cases phys with
  | none => exact ⟨fs, .refl fs, rfl⟩
  | some start =>
    have hbelow := hrun.below start rfl
    have hbs := hdev.block_size_pos
    have hfits := hdev.fits
    have haddressed := hdev.addressed
    have hend : (start + run) * sb.block_size ≤ sb.blocks_count * sb.block_size := Nat.mul_le_mul_right _ hbelow
    rw [Nat.add_mul] at hend
    have hcount : sb.blocks_count * 1024 ≤ sb.blocks_count * sb.block_size :=
      Nat.mul_le_mul_left _ hdev.le_block_size
    have hrun_pos := hrun.pos
    have hsum : checked_add start run = some (start + run) := by
      apply if_pos
      unfold size at haddressed ⊢
      omega
    have hoffset : wrapping_add (wrapping_mul start sb.block_size) (pos % sb.block_size) =
        start * sb.block_size + pos % sb.block_size := by
      unfold wrapping_add wrapping_mul
      rw [Nat.mod_eq_of_lt (a := start * sb.block_size) (by omega), Nat.mod_eq_of_lt (by omega)]
    have hread := @read_at_of_le cap known fs (start * sb.block_size + pos % sb.block_size) take (by omega)
    refine ⟨fs.logged (.read (start * sb.block_size + pos % sb.block_size) take), ⟨rfl, rfl, rfl⟩, ?_⟩
    simp only [read_run, hsum, hoffset, Option.all_some, decide_eq_true_eq]
    rw [if_neg (by omega), hread, hm]
    rfl

theorem read_runs_run (hdev : OnDevice sb cap) {inode : Inode} {map : Nat → Option Nat} {fuel : Nat}
    (hgood : ∀ (fs : Mount Disk) (l : Nat), fs.sb = sb → fs.io.state = m → Indexed inode l →
      ∃ phys run fs', fs.Same fs' ∧
        map_run (memory cap known) fuel inode l fs = .ok (phys, run) fs' ∧
        GoodRun sb.blocks_count map l phys run) (n : Nat) :
    ∀ (fs : Mount Disk) (pos want : Nat), fs.sb = sb → fs.io.state = m → want ≤ n →
      (want = 0 ∨ Indexed inode (pos / sb.block_size)) →
      ∃ fs', read_runs (memory cap known) fuel inode n pos want fs = .ok (content sb m map pos want) fs' := by
  induction n with
  | zero =>
    intro fs pos want _ _ hwant _
    obtain rfl : want = 0 := by omega
    exact ⟨fs, rfl⟩
  | succ n ih =>
    intro fs pos want hsb hm hwant hindexed
    by_cases hzero : want = 0
    · subst hzero
      exact ⟨fs, rfl⟩
    have hstart := hindexed.resolve_left hzero
    obtain ⟨phys, run, fs', hsame, hrun, hgoodRun⟩ := hgood fs _ hsb hm hstart
    have hbs := hdev.block_size_pos
    have hwithin := Nat.mod_lt pos hbs
    have hrun_pos := hgoodRun.pos
    have hone : sb.block_size ≤ run * sb.block_size := Nat.le_mul_of_pos_left _ hrun_pos
    have hlarge : run * sb.block_size ≤ 2 ^ 33 * 65536 := Nat.mul_le_mul hgoodRun.le hdev.block_size_le
    have hsat : min (run * sb.block_size) (size - 1) = run * sb.block_size := by
      unfold size
      omega
    let take := min (run * sb.block_size - pos % sb.block_size) want
    have htake : 0 < take := by omega
    obtain ⟨fs'', hsame', hhead⟩ := @read_run_run _ known _ _ hdev _ _ _ _ _ hgoodRun fs'
      (hsame.state.trans hm) (Nat.min_le_left _ want) htake
    have hrest : want - take = 0 ∨ Indexed inode ((pos + take) / sb.block_size) :=
      .inr (hstart.mono (Nat.div_le_div_right (Nat.le_add_right pos take)))
    obtain ⟨s, htail⟩ := ih fs'' (pos + take) (want - take) ((hsame'.sb.trans hsame.sb).trans hsb)
      ((hsame'.state.trans hsame.state).trans hm) (by omega) hrest
    refine ⟨s, ?_⟩
    have hstep : read_runs (memory cap known) fuel inode (n + 1) pos want fs =
        (do
          let head ← read_run (memory cap known) sb phys run (pos % sb.block_size) take
          return head ++ (← read_runs (memory cap known) fuel inode n (pos + take) (want - take))
          : FsM Disk Bytes) fs' := by
      subst hsb
      rw [read_runs, if_neg hzero]
      simp only [bind, EStateM.bind, get, getThe, MonadStateOf.get, EStateM.get, hrun, hsat]
      cases phys with
      | none => rfl
      | some p =>
        unfold read_run
        simp only
        split
        · rfl
        · rfl
    have hwant' : take + (want - take) = want := by omega
    change read_run (memory cap known) sb phys run (pos % sb.block_size) take fs' =
      .ok (content sb m map pos take) fs'' at hhead
    rw [hstep]
    simp only [bind, EStateM.bind, hhead, htail, pure, EStateM.pure]
    rw [← content_add, hwant']

/-! ## The whole read -/

theorem read_inode_data_at_of_pos (d : WriteAt Disk) (fuel : Nat) {inode : Inode} {offset len : Nat}
    (hinline : inode.is_inline = false) (hpos : min len (inode.size - offset) ≠ 0) :
    read_inode_data_at d fuel inode offset len =
      read_runs d fuel inode (min len (inode.size - offset)) offset (min len (inode.size - offset)) := by
  unfold read_inode_data_at
  rw [if_neg (by omega), if_neg hpos, if_neg (by rw [hinline]; exact Bool.false_ne_true)]

theorem read_inode_data_at_of_zero (d : WriteAt Disk) (fuel : Nat) {inode : Inode} {offset len : Nat}
    (hzero : min len (inode.size - offset) = 0) :
    read_inode_data_at d fuel inode offset len = pure [] := by
  unfold read_inode_data_at
  split
  · rfl
  · rw [if_pos hzero]

theorem read_runs_in_front {inode : Inode} {map : Nat → Option Nat} (hmap : MapsTo sb cap m inode map)
    {pos : Nat} (h : ¬ Indexed inode (pos / sb.block_size)) (fuel n want : Nat) (hwant : want ≠ 0)
    (fs : Mount Disk) (hsb : fs.sb = sb) (b : Bytes) (s : Mount Disk) :
    read_runs (memory cap known) fuel inode (n + 1) pos want fs ≠ .ok b s := by
  simp only [Indexed, not_or, Bool.not_eq_false, Nat.not_le] at h
  obtain ⟨huses, hdepth, hkey⟩ := h
  cases hmap with
  | indirect hnot => exact absurd (huses.symm.trans hnot) (by decide)
  | @extents depth exts _ htree =>
    cases depth with
    | zero => exact absurd htree.1.depth hdepth
    | succ depth =>
      intro hrun
      rw [read_runs, if_neg hwant] at hrun
      obtain ⟨fs', s', hget, hrun⟩ := Run.bind_ok.mp hrun
      obtain ⟨r, s'', hmap, -⟩ := Run.bind_ok.mp hrun
      cases hget
      unfold map_run at hmap
      rw [if_pos huses, hsb] at hmap
      exact map_run_extents_in_front htree hkey fuel fs r s'' hmap

/-- Reading returns what mapping every block on its own returns if and only if the range is empty or does
not begin in front of an index node in the inode. -/
theorem read_inode_data_exact (cap : Nat) (known : Bool) (fs : Mount Disk) (inode : Inode)
    (map : Nat → Option Nat) (hdev : OnDevice fs.sb cap) (hinline : inode.is_inline = false)
    (hmap : MapsTo fs.sb cap fs.io.state inode map) (offset len : Nat) :
    (∃ fuel fs', read_inode_data_at (memory cap known) fuel inode offset len fs =
      .ok (content fs.sb fs.io.state map offset (min len (inode.size - offset))) fs') ↔
    (min len (inode.size - offset) = 0 ∨ Indexed inode (offset / fs.sb.block_size)) := by
  by_cases hzero : min len (inode.size - offset) = 0
  · refine iff_of_true ⟨0, fs, ?_⟩ (.inl hzero)
    rw [read_inode_data_at_of_zero _ _ hzero, hzero]
    rfl
  constructor
  · rintro ⟨fuel, fs', hrun⟩
    by_contra h
    rw [not_or] at h
    rw [read_inode_data_at_of_pos _ _ hinline hzero] at hrun
    obtain ⟨n, hn⟩ := Nat.exists_eq_add_one.mpr (Nat.pos_of_ne_zero hzero)
    rw [hn] at hrun
    exact read_runs_in_front hmap h.2 fuel n _ (Nat.succ_ne_zero n) fs rfl _ fs' hrun
  · intro h
    obtain ⟨fuel, hgood⟩ := @map_run_good _ known _ _ hdev _ _ hmap
    obtain ⟨fs', hrun⟩ := read_runs_run hdev hgood (min len (inode.size - offset)) fs offset
      (min len (inode.size - offset)) rfl rfl (Nat.le_refl _) h
    refine ⟨fuel, fs', ?_⟩
    rw [read_inode_data_at_of_pos _ _ hinline hzero, hrun]

/-- A leaf with block 4 of a file. -/
def sparse_leaf : Bytes :=
  [0x0A, 0xF3, 1, 0, 84, 0, 0, 0, 0, 0, 0, 0, 4, 0, 0, 0, 1, 0, 0, 0, 12, 0, 0, 0]

def sparse_mount : Mount Disk :=
  { looping_mount with io := { looping_mount.io with state := store (fun _ => 0) (9 * 1024) sparse_leaf } }

/-- Its first four blocks are a hole. -/
def sparse_inode : Inode :=
  { looping_inode with
    size := 5120
    block_area := [0x0A, 0xF3, 1, 0, 4, 0, 1, 0, 0, 0, 0, 0, 4, 0, 0, 0, 9, 0, 0, 0, 0, 0, 0, 0] ++
      List.replicate 36 0 }

def sparse_map : Nat → Option Nat := Stretches.lookup [⟨4, 1, some 12⟩]

theorem sparse_device : OnDevice sparse_mount.sb 65536 := by
  constructor <;> decide +kernel

theorem sparse_mapsTo : MapsTo sparse_mount.sb 65536 sparse_mount.io.state sparse_inode sparse_map := by
  have hroot : Header sparse_inode.block_area 1 := by constructor <;> decide
  have hleaf : Header (load sparse_mount.io.state 9216 1024) 0 := by constructor <;> decide +kernel
  refine @MapsTo.extents _ _ _ _ 1 _ rfl ⟨hroot, [[⟨4, 1, some 12⟩]], rfl, by decide, by simp, ?_⟩ ?_ ?_
  · intro i part hi
    obtain rfl : i = 0 := by
      have hlt := (List.getElem?_eq_some_iff.mp hi).1
      simpa using hlt
    cases hi
    refine ⟨⟨_, rfl, by decide +kernel⟩, load sparse_mount.io.state 9216 1024, by decide +kernel, hleaf, ?_⟩
    decide +kernel
  · exact List.pairwise_singleton _ _
  · intro e he s hs
    rw [List.mem_singleton.mp he] at hs ⊢
    cases hs
    decide

theorem read_inode_data_exact_sparse :
    (∃ fuel fs', read_inode_data_at (memory 65536 true) fuel sparse_inode 4096 100 sparse_mount =
      .ok (content sparse_mount.sb sparse_mount.io.state sparse_map 4096
        (min 100 (sparse_inode.size - 4096))) fs') ↔
    (min 100 (sparse_inode.size - 4096) = 0 ∨ Indexed sparse_inode (4096 / sparse_mount.sb.block_size)) :=
  read_inode_data_exact 65536 true sparse_mount sparse_inode sparse_map sparse_device (by decide)
    sparse_mapsTo 4096 100

/-- The hole at the start of the file cannot be read. -/
theorem read_inode_data_hole_fails :
    MapsTo sparse_mount.sb 65536 sparse_mount.io.state sparse_inode sparse_map ∧
    ¬ ∃ fuel fs', read_inode_data_at (memory 65536 true) fuel sparse_inode 0 100 sparse_mount =
      .ok (content sparse_mount.sb sparse_mount.io.state sparse_map 0 (min 100 (sparse_inode.size - 0))) fs' := by
  refine ⟨sparse_mapsTo, ?_⟩
  rintro ⟨fuel, fs', hrun⟩
  rw [read_inode_data_at_of_pos _ _ (by decide) (by decide)] at hrun
  exact read_runs_in_front sparse_mapsTo (by unfold Indexed; decide) fuel 99 100 (by decide)
    _ rfl _ fs' hrun

end LuksAndroid.Ext4

import LuksAndroid.Btrfs.Alloc.Proofs

/-!
# No byte of a superblock mirror is handed out

The exclusions are computed from the chunk map, in physical space, and kept per block
group. An address that some stripe maps onto a mirror is excluded in every group that
holds it, and no operation lets go of an exclusion. So it is never free, whatever is
freed and unpinned.
-/

namespace LuksAndroid.Btrfs

open Word Spans

/-- The addresses that some stripe maps onto a superblock mirror. -/
def mirrorCells (chunk_map : ChunkMap) : Set Nat :=
  {x | ∃ physicals, chunk_map.map_all_stripes x = .ok physicals ∧
    ∃ phys ∈ physicals, ∃ sb_offset ∈ SB_OFFSETS, sb_offset ≤ phys ∧ phys < sb_offset + SB_PROTECT_LEN}

/-! ## The exclusions -/

theorem rangeCells_merge_from (last : LogicalRange) (l : List LogicalRange)
    (hsorted : (last :: l).Pairwise fun a b => a.start ≤ b.start) :
    rangeCells (last :: l) ⊆ rangeCells (merge_ranges_from last l) := by
  induction l generalizing last with
  | nil => exact subset_rfl
  | cons r l ih =>
    obtain ⟨hlast, htail⟩ := List.pairwise_cons.mp hsorted
    have hr := hlast r (by simp)
    have hrest : (l.Pairwise fun a b => a.start ≤ b.start) ∧ ∀ c ∈ l, last.start ≤ c.start :=
      ⟨(List.pairwise_cons.mp htail).2, fun c hc => hlast c (by simp [hc])⟩
    rw [merge_ranges_from]
    split
    · -- An empty range holds no address.
      rename_i hempty
      refine subset_trans ?_ (ih last (List.pairwise_cons.mpr ⟨hrest.2, hrest.1⟩))
      rw [rangeCells_cons, rangeCells_cons, rangeCells_cons, Set.Ico_eq_empty (not_lt.mpr hempty), Set.empty_union]
    · split
      · refine subset_trans ?_ (ih ⟨last.start, max last.stop r.stop⟩ (List.pairwise_cons.mpr ⟨hrest.2, hrest.1⟩))
        rw [rangeCells_cons, rangeCells_cons, rangeCells_cons, ← Set.union_assoc]
        refine Set.union_subset_union_left _ ?_
        rintro x (hx | hx)
        · exact ⟨hx.1, lt_of_lt_of_le hx.2 (le_max_left _ _)⟩
        · exact ⟨hr.trans hx.1, lt_of_lt_of_le hx.2 (le_max_right _ _)⟩
      · rw [rangeCells_cons last, rangeCells_cons last]
        exact Set.union_subset_union_right _ (ih r htail)

theorem rangeCells_merge_sorted (l : List LogicalRange) (hsorted : l.Pairwise fun a b => a.start ≤ b.start) :
    rangeCells l ⊆ rangeCells (merge_ranges_sorted l) := by
  induction l with
  | nil => exact subset_rfl
  | cons r l ih =>
    rw [merge_ranges_sorted]
    split
    · rename_i hempty
      rw [rangeCells_cons, Set.Ico_eq_empty (not_lt.mpr hempty), Set.empty_union]
      exact ih (List.pairwise_cons.mp hsorted).2
    · exact rangeCells_merge_from r l hsorted

theorem rangeCells_merge_ranges (l : List LogicalRange) : rangeCells l ⊆ rangeCells (merge_ranges l) := by
  have hsorted : (l.insertionSort fun a b => a.start ≤ b.start).Pairwise fun a b => a.start ≤ b.start :=
    List.pairwise_insertionSort _ _
  have hperm := List.perm_insertionSort (fun a b : LogicalRange => a.start ≤ b.start) l
  refine subset_trans ?_ (rangeCells_merge_sorted _ hsorted)
  rintro x ⟨r, hr, hx⟩
  exact ⟨r, hperm.mem_iff.mpr hr, hx⟩

/-- A chunk map as it is parsed, with every stripe on a boundary of 64 KiB. -/
structure ChunkMap.Aligned (m : ChunkMap) : Prop where
  words : ∀ c ∈ m.chunks, c.logical + c.length < size
  stripes : ∀ c ∈ m.chunks, ∀ s ∈ c.stripes, s.offset % SB_PROTECT_LEN = 0

/-- For a stripe that starts below a mirror, no sum of `compute_sb_exclusions` leaves the word. -/
structure ChunkMap.Unwrapped (m : ChunkMap) : Prop where
  stripes : ∀ c ∈ m.chunks, ∀ s ∈ c.stripes, ∀ sb_offset ∈ SB_OFFSETS, s.offset ≤ sb_offset →
    s.offset + c.length < size
  exclusions : ∀ c ∈ m.chunks, ∀ s ∈ c.stripes, ∀ sb_offset ∈ SB_OFFSETS, s.offset ≤ sb_offset →
    sb_offset < s.offset + c.length → c.logical + (sb_offset - s.offset) + SB_PROTECT_LEN < size

theorem map_all_stripes_ok {m : ChunkMap} {x : Nat} {physicals : List Nat} (h : m.map_all_stripes x = .ok physicals) :
    ∃ c ∈ m.chunks, c.logical ≤ x ∧ x < c.logical + c.length ∧
      ∀ phys ∈ physicals, ∃ s ∈ c.stripes, phys = s.offset + (x - c.logical) := by
  unfold ChunkMap.map_all_stripes at h
  cases hc : m.chunk_at x with
  | none => rw [hc] at h; cases h
  | some c =>
    rw [hc] at h
    have hmem : c ∈ m.chunks.takeWhile fun c => c.logical ≤ x := List.mem_of_getLast? hc
    have hle : c.logical ≤ x := by simpa using List.mem_takeWhile_imp hmem
    simp only at h
    split at h
    · cases h
    refine ⟨c, (List.takeWhile_sublist _).subset hmem, hle, by omega, ?_⟩
    intro phys hphys
    have hall := mapM_except_ok h
    obtain ⟨i, hi, rfl⟩ := List.getElem_of_mem hphys
    have hi' : i < c.stripes.length := by rw [hall.length_eq]; exact hi
    have hget := (List.forall₂_iff_get.mp hall).2 i hi' hi
    refine ⟨c.stripes.get ⟨i, hi'⟩, List.get_mem _ _, ?_⟩
    cases hadd : checked_add (c.stripes.get ⟨i, hi'⟩).offset (x - c.logical) with
    | none => rw [hadd] at hget; cases hget
    | some phys =>
      rw [hadd] at hget
      rw [← (checked_add_eq_some hadd).1]
      exact (Except.ok.inj hget).symm

theorem mirrorCells_excluded {m : ChunkMap} (ha : m.Aligned) (hu : m.Unwrapped) :
    mirrorCells m ⊆ rangeCells (compute_sb_exclusions m) := by
  refine subset_trans ?_ (rangeCells_merge_ranges _)
  rintro x ⟨physicals, hmap, phys, hphys, sb_offset, hsb, hge, hlt⟩
  obtain ⟨c, hc, hle, hend, hstripes⟩ := map_all_stripes_ok hmap
  obtain ⟨s, hs, rfl⟩ := hstripes phys hphys
  have haligned := ha.stripes c hc s hs
  have hmirror : ∀ sb ∈ SB_OFFSETS, sb % SB_PROTECT_LEN = 0 := by decide
  have hmirror := hmirror sb_offset hsb
  -- Both are multiples of 64 KiB, so a stripe does not start inside a mirror.
  have hbefore : s.offset ≤ sb_offset := by
    simp only [SB_PROTECT_LEN] at haligned hmirror hlt
    omega
  have hstripe := hu.stripes c hc s hs sb_offset hsb hbefore
  have hword := hu.exclusions c hc s hs sb_offset hsb hbefore (by omega)
  have hlogical : checked_add c.logical c.length = some (c.logical + c.length) := if_pos (ha.words c hc)
  have hphysical : checked_add s.offset c.length = some (s.offset + c.length) := if_pos hstripe
  refine ⟨⟨c.logical + (sb_offset - s.offset),
    min (c.logical + (sb_offset - s.offset) + SB_PROTECT_LEN) (c.logical + c.length)⟩, ?_, by simp only; omega,
    by simp only [SB_PROTECT_LEN] at hlt ⊢; omega⟩
  refine List.mem_flatMap.mpr ⟨c, hc, ?_⟩
  unfold chunk_exclusions
  rw [hlogical]
  refine List.mem_append_right _ (List.mem_flatMap.mpr ⟨sb_offset, hsb, List.mem_filterMap.mpr ⟨s, hs, ?_⟩⟩)
  unfold stripe_exclusion
  rw [hphysical]
  simp only
  rw [if_pos ⟨hbefore, by omega⟩, wrapping_add_of_lt hword, if_pos]
  simp only [SB_PROTECT_LEN] at hlt ⊢
  omega

/-- No range that a run hands out is mapped onto a superblock mirror, whatever was freed and unpinned before. -/
theorem no_mirror_handed_out (tree : ExtentTree) (chunk_map : ChunkMap) (m : FreeSpaceMap) (ha : chunk_map.Aligned)
    (hu : chunk_map.Unwrapped) (hclear : Disjoint tree.live (mirrorCells chunk_map))
    (hends : ∀ bg ∈ tree.block_groups, ∀ e ∈ tree.startingIn bg, e.bytenr + e.length < size)
    (hmap : from_extent_tree_and_chunk_map tree chunk_map = .ok m) (s : AllocState)
    (hreach : AllocState.Reaches AllocState.Unwrapped (tree.start m) s) (op : AllocOp) (hop : s.Unwrapped op)
    (halloc : op.allocates) (r : Span) (m' : FreeSpaceMap) (hrun : op.exec s.map = .ok r m') :
    Disjoint r.cells (mirrorCells chunk_map) := by
  have hstart : AllGuarded (mirrorCells chunk_map) m :=
    from_extent_tree_and_chunk_map_guarded (mirrorCells_excluded ha hu) hclear hends hmap
  have hs : AllGuarded (mirrorCells chunk_map) s.map := hreach.guarded hstart
  exact (AllocState.step_guarded hs hop).2 r m' hrun halloc

/-! ## One data group over the first mirror -/

/-- The group of `oneGroup`, mapped to the start of the device. -/
def firstMirror : ChunkMap := ⟨[⟨1048576, 1048576, BLOCK_GROUP_DATA, [⟨1, 0⟩]⟩]⟩

def mirrorSpace (free_ranges : List FreeRange) (used free : Nat) : FreeSpaceMap :=
  ⟨[⟨⟨1048576, 1048576, used, 256, BLOCK_GROUP_DATA⟩, [], free_ranges, [], [⟨1114112, 65536⟩], used, free⟩]⟩

theorem firstMirror_map : from_extent_tree_and_chunk_map oneGroup firstMirror =
    .ok (mirrorSpace [⟨1048576, 65536⟩, ⟨1179648, 917504⟩] 0 983040) := by decide +kernel

theorem firstMirror_aligned : firstMirror.Aligned :=
  ⟨by simp [firstMirror, size], by simp [firstMirror]⟩

theorem firstMirror_unwrapped : firstMirror.Unwrapped :=
  ⟨by decide +kernel, by decide +kernel⟩

/-- Seventeen sectors fit only past the mirror. -/
theorem no_mirror_handed_out_past : Disjoint (Span.cells ⟨1179648, 69632⟩) (mirrorCells firstMirror) := by
  have hin : allocate_in bg_holds_data 69632 4096
      (mirrorSpace [⟨1048576, 65536⟩, ⟨1179648, 917504⟩] 0 983040).block_groups = some (1179648,
        (mirrorSpace [⟨1048576, 65536⟩, ⟨1249280, 847872⟩] 69632 913408).block_groups) := by
    decide +kernel
  have hrun : (AllocOp.allocate_data 69632 4096).exec
      (oneGroup.start (mirrorSpace [⟨1048576, 65536⟩, ⟨1179648, 917504⟩] 0 983040)).map =
        .ok ⟨1179648, 69632⟩ (mirrorSpace [⟨1048576, 65536⟩, ⟨1249280, 847872⟩] 69632 913408) := by
    simp only [ExtentTree.start, AllocOp.exec, allocate_data, allocate_with, bind, EStateM.bind, get, getThe,
      MonadStateOf.get, EStateM.get, hin]
    rfl
  have hfits : (oneGroup.start (mirrorSpace [⟨1048576, 65536⟩, ⟨1179648, 917504⟩] 0 983040)).Unwrapped
      (.allocate_data 69632 4096) :=
    ⟨blockSize_sector, by simp [ExtentTree.start, mirrorSpace, size]⟩
  exact no_mirror_handed_out oneGroup firstMirror _ firstMirror_aligned firstMirror_unwrapped
    (by simp [oneGroup_live]) (by simp [oneGroup, ExtentTree.startingIn]) firstMirror_map _ .refl _ hfits trivial _ _
    hrun

/-- The request of `allocate_data_wraps`: the range that it is given runs over the mirror. -/
theorem mirror_handed_out : ¬ ∀ (tree : ExtentTree) (chunk_map : ChunkMap) (m : FreeSpaceMap), tree.WellRead →
    chunk_map.Aligned → Disjoint tree.live (mirrorCells chunk_map) →
    from_extent_tree_and_chunk_map tree chunk_map = .ok m →
    ∀ s, AllocState.Reaches AllocState.Promised (tree.start m) s → ∀ op, s.Promised op → op.allocates →
    ∀ r m', op.exec s.map = .ok r m' → Disjoint r.cells (mirrorCells chunk_map) := by
  intro h
  have hin : allocate_in bg_holds_data (2 ^ 64 - 4096) 4096
      (mirrorSpace [⟨1048576, 65536⟩, ⟨1179648, 917504⟩] 0 983040).block_groups = some (1048576,
        (mirrorSpace [⟨1044480, 69632⟩, ⟨1179648, 917504⟩] (2 ^ 64 - 4096) 987136).block_groups) := by
    decide +kernel
  have hrun : (AllocOp.allocate_data (2 ^ 64 - 4096) 4096).exec
      (oneGroup.start (mirrorSpace [⟨1048576, 65536⟩, ⟨1179648, 917504⟩] 0 983040)).map =
        .ok ⟨1048576, 2 ^ 64 - 4096⟩ (mirrorSpace [⟨1044480, 69632⟩, ⟨1179648, 917504⟩] (2 ^ 64 - 4096) 987136) := by
    simp only [ExtentTree.start, AllocOp.exec, allocate_data, allocate_with, bind, EStateM.bind, get, getThe,
      MonadStateOf.get, EStateM.get, hin]
    rfl
  have hclear := h oneGroup firstMirror _ oneGroup_wellRead firstMirror_aligned (by simp [oneGroup_live])
    firstMirror_map _ .refl (.allocate_data (2 ^ 64 - 4096) 4096) ⟨by simp [size], blockSize_sector⟩ trivial _ _ hrun
  have hmirror : 1114112 ∈ mirrorCells firstMirror :=
    ⟨[65536], by decide +kernel, 65536, by simp, 65536, by decide, by decide, by decide⟩
  exact Set.disjoint_left.mp hclear (by simp [Span.cells]) hmirror

end LuksAndroid.Btrfs

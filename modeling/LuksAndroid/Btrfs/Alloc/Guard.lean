import LuksAndroid.Btrfs.Alloc.Build

/-!
# Exclusions stay

An address that was excluded while it was free, or excluded already, is in the excluded list of its
group, and no operation lets go of it. So it is never free again, whatever is freed and unpinned.
-/

namespace LuksAndroid.Btrfs

open Word Spans

theorem rangeCells_cons (r : LogicalRange) (l : List LogicalRange) :
    rangeCells (r :: l) = Set.Ico r.start r.stop ∪ rangeCells l := by
  ext x
  simp [rangeCells]

/-! ## One group -/

/-- The addresses of `S` are excluded in the group, and none is free. What is pinned may be anything in the group. -/
structure Guarded (S : Set Nat) (bg : BlockGroupFreeSpace) : Prop where
  fits : bg.block_group.stop < size
  free_in : Within bg.block_group.start bg.block_group.stop bg.free_ranges
  pinned_in : Within bg.block_group.start bg.block_group.stop bg.pinned_freed
  excluded : S ∩ bg.block_group.cells ⊆ covers bg.excluded_ranges
  clear : Disjoint (covers bg.free_ranges) S

theorem Within.mergeFrom {lo hi : Nat} (last : Span) (l : List Span) (h : Within lo hi (last :: l)) :
    Within lo hi (mergeFrom last l) := by
  induction l generalizing last with
  | nil => exact h
  | cons r l ih =>
    have hlast := h last (by simp)
    have hr := h r (by simp)
    have hl : ∀ c ∈ l, lo ≤ c.start ∧ c.stop ≤ hi := fun c hc => h c (by simp [hc])
    rw [Spans.mergeFrom]
    split
    · apply ih
      intro c hc
      rcases List.mem_cons.mp hc with rfl | hc
      · simp only [Span.stop] at hlast hr ⊢
        omega
      · exact hl c hc
    · intro c hc
      rcases List.mem_cons.mp hc with rfl | hc
      · exact hlast
      · exact ih r (fun d hd => h d (by simp only [List.mem_cons] at hd ⊢; exact Or.inr hd)) c hc

theorem Within.merge {lo hi : Nat} {l : List Span} (h : Within lo hi l) :
    Within lo hi (merge (l.insertionSort byStart)) := by
  have hsort : Within lo hi (l.insertionSort byStart) :=
    fun r hr => h r ((List.perm_insertionSort _ _).mem_iff.mp hr)
  generalize l.insertionSort byStart = l' at hsort
  cases l' with
  | nil => exact hsort
  | cons r l' => exact Within.mergeFrom r l' hsort

theorem Within.subtract {lo hi : Nat} {l : List Span} (h : Within lo hi l) (a b : Nat) :
    Within lo hi (subtract l a b) := by
  intro c hc
  obtain ⟨r, hr, hc⟩ := List.mem_flatMap.mp hc
  have hr' := h r hr
  split at hc
  · rw [List.mem_singleton.mp hc]
    exact hr'
  · have := cut_within (by omega) (by omega) c hc
    omega

theorem Within.merge_adjacent {lo hi : Nat} {l : List FreeRange} (h : Within lo hi l) :
    Within lo hi (merge_adjacent l) := by
  cases l with
  | nil => exact h
  | cons last l =>
    change Within lo hi (merge_adjacent_from last l)
    induction l generalizing last with
    | nil => exact h
    | cons r l ih =>
      have hlast := h last (by simp)
      have hr := h r (by simp)
      rw [merge_adjacent_from]
      split
      · apply ih
        intro c hc
        rcases List.mem_cons.mp hc with rfl | hc
        · simp only [Span.stop] at hlast hr ⊢
          omega
        · exact h c (by simp [hc])
      · intro c hc
        rcases List.mem_cons.mp hc with rfl | hc
        · exact hlast
        · exact ih r (fun d hd => h d (by simp only [List.mem_cons] at hd ⊢; exact Or.inr hd)) c hc

/-- Every group is guarded. -/
def AllGuarded (S : Set Nat) (m : FreeSpaceMap) : Prop := ∀ bg ∈ m.block_groups, Guarded S bg

namespace Guarded

variable {S : Set Nat} {bg : BlockGroupFreeSpace}

theorem stop_lt (h : Guarded S bg) : ∀ r ∈ bg.free_ranges, r.stop < size :=
  fun r hr => lt_of_le_of_lt (h.free_in r hr).2 h.fits

theorem cut_out (h : Guarded S bg) {lp lq : List FreeRange} {r : FreeRange} {b n : Nat}
    (hl : bg.free_ranges = lp ++ r :: lq) (hb : r.start ≤ b) (hn : b + n ≤ r.stop) :
    Guarded S (count_allocated bg (lp ++ cut r b (b + n) ++ lq) n) ∧ Disjoint (Set.Ico b (b + n)) S := by
  have hin := h.free_in
  have hclear := h.clear
  rw [hl] at hin hclear
  have hr := hin r (by simp)
  have hcut := cut_within (a := b) (b := b + n) (r := r) (by omega) (by omega)
  refine ⟨⟨h.fits, ?_, h.pinned_in, h.excluded, ?_⟩, ?_⟩
  · intro c hc
    simp only [count_allocated, List.mem_append] at hc
    rcases hc with (hc | hc) | hc
    · exact hin c (by simp [hc])
    · have := hcut c hc
      exact ⟨hr.1.trans this.1, this.2.trans hr.2⟩
    · exact hin c (by simp [hc])
  · refine hclear.mono_left ?_
    simp only [count_allocated, covers_append, covers_cons]
    rw [covers_cut (by omega) (by omega), Set.union_assoc]
    exact Set.union_subset_union_right _ (Set.union_subset_union_left _ Set.sdiff_subset)
  · refine hclear.mono_left ?_
    intro x hx
    exact ⟨r, by simp, hb.trans hx.1, lt_of_lt_of_le hx.2 hn⟩

theorem pin (h : Guarded S bg) {b n : Nat} (hb : bg.block_group.start ≤ b) (hn : b + n ≤ bg.block_group.stop) :
    Guarded S (pinGroup bg b n) where
  fits := h.fits
  free_in := h.free_in
  excluded := h.excluded
  clear := h.clear
  pinned_in := by
    apply Within.merge_adjacent
    intro c hc
    rcases List.mem_append.mp hc with hc | hc
    · exact h.pinned_in c ((List.takeWhile_sublist _).subset hc)
    · rcases List.mem_cons.mp hc with rfl | hc
      · exact ⟨hb, hn⟩
      · exact h.pinned_in c ((List.dropWhile_sublist _).subset hc)

theorem unpin (h : Guarded S bg) : Guarded S (unpin_group bg) := by
  unfold unpin_group
  split
  · exact h
  have hall : Within bg.block_group.start bg.block_group.stop (bg.free_ranges ++ bg.pinned_freed) := by
    intro r hr
    rcases List.mem_append.mp hr with hr | hr
    · exact h.free_in r hr
    · exact h.pinned_in r hr
  have hin : Within bg.block_group.start bg.block_group.stop (bg.excluded_ranges.foldl subtract_excluded
      (merge ((bg.free_ranges ++ bg.pinned_freed).insertionSort byStart))) := by
    have hmerge := Within.merge hall
    generalize merge ((bg.free_ranges ++ bg.pinned_freed).insertionSort byStart) = l at hmerge
    generalize bg.excluded_ranges = excl
    induction excl generalizing l with
    | nil => exact hmerge
    | cons e excl ih => exact ih _ (Within.subtract hmerge e.start e.stop)
  refine ⟨h.fits, hin, by simp [Within], h.excluded, ?_⟩
  rw [Set.disjoint_left]
  intro x hx hS
  have hcell : x ∈ bg.block_group.cells := Within.covers_subset hin hx
  rw [covers_foldl_subtract] at hx
  exact hx.2 (h.excluded ⟨hS, hcell⟩)

end Guarded

/-! ## Excluding -/

/-- What an exclusion does to the ranges of a group that lie inside it. -/
structure Excluded (excl : LogicalRange) (bg bg' : BlockGroupFreeSpace) : Prop where
  free_in : Within bg.block_group.start bg.block_group.stop bg'.free_ranges
  free_sub : covers bg'.free_ranges ⊆ covers bg.free_ranges
  free_out : ∀ x ∈ covers bg'.free_ranges, ¬ (excl.start ≤ x ∧ x < excl.stop)
  kept : covers bg.free_ranges ∪ covers bg.excluded_ranges ⊆ covers bg'.free_ranges ∪ covers bg'.excluded_ranges
  excluded_sub : covers bg.excluded_ranges ⊆ covers bg'.excluded_ranges

theorem exclude_from_group_excluded {bg : BlockGroupFreeSpace} (hfits : bg.block_group.stop < size)
    (hin : Within bg.block_group.start bg.block_group.stop bg.free_ranges) (excl : LogicalRange) :
    Excluded excl bg (exclude_from_group excl bg) := by
  have hbg_end : saturating_add bg.block_group.start bg.block_group.length = bg.block_group.stop :=
    saturating_add_of_lt hfits
  have hcells := Within.covers_subset hin
  -- The exclusion lies outside the group, where nothing is free.
  have hsame : excl.stop ≤ bg.block_group.start ∨ excl.start ≥ bg.block_group.stop ∨
      max excl.start bg.block_group.start ≥ min excl.stop bg.block_group.stop → Excluded excl bg bg := by
    intro hout
    refine ⟨hin, subset_rfl, fun x hx hxe => ?_, subset_rfl, subset_rfl⟩
    have hx := hcells hx
    simp only [Set.mem_Ico] at hx
    omega
  unfold exclude_from_group
  simp only [hbg_end]
  split
  · exact hsame (by tauto)
  split
  · rename_i hempty
    exact hsame (Or.inr (Or.inr hempty))
  rename_i hne
  have hstop : ∀ r ∈ bg.free_ranges, r.stop < size := fun r hr => lt_of_le_of_lt (hin r hr).2 hfits
  obtain ⟨hslices, -⟩ := slices_spec hstop (not_le.mp hne)
  have hfree : bg.free_ranges.flatMap (fun r => (split_free_range (max excl.start bg.block_group.start)
      (min excl.stop bg.block_group.stop) r).1) = subtract bg.free_ranges (max excl.start bg.block_group.start)
      (min excl.stop bg.block_group.stop) :=
    List.flatMap_congr fun r hr => split_free_range_fst (hstop r hr)
  have hmerge : ∀ l : List FreeRange, covers (merge (l.insertionSort byStart)) = covers l := fun l => by
    rw [covers_merge (List.pairwise_insertionSort _ _), covers_perm (List.perm_insertionSort _ _)]
  refine ⟨?_, ?_, ?_, ?_, ?_⟩
  · simp only [hfree]
    exact Within.subtract hin _ _
  · simp only [hfree, covers_subtract]
    exact Set.sdiff_subset
  · simp only [hfree, covers_subtract]
    rintro x ⟨hx, hout⟩ hxe
    have hx := hcells hx
    simp only [Set.mem_Ico] at hx hout
    omega
  · simp only [hfree, covers_subtract, hmerge, covers_append, hslices]
    intro x hx
    simp only [Set.mem_union, Set.mem_sdiff, Set.mem_inter_iff] at hx ⊢
    tauto
  · simp only [hmerge, covers_append]
    exact Set.subset_union_left

theorem Guarded.exclude {S : Set Nat} {bg : BlockGroupFreeSpace} (h : Guarded S bg) (excl : LogicalRange) :
    Guarded S (exclude_from_group excl bg) := by
  have hex := exclude_from_group_excluded h.fits h.free_in excl
  obtain ⟨hplace, hpinned⟩ := exclude_from_group_place excl bg
  refine ⟨by rw [hplace]; exact h.fits, by rw [hplace]; exact hex.free_in, ?_, ?_, h.clear.mono_left hex.free_sub⟩
  · rw [hplace, hpinned]
    exact h.pinned_in
  · rw [hplace]
    exact h.excluded.trans hex.excluded_sub

/-- Before all exclusions are made: each address of `S` is excluded or still free, and the ranges that were excluded
hold nothing free. -/
structure Excluding (S : Set Nat) (done : List LogicalRange) (bg : BlockGroupFreeSpace) : Prop where
  fits : bg.block_group.stop < size
  free_in : Within bg.block_group.start bg.block_group.stop bg.free_ranges
  pinned_in : Within bg.block_group.start bg.block_group.stop bg.pinned_freed
  counted : S ∩ bg.block_group.cells ⊆ covers bg.free_ranges ∪ covers bg.excluded_ranges
  free_out : Disjoint (covers bg.free_ranges) (rangeCells done)

theorem Excluding.step {S : Set Nat} {done : List LogicalRange} {bg : BlockGroupFreeSpace} (h : Excluding S done bg)
    (excl : LogicalRange) : Excluding S (excl :: done) (exclude_from_group excl bg) := by
  have hex := exclude_from_group_excluded h.fits h.free_in excl
  obtain ⟨hplace, hpinned⟩ := exclude_from_group_place excl bg
  refine ⟨by rw [hplace]; exact h.fits, by rw [hplace]; exact hex.free_in, ?_, ?_, ?_⟩
  · rw [hplace, hpinned]
    exact h.pinned_in
  · rw [hplace]
    exact h.counted.trans hex.kept
  · rw [rangeCells_cons, Set.disjoint_union_right]
    exact ⟨Set.disjoint_left.mpr fun x hx hxe => hex.free_out x hx hxe, h.free_out.mono_left hex.free_sub⟩

theorem Excluding.skip {S : Set Nat} {done : List LogicalRange} {bg : BlockGroupFreeSpace} (h : Excluding S done bg)
    {excl : LogicalRange} (hempty : excl.start ≥ excl.stop) : Excluding S (excl :: done) bg := by
  refine ⟨h.fits, h.free_in, h.pinned_in, h.counted, ?_⟩
  rw [rangeCells_cons, Set.Ico_eq_empty (not_lt.mpr hempty), Set.empty_union]
  exact h.free_out

theorem exclude_ranges_excluding {S : Set Nat} (l done : List LogicalRange) (m : FreeSpaceMap)
    (h : ∀ bg ∈ m.block_groups, Excluding S done bg) :
    ∀ bg ∈ (exclude_ranges m l).block_groups, Excluding S (l.reverse ++ done) bg := by
  induction l generalizing done m with
  | nil => exact h
  | cons excl l ih =>
    rw [exclude_ranges, List.foldl_cons, List.reverse_cons, List.append_assoc]
    apply ih
    unfold exclude_range
    split
    · rename_i hempty
      exact fun bg hbg => (h bg hbg).skip hempty
    · intro bg hbg
      obtain ⟨o, ho, rfl⟩ := List.mem_map.mp hbg
      exact (h o ho).step excl

theorem Excluding.guarded {S : Set Nat} {done : List LogicalRange} {bg : BlockGroupFreeSpace} (h : Excluding S done bg)
    (hall : S ⊆ rangeCells done) : Guarded S bg := by
  have hclear : Disjoint (covers bg.free_ranges) S := h.free_out.mono_right hall
  refine ⟨h.fits, h.free_in, h.pinned_in, ?_, hclear⟩
  rintro x ⟨hx, hcell⟩
  rcases h.counted ⟨hx, hcell⟩ with hfree | hex
  · exact absurd hx (Set.disjoint_left.mp hclear hfree)
  · exact hex

/-! ## The map that the extent tree gives -/

/-- The loop over the extents, as far as no address is lost: below the cursor an address is free or in an extent. -/
structure ScanCounts (bg : BlockGroupItem) (live : Set Nat) (s : ExtentScan) : Prop where
  cursor_ge : bg.start ≤ s.cursor
  free_in : Within bg.start bg.stop s.free_ranges
  counted : Set.Ico bg.start s.cursor ⊆ covers s.free_ranges ∪ live

theorem scan_extent_counts {bg : BlockGroupItem} {live : Set Nat} {s : ExtentScan} (h : ScanCounts bg live s)
    {e : AllocatedExtent} (hend : bg.start ≤ e.bytenr → e.bytenr < bg.stop → e.bytenr + e.length < size)
    (hlive : Set.Ico e.bytenr (e.bytenr + e.length) ⊆ live) :
    ScanCounts bg live (scan_extent bg.start bg.stop s e) := by
  have hcursor := h.cursor_ge
  unfold scan_extent
  split
  · exact h
  rename_i hin
  rw [not_or, not_lt, ge_iff_le, not_le] at hin
  rw [wrapping_add_of_lt (hend hin.1 hin.2)]
  refine ⟨by simp only; omega, ?_, ?_⟩
  · intro r hr
    simp only at hr
    split at hr
    · rcases List.mem_append.mp hr with hr | hr
      · exact h.free_in r hr
      · rw [List.mem_singleton.mp hr]
        simp only [Span.stop]
        omega
    · exact h.free_in r hr
  · intro x hx
    simp only [Set.mem_Ico] at hx
    by_cases hext : e.bytenr ≤ x
    · exact Or.inr (hlive ⟨hext, hx.2⟩)
    · by_cases hlow : x < s.cursor
      · rcases h.counted ⟨hx.1, hlow⟩ with hfree | hl
        · left
          simp only
          split
          · rw [covers_append]
            exact Or.inl hfree
          · exact hfree
        · exact Or.inr hl
      · -- In the gap before the extent.
        left
        simp only
        rw [if_pos (by omega), covers_append]
        exact Or.inr ⟨_, List.mem_singleton.mpr rfl, by simp only [Span.mem_cells, Span.stop]; omega⟩

theorem block_group_free_space_counts {tree : ExtentTree} {bg : BlockGroupItem} {g : BlockGroupFreeSpace}
    (hends : ∀ e ∈ tree.startingIn bg, e.bytenr + e.length < size)
    (h : block_group_free_space tree.extents bg = .ok g) :
    g.block_group = bg ∧ Within bg.start bg.stop g.free_ranges ∧ g.pinned_freed = [] ∧
      bg.cells ⊆ covers g.free_ranges ∪ tree.live := by
  have hscan : ∀ (l : List AllocatedExtent) (s : ExtentScan), l ⊆ tree.extents → ScanCounts bg tree.live s →
      ScanCounts bg tree.live (l.foldl (scan_extent bg.start bg.stop) s) := by
    intro l
    induction l with
    | nil => exact fun s _ hs => hs
    | cons e l ih =>
      intro s hsub hs
      have he : e ∈ tree.extents := hsub (by simp)
      refine ih _ (fun x hx => hsub (by simp [hx])) (scan_extent_counts hs ?_ fun x hx => ⟨e, he, hx⟩)
      exact fun h1 h2 => hends e (by simp [ExtentTree.startingIn, he, h1, h2])
  have hs := hscan tree.extents ⟨[], [], 0, bg.start⟩ (fun _ h => h)
    ⟨le_rfl, by simp [Within], by simp⟩
  obtain ⟨-, -, -, hfree, hg⟩ := block_group_free_space_ok rfl h
  generalize tree.extents.foldl (scan_extent bg.start bg.stop) ⟨[], [], 0, bg.start⟩ = s at *
  have hcursor := hs.cursor_ge
  refine ⟨by rw [hg], ?_, by rw [hg], ?_⟩
  · intro r hr
    rw [hfree] at hr
    split at hr
    · rcases List.mem_append.mp hr with hr | hr
      · exact hs.free_in r hr
      · rw [List.mem_singleton.mp hr]
        simp only [Span.stop]
        omega
    · exact hs.free_in r hr
  · intro x hx
    simp only [BlockGroupItem.cells, Set.mem_Ico] at hx
    by_cases hlow : x < s.cursor
    · rcases hs.counted ⟨hx.1, hlow⟩ with hin | hl
      · left
        rw [hfree]
        split
        · rw [covers_append]
          exact Or.inl hin
        · exact hin
      · exact Or.inr hl
    · left
      rw [hfree, if_pos (by omega), covers_append]
      exact Or.inr ⟨_, List.mem_singleton.mpr rfl, by simp only [Span.mem_cells, Span.stop]; omega⟩

theorem from_extent_tree_and_chunk_map_guarded {tree : ExtentTree} {chunk_map : ChunkMap} {m : FreeSpaceMap}
    {S : Set Nat} (hS : S ⊆ rangeCells (compute_sb_exclusions chunk_map)) (hclear : Disjoint tree.live S)
    (hends : ∀ bg ∈ tree.block_groups, ∀ e ∈ tree.startingIn bg, e.bytenr + e.length < size)
    (h : from_extent_tree_and_chunk_map tree chunk_map = .ok m) : AllGuarded S m := by
  unfold from_extent_tree_and_chunk_map at h
  cases hmap : from_extent_tree tree with
  | error e => rw [hmap] at h; cases h
  | ok m₀ =>
    rw [hmap] at h
    cases h
    have hall := from_extent_tree_groups hmap
    have hbase : ∀ g ∈ m₀.block_groups, Excluding S [] g := by
      intro g hg
      obtain ⟨i, hi, rfl⟩ := List.getElem_of_mem hg
      have hi' : i < tree.block_groups.length := by rw [hall.length_eq]; exact hi
      have hok := (List.forall₂_iff_get.mp hall).2 i hi' hi
      have hword := (block_group_free_space_ok rfl hok).1
      obtain ⟨hplace, hin, hpinned, hcells⟩ := block_group_free_space_counts (hends _ (List.get_mem _ _)) hok
      simp only [List.get_eq_getElem] at hplace hin hpinned hcells hword
      refine ⟨by rw [hplace]; exact hword, by rw [hplace]; exact hin, by simp [hpinned, Within], ?_,
        by simp [rangeCells]⟩
      rw [hplace]
      rintro x ⟨hx, hcell⟩
      rcases hcells hcell with hfree | hlive
      · exact Or.inl hfree
      · exact absurd hx (Set.disjoint_left.mp hclear hlive)
    intro g hg
    refine (exclude_ranges_excluding _ [] m₀ hbase g hg).guarded ?_
    intro x hx
    obtain ⟨r, hr, hxr⟩ := hS hx
    exact ⟨r, by simpa using hr, hxr⟩

/-! ## Every run -/

theorem BlockSize.lt {a : Nat} (h : AllocState.BlockSize a) : ∃ k < 64, a = 2 ^ k := by
  obtain ⟨k, hk, rfl⟩ := h
  exact ⟨k, by omega, rfl⟩

namespace AllocState

/-- Alignments are block sizes, and no sum of the operation leaves the word. -/
def Unwrapped (s : AllocState) : AllocOp → Prop
  | .allocate_metadata_for_owner n _ =>
    BlockSize n ∧ ∀ bg ∈ s.map.block_groups, ∀ r ∈ bg.free_ranges, r.start + n - 1 + n < size
  | .allocate_data n a =>
    BlockSize a ∧ ∀ bg ∈ s.map.block_groups, ∀ r ∈ bg.free_ranges, r.start + a - 1 + n < size
  | .allocate_data_chunk _ a =>
    BlockSize a ∧ ∀ bg ∈ s.map.block_groups, ∀ r ∈ bg.free_ranges, r.start + a - 1 < size
  | .free_metadata bytenr n => bytenr + n < size
  | _ => True

end AllocState

namespace AllGuarded

variable {S : Set Nat} {m m' : FreeSpaceMap}

theorem stop_lt (h : AllGuarded S m) : ∀ bg ∈ m.block_groups, ∀ r ∈ bg.free_ranges, r.stop < size :=
  fun bg hbg => (h bg hbg).stop_lt

theorem replace {pre post : List BlockGroupFreeSpace} {bg bg' : BlockGroupFreeSpace} (h : AllGuarded S m)
    (hm : m.block_groups = pre ++ bg :: post) (hg : Guarded S bg') : AllGuarded S ⟨pre ++ bg' :: post⟩ := by
  intro o ho
  rcases List.mem_append.mp ho with ho | ho
  · exact h o (by simp [hm, ho])
  · rcases List.mem_cons.mp ho with rfl | ho
    · exact hg
    · exact h o (by simp [hm, ho])

theorem cut_out {b n : Nat} (h : AllGuarded S m) (hcut : CutOut m m' b n) :
    AllGuarded S m' ∧ Disjoint (Set.Ico b (b + n)) S := by
  obtain ⟨pre, bg, post, lp, r, lq, hm, hl, rfl, hb, hn⟩ := hcut
  obtain ⟨hg, hclear⟩ := (h bg (by simp [hm])).cut_out hl hb hn
  exact ⟨h.replace hm hg, hclear⟩

theorem map {f : BlockGroupFreeSpace → BlockGroupFreeSpace} (h : AllGuarded S m)
    (hf : ∀ bg, Guarded S bg → Guarded S (f bg)) : AllGuarded S ⟨m.block_groups.map f⟩ := by
  intro o ho
  obtain ⟨bg, hbg, rfl⟩ := List.mem_map.mp ho
  exact hf bg (h bg hbg)

theorem exclude_ranges (h : AllGuarded S m) (l : List LogicalRange) : AllGuarded S (exclude_ranges m l) := by
  induction l generalizing m with
  | nil => exact h
  | cons excl l ih =>
    apply ih
    unfold exclude_range
    split
    · exact h
    · exact h.map fun bg hbg => hbg.exclude excl

theorem free_metadata {gs : List BlockGroupFreeSpace} (h : AllGuarded S ⟨gs⟩) {b n : Nat} (hword : b + n < size) :
    AllGuarded S ⟨free_metadata_in_groups b n gs⟩ := by
  induction gs with
  | nil => exact h
  | cons bg gs ih =>
    have hrest : AllGuarded S ⟨gs⟩ := fun o ho => h o (by simp only [List.mem_cons] at ho ⊢; exact Or.inr ho)
    rw [free_metadata_in_groups, wrapping_add_of_lt hword]
    split
    · rename_i hin
      exact @replace _ _ [] _ _ _ h rfl ((h bg (by simp)).pin hin.1 hin.2)
    · intro o ho
      rcases List.mem_cons.mp ho with rfl | ho
      · exact h o (by simp)
      · exact ih hrest o ho

theorem pinned {b n : Nat} (h : AllGuarded S m) (hn : 0 < n) (hpin : Pinned m m' b n) : AllGuarded S m' := by
  obtain ⟨pre, bg, post, hm, rfl, hin⟩ := hpin
  have hfirst := hin ⟨le_rfl, by omega⟩
  have hlast := hin (a := b + (n - 1)) ⟨by omega, by omega⟩
  simp only [BlockGroupItem.cells, Set.mem_Ico] at hfirst hlast
  exact h.replace hm ((h bg (by simp [hm])).pin hfirst.1 (by omega))

theorem union {T : Set Nat} (hS : AllGuarded S m) (hT : AllGuarded T m) : AllGuarded (S ∪ T) m := by
  intro bg hbg
  have h := hS bg hbg
  have h' := hT bg hbg
  refine ⟨h.fits, h.free_in, h.pinned_in, ?_, Set.disjoint_union_right.mpr ⟨h.clear, h'.clear⟩⟩
  rw [Set.union_inter_distrib_right]
  exact Set.union_subset h.excluded h'.excluded

end AllGuarded

theorem AllocState.Accounts.guards {s : AllocState} (h : s.Accounts) {l : List LogicalRange}
    (hclear : Disjoint (rangeCells l) (s.live ∪ s.freed)) : AllGuarded (rangeCells l) (exclude_ranges s.map l) := by
  obtain ⟨hlive, hfreed⟩ := Set.disjoint_union_right.mp hclear
  have hbase : ∀ bg ∈ s.map.block_groups, Excluding (rangeCells l) [] bg := by
    intro bg hbg
    have hacc := h.each bg hbg
    refine ⟨h.fits hbg, hacc.free_in, hacc.pinned_in, ?_, by simp [rangeCells]⟩
    rintro x ⟨hx, hcell⟩
    have hpinned : x ∉ covers bg.pinned_freed := by
      intro hpin
      refine Set.disjoint_left.mp hfreed hx ?_
      rw [h.freed]
      exact ⟨bg, hbg, hpin⟩
    have hnot := (hacc.mem_live hcell).not.mp (Set.disjoint_left.mp hlive hx)
    simp only [hpinned, not_false_eq_true, true_and] at hnot
    rw [Set.mem_union]
    tauto
  intro bg hbg
  refine (exclude_ranges_excluding l [] s.map hbase bg hbg).guarded ?_
  rintro x ⟨r, hr, hx⟩
  exact ⟨r, by simpa using hr, hx⟩

namespace AllocState

variable {S : Set Nat} {s : AllocState}

/-- The operation keeps the groups guarded, and a range that it hands out has no address of `S`. -/
def StepGuarded (S : Set Nat) (s : AllocState) (op : AllocOp) : Prop :=
  AllGuarded S (s.step op).map ∧
    ∀ r m, op.exec s.map = .ok r m → op.allocates → Disjoint r.cells S

theorem stepGuarded_of_ok {op : AllocOp} {r : Span} {m : FreeSpaceMap} (hrun : op.exec s.map = .ok r m)
    (hm : AllGuarded S m) (hr : op.allocates → Disjoint r.cells S) : s.StepGuarded S op := by
  refine ⟨by simp only [step, hrun]; exact hm, ?_⟩
  intro r' m' hrun' halloc
  rw [hrun] at hrun'
  cases hrun'
  exact hr halloc

theorem stepGuarded_of_error (hs : AllGuarded S s.map) {op : AllocOp} {e : LuksError}
    (hrun : op.exec s.map = .error e s.map) : s.StepGuarded S op := by
  refine ⟨by simp only [step, hrun]; exact hs, ?_⟩
  intro r' m' hrun'
  rw [hrun] at hrun'
  cases hrun'

theorem stepGuarded_of_cut (hs : AllGuarded S s.map) {op : AllocOp} {b n : Nat} {m : FreeSpaceMap}
    (hrun : op.exec s.map = .ok ⟨b, n⟩ m) (hcut : CutOut s.map m b n) : s.StepGuarded S op :=
  stepGuarded_of_ok hrun (hs.cut_out hcut).1 fun _ => (hs.cut_out hcut).2

/-- Every operation keeps the groups guarded, when no sum wraps. What is freed need not have been allocated. -/
theorem step_guarded (hs : AllGuarded S s.map) {op : AllocOp} (hop : s.Unwrapped op) : s.StepGuarded S op := by
  cases op with
  | exclude_ranges l => exact stepGuarded_of_ok rfl (hs.exclude_ranges l) False.elim
  | allocate_metadata_for_owner n owner =>
    obtain ⟨k, hk, rfl⟩ := BlockSize.lt hop.1
    rcases allocate_with_cuts hs.stop_lt (metadata_match owner) hk hop.2 with ⟨b, m, hrun, hcut, -⟩ | hrun
    · refine stepGuarded_of_cut hs (b := b) (n := 2 ^ k) (m := m) ?_ hcut
      simp only [AllocOp.exec, allocate_metadata_for_owner, bind, EStateM.bind, hrun]
      rfl
    · refine stepGuarded_of_error hs (e := .FilesystemFull) ?_
      simp only [AllocOp.exec, allocate_metadata_for_owner, bind, EStateM.bind, hrun]
  | allocate_data n a =>
    obtain ⟨k, hk, rfl⟩ := BlockSize.lt hop.1
    rcases allocate_with_cuts hs.stop_lt bg_holds_data hk hop.2 with ⟨b, m, hrun, hcut, -⟩ | hrun
    · refine stepGuarded_of_cut hs (b := b) (n := n) (m := m) ?_ hcut
      simp only [AllocOp.exec, allocate_data, bind, EStateM.bind, hrun]
      rfl
    · refine stepGuarded_of_error hs (e := .FilesystemFull) ?_
      simp only [AllocOp.exec, allocate_data, bind, EStateM.bind, hrun]
  | allocate_data_chunk n a =>
    obtain ⟨k, hk, rfl⟩ := BlockSize.lt hop.1
    rcases allocate_data_chunk_cuts hs.stop_lt n hk hop.2 with ⟨b, l, m, hrun, hcut, -⟩ | hrun
    · refine stepGuarded_of_cut hs (b := b) (n := l) (m := m) ?_ hcut
      simp only [AllocOp.exec, bind, EStateM.bind, hrun]
      rfl
    · refine stepGuarded_of_error hs (e := .FilesystemFull) ?_
      simp only [AllocOp.exec, bind, EStateM.bind, hrun]
  | mark_allocated b n =>
    rcases mark_allocated_cuts hs.stop_lt b n with ⟨m, hrun, hcut⟩ | ⟨e, hrun⟩
    · have hexec : (AllocOp.mark_allocated b n).exec s.map = .ok ⟨b, n⟩ m := by
        simp only [AllocOp.exec, bind, EStateM.bind, hrun]
        rfl
      rcases hcut with ⟨rfl, rfl⟩ | hcut
      · exact stepGuarded_of_ok hexec hs fun _ => by simp [Span.cells]
      · exact stepGuarded_of_cut hs hexec hcut
    · refine stepGuarded_of_error hs (e := e) ?_
      simp only [AllocOp.exec, bind, EStateM.bind, hrun]
  | free_data b n =>
    rcases free_data_spec s.map b n with ⟨m, hrun, hpin⟩ | ⟨e, hrun⟩
    · have hexec : (AllocOp.free_data b n).exec s.map = .ok ⟨b, n⟩ m := by
        simp only [AllocOp.exec, bind, EStateM.bind, hrun]
        rfl
      rcases hpin with ⟨rfl, rfl⟩ | ⟨hn, hpin⟩
      · exact stepGuarded_of_ok hexec hs False.elim
      · exact stepGuarded_of_ok hexec (hs.pinned hn hpin) False.elim
    · refine stepGuarded_of_error hs (e := e) ?_
      simp only [AllocOp.exec, bind, EStateM.bind, hrun]
  | free_metadata b n => exact stepGuarded_of_ok rfl (AllGuarded.free_metadata hs hop) False.elim
  | unpin_freed => exact stepGuarded_of_ok rfl (hs.map fun bg hbg => hbg.unpin) False.elim

theorem Reaches.guarded {t : AllocState} (h : Reaches Unwrapped s t) (hs : AllGuarded S s.map) :
    AllGuarded S t.map := by
  induction h with
  | refl => exact hs
  | step op _ hop ih => exact (step_guarded ih hop).1

end AllocState

end LuksAndroid.Btrfs

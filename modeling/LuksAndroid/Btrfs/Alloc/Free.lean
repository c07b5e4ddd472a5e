import Mathlib
import LuksAndroid.Btrfs.Alloc.Carve

/-!
# Freeing, unpinning and excluding

A freed range is pinned until the next commit. Unpinning gives it back to the free
list. Excluding moves free bytes to the excluded list. None of these makes a byte
count twice.
-/

namespace LuksAndroid.Btrfs

open Word Spans

/-! ## Pinning -/

theorem merge_adjacent_from_spec (last : FreeRange) (l : List FreeRange)
    (h : Ordered (last :: l)) :
    Ordered (merge_adjacent_from last l) ∧
      covers (merge_adjacent_from last l) = covers (last :: l) ∧
      ∀ r ∈ merge_adjacent_from last l, last.start ≤ r.start := by
  induction l generalizing last with
  | nil => exact ⟨h, rfl, by simp [merge_adjacent_from]⟩
  | cons r l ih =>
    obtain ⟨hpos, hapart, hl⟩ := ordered_cons.mp h
    obtain ⟨hrpos, hrapart, hll⟩ := ordered_cons.mp hl
    have hr := hapart r (by simp)
    rw [merge_adjacent_from]
    split
    · -- The two touch, and the joined range takes the place of both.
      rename_i heq
      have hjoin : Ordered (⟨last.start, last.length + r.length⟩ :: l) := by
        refine ordered_cons.mpr ⟨by simp; omega, fun b hb => ?_, hll⟩
        have := hrapart b hb
        simp only [Span.stop] at this ⊢
        omega
      obtain ⟨h1, h2, h3⟩ := ih _ hjoin
      refine ⟨h1, ?_, h3⟩
      rw [h2, covers_cons, covers_cons, covers_cons, ← Set.union_assoc]
      congr 1
      ext x
      simp only [Set.mem_union, Span.mem_cells, Span.stop] at *
      omega
    · obtain ⟨h1, h2, h3⟩ := ih r hl
      refine ⟨ordered_cons.mpr ⟨hpos, fun b hb => hr.trans (h3 b hb), h1⟩, ?_, ?_⟩
      · rw [covers_cons, h2, covers_cons last]
      · intro b hb
        rcases List.mem_cons.mp hb with rfl | hb
        · exact le_refl _
        · have := h3 b hb
          simp only [Span.stop] at hr
          omega

theorem merge_adjacent_spec {l : List FreeRange} (h : Ordered l) :
    Ordered (merge_adjacent l) ∧ covers (merge_adjacent l) = covers l := by
  cases l with
  | nil => exact ⟨ordered_nil, rfl⟩
  | cons r l =>
    obtain ⟨h1, h2, -⟩ := merge_adjacent_from_spec r l h
    exact ⟨h1, h2⟩

theorem takeWhile_stop_le {l : List FreeRange} {b n : Nat} (hn : 0 < n)
    (hd : Disjoint (covers l) (Set.Ico b (b + n))) :
    ∀ r ∈ l.takeWhile (fun r => r.start < b), r.stop ≤ b := by
  intro r hr
  have hlt : r.start < b := by simpa using List.mem_takeWhile_imp hr
  by_contra hgt
  have hmem : b ∈ covers l := ⟨r, (List.takeWhile_sublist _).subset hr, by simp; omega⟩
  exact Set.disjoint_left.mp hd hmem (by simp; omega)

theorem dropWhile_le_start {l : List FreeRange} (h : Ordered l) {b n : Nat}
    (hd : Disjoint (covers l) (Set.Ico b (b + n))) :
    ∀ r ∈ l.dropWhile (fun r => r.start < b), b + n ≤ r.start := by
  induction l with
  | nil => simp
  | cons c l ih =>
    obtain ⟨hpos, hapart, hl⟩ := ordered_cons.mp h
    have hdl : Disjoint (covers l) (Set.Ico b (b + n)) :=
      hd.mono_left (by rw [covers_cons]; exact Set.subset_union_right)
    by_cases hlt : c.start < b
    · rw [List.dropWhile_cons_of_pos (by simpa using hlt)]
      exact ih hl hdl
    · rw [List.dropWhile_cons_of_neg (by simpa using hlt)]
      have hc : b + n ≤ c.start := by
        by_contra hgt
        have hmem : c.start ∈ covers (c :: l) := ⟨c, by simp, by simp [Span.stop]; omega⟩
        exact Set.disjoint_left.mp hd hmem (by simp; omega)
      intro r hr
      rcases List.mem_cons.mp hr with rfl | hr
      · exact hc
      · have := hapart r hr
        simp only [Span.stop] at this
        omega

theorem pin_spec {l : List FreeRange} (h : Ordered l) {b n : Nat} (hn : 0 < n)
    (hd : Disjoint (covers l) (Set.Ico b (b + n))) :
    Ordered (pin l b n) ∧ covers (pin l b n) = covers l ∪ Set.Ico b (b + n) := by
  have hbefore := takeWhile_stop_le hn hd
  have hafter := dropWhile_le_start h hd
  have hins : Ordered (l.takeWhile (fun r => r.start < b) ++
      ⟨b, n⟩ :: l.dropWhile (fun r => r.start < b)) := by
    rw [ordered_append, ordered_cons]
    refine ⟨h.sublist (List.takeWhile_sublist _),
      ⟨hn, hafter, h.sublist (List.dropWhile_sublist _)⟩, ?_⟩
    intro r hr c hc
    have hrb := hbefore r hr
    rcases List.mem_cons.mp hc with rfl | hc
    · exact hrb
    · have := hafter c hc; omega
  obtain ⟨h1, h2⟩ := merge_adjacent_spec hins
  refine ⟨h1, h2.trans ?_⟩
  conv_rhs => rw [← List.takeWhile_append_dropWhile (p := fun r => decide (r.start < b)) (l := l)]
  rw [covers_append, covers_cons, covers_append]
  ext x
  simp only [Set.mem_union, Span.mem_cells, Span.stop_mk, Set.mem_Ico]
  tauto

/-- The group after `[b, b + n)` is freed in it. -/
def pinGroup (bg : BlockGroupFreeSpace) (b n : Nat) : BlockGroupFreeSpace :=
  { bg with
    pinned_freed := pin bg.pinned_freed b n
    block_group := { bg.block_group with used := bg.block_group.used - n } }

/-- `m'` is `m` with the bytes `[b, b + n)` of one group pinned. -/
def Pinned (m m' : FreeSpaceMap) (b n : Nat) : Prop :=
  ∃ pre bg post, m.block_groups = pre ++ bg :: post ∧ m' = ⟨pre ++ pinGroup bg b n :: post⟩ ∧
    Set.Ico b (b + n) ⊆ bg.block_group.cells

theorem GroupAccounts.pin {live : Set Nat} {bg : BlockGroupFreeSpace} {b n : Nat}
    (h : GroupAccounts live bg) (hn : 0 < n) (hin : Set.Ico b (b + n) ⊆ bg.block_group.cells)
    (hlive : Set.Ico b (b + n) ⊆ live) :
    GroupAccounts (live \ Set.Ico b (b + n)) (pinGroup bg b n) ∧
      covers (pin bg.pinned_freed b n) = covers bg.pinned_freed ∪ Set.Ico b (b + n) := by
  have hrest : ∀ x ∈ Set.Ico b (b + n), x ∉ covers bg.free_ranges ∧
      x ∉ covers bg.pinned_freed ∧ x ∉ covers bg.excluded_ranges :=
    fun x hx => (h.mem_live (hin hx)).mp (hlive hx)
  obtain ⟨hord, hcov⟩ := pin_spec h.pinned hn
    (Set.disjoint_left.mpr fun x hx hw => (hrest x hw).2.1 hx)
  have hcap : (live \ Set.Ico b (b + n)) ∩ bg.block_group.cells =
      (live ∩ bg.block_group.cells) \ Set.Ico b (b + n) := by
    ext x; simp only [Set.mem_inter_iff, Set.mem_sdiff]; tauto
  have hused : bg.block_group.used - n = ((live \ Set.Ico b (b + n)) ∩ bg.block_group.cells).ncard := by
    have hsub : Set.Ico b (b + n) ⊆ live ∩ bg.block_group.cells := fun x hx => ⟨hlive hx, hin hx⟩
    have hsum := Set.ncard_sdiff_add_ncard_of_subset hsub (GroupAccounts.finite_live _ _)
    rw [ncard_window, ← h.used] at hsum
    rw [hcap]
    omega
  refine ⟨{
    free := h.free
    pinned := hord
    excluded := h.excluded
    free_in := h.free_in
    pinned_in := hord.within_of_covers (by rw [hcov]; exact Set.union_subset h.pinned_sub hin)
    excluded_in := h.excluded_in
    free_pinned := ?_
    free_excluded := h.free_excluded
    pinned_excluded := ?_
    live_rest := ?_
    used := hused
    total_free := h.total_free }, hcov⟩
  · change Disjoint _ (covers (Btrfs.pin bg.pinned_freed b n))
    rw [hcov, Set.disjoint_union_right]
    exact ⟨h.free_pinned, Set.disjoint_left.mpr fun x hx hw => (hrest x hw).1 hx⟩
  · change Disjoint (covers (Btrfs.pin bg.pinned_freed b n)) _
    rw [hcov, Set.disjoint_union_left]
    exact ⟨h.pinned_excluded, Set.disjoint_left.mpr fun x hw hx => (hrest x hw).2.2 hx⟩
  · change (live \ _) ∩ bg.block_group.cells = bg.block_group.cells \
      (covers bg.free_ranges ∪ covers (Btrfs.pin bg.pinned_freed b n) ∪ covers bg.excluded_ranges)
    rw [hcap, h.live_rest, hcov]
    ext x
    simp only [Set.mem_sdiff, Set.mem_union]
    tauto

theorem Pinned.accounts {s : AllocState} {m' : FreeSpaceMap} {b n : Nat} (h : s.Accounts)
    (hp : Pinned s.map m' b n) (hn : 0 < n) (hlive : Set.Ico b (b + n) ⊆ s.live) :
    AllocState.Accounts ⟨m', s.live \ Set.Ico b (b + n), s.freed ∪ Set.Ico b (b + n)⟩ := by
  obtain ⟨pre, bg, post, hm, rfl, hin⟩ := hp
  obtain ⟨hpin, hcov⟩ := (h.group hm).pin hn hin hlive
  refine h.replace hm (rfl : (pinGroup bg b n).block_group.start = _) rfl ?_ hpin ?_
  · intro x hx
    have : x ∉ Set.Ico b (b + n) := fun hw => hx (hin hw)
    simp only [Set.mem_sdiff, this, not_false_eq_true, and_true]
  · have hold : s.map.pinned = _ := (congrArg (fun l => FreeSpaceMap.pinned ⟨l⟩) hm).trans
      (FreeSpaceMap.pinned_replace pre post bg)
    rw [h.freed, hold, FreeSpaceMap.pinned_replace, pinGroup, hcov, Set.union_assoc]

/-! ## The two ways to free -/

theorem free_in_groups_spec {b n : Nat} {gs gs' : List BlockGroupFreeSpace}
    (h : free_in_groups b (b + n) n gs = .ok gs') : Pinned ⟨gs⟩ ⟨gs'⟩ b n := by
  induction gs generalizing gs' with
  | nil => simp [free_in_groups] at h
  | cons bg gs ih =>
    rw [free_in_groups] at h
    split at h
    · rename_i hin
      split at h
      · cases h
      split at h
      · cases h
      cases h
      exact ⟨[], bg, gs, rfl, rfl, Set.Ico_subset_Ico hin.1 hin.2⟩
    · cases hrest : free_in_groups b (b + n) n gs with
      | error e => rw [hrest] at h; cases h
      | ok gs₁ =>
        rw [hrest] at h
        cases h
        obtain ⟨pre, bg', post, heq, heq', hsub⟩ := ih hrest
        simp only [FreeSpaceMap.mk.injEq] at heq heq'
        exact ⟨bg :: pre, bg', post, by simp [heq], by simp [heq'], hsub⟩

theorem free_data_spec (m : FreeSpaceMap) (b n : Nat) :
    (∃ m', free_data b n m = .ok () m' ∧ ((n = 0 ∧ m' = m) ∨ (0 < n ∧ Pinned m m' b n))) ∨
    ∃ e, free_data b n m = .error e m := by
  unfold free_data
  by_cases h0 : n = 0
  · simp only [h0, if_true]
    exact Or.inl ⟨m, rfl, Or.inl ⟨trivial, rfl⟩⟩
  · simp only [h0, if_false]
    cases hadd : checked_add b n with
    | none => exact Or.inr ⟨_, rfl⟩
    | some stop =>
      obtain ⟨rfl, -⟩ := checked_add_eq_some hadd
      simp only [bind, EStateM.bind, get, getThe, MonadStateOf.get, EStateM.get]
      cases hin : free_in_groups b (b + n) n m.block_groups with
      | error e => exact Or.inr ⟨e, rfl⟩
      | ok gs => exact Or.inl ⟨⟨gs⟩, rfl, Or.inr ⟨by omega, free_in_groups_spec hin⟩⟩

theorem free_metadata_in_groups_spec {b n : Nat} {gs : List BlockGroupFreeSpace}
    (hfits : ∀ bg ∈ gs, bg.block_group.stop < size)
    (hin : ∃ bg ∈ gs, bg.block_group.start ≤ b ∧ b + n ≤ bg.block_group.stop) :
    Pinned ⟨gs⟩ ⟨free_metadata_in_groups b n gs⟩ b n := by
  induction gs with
  | nil => simp at hin
  | cons bg gs ih =>
    -- The range lies below the end of some group, so its own end is a word.
    have hword : b + n < size := by
      obtain ⟨o, ho, -, hle⟩ := hin
      exact lt_of_le_of_lt hle (hfits o ho)
    rw [free_metadata_in_groups, wrapping_add_of_lt hword]
    split
    · rename_i hhere
      exact ⟨[], bg, gs, rfl, rfl, Set.Ico_subset_Ico hhere.1 hhere.2⟩
    · rename_i hnot
      have hin' : ∃ o ∈ gs, o.block_group.start ≤ b ∧ b + n ≤ o.block_group.stop := by
        obtain ⟨o, ho, h1, h2⟩ := hin
        rcases List.mem_cons.mp ho with rfl | ho
        · exact absurd ⟨h1, h2⟩ hnot
        · exact ⟨o, ho, h1, h2⟩
      obtain ⟨pre, bg', post, heq, heq', hsub⟩ := ih (fun o ho => hfits o (by simp [ho])) hin'
      simp only [FreeSpaceMap.mk.injEq] at heq heq'
      exact ⟨bg :: pre, bg', post, by simp [heq], by simp [heq'], hsub⟩

/-! ## Changing every group at once -/

/-- A change that keeps each group's place and accounts keeps the accounts of the map. -/
theorem AllocState.Accounts.map {s : AllocState} (h : s.Accounts)
    {f : BlockGroupFreeSpace → BlockGroupFreeSpace} {freed' : Set Nat}
    (hplace : ∀ bg, (f bg).block_group = bg.block_group)
    (heach : ∀ bg ∈ s.map.block_groups, GroupAccounts s.live (f bg))
    (hfreed : freed' = FreeSpaceMap.pinned ⟨s.map.block_groups.map f⟩) :
    AllocState.Accounts ⟨⟨s.map.block_groups.map f⟩, s.live, freed'⟩ := by
  refine ⟨?_, ?_, hfreed⟩
  · have hitems : FreeSpaceMap.items ⟨s.map.block_groups.map f⟩ = s.map.items := by
      simp only [FreeSpaceMap.items, List.map_map]
      exact List.map_congr_left fun bg _ => hplace bg
    rw [hitems]
    exact h.groups
  · intro o ho
    obtain ⟨bg, hbg, rfl⟩ := List.mem_map.mp ho
    exact heach bg hbg

/-! ## Exclusions -/

theorem split_free_range_fst {e_start e_end : Nat} {r : FreeRange} (hr : r.stop < size) :
    (split_free_range e_start e_end r).1 =
      if e_end ≤ r.start ∨ r.stop ≤ e_start then [r] else cut r e_start e_end := by
  have hend : saturating_add r.start r.length = r.stop := saturating_add_of_lt hr
  simp only [split_free_range, hend, cut]
  split <;> rfl

theorem split_free_range_snd {e_start e_end : Nat} {r : FreeRange} (hr : r.stop < size)
    (he : e_start < e_end) :
    covers (split_free_range e_start e_end r).2 = r.cells ∩ Set.Ico e_start e_end ∧
      ∀ c ∈ (split_free_range e_start e_end r).2, 0 < c.length := by
  have hend : saturating_add r.start r.length = r.stop := saturating_add_of_lt hr
  simp only [split_free_range, hend]
  split
  · refine ⟨?_, by simp⟩
    ext x
    simp only [covers_nil, Set.mem_empty_iff_false, Set.mem_inter_iff, Span.mem_cells, Set.mem_Ico,
      false_iff]
    omega
  · simp only
    split
    · constructor
      · ext x
        simp only [covers_cons, covers_nil, Set.union_empty, Set.mem_inter_iff, Span.mem_cells,
          Span.stop_mk, Set.mem_Ico]
        omega
      · simp; omega
    · constructor
      · ext x
        simp only [covers_nil, Set.mem_empty_iff_false, Set.mem_inter_iff, Span.mem_cells,
          Set.mem_Ico, false_iff]
        omega
      · simp

/-- The slices are the free bytes in the window, and none is empty. -/
theorem slices_spec {l : List FreeRange} {e_start e_end : Nat} (hl : ∀ r ∈ l, r.stop < size)
    (he : e_start < e_end) :
    covers (l.flatMap fun r => (split_free_range e_start e_end r).2) =
        covers l ∩ Set.Ico e_start e_end ∧
      ∀ c ∈ l.flatMap fun r => (split_free_range e_start e_end r).2, 0 < c.length := by
  induction l with
  | nil => simp
  | cons r l ih =>
    obtain ⟨h1, h2⟩ := split_free_range_snd (hl r (by simp)) he
    obtain ⟨h3, h4⟩ := ih fun c hc => hl c (by simp [hc])
    rw [List.flatMap_cons]
    refine ⟨?_, ?_⟩
    · rw [covers_append, h1, h3, covers_cons, Set.union_inter_distrib_right]
    · intro c hc
      rcases List.mem_append.mp hc with hc | hc
      · exact h2 c hc
      · exact h4 c hc

theorem exclude_from_group_accounts {live : Set Nat} {bg : BlockGroupFreeSpace}
    (h : GroupAccounts live bg) (hfits : bg.block_group.stop < size) (excl : LogicalRange) :
    GroupAccounts live (exclude_from_group excl bg) := by
  unfold exclude_from_group
  simp only
  split
  · exact h
  split
  · exact h
  rename_i hne
  rw [not_le] at hne
  have hstop : ∀ r ∈ bg.free_ranges, r.stop < size :=
    fun r hr => lt_of_le_of_lt (h.free_in r hr).2 hfits
  generalize max excl.start bg.block_group.start = e_start at hne ⊢
  generalize min excl.stop (saturating_add bg.block_group.start bg.block_group.length) = e_end
    at hne ⊢
  obtain ⟨hslices, hpos⟩ := slices_spec hstop hne
  have hfree : bg.free_ranges.flatMap (fun r => (split_free_range e_start e_end r).1) =
      subtract bg.free_ranges e_start e_end :=
    List.flatMap_congr fun r hr => split_free_range_fst (hstop r hr)
  obtain ⟨hexcl, hexcl_cov⟩ := merge_insertionSort
    (l := bg.excluded_ranges ++
      bg.free_ranges.flatMap fun r => (split_free_range e_start e_end r).2) (by
    intro c hc
    rcases List.mem_append.mp hc with hc | hc
    · exact h.excluded.pos c hc
    · exact hpos c hc)
  rw [covers_append, hslices] at hexcl_cov
  have hcov := covers_subtract bg.free_ranges e_start e_end
  have hord := h.free.subtract hne.le
  have hin : Within bg.block_group.start bg.block_group.stop
      (subtract bg.free_ranges e_start e_end) :=
    hord.within_of_covers (by rw [hcov]; exact Set.sdiff_subset.trans h.free_sub)
  refine {
    free := hfree ▸ hord
    pinned := h.pinned
    excluded := hexcl
    free_in := hfree ▸ hin
    pinned_in := h.pinned_in
    excluded_in := hexcl.within_of_covers (by
      rw [hexcl_cov]
      exact Set.union_subset h.excluded_sub (Set.inter_subset_left.trans h.free_sub))
    free_pinned := ?_
    free_excluded := ?_
    pinned_excluded := ?_
    live_rest := ?_
    used := h.used
    total_free := ?_ }
  · rw [hfree, hcov]
    exact h.free_pinned.mono_left Set.sdiff_subset
  · rw [hfree, hcov, hexcl_cov, Set.disjoint_union_right]
    refine ⟨h.free_excluded.mono_left Set.sdiff_subset, ?_⟩
    rw [Set.disjoint_left]
    rintro x ⟨-, hx⟩ ⟨-, hx'⟩
    exact hx hx'
  · rw [hexcl_cov, Set.disjoint_union_right]
    exact ⟨h.pinned_excluded, (h.free_pinned.mono_left Set.inter_subset_left).symm⟩
  · rw [h.live_rest, hfree, hcov, hexcl_cov]
    ext x
    simp only [Set.mem_sdiff, Set.mem_union, Set.mem_inter_iff]
    tauto
  · rw [hfree]
    exact Ordered.sum_lengths hord hin hfits

theorem exclude_from_group_place (excl : LogicalRange) (bg : BlockGroupFreeSpace) :
    (exclude_from_group excl bg).block_group = bg.block_group ∧
      (exclude_from_group excl bg).pinned_freed = bg.pinned_freed := by
  unfold exclude_from_group
  simp only
  split
  · exact ⟨rfl, rfl⟩
  split
  · exact ⟨rfl, rfl⟩
  · exact ⟨rfl, rfl⟩

theorem exclude_range_accounts {s : AllocState} (h : s.Accounts) (excl : LogicalRange) :
    AllocState.Accounts ⟨exclude_range s.map excl, s.live, s.freed⟩ := by
  unfold exclude_range
  split
  · exact h
  · refine h.map (fun bg => (exclude_from_group_place excl bg).1)
      (fun bg hbg => exclude_from_group_accounts (h.each bg hbg) (h.fits hbg) excl) ?_
    rw [h.freed]
    ext x
    simp [FreeSpaceMap.pinned, (exclude_from_group_place excl _).2]

theorem exclude_ranges_accounts {s : AllocState} (h : s.Accounts) (l : List LogicalRange) :
    AllocState.Accounts ⟨exclude_ranges s.map l, s.live, s.freed⟩ := by
  induction l generalizing s with
  | nil => exact h
  | cons excl l ih => exact ih (exclude_range_accounts h excl)

/-! ## Unpinning -/

theorem covers_foldl_subtract (excl l : List FreeRange) :
    covers (excl.foldl subtract_excluded l) = covers l \ covers excl := by
  induction excl generalizing l with
  | nil => simp
  | cons e excl ih =>
    rw [List.foldl_cons, ih, covers_cons, ← Set.sdiff_sdiff]
    exact congrArg (· \ covers excl) (covers_subtract l e.start e.stop)

theorem foldl_subtract_excluded (excl l : List FreeRange) (hl : Ordered l) :
    Ordered (excl.foldl subtract_excluded l) ∧
      covers (excl.foldl subtract_excluded l) = covers l \ covers excl := by
  refine ⟨?_, covers_foldl_subtract excl l⟩
  induction excl generalizing l with
  | nil => exact hl
  | cons e excl ih => exact ih _ (hl.subtract (Nat.le_add_right _ _))

theorem unpin_group_accounts {live : Set Nat} {bg : BlockGroupFreeSpace}
    (h : GroupAccounts live bg) (hfits : bg.block_group.stop < size) :
    GroupAccounts live (unpin_group bg) := by
  unfold unpin_group
  split
  · exact h
  obtain ⟨hmerge, hmerge_cov⟩ := merge_insertionSort (l := bg.free_ranges ++ bg.pinned_freed) (by
    intro c hc
    rcases List.mem_append.mp hc with hc | hc
    · exact h.free.pos c hc
    · exact h.pinned.pos c hc)
  obtain ⟨hord, hcov⟩ := foldl_subtract_excluded bg.excluded_ranges _ hmerge
  -- Nothing excluded is free or pinned, so the subtraction takes nothing away.
  have hfree : covers (bg.excluded_ranges.foldl subtract_excluded
      (merge ((bg.free_ranges ++ bg.pinned_freed).insertionSort byStart))) =
      covers bg.free_ranges ∪ covers bg.pinned_freed := by
    rw [hcov, hmerge_cov, covers_append]
    exact sdiff_eq_left.mpr (Set.disjoint_union_left.mpr ⟨h.free_excluded, h.pinned_excluded⟩)
  have hin := hord.within_of_covers (hfree ▸ Set.union_subset h.free_sub h.pinned_sub)
  refine {
    free := hord
    pinned := ordered_nil
    excluded := h.excluded
    free_in := hin
    pinned_in := by simp [Within]
    excluded_in := h.excluded_in
    free_pinned := by simp
    free_excluded := ?_
    pinned_excluded := by simp
    live_rest := ?_
    used := h.used
    total_free := Ordered.sum_lengths hord hin hfits }
  · rw [hfree]
    exact Set.disjoint_union_left.mpr ⟨h.free_excluded, h.pinned_excluded⟩
  · rw [h.live_rest, hfree, covers_nil, Set.union_empty]

theorem unpin_group_place (bg : BlockGroupFreeSpace) :
    (unpin_group bg).block_group = bg.block_group ∧ (unpin_group bg).pinned_freed = [] := by
  unfold unpin_group
  split
  · rename_i hempty
    exact ⟨rfl, List.isEmpty_iff.mp hempty⟩
  · exact ⟨rfl, rfl⟩

theorem unpin_freed_accounts {s : AllocState} (h : s.Accounts) :
    AllocState.Accounts ⟨unpin_freed s.map, s.live, ∅⟩ := by
  refine h.map (fun bg => (unpin_group_place bg).1)
    (fun bg hbg => unpin_group_accounts (h.each bg hbg) (h.fits hbg)) ?_
  ext x
  simp [FreeSpaceMap.pinned, (unpin_group_place _).2]

end LuksAndroid.Btrfs

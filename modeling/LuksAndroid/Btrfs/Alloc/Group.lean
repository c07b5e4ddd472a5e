import LuksAndroid.Btrfs.Alloc.Spec

/-!
# The accounts of one block group

Each operation changes one group, or every group the same way. Here is what such a
change does to the accounts of the group and, when the other groups stay as they
are, to the accounts of the whole map.
-/

namespace LuksAndroid.Btrfs

open Word Spans

/-! ## Sums -/

theorem foldl_wrapping_add (l : List FreeRange) (acc : Nat) (h : acc + total l < size) :
    l.foldl (fun acc r => wrapping_add acc r.length) acc = acc + total l := by
  induction l generalizing acc with
  | nil => rfl
  | cons r l ih =>
    simp only [total, List.map_cons, List.sum_cons] at h ⊢
    rw [List.foldl_cons, wrapping_add_of_lt (by omega), ih _ (by simp only [total]; omega)]
    simp only [total]
    omega

theorem sum_lengths_spec {l : List FreeRange} (h : total l < size) : sum_lengths l = total l := by
  rw [sum_lengths, foldl_wrapping_add l 0 (by omega), Nat.zero_add]

theorem Ordered.total_le {l : List FreeRange} {lo hi : Nat} (h : Ordered l) (hin : Within lo hi l) :
    total l ≤ hi - lo := by
  rw [← h.ncard_covers]
  calc (covers l).ncard ≤ (Set.Ico lo hi).ncard :=
        Set.ncard_le_ncard hin.covers_subset (Set.finite_Ico _ _)
    _ = hi - lo := by rw [← Finset.coe_Ico, Set.ncard_coe_finset, Nat.card_Ico]

theorem Ordered.sum_lengths {l : List FreeRange} {lo hi : Nat} (h : Ordered l)
    (hin : Within lo hi l) (hhi : hi < size) : sum_lengths l = total l := by
  have := Ordered.total_le h hin
  exact sum_lengths_spec (by omega)

/-! ## One group -/

namespace GroupAccounts

variable {live : Set Nat} {bg : BlockGroupFreeSpace}

theorem free_sub (h : GroupAccounts live bg) : covers bg.free_ranges ⊆ bg.block_group.cells :=
  h.free_in.covers_subset

theorem pinned_sub (h : GroupAccounts live bg) : covers bg.pinned_freed ⊆ bg.block_group.cells :=
  h.pinned_in.covers_subset

theorem excluded_sub (h : GroupAccounts live bg) :
    covers bg.excluded_ranges ⊆ bg.block_group.cells :=
  h.excluded_in.covers_subset

/-- In a group, an address is live exactly when no list holds it. -/
theorem mem_live (h : GroupAccounts live bg) {x : Nat} (hx : x ∈ bg.block_group.cells) :
    x ∈ live ↔ x ∉ covers bg.free_ranges ∧ x ∉ covers bg.pinned_freed ∧
      x ∉ covers bg.excluded_ranges := by
  have := Set.ext_iff.mp h.live_rest x
  simp only [Set.mem_inter_iff, Set.mem_sdiff, Set.mem_union, hx] at this
  tauto

theorem free_not_live (h : GroupAccounts live bg) {x : Nat} (hx : x ∈ covers bg.free_ranges) :
    x ∉ live := fun hl => ((h.mem_live (h.free_sub hx)).mp hl).1 hx

theorem congr_live {live' : Set Nat} (h : GroupAccounts live bg)
    (heq : ∀ x ∈ bg.block_group.cells, x ∈ live' ↔ x ∈ live) : GroupAccounts live' bg := by
  have hcap : live' ∩ bg.block_group.cells = live ∩ bg.block_group.cells := by
    ext x
    simp only [Set.mem_inter_iff]
    constructor
    · rintro ⟨h1, h2⟩; exact ⟨(heq x h2).mp h1, h2⟩
    · rintro ⟨h1, h2⟩; exact ⟨(heq x h2).mpr h1, h2⟩
  exact { h with live_rest := hcap.trans h.live_rest, used := by rw [hcap]; exact h.used }

theorem finite_live (live : Set Nat) (bg : BlockGroupItem) : (live ∩ bg.cells).Finite :=
  (Set.finite_Ico _ _).inter_of_right _

theorem ncard_cells (bg : BlockGroupItem) : bg.cells.ncard = bg.length := by
  rw [BlockGroupItem.cells, ← Finset.coe_Ico, Set.ncard_coe_finset, Nat.card_Ico, BlockGroupItem.stop]
  omega

/-- Live, free, pinned and excluded bytes add up to the group. -/
theorem conserved (h : GroupAccounts live bg) :
    bg.block_group.used + total bg.free_ranges + total bg.pinned_freed + total bg.excluded_ranges =
      bg.block_group.length := by
  have hsub : covers bg.free_ranges ∪ covers bg.pinned_freed ∪ covers bg.excluded_ranges ⊆
      bg.block_group.cells :=
    Set.union_subset (Set.union_subset h.free_sub h.pinned_sub) h.excluded_sub
  have hfin := (finite_covers bg.free_ranges).union (finite_covers bg.pinned_freed)
  have hlists : (covers bg.free_ranges ∪ covers bg.pinned_freed ∪ covers bg.excluded_ranges).ncard =
      total bg.free_ranges + total bg.pinned_freed + total bg.excluded_ranges := by
    rw [Set.ncard_union_eq (Set.disjoint_union_left.mpr ⟨h.free_excluded, h.pinned_excluded⟩) hfin
      (finite_covers _), Set.ncard_union_eq h.free_pinned (finite_covers _) (finite_covers _),
      h.free.ncard_covers, h.pinned.ncard_covers, h.excluded.ncard_covers]
  have hused : bg.block_group.used + (total bg.free_ranges + total bg.pinned_freed +
      total bg.excluded_ranges) = bg.block_group.length := by
    rw [h.used, h.live_rest, ← hlists, Set.ncard_sdiff_add_ncard_of_subset hsub (Set.finite_Ico _ _),
      ncard_cells]
  omega

end GroupAccounts

/-! ## One group of the map changes -/

theorem GroupsApart.disjoint {l : List BlockGroupItem} (h : GroupsApart l) :
    l.Pairwise fun a b => Disjoint a.cells b.cells := by
  refine h.apart.imp ?_
  rintro a b ⟨hab, -⟩
  rw [Set.disjoint_left]
  intro x hx hx'
  simp only [BlockGroupItem.cells, Set.mem_Ico] at hx hx'
  omega

theorem GroupsApart.congr {l l' : List BlockGroupItem} (h : GroupsApart l)
    (heq : l'.map (fun g => (g.start, g.length)) = l.map (fun g => (g.start, g.length))) :
    GroupsApart l' := by
  have hfits : ∀ q ∈ l.map (fun g => (g.start, g.length)), q.1 + q.2 < size := by
    intro q hq
    obtain ⟨g, hg, rfl⟩ := List.mem_map.mp hq
    exact h.fits g hg
  have hapart : (l.map (fun g => (g.start, g.length))).Pairwise
      fun a b => a.1 + a.2 ≤ b.1 ∧ (a.1 = b.1 → a.2 < b.2) := List.pairwise_map.mpr h.apart
  rw [← heq] at hfits hapart
  exact ⟨fun g hg => hfits _ (List.mem_map_of_mem hg), List.pairwise_map.mp hapart⟩

namespace AllocState.Accounts

variable {s : AllocState} {pre post : List BlockGroupFreeSpace} {bg bg' : BlockGroupFreeSpace}

theorem group (h : s.Accounts) (hm : s.map.block_groups = pre ++ bg :: post) :
    GroupAccounts s.live bg := h.each bg (by simp [hm])

theorem fits (h : s.Accounts) (hbg : bg ∈ s.map.block_groups) : bg.block_group.stop < size :=
  h.groups.fits _ (List.mem_map_of_mem hbg)

theorem apart_of_mem (h : s.Accounts) (hm : s.map.block_groups = pre ++ bg :: post)
    {o : BlockGroupFreeSpace} (ho : o ∈ pre ++ post) :
    Disjoint o.block_group.cells bg.block_group.cells := by
  have hd := h.groups.disjoint
  simp only [FreeSpaceMap.items, hm, List.map_append, List.map_cons] at hd
  obtain ⟨-, hpost, hcross⟩ := List.pairwise_append.mp hd
  rcases List.mem_append.mp ho with ho | ho
  · exact hcross _ (List.mem_map_of_mem ho) _ (by simp)
  · exact ((List.pairwise_cons.mp hpost).1 _ (List.mem_map_of_mem ho)).symm

/-- Put a new group in the place of `bg`. The live set may change inside that group only. -/
theorem replace (h : s.Accounts) (hm : s.map.block_groups = pre ++ bg :: post)
    (hstart : bg'.block_group.start = bg.block_group.start)
    (hlength : bg'.block_group.length = bg.block_group.length) {live' freed' : Set Nat}
    (hlive : ∀ x ∉ bg.block_group.cells, x ∈ live' ↔ x ∈ s.live)
    (hbg : GroupAccounts live' bg')
    (hfreed : freed' = FreeSpaceMap.pinned ⟨pre ++ bg' :: post⟩) :
    Accounts ⟨⟨pre ++ bg' :: post⟩, live', freed'⟩ := by
  refine ⟨h.groups.congr ?_, ?_, hfreed⟩
  · simp [FreeSpaceMap.items, hm, hstart, hlength]
  · intro o ho
    by_cases heq : o ∈ pre ++ post
    · have hin : o ∈ s.map.block_groups := by
        rw [hm]; simp only [List.mem_append, List.mem_cons] at heq ⊢; tauto
      apply (h.each o hin).congr_live
      intro x hx
      exact hlive x fun hx' => Set.disjoint_left.mp (h.apart_of_mem hm heq) hx hx'
    · have : o = bg' := by
        simp only [List.mem_append, List.mem_cons] at heq ho; tauto
      exact this ▸ hbg

end AllocState.Accounts

theorem FreeSpaceMap.pinned_replace (pre post : List BlockGroupFreeSpace)
    (bg : BlockGroupFreeSpace) :
    FreeSpaceMap.pinned ⟨pre ++ bg :: post⟩ =
      FreeSpaceMap.pinned ⟨pre ++ post⟩ ∪ covers bg.pinned_freed := by
  ext x
  simp only [FreeSpaceMap.pinned, List.mem_append, List.mem_cons, Set.mem_union, Set.mem_ofPred_eq]
  constructor
  · rintro ⟨o, ho | rfl | ho, hx⟩
    · exact Or.inl ⟨o, Or.inl ho, hx⟩
    · exact Or.inr hx
    · exact Or.inl ⟨o, Or.inr ho, hx⟩
  · rintro (⟨o, ho | ho, hx⟩ | hx)
    · exact ⟨o, Or.inl ho, hx⟩
    · exact ⟨o, Or.inr (Or.inr ho), hx⟩
    · exact ⟨bg, Or.inr (Or.inl rfl), hx⟩

end LuksAndroid.Btrfs

import LuksAndroid.Btrfs.Alloc.Free

/-!
# The map that the extent tree gives

`from_extent_tree` walks the extents of a group with a cursor. Its two checks at
the end can only both pass when the extents are in order, do not overlap and stay
inside the group.
-/

namespace LuksAndroid.Btrfs

open Word Spans

/-- The addresses of a list of extents. -/
def extentCells (l : List AllocatedExtent) : Set Nat :=
  {x | ∃ e ∈ l, e.bytenr ≤ x ∧ x < e.bytenr + e.length}

def extentBytes (l : List AllocatedExtent) : Nat := (l.map (·.length)).sum

/-- The loop after the extents `done`, the last of which starts at `last`. Only when nothing has
overlapped so far do the free ranges tell the truth. -/
structure ScanInv (bg : BlockGroupItem) (done : List AllocatedExtent) (last : Nat)
    (s : ExtentScan) : Prop where
  allocated : s.total_allocated = extentBytes done
  last_ge : bg.start ≤ last
  last_le : last ≤ bg.stop
  cursor_ge : last ≤ s.cursor
  free_le : bg.start + total s.free_ranges ≤ last
  balance : s.cursor ≤ bg.start + total s.free_ranges + s.total_allocated
  tight : s.cursor = bg.start + total s.free_ranges + s.total_allocated →
    Ordered s.free_ranges ∧ extentCells done ⊆ Set.Ico bg.start s.cursor ∧
      covers s.free_ranges = Set.Ico bg.start s.cursor \ extentCells done

theorem extentCells_append (l : List AllocatedExtent) (e : AllocatedExtent) :
    extentCells (l ++ [e]) = extentCells l ∪ Set.Ico e.bytenr (e.bytenr + e.length) := by
  ext x
  simp only [extentCells, List.mem_append, List.mem_singleton, Set.mem_ofPred_eq, Set.mem_union,
    Set.mem_Ico]
  constructor
  · rintro ⟨o, ho | rfl, hx⟩
    · exact Or.inl ⟨o, ho, hx⟩
    · exact Or.inr hx
  · rintro (⟨o, ho, hx⟩ | hx)
    · exact ⟨o, Or.inl ho, hx⟩
    · exact ⟨e, Or.inr rfl, hx⟩

theorem extentBytes_append (l l' : List AllocatedExtent) :
    extentBytes (l ++ l') = extentBytes l + extentBytes l' := by
  simp [extentBytes]

theorem total_append (l l' : List FreeRange) : total (l ++ l') = total l + total l' := by
  simp [total]

theorem gap_spec {l : List FreeRange} {start cursor b : Nat} {cells : Set Nat} (hstart : start ≤ cursor)
    (hb : cursor ≤ b) (hl : Ordered l) (hcells : cells ⊆ Set.Ico start cursor)
    (hcov : covers l = Set.Ico start cursor \ cells) :
    Ordered (if b > cursor then l ++ [⟨cursor, b - cursor⟩] else l) ∧
      covers (if b > cursor then l ++ [⟨cursor, b - cursor⟩] else l) = Set.Ico start b \ cells := by
  have hin : Within start cursor l :=
    hl.within_of_covers (by rw [hcov]; exact Set.sdiff_subset)
  split
  · constructor
    · rw [ordered_append]
      refine ⟨hl, ordered_singleton (by simp; omega), ?_⟩
      intro r hr c hc
      rw [List.mem_singleton] at hc
      subst hc
      exact (hin r hr).2
    · rw [covers_append, hcov, covers_cons, covers_nil, Set.union_empty]
      ext x
      have hx : x ∈ cells → x < cursor := fun h => (hcells h).2
      simp only [Set.mem_union, Set.mem_sdiff, Set.mem_Ico, Span.mem_cells, Span.stop_mk]
      constructor
      · rintro (⟨h1, h2⟩ | h1)
        · exact ⟨by omega, h2⟩
        · exact ⟨by omega, fun h => by have := hx h; omega⟩
      · rintro ⟨h1, h2⟩
        by_cases hlt : x < cursor
        · exact Or.inl ⟨by omega, h2⟩
        · exact Or.inr (by omega)
  · have heq : b = cursor := by omega
    rw [heq]
    exact ⟨hl, hcov⟩

theorem scan_extent_inv {bg : BlockGroupItem} {done : List AllocatedExtent} {last : Nat}
    {s : ExtentScan} (h : ScanInv bg done last s) {e : AllocatedExtent}
    (hlo : bg.start ≤ e.bytenr) (hhi : e.bytenr < bg.stop) (hlast : last ≤ e.bytenr)
    (hend : e.bytenr + e.length < size) (hsum : extentBytes (done ++ [e]) < size) :
    ScanInv bg (done ++ [e]) e.bytenr (scan_extent bg.start bg.stop s e) := by
  have hbytes : extentBytes (done ++ [e]) = s.total_allocated + e.length := by
    rw [extentBytes_append, h.allocated]
    simp [extentBytes]
  have hl := h.last_ge
  have hc := h.cursor_ge
  have hf := h.free_le
  have hbal := h.balance
  have htotal : total (if e.bytenr > s.cursor then s.free_ranges ++ [⟨s.cursor, e.bytenr - s.cursor⟩]
      else s.free_ranges) = total s.free_ranges + (e.bytenr - s.cursor) := by
    split
    · rw [total_append]; simp [total]
    · omega
  rw [scan_extent, if_neg (by omega), wrapping_add_of_lt (by omega), wrapping_add_of_lt hend]
  refine {
    allocated := hbytes.symm
    last_ge := hlo
    last_le := by omega
    cursor_ge := by simp
    free_le := by simp only [htotal]; omega
    balance := by simp only [htotal]; omega
    tight := ?_ }
  simp only [htotal]
  intro htight
  -- No overlap now means none before, and this extent starts at the cursor or past it.
  obtain ⟨h1, h2, h3⟩ := h.tight (by omega)
  obtain ⟨h4, h5⟩ := gap_spec (by omega) (by omega : s.cursor ≤ e.bytenr) h1 h2 h3
  refine ⟨h4, ?_, ?_⟩
  · rw [extentCells_append]
    refine Set.union_subset (h2.trans (Set.Ico_subset_Ico le_rfl (by omega))) ?_
    exact Set.Ico_subset_Ico (by omega) le_rfl
  · rw [h5, extentCells_append]
    ext x
    have hx : x ∈ extentCells done → x < s.cursor := fun h => (h2 h).2
    simp only [Set.mem_sdiff, Set.mem_union, Set.mem_Ico]
    constructor
    · rintro ⟨h6, h7⟩
      exact ⟨by omega, fun h8 => h8.elim h7 (by omega)⟩
    · rintro ⟨h6, h7⟩
      exact ⟨⟨h6.1, by by_contra h8; exact h7 (Or.inr (by omega))⟩, fun h8 => h7 (Or.inl h8)⟩

theorem scan_extents_inv (bg : BlockGroupItem) (l done : List AllocatedExtent) (last : Nat)
    (s : ExtentScan) (h : ScanInv bg done last s)
    (hsorted : l.Pairwise fun a b => a.bytenr ≤ b.bytenr)
    (hlast : ∀ e ∈ l, bg.start ≤ e.bytenr → last ≤ e.bytenr)
    (hends : ∀ e ∈ l, bg.start ≤ e.bytenr → e.bytenr < bg.stop → e.bytenr + e.length < size)
    (hsum : extentBytes (done ++ l.filter fun e => bg.start ≤ e.bytenr ∧ e.bytenr < bg.stop) < size) :
    ∃ last', ScanInv bg (done ++ l.filter fun e => bg.start ≤ e.bytenr ∧ e.bytenr < bg.stop) last'
      (l.foldl (scan_extent bg.start bg.stop) s) := by
  induction l generalizing done last s with
  | nil => exact ⟨last, by simpa using h⟩
  | cons e l ih =>
    obtain ⟨hle, hl⟩ := List.pairwise_cons.mp hsorted
    have hends' : ∀ o ∈ l, bg.start ≤ o.bytenr → o.bytenr < bg.stop → o.bytenr + o.length < size :=
      fun o ho => hends o (by simp [ho])
    rw [List.foldl_cons]
    by_cases hin : bg.start ≤ e.bytenr ∧ e.bytenr < bg.stop
    · have hfilter : done ++ (e :: l).filter (fun e => bg.start ≤ e.bytenr ∧ e.bytenr < bg.stop) =
          (done ++ [e]) ++ l.filter fun e => bg.start ≤ e.bytenr ∧ e.bytenr < bg.stop := by
        rw [List.filter_cons_of_pos (by simpa using hin)]
        simp
      rw [hfilter] at hsum ⊢
      have hstep := scan_extent_inv h hin.1 hin.2 (hlast e (by simp) hin.1)
        (hends e (by simp) hin.1 hin.2)
        (by rw [extentBytes_append] at hsum; omega)
      exact ih _ _ _ hstep hl (fun o ho _ => hle o ho) hends' hsum
    · have hskip : scan_extent bg.start bg.stop s e = s := by
        rw [scan_extent, if_pos (by omega)]
      rw [List.filter_cons_of_neg (by simpa using hin)] at hsum ⊢
      rw [hskip]
      exact ih _ _ _ h hl (fun o ho => hlast o (by simp [ho])) hends' hsum

theorem wrapping_add_comm (a b : Nat) : wrapping_add a b = wrapping_add b a := by
  unfold wrapping_add
  rw [Nat.add_comm]

/-! ## One group -/

theorem extentCells_cons (e : AllocatedExtent) (l : List AllocatedExtent) :
    extentCells (e :: l) = Set.Ico e.bytenr (e.bytenr + e.length) ∪ extentCells l := by
  ext x
  simp [extentCells]

theorem extentCells_finite (l : List AllocatedExtent) : (extentCells l).Finite := by
  induction l with
  | nil => simp [extentCells]
  | cons e l ih => rw [extentCells_cons]; exact (Set.finite_Ico _ _).union ih

theorem ncard_extentCells_le (l : List AllocatedExtent) : (extentCells l).ncard ≤ extentBytes l := by
  induction l with
  | nil => simp [extentCells]
  | cons e l ih =>
    rw [extentCells_cons]
    have hunion := Set.ncard_union_le (Set.Ico e.bytenr (e.bytenr + e.length)) (extentCells l)
    simp only [Set.ncard_Ico_nat, extentBytes, List.map_cons, List.sum_cons] at hunion ih ⊢
    omega

/-- Counting the addresses of the extents tells whether two of them overlap. -/
theorem ncard_extentCells (l : List AllocatedExtent) :
    (extentCells l).ncard = extentBytes l ↔
      l.Pairwise fun a b => Disjoint (Set.Ico a.bytenr (a.bytenr + a.length))
        (Set.Ico b.bytenr (b.bytenr + b.length)) := by
  induction l with
  | nil => simp [extentCells, extentBytes]
  | cons e l ih =>
    have hcount := Set.ncard_union_add_ncard_inter (Set.Ico e.bytenr (e.bytenr + e.length)) (extentCells l)
      (Set.finite_Ico _ _) (extentCells_finite l)
    have hle := ncard_extentCells_le l
    have hdisjoint : (Set.Ico e.bytenr (e.bytenr + e.length) ∩ extentCells l).ncard = 0 ↔
        ∀ o ∈ l, Disjoint (Set.Ico e.bytenr (e.bytenr + e.length)) (Set.Ico o.bytenr (o.bytenr + o.length)) := by
      rw [Set.ncard_eq_zero ((Set.finite_Ico _ _).inter_of_left _), ← Set.disjoint_iff_inter_eq_empty]
      simp only [Set.disjoint_left]
      exact ⟨fun h o ho x hx hx' => h hx ⟨o, ho, hx'⟩, fun h x hx ⟨o, ho, hx'⟩ => h o ho hx hx'⟩
    rw [List.pairwise_cons, ← hdisjoint, ← ih, extentCells_cons]
    simp only [Set.ncard_Ico_nat, extentBytes, List.map_cons, List.sum_cons] at hcount hle ⊢
    omega

/-- What an accepted group was made from: the end of the loop, which passed both checks. -/
theorem block_group_free_space_ok {extents : List AllocatedExtent} {bg : BlockGroupItem} {g : BlockGroupFreeSpace}
    {s : ExtentScan} (hs : extents.foldl (scan_extent bg.start bg.stop) ⟨[], [], 0, bg.start⟩ = s)
    (h : block_group_free_space extents bg = .ok g) :
    bg.stop < size ∧ s.total_allocated = bg.used ∧
      wrapping_add s.total_allocated (sum_lengths g.free_ranges) = bg.length ∧
      g.free_ranges = (if s.cursor < bg.stop then s.free_ranges ++ [⟨s.cursor, bg.stop - s.cursor⟩]
        else s.free_ranges) ∧
      g = ⟨bg, s.bg_extents, g.free_ranges, [], [], s.total_allocated, sum_lengths g.free_ranges⟩ := by
  unfold block_group_free_space at h
  cases hadd : checked_add bg.start bg.length with
  | none => rw [hadd] at h; cases h
  | some stop =>
    obtain ⟨rfl, hword⟩ := checked_add_eq_some hadd
    rw [hadd] at h
    simp only at h
    change extents.foldl (scan_extent bg.start (bg.start + bg.length)) ⟨[], [], 0, bg.start⟩ = s at hs
    rw [hs] at h
    change bg.start + bg.length < size ∧ _ ∧ _ ∧ g.free_ranges = (if s.cursor < bg.start + bg.length then
      s.free_ranges ++ [⟨s.cursor, bg.start + bg.length - s.cursor⟩] else s.free_ranges) ∧ _
    generalize (if s.cursor < bg.start + bg.length then
      s.free_ranges ++ [⟨s.cursor, bg.start + bg.length - s.cursor⟩] else s.free_ranges) = free at h ⊢
    split at h
    · cases h
    rename_i hused
    split at h
    · cases h
    rename_i hlen
    cases h
    exact ⟨hword, not_not.mp hused, not_not.mp hlen, rfl, rfl⟩

/-- What the two checks establish of a group. -/
structure GroupRead (tree : ExtentTree) (bg : BlockGroupItem) (g : BlockGroupFreeSpace) : Prop where
  block_group : g.block_group = bg
  pinned : g.pinned_freed = []
  excluded : g.excluded_ranges = []
  fits : bg.stop < size
  inside : extentCells (tree.startingIn bg) ⊆ bg.cells
  used : bg.used = extentBytes (tree.startingIn bg)
  counted : extentBytes (tree.startingIn bg) + total g.free_ranges = bg.length
  free : Ordered g.free_ranges
  free_cells : covers g.free_ranges = bg.cells \ extentCells (tree.startingIn bg)
  total_free : g.total_free_bytes = total g.free_ranges

theorem block_group_free_space_read {tree : ExtentTree} {bg : BlockGroupItem}
    (hsorted : tree.extents.Pairwise fun a b => a.bytenr ≤ b.bytenr)
    (hends : ∀ e ∈ tree.startingIn bg, e.bytenr + e.length < size)
    (hsum : extentBytes (tree.startingIn bg) < size)
    {g : BlockGroupFreeSpace} (h : block_group_free_space tree.extents bg = .ok g) : GroupRead tree bg g := by
  have hstop : bg.stop = bg.start + bg.length := rfl
  obtain ⟨last, hinv⟩ := scan_extents_inv bg tree.extents [] bg.start ⟨[], [], 0, bg.start⟩
    { allocated := rfl, last_ge := le_rfl, last_le := by omega, cursor_ge := le_rfl,
      free_le := by simp [total], balance := by simp,
      tight := fun _ => ⟨ordered_nil, by simp [extentCells], by simp⟩ }
    hsorted (fun _ _ h => h)
    (fun e he h1 h2 => hends e (by simp [ExtentTree.startingIn, he, h1, h2]))
    (by rw [List.nil_append]; exact hsum)
  rw [List.nil_append] at hinv
  change ScanInv bg (tree.startingIn bg) last _ at hinv
  obtain ⟨hword, hused, hlen, hfree, hg⟩ := block_group_free_space_ok rfl h
  generalize tree.extents.foldl (scan_extent bg.start bg.stop) ⟨[], [], 0, bg.start⟩ = s at *
  have hl := hinv.last_ge
  have hl' := hinv.last_le
  have hc := hinv.cursor_ge
  have hf := hinv.free_le
  have hbal := hinv.balance
  have hall := hinv.allocated
  have htotal : total g.free_ranges = total s.free_ranges + (bg.stop - s.cursor) := by
    rw [hfree]
    split
    · rw [total_append]; simp [total]
    · omega
  have hfree_sum : sum_lengths g.free_ranges = total g.free_ranges := sum_lengths_spec (by omega)
  rw [hfree_sum, wrapping_add_comm] at hlen
  -- The free bytes are no more than the group, so the sum of both can only be its length.
  have hlen' := add_eq_of_wrapping_add hlen (by omega) (by omega) (by omega)
  -- The two checks leave no room for an overlap.
  obtain ⟨h1, h2, h3⟩ := hinv.tight (by omega)
  have hcursor : s.cursor ≤ bg.stop := by omega
  obtain ⟨h4, h5⟩ := gap_spec (by omega) hcursor h1 h2 h3
  simp only [gt_iff_lt, ← hfree] at h4 h5
  exact {
    block_group := by rw [hg]
    pinned := by rw [hg]
    excluded := by rw [hg]
    fits := hword
    inside := h2.trans (Set.Ico_subset_Ico le_rfl hcursor)
    used := by rw [← hused, hall]
    counted := by omega
    free := h4
    free_cells := h5
    total_free := by rw [← hfree_sum, hg] }

theorem block_group_free_space_spec {tree : ExtentTree} (hread : tree.WellRead)
    (hfit : tree.ExtentsFit) {bg : BlockGroupItem} (hbg : bg ∈ tree.block_groups)
    {g : BlockGroupFreeSpace} (h : block_group_free_space tree.extents bg = .ok g) :
    g.block_group = bg ∧ g.pinned_freed = [] ∧ GroupAccounts tree.live g := by
  have hword := hread.groups.fits bg hbg
  have hstop : bg.stop = bg.start + bg.length := rfl
  have hsum : extentBytes (tree.startingIn bg) ≤ bg.length := hfit.sum bg hbg
  have hg := block_group_free_space_read hread.sorted (hfit.ends bg hbg) (by omega) h
  have hlive : tree.live ∩ bg.cells = extentCells (tree.startingIn bg) := by
    ext x
    simp only [Set.mem_inter_iff, BlockGroupItem.cells, Set.mem_Ico]
    constructor
    · rintro ⟨⟨e, he, hx⟩, hxbg⟩
      refine ⟨e, ?_, hx⟩
      have hge : bg.start ≤ e.bytenr := by
        by_contra hlt
        have := hfit.below bg hbg e he (by omega)
        omega
      simp only [ExtentTree.startingIn, List.mem_filter, decide_eq_true_eq]
      exact ⟨he, hge, by omega⟩
    · intro hx
      have hin := hg.inside hx
      obtain ⟨e, he, hx⟩ := hx
      exact ⟨⟨e, (List.mem_filter.mp he).1, hx⟩, hin⟩
  have hcard : (extentCells (tree.startingIn bg)).ncard + total g.free_ranges = bg.length := by
    have hdiff := Set.ncard_sdiff_add_ncard_of_subset hg.inside (Set.finite_Ico _ _)
    rw [← hg.free_cells, hg.free.ncard_covers, GroupAccounts.ncard_cells bg] at hdiff
    omega
  have hcounted := hg.counted
  refine ⟨hg.block_group, hg.pinned, ?_⟩
  refine {
    free := hg.free
    pinned := by rw [hg.pinned]; exact ordered_nil
    excluded := by rw [hg.excluded]; exact ordered_nil
    free_in := ?_
    pinned_in := by simp [Within, hg.pinned]
    excluded_in := by simp [Within, hg.excluded]
    free_pinned := by simp [hg.pinned]
    free_excluded := by simp [hg.excluded]
    pinned_excluded := by simp [hg.excluded]
    live_rest := ?_
    used := ?_
    total_free := hg.total_free }
  · rw [hg.block_group]
    exact hg.free.within_of_covers (by rw [hg.free_cells]; exact Set.sdiff_subset)
  · simp only [hg.pinned, hg.excluded, covers_nil, Set.union_empty]
    rw [hg.block_group, hlive, hg.free_cells, Set.sdiff_sdiff_cancel_left hg.inside]
  · rw [hg.block_group, hlive, hg.used]
    omega

/-! ## All groups -/

theorem mapM_except_ok {ε α β : Type} {f : α → Except ε β} {l : List α} {out : List β}
    (h : l.mapM f = .ok out) : List.Forall₂ (fun a b => f a = .ok b) l out := by
  induction l generalizing out with
  | nil =>
    simp only [List.mapM_nil] at h
    cases h
    exact .nil
  | cons a l ih =>
    rw [List.mapM_cons] at h
    cases ha : f a with
    | error e => rw [ha] at h; cases h
    | ok b =>
      rw [ha] at h
      cases hl : l.mapM f with
      | error e => rw [hl] at h; cases h
      | ok bs =>
        rw [hl] at h
        cases h
        exact .cons ha (ih hl)

theorem from_extent_tree_groups {tree : ExtentTree} {m : FreeSpaceMap} (h : from_extent_tree tree = .ok m) :
    List.Forall₂ (fun bg g => block_group_free_space tree.extents bg = .ok g) tree.block_groups m.block_groups := by
  unfold from_extent_tree at h
  cases hmap : tree.block_groups.mapM (block_group_free_space tree.extents) with
  | error e => rw [hmap] at h; cases h
  | ok gs =>
    rw [hmap] at h
    cases h
    exact mapM_except_ok hmap

theorem from_extent_tree_accounts {tree : ExtentTree} (hread : tree.WellRead)
    (hfit : tree.ExtentsFit) {m : FreeSpaceMap} (h : from_extent_tree tree = .ok m) :
    (tree.start m).Accounts := by
  have hspec : List.Forall₂ (fun bg g => g.block_group = bg ∧ g.pinned_freed = [] ∧
      GroupAccounts tree.live g) tree.block_groups m.block_groups := by
    have hall := from_extent_tree_groups h
    rw [List.forall₂_iff_get] at hall ⊢
    refine ⟨hall.1, fun i hi hi' => ?_⟩
    exact block_group_free_space_spec hread hfit (List.get_mem _ _) (hall.2 i hi hi')
  have hmem : ∀ g ∈ m.block_groups, g.pinned_freed = [] ∧ GroupAccounts tree.live g := by
    intro g hg
    obtain ⟨i, hi, rfl⟩ := List.mem_iff_get.mp hg
    exact ((List.forall₂_iff_get.mp hspec).2 _ (by have := i.2; rw [hspec.length_eq]; exact this) i.2).2
  refine ⟨?_, fun g hg => (hmem g hg).2, ?_⟩
  · have hitems : m.block_groups.map (·.block_group) = tree.block_groups := by
      have heq : List.Forall₂ (· = ·) tree.block_groups (m.block_groups.map (·.block_group)) :=
        List.forall₂_map_right_iff.mpr (hspec.imp fun _ _ h => h.1.symm)
      rw [List.forall₂_eq_eq_eq] at heq
      exact heq.symm
    change GroupsApart (m.block_groups.map (·.block_group))
    rw [hitems]
    exact hread.groups
  · ext x
    simp only [ExtentTree.start, FreeSpaceMap.pinned, Set.mem_empty_iff_false, Set.mem_ofPred_eq,
      false_iff, not_exists, not_and]
    intro g hg
    rw [(hmem g hg).1]
    simp

theorem from_extent_tree_and_chunk_map_accounts {tree : ExtentTree} (hread : tree.WellRead)
    (hfit : tree.ExtentsFit) {chunk_map : ChunkMap} {m : FreeSpaceMap}
    (h : from_extent_tree_and_chunk_map tree chunk_map = .ok m) : (tree.start m).Accounts := by
  unfold from_extent_tree_and_chunk_map at h
  cases hmap : from_extent_tree tree with
  | error e => rw [hmap] at h; cases h
  | ok m₀ =>
    rw [hmap] at h
    cases h
    exact exclude_ranges_accounts (from_extent_tree_accounts hread hfit hmap) _

/-! ## When the checks are enough -/

/-- The extents of a group do not overlap and end inside it, and the free ranges are what they leave. -/
structure ExtentTree.Truthful (tree : ExtentTree) (bg : BlockGroupItem) (g : BlockGroupFreeSpace) : Prop where
  block_group : g.block_group = bg
  apart : (tree.startingIn bg).Pairwise fun a b =>
    Disjoint (Set.Ico a.bytenr (a.bytenr + a.length)) (Set.Ico b.bytenr (b.bytenr + b.length))
  inside : ∀ e ∈ tree.startingIn bg, e.bytenr + e.length ≤ bg.stop
  free : covers g.free_ranges = bg.cells \ extentCells (tree.startingIn bg)

/-- No extent of the group ends past the word, and their lengths add up inside it. -/
def ExtentTree.Unwrapped (tree : ExtentTree) (bg : BlockGroupItem) : Prop :=
  (∀ e ∈ tree.startingIn bg, e.bytenr + e.length < size) ∧ extentBytes (tree.startingIn bg) < size

theorem GroupRead.truthful {tree : ExtentTree} {bg : BlockGroupItem} {g : BlockGroupFreeSpace}
    (h : GroupRead tree bg g) : tree.Truthful bg g where
  block_group := h.block_group
  apart := by
    rw [← ncard_extentCells]
    have hdiff := Set.ncard_sdiff_add_ncard_of_subset h.inside (Set.finite_Ico _ _)
    rw [← h.free_cells, h.free.ncard_covers, GroupAccounts.ncard_cells bg] at hdiff
    have hcounted := h.counted
    omega
  inside := by
    intro e he
    have hin := List.mem_filter.mp he
    simp only [decide_eq_true_eq] at hin
    -- An extent without bytes starts below the end of the group. The last byte of another lies in it.
    rcases Nat.eq_zero_or_pos e.length with hzero | hpos
    · omega
    · have hlast : e.bytenr + (e.length - 1) ∈ bg.cells := h.inside ⟨e, he, by omega⟩
      simp only [BlockGroupItem.cells, Set.mem_Ico] at hlast
      omega
  free := h.free_cells

theorem ExtentTree.Truthful.unwrapped {tree : ExtentTree} {bg : BlockGroupItem} {g : BlockGroupFreeSpace}
    (h : tree.Truthful bg g) (hfits : bg.stop < size) : tree.Unwrapped bg := by
  have hsub : extentCells (tree.startingIn bg) ⊆ bg.cells := by
    rintro x ⟨e, he, hx⟩
    have hstop := h.inside e he
    have hin := (List.mem_filter.mp he).2
    simp only [decide_eq_true_eq] at hin
    exact ⟨by omega, by omega⟩
  have hcard := Set.ncard_le_ncard hsub (Set.finite_Ico _ _)
  rw [(ncard_extentCells _).mpr h.apart, GroupAccounts.ncard_cells bg] at hcard
  have hstop : bg.stop = bg.start + bg.length := rfl
  refine ⟨?_, by omega⟩
  intro e he
  have := h.inside e he
  omega

/-- The two checks of the sums are enough exactly for the groups in which no sum wraps. -/
theorem from_extent_tree_truthful {tree : ExtentTree} {m : FreeSpaceMap}
    (hsorted : tree.extents.Pairwise fun a b => a.bytenr ≤ b.bytenr) (h : from_extent_tree tree = .ok m) :
    List.Forall₂ tree.Truthful tree.block_groups m.block_groups ↔ ∀ bg ∈ tree.block_groups, tree.Unwrapped bg := by
  have hall := from_extent_tree_groups h
  rw [List.forall₂_iff_get] at hall ⊢
  constructor
  · rintro ⟨hlen, htruth⟩ bg hbg
    obtain ⟨i, hi, rfl⟩ := List.mem_iff_get.mp hbg
    have hi' : i.1 < m.block_groups.length := by omega
    exact (htruth i.1 i.2 hi').unwrapped (block_group_free_space_ok rfl (hall.2 i.1 i.2 hi')).1
  · intro hun
    refine ⟨hall.1, fun i hi hi' => ?_⟩
    obtain ⟨hends, hsum⟩ := hun _ (List.get_mem tree.block_groups ⟨i, hi⟩)
    exact (block_group_free_space_read hsorted hends hsum (hall.2 i hi hi')).truthful

/-- A group with room for one extent. -/
def honestTree : ExtentTree :=
  ⟨[⟨4096, 8192, 4096, 256, BLOCK_GROUP_DATA⟩], [⟨4096, 4096, 1, 1, true, false, 0, []⟩]⟩

theorem honest_tree_truthful :
    ∃ m, from_extent_tree honestTree = .ok m ∧
    List.Forall₂ honestTree.Truthful honestTree.block_groups m.block_groups := by
  have hmap : from_extent_tree honestTree = .ok ⟨[⟨⟨4096, 8192, 4096, 256, BLOCK_GROUP_DATA⟩,
    [⟨4096, 4096, 1, 1, true, false, 0, []⟩], [⟨8192, 4096⟩], [], [], 4096, 4096⟩]⟩ := by decide +kernel
  refine ⟨_, hmap, (from_extent_tree_truthful (by simp [honestTree]) hmap).mpr ?_⟩
  simp [honestTree, ExtentTree.Unwrapped, ExtentTree.startingIn, BlockGroupItem.stop, extentBytes, size]

/-- One extent whose end wraps past zero into the group it starts in. -/
def wrappingTree : ExtentTree :=
  ⟨[⟨1000, 1000, 2 ^ 64 - 500, 256, BLOCK_GROUP_DATA⟩], [⟨1500, 2 ^ 64 - 500, 1, 1, true, false, 0, []⟩]⟩

theorem wrapping_tree_accepted :
    wrappingTree.extents.Pairwise (fun a b => a.bytenr ≤ b.bytenr) ∧
      ∃ m, from_extent_tree wrappingTree = .ok m ∧
        ¬ List.Forall₂ wrappingTree.Truthful wrappingTree.block_groups m.block_groups := by
  have hmap : from_extent_tree wrappingTree = .ok ⟨[⟨⟨1000, 1000, 2 ^ 64 - 500, 256, BLOCK_GROUP_DATA⟩,
    [⟨1500, 2 ^ 64 - 500, 1, 1, true, false, 0, []⟩], [⟨1000, 500⟩, ⟨1000, 1000⟩], [], [], 2 ^ 64 - 500, 1500⟩]⟩ := by
    decide +kernel
  refine ⟨by simp [wrappingTree], _, hmap, ?_⟩
  rintro (⟨⟩ | ⟨htruth, -⟩)
  have := htruth.inside ⟨1500, 2 ^ 64 - 500, 1, 1, true, false, 0, []⟩
    (by simp [wrappingTree, ExtentTree.startingIn, BlockGroupItem.stop])
  simp [BlockGroupItem.stop] at this

end LuksAndroid.Btrfs

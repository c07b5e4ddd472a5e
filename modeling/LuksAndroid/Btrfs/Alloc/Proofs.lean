import LuksAndroid.Btrfs.Alloc.Guard

/-!
# The contract of the free-space map

The free-space items are the complement of the live bytes. Every operation keeps
the accounts, so every run does. One sum in the allocation loops can leave the
word, and the last section shows what happens then.
-/

namespace LuksAndroid.Btrfs

open Word Spans

/-! ## The free-space items -/

theorem group_free_space_spec {live : Set Nat} {bg : BlockGroupFreeSpace}
    (h : GroupAccounts live bg) :
    Ordered (group_free_space bg) ∧
      covers (group_free_space bg) = bg.block_group.cells \ live := by
  obtain ⟨h1, h2⟩ := merge_insertionSort
    (l := bg.free_ranges ++ bg.pinned_freed ++ bg.excluded_ranges) (by
    intro r hr
    rcases List.mem_append.mp hr with hr | hr
    · rcases List.mem_append.mp hr with hr | hr
      · exact h.free.pos r hr
      · exact h.pinned.pos r hr
    · exact h.excluded.pos r hr)
  refine ⟨h1, h2.trans ?_⟩
  rw [covers_append, covers_append]
  ext x
  simp only [Set.mem_union, Set.mem_sdiff]
  constructor
  · intro hx
    have hcell : x ∈ bg.block_group.cells := by
      rcases hx with (hx | hx) | hx
      · exact h.free_sub hx
      · exact h.pinned_sub hx
      · exact h.excluded_sub hx
    refine ⟨hcell, fun hl => ?_⟩
    have := (h.mem_live hcell).mp hl
    tauto
  · rintro ⟨hcell, hl⟩
    rw [h.mem_live hcell] at hl
    tauto

theorem mem_emit_group_items {bg : BlockGroupFreeSpace} {i : LeafItem} (h : i ∈ emit_group_items bg) :
    i.key = ⟨bg.block_group.start, FREE_SPACE_INFO_KEY, bg.block_group.length⟩ ∨
      ∃ r ∈ group_free_space bg, i.key = ⟨r.start, FREE_SPACE_EXTENT_KEY, r.length⟩ := by
  rcases List.mem_cons.mp h with rfl | h
  · exact Or.inl rfl
  · obtain ⟨r, hr, rfl⟩ := List.mem_map.mp h
    exact Or.inr ⟨r, hr, rfl⟩

theorem group_free_space_within {live : Set Nat} {bg : BlockGroupFreeSpace}
    (h : GroupAccounts live bg) :
    Within bg.block_group.start bg.block_group.stop (group_free_space bg) := by
  obtain ⟨h1, h2⟩ := group_free_space_spec h
  exact h1.within_of_covers (by rw [h2]; exact Set.sdiff_subset)

theorem emit_group_items_sorted {live : Set Nat} {bg : BlockGroupFreeSpace}
    (h : GroupAccounts live bg) :
    (emit_group_items bg).Pairwise fun a b => a.key < b.key := by
  obtain ⟨hord, -⟩ := group_free_space_spec h
  refine List.pairwise_cons.mpr ⟨?_, ?_⟩
  · -- The info item comes first: its type is the smaller one.
    intro i hi
    obtain ⟨r, hr, rfl⟩ := List.mem_map.mp hi
    have := (group_free_space_within h r hr).1
    rw [Key.lt_iff]
    simp only [FREE_SPACE_INFO_KEY, FREE_SPACE_EXTENT_KEY]
    omega
  · rw [List.pairwise_map]
    refine hord.apart.imp_of_mem fun {a b} ha _ hab => ?_
    have := hord.pos a ha
    rw [Key.lt_iff]
    simp only [Span.stop] at hab
    exact Or.inl (by simp only; omega)

theorem emit_groups_apart {live : Set Nat} {a b : BlockGroupFreeSpace} (ha : GroupAccounts live a)
    (hb : GroupAccounts live b) (hab : a.block_group.stop ≤ b.block_group.start)
    (hlen : a.block_group.start = b.block_group.start → a.block_group.length < b.block_group.length)
    {i j : LeafItem} (hi : i ∈ emit_group_items a) (hj : j ∈ emit_group_items b) : i.key < j.key := by
  have hstop : a.block_group.stop = a.block_group.start + a.block_group.length := rfl
  rw [Key.lt_iff]
  rcases mem_emit_group_items hi with hi | ⟨r, hr, hi⟩
  · rcases mem_emit_group_items hj with hj | ⟨c, hc, hj⟩
    · simp only [hi, hj]
      rcases Nat.lt_or_ge a.block_group.start b.block_group.start with hlt | hge
      · exact Or.inl hlt
      · -- Two groups start together only when the first one is empty.
        have heq : a.block_group.start = b.block_group.start := by omega
        exact Or.inr ⟨heq, Or.inr ⟨trivial, hlen heq⟩⟩
    · have := (group_free_space_within hb c hc).1
      simp only [hi, hj, FREE_SPACE_INFO_KEY, FREE_SPACE_EXTENT_KEY]
      omega
  · have hpos := (group_free_space_spec ha).1.pos r hr
    have hr' := (group_free_space_within ha r hr).2
    have hrstop : r.stop = r.start + r.length := rfl
    rcases mem_emit_group_items hj with hj | ⟨c, hc, hj⟩
    · simp only [hi, hj]; omega
    · have := (group_free_space_within hb c hc).1
      simp only [hi, hj]
      omega

theorem mem_listed {m : FreeSpaceMap} {x : Nat} :
    x ∈ AllocState.listed (emit_free_space_tree_items m) ↔
      ∃ bg ∈ m.block_groups, x ∈ covers (group_free_space bg) := by
  constructor
  · rintro ⟨i, hi, htype, hx⟩
    obtain ⟨bg, hbg, hi⟩ := List.mem_flatMap.mp hi
    refine ⟨bg, hbg, ?_⟩
    rcases mem_emit_group_items hi with hi | ⟨r, hr, hi⟩
    · rw [hi] at htype
      simp [FREE_SPACE_INFO_KEY, FREE_SPACE_EXTENT_KEY] at htype
    · rw [hi] at hx
      exact ⟨r, hr, hx⟩
  · rintro ⟨bg, hbg, r, hr, hx⟩
    refine ⟨⟨⟨r.start, FREE_SPACE_EXTENT_KEY, r.length⟩, []⟩, ?_, rfl, hx⟩
    refine List.mem_flatMap.mpr ⟨bg, hbg, ?_⟩
    exact List.mem_cons_of_mem _ (List.mem_map.mpr ⟨r, hr, rfl⟩)

theorem AllocState.Accounts.emits {s : AllocState} (h : s.Accounts) : s.EmitsComplement where
  sorted := by
    rw [emit_free_space_tree_items, List.pairwise_flatMap]
    refine ⟨fun bg hbg => emit_group_items_sorted (h.each bg hbg), ?_⟩
    refine (List.pairwise_map.mp h.groups.apart).imp_of_mem fun {a b} ha hb hab i hi j hj => ?_
    exact emit_groups_apart (h.each a ha) (h.each b hb) hab.1 hab.2 hi hj
  exact := by
    intro bg hbg x hx
    rw [mem_listed]
    constructor
    · rintro ⟨o, ho, hxo⟩
      rw [(group_free_space_spec (h.each o ho)).2] at hxo
      exact hxo.2
    · intro hl
      refine ⟨bg, hbg, ?_⟩
      rw [(group_free_space_spec (h.each bg hbg)).2]
      exact ⟨hx, hl⟩
  inside := by
    intro x hx
    obtain ⟨bg, hbg, hx⟩ := mem_listed.mp hx
    rw [(group_free_space_spec (h.each bg hbg)).2] at hx
    exact ⟨bg, hbg, hx.1⟩

theorem AllocState.Accounts.sound {s : AllocState} (h : s.Accounts) : s.Sound :=
  ⟨h, fun bg hbg => (h.each bg hbg).conserved, h.emits⟩

/-! ## One operation -/

theorem AllocState.step_of_ok {s : AllocState} {op : AllocOp} {r : Span} {m : FreeSpaceMap}
    (h : op.exec s.map = .ok r m) (hacc : Accounts ⟨m, op.live s.live r, op.freed s.freed r⟩)
    (halign : ∀ a ∈ op.alignment, r.start % a = 0)
    (hdisj : op.allocates → Disjoint r.cells (s.live ∪ s.freed ∪ s.map.excluded)) :
    (s.step op).Accounts ∧ s.StepSound op := by
  simp only [step, StepSound, h]
  exact ⟨hacc, halign, hdisj⟩

theorem AllocState.step_of_error {s : AllocState} (hs : s.Accounts) {op : AllocOp} {e : LuksError}
    (h : op.exec s.map = .error e s.map) : (s.step op).Accounts ∧ s.StepSound op := by
  simp only [step, StepSound, h, and_true]
  exact hs

/-- Every operation keeps the accounts, when the callers' promises hold and no sum wraps. -/
theorem AllocState.step_accounts {s : AllocState} (h : s.Accounts) {op : AllocOp}
    (hp : s.Promised op) (hf : s.Fits op) : (s.step op).Accounts ∧ s.StepSound op := by
  cases op with
  | exclude_ranges l =>
    exact step_of_ok rfl (exclude_ranges_accounts h l) (by simp [AllocOp.alignment]) False.elim
  | allocate_metadata_for_owner n owner =>
    obtain ⟨k, hk, rfl⟩ := BlockSize.lt hp
    rcases allocate_with_spec h.freeOrdered (metadata_match owner) hk hf with
      ⟨b, m, hrun, hc, ha⟩ | hrun
    · refine step_of_ok (r := ⟨b, 2 ^ k⟩) (m := m) ?_ (hc.accounts h) ?_ fun _ => hc.disjoint h
      · simp only [AllocOp.exec, allocate_metadata_for_owner, bind, EStateM.bind, hrun]; rfl
      · simpa [AllocOp.alignment] using ha
    · refine step_of_error h (e := .FilesystemFull) ?_
      simp only [AllocOp.exec, allocate_metadata_for_owner, bind, EStateM.bind, hrun]
  | allocate_data n a =>
    obtain ⟨k, hk, rfl⟩ := BlockSize.lt hp.2
    rcases allocate_with_spec h.freeOrdered bg_holds_data hk hf with ⟨b, m, hrun, hc, ha⟩ | hrun
    · refine step_of_ok (r := ⟨b, n⟩) (m := m) ?_ (hc.accounts h) ?_ fun _ => hc.disjoint h
      · simp only [AllocOp.exec, allocate_data, bind, EStateM.bind, hrun]; rfl
      · simpa [AllocOp.alignment] using ha
    · refine step_of_error h (e := .FilesystemFull) ?_
      simp only [AllocOp.exec, allocate_data, bind, EStateM.bind, hrun]
  | allocate_data_chunk n a =>
    obtain ⟨k, hk, rfl⟩ := BlockSize.lt hp.2
    rcases allocate_data_chunk_spec h n hk hf with ⟨b, l, m, hrun, hc, ha⟩ | hrun
    · refine step_of_ok (r := ⟨b, l⟩) (m := m) ?_ (hc.accounts h) ?_ fun _ => hc.disjoint h
      · simp only [AllocOp.exec, bind, EStateM.bind, hrun]; rfl
      · simpa [AllocOp.alignment] using ha
    · refine step_of_error h (e := .FilesystemFull) ?_
      simp only [AllocOp.exec, bind, EStateM.bind, hrun]
  | mark_allocated b n =>
    rcases mark_allocated_spec h b n with ⟨m, hrun, hc⟩ | ⟨e, hrun⟩
    · have hexec : (AllocOp.mark_allocated b n).exec s.map = .ok ⟨b, n⟩ m := by
        simp only [AllocOp.exec, bind, EStateM.bind, hrun]; rfl
      rcases hc with ⟨rfl, rfl⟩ | hc
      · -- Nothing is asked for, and nothing changes.
        refine step_of_ok hexec ?_ (by simp [AllocOp.alignment]) fun _ => by simp [Span.cells]
        simpa [AllocOp.live, AllocOp.freed, Span.cells] using h
      · exact step_of_ok hexec (hc.accounts h) (by simp [AllocOp.alignment]) fun _ => hc.disjoint h
    · refine step_of_error h (e := e) ?_
      simp only [AllocOp.exec, bind, EStateM.bind, hrun]
  | free_data b n =>
    rcases free_data_spec s.map b n with ⟨m, hrun, hc⟩ | ⟨e, hrun⟩
    · have hexec : (AllocOp.free_data b n).exec s.map = .ok ⟨b, n⟩ m := by
        simp only [AllocOp.exec, bind, EStateM.bind, hrun]; rfl
      rcases hc with ⟨rfl, rfl⟩ | ⟨hn, hc⟩
      · refine step_of_ok hexec ?_ (by simp [AllocOp.alignment]) False.elim
        simpa [AllocOp.live, AllocOp.freed, Span.cells] using h
      · exact step_of_ok hexec (hc.accounts h hn hp) (by simp [AllocOp.alignment]) False.elim
    · refine step_of_error h (e := e) ?_
      simp only [AllocOp.exec, bind, EStateM.bind, hrun]
  | free_metadata b n =>
    obtain ⟨hn, g, hg, hin⟩ := hf
    obtain ⟨bg, hbg, rfl⟩ := List.mem_map.mp hg
    have hc : Pinned s.map ⟨free_metadata_in_groups b n s.map.block_groups⟩ b n :=
      free_metadata_in_groups_spec (fun o ho => h.fits ho) ⟨bg, hbg, hin⟩
    exact step_of_ok rfl (hc.accounts h hn hp) (by simp [AllocOp.alignment]) False.elim
  | unpin_freed =>
    exact step_of_ok rfl (unpin_freed_accounts h) (by simp [AllocOp.alignment]) False.elim

/-! ## Every run -/

theorem AllocState.Accounts.unwrapped {s : AllocState} (h : s.Accounts) {op : AllocOp} (hp : s.Promised op)
    (hf : s.Fits op) : s.Unwrapped op := by
  cases op with
  | allocate_metadata_for_owner n owner => exact ⟨hp, hf⟩
  | allocate_data n a => exact ⟨hp.2, hf⟩
  | allocate_data_chunk n a => exact ⟨hp.2, hf⟩
  | free_metadata b n =>
    obtain ⟨-, g, hg, -, hstop⟩ := hf
    exact lt_of_le_of_lt hstop (h.groups.fits g hg)
  | exclude_ranges | mark_allocated | free_data | unpin_freed => trivial

namespace Ledger

variable {s s' : Ledger}

/-- The accounts, and that nothing excluded is free. -/
structure Kept (s : Ledger) : Prop where
  accounts : s.toAllocState.Accounts
  guarded : AllGuarded s.excluded s.map

theorem Kept.step {op : AllocOp} (h : s.Kept) (hfits : s.Fits op) : s.StepSound op ∧
    ∀ s', s.step op = some s' → s'.Kept := by
  obtain ⟨hacc, hsound⟩ := AllocState.step_accounts h.accounts hfits.1 hfits.2
  obtain ⟨hguarded, hclear⟩ := AllocState.step_guarded h.guarded (h.accounts.unwrapped hfits.1 hfits.2)
  refine ⟨⟨hsound, hclear⟩, ?_⟩
  rintro s' hstep
  cases hstep
  refine ⟨hacc, ?_⟩
  cases op with
  | exclude_ranges l => exact hguarded.union (h.accounts.guards hfits.2)
  | allocate_metadata_for_owner | allocate_data | allocate_data_chunk | mark_allocated | free_data | free_metadata
  | unpin_freed => exact hguarded

theorem Kept.sound (h : s.Kept) : s.Sound :=
  ⟨h.accounts.sound, fun bg hbg => (h.guarded bg hbg).excluded⟩

end Ledger

/-- Every state of a run whose steps fit is sound, and so is every further step that fits. -/
theorem allocator_contract (tree : ExtentTree) (chunk_map : ChunkMap) (m : FreeSpaceMap)
    (hread : tree.WellRead) (hfit : tree.ExtentsFit)
    (hclear : Disjoint tree.live (rangeCells (compute_sb_exclusions chunk_map)))
    (hmap : from_extent_tree_and_chunk_map tree chunk_map = .ok m) (ops : List AllocOp) (s : Ledger)
    (hcond : Machine.Meets Ledger.step Ledger.Fits (tree.ledger chunk_map m) ops)
    (hrun : Machine.run Ledger.step (tree.ledger chunk_map m) ops = some s) :
    s.Sound ∧ ∀ op, s.Fits op → s.StepSound op := by
  have hstart : (tree.ledger chunk_map m).Kept :=
    ⟨from_extent_tree_and_chunk_map_accounts hread hfit hmap,
      from_extent_tree_and_chunk_map_guarded subset_rfl hclear hfit.ends hmap⟩
  have hkept : s.Kept :=
    Machine.run_keeps Ledger.Kept (fun _ _ _ h hfits hstep => (h.step hfits).2 _ hstep) ops hstart hcond hrun
  exact ⟨hkept.sound, fun op hop => (hkept.step hop).1⟩

/-! ## One data group, empty -/

/-- A filesystem with one data group of 1 MiB and nothing in it. -/
def oneGroup : ExtentTree := ⟨[⟨1048576, 1048576, 0, 256, BLOCK_GROUP_DATA⟩], []⟩

def oneGroupSpace (free_ranges : List FreeRange) (used free : Nat) : FreeSpaceMap :=
  ⟨[⟨⟨1048576, 1048576, used, 256, BLOCK_GROUP_DATA⟩, [], free_ranges, [], [], used, free⟩]⟩

theorem oneGroup_wellRead : oneGroup.WellRead where
  groups := ⟨by simp [oneGroup, BlockGroupItem.stop, size], by simp [oneGroup]⟩
  sorted := by simp [oneGroup]

theorem oneGroup_map : from_extent_tree_and_chunk_map oneGroup ⟨[]⟩ =
    .ok (oneGroupSpace [⟨1048576, 1048576⟩] 0 1048576) := by decide +kernel

theorem blockSize_sector : AllocState.BlockSize 4096 := ⟨12, by decide, by decide⟩

/-- What an operation that succeeds comes back with. -/
def AllocOp.outcome (op : AllocOp) (m : FreeSpaceMap) : Option (Span × FreeSpaceMap) :=
  match op.exec m with
  | .ok r m => some (r, m)
  | .error _ _ => none

theorem Ledger.step_of_outcome {s : Ledger} {op : AllocOp} {r : Span} {m : FreeSpaceMap}
    (h : op.outcome s.map = some (r, m)) :
    s.step op = some ⟨⟨m, op.live s.live r, op.freed s.freed r⟩, op.excluded s.excluded⟩ := by
  unfold AllocOp.outcome at h
  split at h
  · rename_i hrun
    cases h
    simp only [Ledger.step, AllocState.step, hrun]
  · cases h

theorem oneGroup_live : oneGroup.live = ∅ := by
  simp [oneGroup, ExtentTree.live]

-- The second sector is excluded, and the first one taken, given back and unpinned.
def turnOver : List AllocOp :=
  [.exclude_ranges [⟨1052672, 1056768⟩], .allocate_data 4096 4096, .free_data 1048576 4096, .unpin_freed]

def excludedSpace (free_ranges pinned_freed : List FreeRange) (used allocated free : Nat) : FreeSpaceMap :=
  ⟨[⟨⟨1048576, 1048576, used, 256, BLOCK_GROUP_DATA⟩, [], free_ranges, pinned_freed, [⟨1052672, 4096⟩], allocated,
    free⟩]⟩

/-- Two sectors are then handed out behind the excluded one. -/
theorem allocator_contract_turn_over :
    ∃ s, Machine.run Ledger.step (oneGroup.ledger ⟨[]⟩ (oneGroupSpace [⟨1048576, 1048576⟩] 0 1048576)) turnOver =
      some s ∧ s.Sound ∧ s.StepSound (.allocate_data 8192 4096) ∧
      ((AllocOp.allocate_data 8192 4096).outcome s.map).map Prod.fst = some ⟨1056768, 8192⟩ := by
  have h₁ : AllocOp.outcome (.exclude_ranges [⟨1052672, 1056768⟩]) (oneGroupSpace [⟨1048576, 1048576⟩] 0 1048576) =
      some (⟨0, 0⟩, excludedSpace [⟨1048576, 4096⟩, ⟨1056768, 1040384⟩] [] 0 0 1044480) := by decide +kernel
  have h₂ : AllocOp.outcome (.allocate_data 4096 4096)
      (excludedSpace [⟨1048576, 4096⟩, ⟨1056768, 1040384⟩] [] 0 0 1044480) =
      some (⟨1048576, 4096⟩, excludedSpace [⟨1056768, 1040384⟩] [] 4096 4096 1040384) := by decide +kernel
  have h₃ : AllocOp.outcome (.free_data 1048576 4096) (excludedSpace [⟨1056768, 1040384⟩] [] 4096 4096 1040384) =
      some (⟨1048576, 4096⟩, excludedSpace [⟨1056768, 1040384⟩] [⟨1048576, 4096⟩] 0 4096 1040384) := by decide +kernel
  have h₄ : AllocOp.outcome .unpin_freed (excludedSpace [⟨1056768, 1040384⟩] [⟨1048576, 4096⟩] 0 4096 1040384) =
      some (⟨0, 0⟩, excludedSpace [⟨1048576, 4096⟩, ⟨1056768, 1040384⟩] [] 0 4096 1044480) := by decide +kernel
  have hlast : AllocOp.outcome (.allocate_data 8192 4096)
      (excludedSpace [⟨1048576, 4096⟩, ⟨1056768, 1040384⟩] [] 0 4096 1044480) =
      some (⟨1056768, 8192⟩, excludedSpace [⟨1048576, 4096⟩, ⟨1064960, 1032192⟩] [] 8192 12288 1036288) := by
    decide +kernel
  have hroom {s : Ledger} {used allocated free n : Nat} (hn : n ≤ 8192)
      (hs : s.map = excludedSpace [⟨1048576, 4096⟩, ⟨1056768, 1040384⟩] [] used allocated free) :
      s.Fits (.allocate_data n 4096) := by
    refine ⟨⟨by unfold size; omega, blockSize_sector⟩, ?_⟩
    simp only [AllocState.Fits, hs, excludedSpace, forall_eq, List.mem_cons, List.not_mem_nil, or_false,
      forall_eq_or_imp, size]
    omega
  have hcond : Machine.Meets Ledger.step Ledger.Fits
      (oneGroup.ledger ⟨[]⟩ (oneGroupSpace [⟨1048576, 1048576⟩] 0 1048576)) turnOver := by
    refine ⟨⟨trivial, ?_⟩, fun s₁ hs₁ => ?_⟩
    · simp [AllocState.Fits, ExtentTree.ledger, ExtentTree.start, oneGroup_live]
    cases (Ledger.step_of_outcome h₁).symm.trans hs₁
    refine ⟨hroom (by decide) rfl, fun s₂ hs₂ => ?_⟩
    cases (Ledger.step_of_outcome h₂).symm.trans hs₂
    refine ⟨⟨?_, trivial⟩, fun s₃ hs₃ => ?_⟩
    · exact Set.subset_union_right
    cases (Ledger.step_of_outcome h₃).symm.trans hs₃
    exact ⟨⟨trivial, trivial⟩, fun _ _ => trivial⟩
  have hrun : Machine.run Ledger.step (oneGroup.ledger ⟨[]⟩ (oneGroupSpace [⟨1048576, 1048576⟩] 0 1048576)) turnOver =
      some _ :=
    Machine.run_cons.mpr ⟨_, Ledger.step_of_outcome h₁, Machine.run_cons.mpr ⟨_, Ledger.step_of_outcome h₂,
      Machine.run_cons.mpr ⟨_, Ledger.step_of_outcome h₃, Machine.run_cons.mpr ⟨_, Ledger.step_of_outcome h₄, rfl⟩⟩⟩⟩
  have hfit : oneGroup.ExtentsFit :=
    ⟨by simp [oneGroup, ExtentTree.startingIn], by simp [oneGroup, ExtentTree.startingIn], by simp [oneGroup]⟩
  obtain ⟨hsound, hsteps⟩ := allocator_contract oneGroup ⟨[]⟩ _ oneGroup_wellRead hfit (by simp [oneGroup_live])
    oneGroup_map turnOver _ hcond hrun
  exact ⟨_, hrun, hsound, hsteps _ (hroom (by decide) rfl), by rw [hlast]; rfl⟩

theorem allocate_data_huge :
    (AllocOp.allocate_data (2 ^ 64 - 4096) 4096).exec (oneGroupSpace [⟨1048576, 1048576⟩] 0 1048576) =
      .ok ⟨1048576, 2 ^ 64 - 4096⟩
        (oneGroupSpace [⟨1044480, 1052672⟩] (2 ^ 64 - 4096) 1052672) := by
  have hin : allocate_in bg_holds_data (2 ^ 64 - 4096) 4096
      (oneGroupSpace [⟨1048576, 1048576⟩] 0 1048576).block_groups = some (1048576,
        (oneGroupSpace [⟨1044480, 1052672⟩] (2 ^ 64 - 4096) 1052672).block_groups) := by
    decide +kernel
  simp only [AllocOp.exec, allocate_data, allocate_with, bind, EStateM.bind, get, getThe,
    MonadStateOf.get, EStateM.get, hin]
  rfl

/-- A request just below `2 ^ 64` bytes: the end of the range wraps round to an address below the
group, the request is granted, and the free range that stays starts before the group. -/
theorem allocate_data_wraps :
    ¬ AllocatorContract (fun _ _ => True) Ledger.Promised := by
  intro h
  have hstep : Machine.run Ledger.step (oneGroup.ledger ⟨[]⟩ (oneGroupSpace [⟨1048576, 1048576⟩] 0 1048576))
      [.allocate_data (2 ^ 64 - 4096) 4096] = some _ :=
    Machine.run_cons.mpr ⟨_, Ledger.step_of_outcome (by
      show AllocOp.outcome _ (oneGroupSpace [⟨1048576, 1048576⟩] 0 1048576) = _
      rw [AllocOp.outcome, allocate_data_huge]), rfl⟩
  have hsound := (h oneGroup ⟨[]⟩ _ oneGroup_wellRead trivial oneGroup_map [.allocate_data (2 ^ 64 - 4096) 4096] _
    ⟨⟨by simp [size], blockSize_sector⟩, fun _ _ => trivial⟩ hstep).1
  have hin := (hsound.accounts.each _ (List.mem_singleton_self _)).free_in ⟨1044480, 1052672⟩
    (List.mem_singleton_self _)
  simp at hin

end LuksAndroid.Btrfs

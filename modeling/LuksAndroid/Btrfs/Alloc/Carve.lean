import LuksAndroid.Btrfs.Alloc.Group

/-!
# Allocation takes free bytes and nothing else

Every allocation, whatever its search, ends by carving one window out of one free
range. `Carved` says so, and one theorem gives the accounts after it. The rest
shows that each function of the source carves.
-/

namespace LuksAndroid.Btrfs

open Word Spans

/-- `l'` is the list `l` without the window `[b, b + n)`, all of which was in `l`. -/
structure Taken (l l' : List FreeRange) (b n : Nat) : Prop where
  ordered : Ordered l'
  covers_eq : covers l' = covers l \ Set.Ico b (b + n)
  window : Set.Ico b (b + n) ⊆ covers l

theorem cut_taken {pre post : List FreeRange} {r : FreeRange} {b n : Nat}
    (h : Ordered (pre ++ r :: post)) (hb : r.start ≤ b) (hn : b + n ≤ r.stop) :
    Taken (pre ++ r :: post) (pre ++ cut r b (b + n) ++ post) b n where
  ordered := h.replace (ordered_cut (by omega)) (cut_within (by omega) (by omega))
  covers_eq := covers_replace_cut h (by omega) hb hn
  window := by
    intro x hx
    refine ⟨r, by simp, ?_⟩
    simp only [Set.mem_Ico, Span.mem_cells] at hx ⊢
    omega

/-- `m'` is `m` with the free bytes `[b, b + n)` of one group in use. -/
def Carved (m m' : FreeSpaceMap) (b n : Nat) : Prop :=
  ∃ pre bg post free, m.block_groups = pre ++ bg :: post ∧
    m' = ⟨pre ++ count_allocated bg free n :: post⟩ ∧ Taken bg.free_ranges free b n

/-- `m'` is `m` with the window `[b, b + n)` cut out of one free range. -/
def CutOut (m m' : FreeSpaceMap) (b n : Nat) : Prop :=
  ∃ pre bg post lp r lq, m.block_groups = pre ++ bg :: post ∧ bg.free_ranges = lp ++ r :: lq ∧
    m' = ⟨pre ++ count_allocated bg (lp ++ cut r b (b + n) ++ lq) n :: post⟩ ∧ r.start ≤ b ∧ b + n ≤ r.stop

theorem CutOut.carved {m m' : FreeSpaceMap} {b n : Nat} (h : CutOut m m' b n)
    (ho : ∀ bg ∈ m.block_groups, Ordered bg.free_ranges) : Carved m m' b n := by
  obtain ⟨pre, bg, post, lp, r, lq, hm, hl, rfl, hb, hn⟩ := h
  have hord := ho bg (by simp [hm])
  refine ⟨pre, bg, post, _, hm, rfl, ?_⟩
  rw [hl] at hord ⊢
  exact cut_taken hord hb hn

/-! ## The accounts after a carve -/

theorem ncard_window (b n : Nat) : (Set.Ico b (b + n)).ncard = n := by
  rw [← Finset.coe_Ico, Set.ncard_coe_finset, Nat.card_Ico]; omega

theorem GroupAccounts.carve {live : Set Nat} {bg : BlockGroupFreeSpace} {free : List FreeRange}
    {b n : Nat} (h : GroupAccounts live bg) (hfits : bg.block_group.stop < size)
    (ht : Taken bg.free_ranges free b n) :
    GroupAccounts (live ∪ Set.Ico b (b + n)) (count_allocated bg free n) := by
  have hsub : covers free ⊆ covers bg.free_ranges := by
    rw [ht.covers_eq]; exact Set.sdiff_subset
  have hwin : Set.Ico b (b + n) ⊆ bg.block_group.cells := ht.window.trans h.free_sub
  have hnew : Disjoint (live ∩ bg.block_group.cells) (Set.Ico b (b + n)) := by
    rw [Set.disjoint_left]
    rintro x ⟨hx, -⟩ hw
    exact h.free_not_live (ht.window hw) hx
  have hcap : (live ∪ Set.Ico b (b + n)) ∩ bg.block_group.cells =
      live ∩ bg.block_group.cells ∪ Set.Ico b (b + n) := by
    rw [Set.union_inter_distrib_right, Set.inter_eq_left.mpr hwin]
  have hused : bg.block_group.used + n =
      ((live ∪ Set.Ico b (b + n)) ∩ bg.block_group.cells).ncard := by
    rw [hcap, Set.ncard_union_eq hnew (GroupAccounts.finite_live _ _) (Set.finite_Ico _ _),
      ncard_window, h.used]
  have hle : bg.block_group.used + n ≤ bg.block_group.length := by
    rw [hused, ← GroupAccounts.ncard_cells bg.block_group]
    exact Set.ncard_le_ncard Set.inter_subset_right (Set.finite_Ico _ _)
  have htotal : total bg.free_ranges = total free + n := by
    have hsum := Set.ncard_sdiff_add_ncard_of_subset ht.window (finite_covers _)
    rw [← ht.covers_eq, ncard_window, h.free.ncard_covers, ht.ordered.ncard_covers] at hsum
    exact hsum.symm
  have hfree := Ordered.total_le h.free h.free_in
  have hstop : bg.block_group.stop = bg.block_group.start + bg.block_group.length := rfl
  refine {
    free := ht.ordered
    pinned := h.pinned
    excluded := h.excluded
    free_in := ht.ordered.within_of_covers (hsub.trans h.free_sub)
    pinned_in := h.pinned_in
    excluded_in := h.excluded_in
    free_pinned := h.free_pinned.mono_left hsub
    free_excluded := h.free_excluded.mono_left hsub
    pinned_excluded := h.pinned_excluded
    live_rest := ?_
    used := ?_
    total_free := ?_ }
  · change (live ∪ _) ∩ bg.block_group.cells = bg.block_group.cells \ (covers free ∪ _ ∪ _)
    rw [hcap, h.live_rest, ht.covers_eq]
    ext x
    have hp : x ∈ covers bg.free_ranges → x ∉ covers bg.pinned_freed :=
      fun hx => Set.disjoint_left.mp h.free_pinned hx
    have he : x ∈ covers bg.free_ranges → x ∉ covers bg.excluded_ranges :=
      fun hx => Set.disjoint_left.mp h.free_excluded hx
    have hw : x ∈ Set.Ico b (b + n) → x ∈ covers bg.free_ranges := fun hx => ht.window hx
    have hc : x ∈ covers bg.free_ranges → x ∈ bg.block_group.cells := fun hx => h.free_sub hx
    simp only [count_allocated, Set.mem_union, Set.mem_sdiff]
    tauto
  · change wrapping_add bg.block_group.used n = _
    rw [wrapping_add_of_lt (by omega)]
    exact hused
  · change wrapping_sub bg.total_free_bytes n = total free
    rw [h.total_free, wrapping_sub_of_le (by omega) (by omega)]
    omega

theorem Carved.accounts {s : AllocState} {m' : FreeSpaceMap} {b n : Nat} (h : s.Accounts)
    (hc : Carved s.map m' b n) :
    AllocState.Accounts ⟨m', s.live ∪ Set.Ico b (b + n), s.freed⟩ := by
  obtain ⟨pre, bg, post, free, hm, rfl, ht⟩ := hc
  have hg := h.group hm
  have hcarve := hg.carve (h.fits (by simp [hm])) ht
  refine h.replace hm (rfl : (count_allocated bg free n).block_group.start = _) rfl ?_ hcarve ?_
  · intro x hx
    have : x ∉ Set.Ico b (b + n) := fun hw => hx (hg.free_sub (ht.window hw))
    simp only [Set.mem_union, this, or_false]
  · rw [h.freed, FreeSpaceMap.pinned_replace]
    exact (congrArg (fun l => FreeSpaceMap.pinned ⟨l⟩) hm).trans (FreeSpaceMap.pinned_replace _ _ _)

/-- What an allocation hands out was neither live nor freed nor excluded. -/
theorem Carved.disjoint {s : AllocState} {m' : FreeSpaceMap} {b n : Nat} (h : s.Accounts)
    (hc : Carved s.map m' b n) :
    Disjoint (Set.Ico b (b + n)) (s.live ∪ s.freed ∪ s.map.excluded) := by
  obtain ⟨pre, bg, post, free, hm, -, ht⟩ := hc
  have hg := h.group hm
  have hsplit : ∀ o ∈ s.map.block_groups, o = bg ∨ o ∈ pre ++ post := by
    intro o ho
    rw [hm] at ho
    simp only [List.mem_append, List.mem_cons] at ho ⊢
    tauto
  rw [Set.disjoint_left]
  intro x hx
  have hfree := ht.window hx
  have hcell := hg.free_sub hfree
  rintro ((hl | hf) | he)
  · exact hg.free_not_live hfree hl
  · rw [h.freed] at hf
    obtain ⟨o, ho, hxo⟩ := hf
    rcases hsplit o ho with rfl | ho'
    · exact Set.disjoint_left.mp hg.free_pinned hfree hxo
    · exact Set.disjoint_left.mp (h.apart_of_mem hm ho') ((h.each o ho).pinned_sub hxo) hcell
  · obtain ⟨o, ho, hxo⟩ := he
    rcases hsplit o ho with rfl | ho'
    · exact Set.disjoint_left.mp hg.free_excluded hfree hxo
    · exact Set.disjoint_left.mp (h.apart_of_mem hm ho') ((h.each o ho).excluded_sub hxo) hcell

/-! ## First fit: `allocate_metadata_for_owner` and `allocate_data` -/

theorem carve_eq_cut {r : FreeRange} {b n : Nat} (hr : r.stop < size) (hb : r.start ≤ b)
    (hn : b + n ≤ r.stop) : carve r b n = cut r b (b + n) := by
  have hstop : r.stop = r.start + r.length := rfl
  rw [carve, cut, wrapping_sub_of_le hb (by omega), wrapping_add_of_lt (by omega : r.start + r.length < size),
    wrapping_add_of_lt (by omega : b + n < size), wrapping_sub_of_le (by omega) (by omega), ← hstop]
  congr 1
  · by_cases h : r.start < b
    · rw [if_pos h, if_pos (by omega)]
    · rw [if_neg h, if_neg (by omega)]
  · by_cases h : b + n < r.stop
    · rw [if_pos h, if_pos (by omega)]
    · rw [if_neg h, if_neg (by omega)]

theorem first_fit_spec {n k : Nat} {l l' : List FreeRange} {b : Nat} (hk : k < 64)
    (hstop : ∀ r ∈ l, r.stop < size) (hfit : ∀ r ∈ l, r.start + 2 ^ k - 1 + n < size)
    (h : first_fit n (2 ^ k) l = some (b, l')) :
    ∃ pre r post, l = pre ++ r :: post ∧ l' = pre ++ cut r b (b + n) ++ post ∧
      r.start ≤ b ∧ b + n ≤ r.stop ∧ b % 2 ^ k = 0 := by
  induction l generalizing l' with
  | nil => simp [first_fit] at h
  | cons r l ih =>
    have hr := hfit r (by simp)
    have hs := hstop r (by simp)
    have hpos : 0 < 2 ^ k := Nat.two_pow_pos k
    obtain ⟨h1, h2, h3⟩ := align_up_spec (x := r.start) hk (by omega)
    have hr_stop : r.stop = r.start + r.length := rfl
    have hsum : wrapping_add (align_up r.start (2 ^ k)) n = align_up r.start (2 ^ k) + n :=
      wrapping_add_of_lt (by omega)
    rw [first_fit, hsum, wrapping_add_of_lt (by omega : r.start + r.length < size)] at h
    split at h
    · -- The first range has room.
      rename_i hroom
      simp only [Option.some.injEq, Prod.mk.injEq] at h
      obtain ⟨rfl, rfl⟩ := h
      refine ⟨[], r, l, rfl, ?_, h1, by omega, h3⟩
      rw [carve_eq_cut hs h1 (by omega), List.nil_append]
    · obtain ⟨⟨b', l₁⟩, hrest, heq⟩ := Option.map_eq_some_iff.mp h
      simp only [Prod.mk.injEq] at heq
      obtain ⟨rfl, rfl⟩ := heq
      obtain ⟨pre, r', post, rfl, rfl, hb⟩ :=
        ih (fun c hc => hstop c (by simp [hc])) (fun c hc => hfit c (by simp [hc])) hrest
      exact ⟨r :: pre, r', post, rfl, rfl, hb⟩

theorem allocate_in_spec {is_match : Nat → Bool} {n a b : Nat} {gs gs' : List BlockGroupFreeSpace}
    (h : allocate_in is_match n a gs = some (b, gs')) :
    ∃ pre bg post free, gs = pre ++ bg :: post ∧ gs' = pre ++ count_allocated bg free n :: post ∧
      first_fit n a bg.free_ranges = some (b, free) := by
  induction gs generalizing gs' with
  | nil => simp [allocate_in] at h
  | cons bg gs ih =>
    rw [allocate_in] at h
    split at h
    · rename_i b' free hfit
      simp only [Option.some.injEq, Prod.mk.injEq] at h
      obtain ⟨rfl, rfl⟩ := h
      split at hfit
      · exact ⟨[], bg, gs, free, rfl, rfl, hfit⟩
      · cases hfit
    · obtain ⟨⟨b', gs₁⟩, hrest, heq⟩ := Option.map_eq_some_iff.mp h
      simp only [Prod.mk.injEq] at heq
      obtain ⟨rfl, rfl⟩ := heq
      obtain ⟨pre, bg', post, free, rfl, rfl, hfit⟩ := ih hrest
      exact ⟨bg :: pre, bg', post, free, rfl, rfl, hfit⟩

/-- All that the searches need: ordered free lists whose ends are words. -/
structure FreeSpaceMap.FreeOrdered (m : FreeSpaceMap) : Prop where
  ordered : ∀ bg ∈ m.block_groups, Ordered bg.free_ranges
  stop : ∀ bg ∈ m.block_groups, ∀ r ∈ bg.free_ranges, r.stop < size

theorem AllocState.Accounts.freeOrdered {s : AllocState} (h : s.Accounts) : s.map.FreeOrdered where
  ordered := fun bg hbg => (h.each bg hbg).free
  stop := fun bg hbg r hr => lt_of_le_of_lt ((h.each bg hbg).free_in r hr).2 (h.fits hbg)

theorem allocate_with_cuts {m : FreeSpaceMap}
    (hstop : ∀ bg ∈ m.block_groups, ∀ r ∈ bg.free_ranges, r.stop < size) (is_match : Nat → Bool) {n k : Nat}
    (hk : k < 64)
    (hfit : ∀ bg ∈ m.block_groups, ∀ r ∈ bg.free_ranges, r.start + 2 ^ k - 1 + n < size) :
    (∃ b m', allocate_with is_match n (2 ^ k) m = .ok b m' ∧ CutOut m m' b n ∧ b % 2 ^ k = 0) ∨
    allocate_with is_match n (2 ^ k) m = .error .FilesystemFull m := by
  unfold allocate_with
  simp only [bind, EStateM.bind, get, getThe, MonadStateOf.get, EStateM.get]
  cases hin : allocate_in is_match n (2 ^ k) m.block_groups with
  | none => exact Or.inr rfl
  | some p =>
    obtain ⟨b, gs⟩ := p
    obtain ⟨pre, bg, post, free, hm, rfl, hff⟩ := allocate_in_spec hin
    have hbg : bg ∈ m.block_groups := by simp [hm]
    obtain ⟨lp, r, lq, hl, rfl, hb, hn, ha⟩ := first_fit_spec hk (hstop bg hbg) (hfit bg hbg) hff
    exact Or.inl ⟨b, _, rfl, ⟨pre, bg, post, lp, r, lq, hm, hl, rfl, hb, hn⟩, ha⟩

theorem allocate_with_spec {m : FreeSpaceMap} (h : m.FreeOrdered) (is_match : Nat → Bool) {n k : Nat}
    (hk : k < 64)
    (hfit : ∀ bg ∈ m.block_groups, ∀ r ∈ bg.free_ranges, r.start + 2 ^ k - 1 + n < size) :
    (∃ b m', allocate_with is_match n (2 ^ k) m = .ok b m' ∧ Carved m m' b n ∧ b % 2 ^ k = 0) ∨
    allocate_with is_match n (2 ^ k) m = .error .FilesystemFull m := by
  rcases allocate_with_cuts h.stop is_match hk hfit with ⟨b, m', hrun, hcut, ha⟩ | hrun
  · exact Or.inl ⟨b, m', hrun, hcut.carved h.ordered, ha⟩
  · exact Or.inr hrun

/-! ## Best fit: `allocate_data_chunk` -/

/-- Whatever holds of every window the ranges offer holds of the choice. -/
theorem scan_ranges_spec {P : ChunkChoice → Prop} {k m bg_idx : Nat} (hk : k < 64)
    (l : List FreeRange) (i : Nat) (best : Option ChunkChoice)
    (hstop : ∀ r ∈ l, r.stop < size) (hfit : ∀ r ∈ l, r.start + 2 ^ k - 1 < size)
    (hbest : ∀ c ∈ best, P c)
    (hP : ∀ j r, l[j]? = some r → ∀ b n, r.start ≤ b → b + n ≤ r.stop → b % 2 ^ k = 0 →
      P ⟨bg_idx, i + j, b, n⟩) :
    ∀ c ∈ scan_ranges (2 ^ k) m bg_idx i l best, P c := by
  induction l generalizing i best with
  | nil => exact hbest
  | cons r l ih =>
    have hs := hstop r (by simp)
    obtain ⟨h1, -, h3⟩ := align_up_spec (x := r.start) hk (hfit r (by simp))
    have hrest : ∀ best', (∀ c ∈ best', P c) →
        ∀ c ∈ scan_ranges (2 ^ k) m bg_idx (i + 1) l best', P c := by
      intro best' hbest'
      refine ih (i + 1) best' (fun c hc => hstop c (by simp [hc])) (fun c hc => hfit c (by simp [hc]))
        hbest' ?_
      intro j c hc b n hb hn ha
      rw [show i + 1 + j = i + (j + 1) by omega]
      exact hP (j + 1) c (by simpa using hc) b n hb hn ha
    have hend : saturating_add r.start r.length = r.stop := saturating_add_of_lt hs
    rw [scan_ranges]
    simp only [hend]
    generalize align_up r.start (2 ^ k) = a at h1 h3 ⊢
    split
    · exact hrest best hbest
    · rename_i hlt
      split
      · exact hrest best hbest
      · -- The window starts aligned and ends inside the range.
        have hnew : P ⟨bg_idx, i, a, min ((r.stop - a) / 2 ^ k * 2 ^ k) m⟩ := by
          have hlen : min ((r.stop - a) / 2 ^ k * 2 ^ k) m ≤ r.stop - a :=
            (min_le_left _ _).trans (Nat.div_mul_le_self _ _)
          have hwin := hP 0 r (by simp) a _ h1 (by omega : a + min ((r.stop - a) / 2 ^ k * 2 ^ k) m ≤ r.stop) h3
          rwa [Nat.add_zero] at hwin
        split
        · split
          · simpa using hnew
          · exact hrest _ (by simpa using hnew)
        · exact hrest best hbest

theorem scan_groups_spec {P : ChunkChoice → Prop} {k m : Nat} (hk : k < 64)
    (gs : List BlockGroupFreeSpace) (i : Nat) (best : Option ChunkChoice)
    (hstop : ∀ bg ∈ gs, ∀ r ∈ bg.free_ranges, r.stop < size)
    (hfit : ∀ bg ∈ gs, ∀ r ∈ bg.free_ranges, r.start + 2 ^ k - 1 < size)
    (hbest : ∀ c ∈ best, P c)
    (hP : ∀ j bg, gs[j]? = some bg → ∀ q r, bg.free_ranges[q]? = some r → ∀ b n, r.start ≤ b →
      b + n ≤ r.stop → b % 2 ^ k = 0 → P ⟨i + j, q, b, n⟩) :
    ∀ c ∈ scan_groups (2 ^ k) m i gs best, P c := by
  induction gs generalizing i best with
  | nil => exact hbest
  | cons bg gs ih =>
    have hrest : ∀ best', (∀ c ∈ best', P c) →
        ∀ c ∈ scan_groups (2 ^ k) m (i + 1) gs best', P c := by
      intro best' hbest'
      refine ih (i + 1) best' (fun g hg => hstop g (by simp [hg])) (fun g hg => hfit g (by simp [hg]))
        hbest' ?_
      intro j g hg
      rw [show i + 1 + j = i + (j + 1) by omega]
      exact hP (j + 1) g (by simpa using hg)
    rw [scan_groups]
    split
    · exact hrest best hbest
    · have hin := scan_ranges_spec (m := m) hk bg.free_ranges 0 best
        (hstop bg (by simp)) (hfit bg (by simp)) hbest fun j r hj b n hb hn ha => by
          simpa using hP 0 bg (by simp) j r hj b n hb hn ha
      split
      · exact hrest none (by simp)
      · rename_i c hc
        rw [hc] at hin
        split
        · exact hin
        · exact hrest (some c) hin

theorem carve_at_eq_cut {l : List FreeRange} {i b n : Nat} {r : FreeRange} (hr : l[i]? = some r)
    (hs : r.stop < size) (hb : r.start ≤ b) (hn : b + n ≤ r.stop) :
    ∃ lp lq, l = lp ++ r :: lq ∧ carve_at l i b n = lp ++ cut r b (b + n) ++ lq := by
  obtain ⟨hi, rfl⟩ := List.getElem?_eq_some_iff.mp hr
  refine ⟨l.take i, l.drop (i + 1), by simp, ?_⟩
  rw [carve_at, hr]
  simp only [carve_eq_cut hs hb hn]

theorem allocate_data_chunk_cuts {m : FreeSpaceMap}
    (hstop : ∀ bg ∈ m.block_groups, ∀ r ∈ bg.free_ranges, r.stop < size) (max_size : Nat) {k : Nat}
    (hk : k < 64)
    (hfit : ∀ bg ∈ m.block_groups, ∀ r ∈ bg.free_ranges, r.start + 2 ^ k - 1 < size) :
    (∃ b n m', allocate_data_chunk max_size (2 ^ k) m = .ok (b, n) m' ∧ CutOut m m' b n ∧
      b % 2 ^ k = 0) ∨
    allocate_data_chunk max_size (2 ^ k) m = .error .FilesystemFull m := by
  unfold allocate_data_chunk
  by_cases h0 : max_size = 0
  · simp only [h0, if_true]
    exact Or.inr rfl
  by_cases h1 : max_size / 2 ^ k * 2 ^ k = 0
  · simp only [h0, h1, if_true, if_false]
    exact Or.inr rfl
  simp only [h0, h1, if_false]
  simp only [bind, EStateM.bind, get, getThe, MonadStateOf.get, EStateM.get]
  have hchoice := scan_groups_spec
    (P := fun c => ∃ bg r, m.block_groups[c.bg_idx]? = some bg ∧
      bg.free_ranges[c.range_idx]? = some r ∧ r.start ≤ c.aligned_start ∧
      c.aligned_start + c.alloc_len ≤ r.stop ∧ c.aligned_start % 2 ^ k = 0)
    (m := max_size / 2 ^ k * 2 ^ k) hk m.block_groups 0 none
    hstop hfit (by simp)
    (fun j bg hj q r hq b n hb hn ha => ⟨bg, r, by simpa using hj, hq, hb, hn, ha⟩)
  cases hc : scan_groups (2 ^ k) (max_size / 2 ^ k * 2 ^ k) 0 m.block_groups none with
  | none => exact Or.inr rfl
  | some c =>
    obtain ⟨bg, r, hbg, hr, hb, hn, ha⟩ := hchoice c hc
    obtain ⟨hi, rfl⟩ := List.getElem?_eq_some_iff.mp hbg
    have hmem := List.getElem_mem hi
    have hsplit : m.block_groups = m.block_groups.take c.bg_idx ++
        m.block_groups[c.bg_idx] :: m.block_groups.drop (c.bg_idx + 1) := by simp
    obtain ⟨lp, lq, hl, hcarve⟩ := carve_at_eq_cut hr (hstop _ hmem r (List.mem_of_getElem? hr)) hb hn
    refine Or.inl ⟨_, _, _, rfl, ⟨_, _, _, lp, r, lq, hsplit, hl, ?_, hb, hn⟩, ha⟩
    rw [List.modify_eq_take_cons_drop hi, hcarve]

theorem allocate_data_chunk_spec {s : AllocState} (h : s.Accounts) (max_size : Nat) {k : Nat}
    (hk : k < 64)
    (hfit : ∀ bg ∈ s.map.block_groups, ∀ r ∈ bg.free_ranges, r.start + 2 ^ k - 1 < size) :
    (∃ b n m, allocate_data_chunk max_size (2 ^ k) s.map = .ok (b, n) m ∧ Carved s.map m b n ∧
      b % 2 ^ k = 0) ∨
    allocate_data_chunk max_size (2 ^ k) s.map = .error .FilesystemFull s.map := by
  rcases allocate_data_chunk_cuts h.freeOrdered.stop max_size hk hfit with ⟨b, n, m, hrun, hcut, ha⟩ | hrun
  · exact Or.inl ⟨b, n, m, hrun, hcut.carved h.freeOrdered.ordered, ha⟩
  · exact Or.inr hrun

/-! ## `mark_allocated` -/

theorem mark_in_ranges_spec {b stop : Nat} {l l' : List FreeRange} (hstop : ∀ r ∈ l, r.stop < size)
    (h : mark_in_ranges b stop l = some l') :
    ∃ pre r post, l = pre ++ r :: post ∧ l' = pre ++ cut r b stop ++ post ∧
      r.start ≤ b ∧ stop ≤ r.stop := by
  induction l generalizing l' with
  | nil => simp [mark_in_ranges] at h
  | cons r l ih =>
    have hend : saturating_add r.start r.length = r.stop := saturating_add_of_lt (hstop r (by simp))
    simp only [mark_in_ranges, hend] at h
    split at h
    · rename_i hin
      refine ⟨[], r, l, rfl, ?_, hin.1, hin.2⟩
      simp only [Option.some.injEq] at h
      rw [← h, List.nil_append, cut]
      congr 2
      · by_cases hlt : r.start < b
        · rw [if_pos hlt, if_pos (by omega)]
        · rw [if_neg hlt, if_neg (by omega)]
      · by_cases hlt : stop < r.stop
        · rw [if_pos hlt, if_pos (by omega)]
        · rw [if_neg hlt, if_neg (by omega)]
    · obtain ⟨l₁, hrest, rfl⟩ := Option.map_eq_some_iff.mp h
      obtain ⟨pre, r', post, rfl, rfl, hb⟩ := ih (fun c hc => hstop c (by simp [hc])) hrest
      exact ⟨r :: pre, r', post, rfl, rfl, hb⟩

theorem mark_in_groups_spec {b stop n : Nat} {gs gs' : List BlockGroupFreeSpace}
    (h : mark_in_groups b stop n gs = .ok gs') :
    ∃ pre bg post free, gs = pre ++ bg :: post ∧ gs' = pre ++ count_allocated bg free n :: post ∧
      mark_in_ranges b stop bg.free_ranges = some free := by
  induction gs generalizing gs' with
  | nil => simp [mark_in_groups] at h
  | cons bg gs ih =>
    simp only [mark_in_groups] at h
    split at h
    · split at h
      · rename_i free hfree
        cases h
        exact ⟨[], bg, gs, free, rfl, rfl, hfree⟩
      · cases h
    · cases hrest : mark_in_groups b stop n gs with
      | error e => rw [hrest] at h; cases h
      | ok gs₁ =>
        rw [hrest] at h
        cases h
        obtain ⟨pre, bg', post, free, rfl, rfl, hfree⟩ := ih hrest
        exact ⟨bg :: pre, bg', post, free, rfl, rfl, hfree⟩

theorem mark_allocated_cuts {m : FreeSpaceMap}
    (hstop : ∀ bg ∈ m.block_groups, ∀ r ∈ bg.free_ranges, r.stop < size) (b n : Nat) :
    (∃ m', mark_allocated b n m = .ok () m' ∧ ((n = 0 ∧ m' = m) ∨ CutOut m m' b n)) ∨
    ∃ e, mark_allocated b n m = .error e m := by
  unfold mark_allocated
  by_cases h0 : n = 0
  · simp only [h0, if_true]
    exact Or.inl ⟨_, rfl, Or.inl ⟨trivial, rfl⟩⟩
  · simp only [h0, if_false]
    cases hadd : checked_add b n with
    | none => exact Or.inr ⟨_, rfl⟩
    | some stop =>
      obtain ⟨rfl, -⟩ := checked_add_eq_some hadd
      simp only [bind, EStateM.bind, get, getThe, MonadStateOf.get, EStateM.get]
      cases hin : mark_in_groups b (b + n) n m.block_groups with
      | error e => exact Or.inr ⟨e, rfl⟩
      | ok gs =>
        obtain ⟨pre, bg, post, free, hm, rfl, hfree⟩ := mark_in_groups_spec hin
        obtain ⟨lp, r, lq, hl, rfl, hb, hn⟩ := mark_in_ranges_spec (hstop bg (by simp [hm])) hfree
        exact Or.inl ⟨_, rfl, Or.inr ⟨pre, bg, post, lp, r, lq, hm, hl, rfl, hb, hn⟩⟩

theorem mark_allocated_spec {s : AllocState} (h : s.Accounts) (b n : Nat) :
    (∃ m, mark_allocated b n s.map = .ok () m ∧ ((n = 0 ∧ m = s.map) ∨ Carved s.map m b n)) ∨
    ∃ e, mark_allocated b n s.map = .error e s.map := by
  rcases mark_allocated_cuts h.freeOrdered.stop b n with ⟨m, hrun, hzero | hcut⟩ | herror
  · exact Or.inl ⟨m, hrun, Or.inl hzero⟩
  · exact Or.inl ⟨m, hrun, Or.inr (hcut.carved h.freeOrdered.ordered)⟩
  · exact Or.inr herror

end LuksAndroid.Btrfs

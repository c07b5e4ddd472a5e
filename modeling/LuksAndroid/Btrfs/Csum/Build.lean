import LuksAndroid.Btrfs.Csum.Items

/-!
# What the checksum builders leave behind

The streaming builder cuts its list into groups, and one group is one item. In a group the
addresses step by 4096, so a reader that steps by the sector size finds them only when the
two agree, or when every group is a single sector.
-/

namespace LuksAndroid.Btrfs

open Word

/-! ## Groups -/

def groupStart (g : List (Nat × Nat)) : Nat := (g.head?.map (·.1)).getD 0

def groupPayload (g : List (Nat × Nat)) : Bytes := g.flatMap fun c => Bytes.le 4 c.2

def groupItem (g : List (Nat × Nat)) : Nat × Bytes := (groupStart g, groupPayload g)

/-- The next checksum continues the item of the one before it. -/
def Continues (a b : Nat × Nat) : Prop := b.1 = saturating_add a.1 4096

/-- How the builder cuts its list. -/
structure Grouped (sectors_per_item : Nat) (gs : List (List (Nat × Nat))) : Prop where
  filled : ∀ g ∈ gs, g ≠ [] ∧ g.length ≤ sectors_per_item
  steps : ∀ g ∈ gs, g.IsChain Continues
  breaks : gs.IsChain fun g h => g.length = sectors_per_item ∨ ∀ a ∈ g.getLast?, ∀ b ∈ h.head?, ¬ Continues a b

/-- The loop: `gs` are the items pushed so far, `cur` is the one being filled. -/
structure RunInv (sectors_per_item : Nat) (done : List (Nat × Nat)) (gs : List (List (Nat × Nat)))
    (cur : List (Nat × Nat)) (s : CsumRun) : Prop where
  flat : (gs ++ [cur]).flatten = done
  items : s.items = gs.map groupItem
  current_item_start : s.current_item_start = groupStart cur
  current_payload : s.current_payload = groupPayload cur
  current_count : s.current_count = cur.length
  next_expected_bytenr : ∀ a ∈ cur.getLast?, s.next_expected_bytenr = saturating_add a.1 4096
  grouped : Grouped sectors_per_item (gs ++ [cur])

@[simp] theorem length_groupPayload (g : List (Nat × Nat)) : (groupPayload g).length = 4 * g.length := by
  induction g with
  | nil => rfl
  | cons c g ih =>
    simp only [groupPayload, List.flatMap_cons, List.length_append, Bytes.length_le] at ih ⊢
    rw [ih, List.length_cons]
    omega

theorem Grouped.last {n : Nat} {gs : List (List (Nat × Nat))} {cur : List (Nat × Nat)}
    (h : Grouped n (gs ++ [cur])) : cur ≠ [] ∧ cur.length ≤ n ∧ cur.IsChain Continues :=
  ⟨(h.filled cur (by simp)).1, (h.filled cur (by simp)).2, h.steps cur (by simp)⟩

theorem Grouped.extend {n : Nat} {gs : List (List (Nat × Nat))} {cur : List (Nat × Nat)} {c : Nat × Nat}
    (h : Grouped n (gs ++ [cur])) (hcount : cur.length < n) (hcont : ∀ a ∈ cur.getLast?, Continues a c) :
    Grouped n (gs ++ [cur ++ [c]]) := by
  obtain ⟨hne, -, hsteps⟩ := h.last
  have hbreaks := List.isChain_append.mp h.breaks
  refine ⟨?_, ?_, ?_⟩
  · intro g hg
    rcases List.mem_append.mp hg with hg | hg
    · exact h.filled g (List.mem_append_left _ hg)
    · rw [List.mem_singleton.mp hg]
      exact ⟨by simp, by simp; omega⟩
  · intro g hg
    rcases List.mem_append.mp hg with hg | hg
    · exact h.steps g (List.mem_append_left _ hg)
    · rw [List.mem_singleton.mp hg]
      exact List.isChain_append.mpr ⟨hsteps, List.isChain_singleton c, by simpa using hcont⟩
  · refine List.isChain_append.mpr ⟨hbreaks.1, List.isChain_singleton _, ?_⟩
    intro g hg k hk
    have hold := hbreaks.2.2 g hg cur (by simp)
    simp only [List.head?_cons, Option.mem_some_iff] at hk
    subst hk
    rw [List.head?_append_of_ne_nil _ hne]
    exact hold

theorem Grouped.push {n : Nat} {gs : List (List (Nat × Nat))} {c : Nat × Nat} (h : Grouped n gs) (hn : 0 < n)
    (hbreak : ∀ g ∈ gs.getLast?, g.length = n ∨ ∀ a ∈ g.getLast?, ¬ Continues a c) : Grouped n (gs ++ [[c]]) := by
  refine ⟨?_, ?_, ?_⟩
  · intro g hg
    rcases List.mem_append.mp hg with hg | hg
    · exact h.filled g hg
    · rw [List.mem_singleton.mp hg]
      exact ⟨by simp, by simp; omega⟩
  · intro g hg
    rcases List.mem_append.mp hg with hg | hg
    · exact h.steps g hg
    · rw [List.mem_singleton.mp hg]
      exact List.isChain_singleton c
  · refine List.isChain_append.mpr ⟨h.breaks, List.isChain_singleton _, ?_⟩
    intro g hg k hk
    simp only [List.head?_cons, Option.mem_some_iff] at hk
    subst hk
    simpa using hbreak g hg

theorem RunInv.payload_ne_nil {n : Nat} {done : List (Nat × Nat)} {gs : List (List (Nat × Nat))}
    {cur : List (Nat × Nat)} {s : CsumRun} (h : RunInv n done gs cur s) : s.current_payload ≠ [] := by
  rw [h.current_payload, ← List.length_pos_iff, length_groupPayload]
  have := List.length_pos_iff.mpr h.grouped.last.1
  omega

theorem push_checksum_inv {n : Nat} (hn : 0 < n) {done : List (Nat × Nat)} {gs : List (List (Nat × Nat))}
    {cur : List (Nat × Nat)} {s : CsumRun} (h : RunInv n done gs cur s) (c : Nat × Nat) :
    ∃ gs' cur', RunInv n (done ++ [c]) gs' cur' (push_checksum n s c) := by
  obtain ⟨hne, hlen, -⟩ := h.grouped.last
  obtain ⟨a, ha⟩ := Option.ne_none_iff_exists'.mp (mt List.getLast?_eq_none_iff.mp hne)
  have hnext := h.next_expected_bytenr a (by simp [ha])
  unfold push_checksum
  rw [if_neg h.payload_ne_nil]
  split
  · rename_i hcont
    refine ⟨gs, cur ++ [c], ?_⟩
    refine {
      flat := by rw [← h.flat]; simp
      items := h.items
      current_item_start := ?_
      current_payload := by rw [h.current_payload]; simp [groupPayload]
      current_count := by rw [h.current_count]; simp
      next_expected_bytenr := by simp
      grouped := h.grouped.extend (by rw [← h.current_count]; exact hcont.2) ?_ }
    · rw [h.current_item_start, groupStart, groupStart, List.head?_append_of_ne_nil _ hne]
    · intro b hb
      rw [ha, Option.mem_some_iff] at hb
      subst hb
      exact hcont.1.trans hnext
  · rename_i hcont
    refine ⟨gs ++ [cur], [c], ?_⟩
    refine {
      flat := by rw [← h.flat]; simp
      items := by rw [h.items, h.current_item_start, h.current_payload]; simp [groupItem]
      current_item_start := by simp [groupStart]
      current_payload := by simp [groupPayload]
      current_count := rfl
      next_expected_bytenr := by simp
      grouped := h.grouped.push hn ?_ }
    intro g hg
    simp only [List.getLast?_append, List.getLast?_singleton, Option.some_or, Option.mem_some_iff] at hg
    subst hg
    by_cases hfull : cur.length = n
    · exact Or.inl hfull
    · refine Or.inr fun b hb hbc => hcont ⟨?_, by rw [h.current_count]; omega⟩
      rw [ha, Option.mem_some_iff] at hb
      subst hb
      exact hbc.trans hnext.symm

theorem foldl_push_checksum {n : Nat} (hn : 0 < n) (rest : List (Nat × Nat)) :
    ∀ {done gs cur s}, RunInv n done gs cur s →
      ∃ gs' cur', RunInv n (done ++ rest) gs' cur' (rest.foldl (push_checksum n) s) := by
  induction rest with
  | nil => exact fun {done gs cur s} h => ⟨gs, cur, by simpa using h⟩
  | cons c rest ih =>
    intro done gs cur s h
    obtain ⟨gs', cur', h'⟩ := push_checksum_inv hn h c
    rw [List.foldl_cons, show done ++ c :: rest = done ++ [c] ++ rest by simp]
    exact ih h'

/-- The streaming builder, as a cut of its list into groups. -/
theorem build_from_checksums_spec {node_size : Nat} (hsize : 0 < max_csum_item_bytes node_size 4)
    (checksums : List (Nat × Nat)) :
    ∃ gs, gs.flatten = checksums ∧ Grouped (max_csum_item_bytes node_size 4 / 4) gs ∧
      build_extent_csum_items_from_checksums node_size checksums = .ok (gs.map groupItem) := by
  have hn : 0 < max_csum_item_bytes node_size 4 / 4 := by
    simp only [max_csum_item_bytes, if_neg (show ¬ (4 = 0) by decide)] at hsize ⊢
    omega
  cases checksums with
  | nil => exact ⟨[], rfl, ⟨by simp, by simp, by simp⟩, rfl⟩
  | cons c rest =>
    have hfirst : RunInv (max_csum_item_bytes node_size 4 / 4) [c] [] [c]
        (push_checksum (max_csum_item_bytes node_size 4 / 4) ⟨[], 0, [], 0, 0⟩ c) := {
      flat := rfl
      items := rfl
      current_item_start := rfl
      current_payload := by simp [push_checksum, groupPayload]
      current_count := rfl
      next_expected_bytenr := by simp [push_checksum]
      grouped := Grouped.push ⟨by simp, by simp, by simp⟩ hn (by simp) }
    obtain ⟨gs, cur, h⟩ := foldl_push_checksum hn rest hfirst
    refine ⟨gs ++ [cur], by rw [h.flat]; rfl, h.grouped, ?_⟩
    unfold build_extent_csum_items_from_checksums
    rw [if_neg (by simp)]
    simp only [List.foldl_cons]
    rw [if_neg (by omega), push_last_item, if_neg h.payload_ne_nil, h.items, h.current_item_start, h.current_payload]
    simp [groupItem]

/-! ## Reading a group -/

/-- The addresses of a group step by the stride. -/
def Stride (s : Nat) (g : List (Nat × Nat)) : Prop :=
  ∀ i c, g[i]? = some c → c.1 = groupStart g + i * s

theorem slice_groupPayload {g : List (Nat × Nat)} {i : Nat} {c : Nat × Nat} (h : g[i]? = some c) :
    (groupPayload g).slice (i * 4) 4 = Bytes.le 4 c.2 := by
  induction g generalizing i with
  | nil => simp at h
  | cons a g ih =>
    have hcons : groupPayload (a :: g) = Bytes.le 4 a.2 ++ groupPayload g := by simp [groupPayload]
    rw [hcons, Bytes.slice]
    cases i with
    | zero =>
      simp only [List.getElem?_cons_zero, Option.some.injEq] at h
      rw [h, Nat.zero_mul, List.drop_zero, List.take_left' (Bytes.length_le _ _)]
    | succ i =>
      rw [show (i + 1) * 4 = (Bytes.le 4 a.2).length + i * 4 by rw [Bytes.length_le]; omega, List.drop_append]
      simp only [Nat.add_sub_cancel_left]
      rw [List.drop_of_length_le (by omega), List.nil_append]
      exact ih (by simpa using h)

theorem item_csum_group {s target : Nat} {g : List (Nat × Nat)} (hs : 0 < s) (ht : s ∣ target)
    (hg : s ∣ groupStart g) (b : Bytes) :
    item_csum (extent_csum_item (groupItem g)) target 4 s = some b ↔
      ∃ i c, g[i]? = some c ∧ target = groupStart g + i * s ∧ b = Bytes.le 4 c.2 := by
  have hkey : is_csum_key (extent_csum_item (groupItem g)).key = true := by
    simp [is_csum_key, extent_csum_item, csum_key]
  have hoffset : (extent_csum_item (groupItem g)).key.offset = groupStart g := rfl
  have hdata : (extent_csum_item (groupItem g)).data = groupPayload g := rfl
  unfold item_csum
  rw [hkey, hoffset, hdata]
  simp only [not_true_eq_false, false_or, gt_iff_lt, length_groupPayload]
  constructor
  · intro h
    split at h
    · cases h
    rename_i hle
    split at h
    · cases h
    rename_i hlen
    have hi : (target - groupStart g) / s < g.length := by omega
    refine ⟨(target - groupStart g) / s, g.get ⟨_, hi⟩, ?_, ?_, ?_⟩
    · exact List.getElem?_eq_getElem hi
    · rw [Nat.div_mul_cancel (Nat.dvd_sub ht hg)]
      omega
    · rw [slice_groupPayload (List.getElem?_eq_getElem hi)] at h
      exact (Option.some.inj h).symm
  · rintro ⟨i, c, hc, rfl, rfl⟩
    have hi := (List.getElem?_eq_some_iff.mp hc).1
    rw [if_neg (by omega), Nat.add_sub_cancel_left, Nat.mul_div_cancel _ hs, if_neg (by omega),
      slice_groupPayload hc]

theorem mapped_of_stride {s target : Nat} {gs : List (List (Nat × Nat))} (hs : 0 < s) (ht : s ∣ target)
    (hgs : ∀ g ∈ gs, s ∣ groupStart g ∧ Stride s g) (b : Bytes) :
    (∃ item ∈ gs.map groupItem, item_csum (extent_csum_item item) target 4 s = some b) ↔
      ∃ crc, (target, crc) ∈ gs.flatten ∧ b = Bytes.le 4 crc := by
  constructor
  · rintro ⟨item, hitem, hat⟩
    obtain ⟨g, hg, rfl⟩ := List.mem_map.mp hitem
    obtain ⟨hstart, hstride⟩ := hgs g hg
    obtain ⟨i, c, hc, htarget, rfl⟩ := (item_csum_group hs ht hstart b).mp hat
    refine ⟨c.2, List.mem_flatten.mpr ⟨g, hg, ?_⟩, rfl⟩
    rw [htarget, ← hstride i c hc]
    exact List.mem_of_getElem? hc
  · rintro ⟨crc, hmem, rfl⟩
    obtain ⟨g, hg, hmem⟩ := List.mem_flatten.mp hmem
    obtain ⟨hstart, hstride⟩ := hgs g hg
    obtain ⟨i, hi⟩ := List.mem_iff_getElem?.mp hmem
    exact ⟨groupItem g, List.mem_map_of_mem hg,
      (item_csum_group hs ht hstart _).mpr ⟨i, (target, crc), hi, hstride i _ hi, rfl⟩⟩

/-! ## Strides -/

theorem even_of_is_power_of_two {n : Nat} (h : is_power_of_two n = true) (hn : 2 ≤ n) : 2 ∣ n := by
  simp only [is_power_of_two, decide_eq_true_eq] at h
  by_contra hodd
  have hhalf : (n - 1) / 2 = n / 2 := by omega
  have hand := Nat.and_div_two (a := n) (b := n - 1)
  rw [h.2, hhalf, Nat.and_self] at hand
  omega

/-- A checksum list of the filesystem: aligned addresses, each once. -/
structure ChecksumList (sector_size : Nat) (checksums : List (Nat × Nat)) : Prop where
  nodup : (checksums.map (·.1)).Nodup
  aligned : ∀ c ∈ checksums, sector_size ∣ c.1
  words : ∀ c ∈ checksums, c.1 < size

theorem continues_iff {s : Nat} {a b : Nat × Nat} (hs : 2 ∣ s) (hb : s ∣ b.1) (hword : b.1 < size) :
    Continues a b ↔ b.1 = a.1 + 4096 := by
  have heven : 2 ∣ b.1 := Nat.dvd_trans hs hb
  unfold Continues saturating_add
  simp only [size] at hword ⊢
  omega

theorem stride_of_chain {s : Nat} {g : List (Nat × Nat)} (h : g.IsChain fun a b => b.1 = a.1 + s) : Stride s g := by
  induction g with
  | nil => intro i c hc; simp at hc
  | cons a g ih =>
    intro i c hc
    cases i with
    | zero =>
      simp only [List.getElem?_cons_zero, Option.some.injEq] at hc
      simp [groupStart, hc]
    | succ i =>
      rw [List.getElem?_cons_succ] at hc
      cases g with
      | nil => simp at hc
      | cons a' g =>
        rw [List.isChain_cons_cons] at h
        have hstep := ih h.2 i c hc
        simp only [groupStart, List.head?_cons, Option.map_some, Option.getD_some] at hstep ⊢
        rw [hstep, h.1, Nat.add_mul]
        omega

theorem groupStart_mem {g : List (Nat × Nat)} (h : g ≠ []) : ∃ c ∈ g, groupStart g = c.1 := by
  cases g with
  | nil => exact absurd rfl h
  | cons a g => exact ⟨a, by simp, rfl⟩

section

variable {n s : Nat} {gs : List (List (Nat × Nat))} {checksums : List (Nat × Nat)}

theorem Grouped.chain (hgs : Grouped n gs) (hflat : gs.flatten = checksums) (hl : ChecksumList s checksums)
    (hs : 2 ∣ s) : ∀ g ∈ gs, g.IsChain fun a b => b.1 = a.1 + 4096 := by
  intro g hg
  refine List.IsChain.imp_of_mem_imp (fun a b _ hb hab => ?_) (hgs.steps g hg)
  have hmem : b ∈ checksums := by rw [← hflat]; exact List.mem_flatten.mpr ⟨g, hg, hb⟩
  exact (continues_iff hs (hl.aligned b hmem) (hl.words b hmem)).mp hab

theorem Grouped.aligned (hgs : Grouped n gs) (hflat : gs.flatten = checksums) (hl : ChecksumList s checksums) :
    ∀ g ∈ gs, s ∣ groupStart g := by
  intro g hg
  obtain ⟨c, hc, hstart⟩ := groupStart_mem (hgs.filled g hg).1
  rw [hstart]
  exact hl.aligned c (by rw [← hflat]; exact List.mem_flatten.mpr ⟨g, hg, hc⟩)

/-- A sector of 4096 bytes is the stride of the builder, a larger one leaves no two checksums in an item. -/
theorem Grouped.stride_of_le (hgs : Grouped n gs) (hflat : gs.flatten = checksums) (hl : ChecksumList s checksums)
    (hs : 2 ∣ s) (hle : 4096 ≤ s) : ∀ g ∈ gs, Stride s g := by
  intro g hg
  refine stride_of_chain (List.IsChain.imp_of_mem_imp (fun a b ha hb hab => ?_) (hgs.chain hflat hl hs g hg))
  have hmem : ∀ c ∈ g, c ∈ checksums := fun c hc => by rw [← hflat]; exact List.mem_flatten.mpr ⟨g, hg, hc⟩
  have hdvd : s ∣ 4096 := by
    have hstep := Nat.dvd_sub (hl.aligned b (hmem b hb)) (hl.aligned a (hmem a ha))
    rwa [hab, Nat.add_sub_cancel_left] at hstep
  have := Nat.le_of_dvd (by omega) hdvd
  omega

theorem Grouped.stride_of_chain (hgs : Grouped n gs) (hflat : gs.flatten = checksums) (hl : ChecksumList s checksums)
    (hs : 2 ∣ s) (hchain : checksums.IsChain fun a b => b.1 ≠ a.1 + 4096) : ∀ g ∈ gs, Stride s g := by
  intro g hg
  obtain ⟨before, after, rfl⟩ := List.append_of_mem hg
  rw [← hflat, List.flatten_append, List.flatten_cons] at hchain
  have hg' := (List.isChain_append.mp (List.isChain_append.mp hchain).2.1).1
  have hstep := hgs.chain hflat hl hs g hg
  cases g with
  | nil => exact Btrfs.stride_of_chain List.IsChain.nil
  | cons a g =>
    cases g with
    | nil => exact Btrfs.stride_of_chain (List.isChain_singleton a)
    | cons b g =>
      rw [List.isChain_cons_cons] at hg' hstep
      exact absurd hstep.1 hg'.1

/-! ## What a wrong stride costs -/

/-- The sectors that a group covers when it is read. -/
def covered (s : Nat) (g : List (Nat × Nat)) : List Nat := (List.range g.length).map fun i => groupStart g + i * s

theorem Stride.addresses {g : List (Nat × Nat)} (h : Stride s g) : g.map (·.1) = covered s g := by
  apply List.ext_getElem?
  intro i
  simp only [covered, List.getElem?_map]
  cases hi : g[i]? with
  | none =>
    rw [List.getElem?_eq_none_iff] at hi
    rw [List.getElem?_eq_none (by simpa using hi)]
    rfl
  | some c =>
    have hlt := (List.getElem?_eq_some_iff.mp hi).1
    rw [List.getElem?_range hlt]
    simp [h i c hi]

theorem sum_covered {g : List (Nat × Nat)} (hs : s ≤ 4096) :
    (covered 4096 g).sum = (covered s g).sum + (4096 - s) * (List.range g.length).sum := by
  unfold covered
  induction g.length with
  | zero => simp
  | succ k ih =>
    simp only [List.range_succ, List.map_append, List.sum_append, List.map_cons, List.map_nil, List.sum_cons,
      List.sum_nil, ih]
    have hk : k * 4096 = k * s + (4096 - s) * k := by
      rw [Nat.mul_comm (4096 - s), ← Nat.mul_add]
      congr 1
      omega
    rw [Nat.mul_add]
    simp only [Nat.add_zero]
    omega

theorem sum_all_covered (hs : s ≤ 4096) (hstride : ∀ g ∈ gs, Stride 4096 g) :
    (gs.flatten.map (·.1)).sum =
      (gs.flatMap (covered s)).sum + (4096 - s) * (gs.map fun g => (List.range g.length).sum).sum := by
  induction gs with
  | nil => simp
  | cons g gs ih =>
    have hrest := ih fun k hk => hstride k (by simp [hk])
    rw [List.flatten_cons, List.map_append, List.sum_append, hrest, (hstride g (by simp)).addresses, sum_covered hs,
      List.flatMap_cons, List.sum_append, List.map_cons, List.sum_cons, Nat.mul_add]
    omega

theorem length_covered (gs : List (List (Nat × Nat))) (s : Nat) :
    (gs.flatMap (covered s)).length = gs.flatten.length := by
  induction gs with
  | nil => rfl
  | cons g gs ih => simp [covered, ih]

/-- A reader with a smaller stride reaches every listed address only when no group has two of them. -/
theorem single_of_covered (hs : s < 4096) (hstride : ∀ g ∈ gs, Stride 4096 g)
    (hnodup : (gs.flatten.map (·.1)).Nodup) (hsub : gs.flatten.map (·.1) ⊆ gs.flatMap (covered s)) :
    ∀ g ∈ gs, g.length ≤ 1 := by
  have hperm : (gs.flatten.map (·.1)).Perm (gs.flatMap (covered s)) :=
    (hnodup.subperm hsub).perm_of_length_le (by rw [length_covered, List.length_map])
  have hsum := sum_all_covered (Nat.le_of_lt hs) hstride
  rw [hperm.sum_eq] at hsum
  have hzero : (gs.map fun g => (List.range g.length).sum).sum = 0 := by
    rcases Nat.mul_eq_zero.mp (by omega : (4096 - s) * (gs.map fun g => (List.range g.length).sum).sum = 0) with h | h
    · omega
    · exact h
  intro g hg
  have hg0 : (List.range g.length).sum = 0 := List.sum_eq_zero_iff.mp hzero _ (List.mem_map_of_mem hg)
  by_contra hlen
  have hone : (1 : Nat) = 0 := List.sum_eq_zero_iff.mp hg0 1 (List.mem_range.mpr (by omega))
  omega

theorem singletons_eq (h : ∀ g ∈ gs, g ≠ [] ∧ g.length ≤ 1) : gs = gs.flatten.map fun c => [c] := by
  induction gs with
  | nil => rfl
  | cons g gs ih =>
    have hrest := ih fun k hk => h k (by simp [hk])
    obtain ⟨c, rfl⟩ := List.length_eq_one_iff.mp
      (Nat.le_antisymm (h g (by simp)).2 (List.length_pos_iff.mpr (h g (by simp)).1))
    rw [List.flatten_cons, List.map_append, ← hrest]
    rfl

theorem chain_of_single (hn : 2 ≤ n) (hgs : Grouped n gs) (hflat : gs.flatten = checksums)
    (hl : ChecksumList s checksums) (hs : 2 ∣ s) (hsingle : ∀ g ∈ gs, g.length ≤ 1) :
    checksums.IsChain fun a b => b.1 ≠ a.1 + 4096 := by
  have hmap : gs = checksums.map fun c => [c] := by
    rw [← hflat]
    exact singletons_eq fun g hg => ⟨(hgs.filled g hg).1, hsingle g hg⟩
  have hbreaks := hgs.breaks
  rw [hmap, List.isChain_map] at hbreaks
  refine List.IsChain.imp_of_mem_imp (fun a b _ hb hab => ?_) hbreaks
  rw [ne_eq, ← continues_iff hs (hl.aligned b hb) (hl.words b hb)]
  rcases hab with hlen | hab
  · simp only [List.length_singleton] at hlen
    omega
  · exact hab a (by simp) b (by simp)

end

/-! ## The data itself -/

/-- The checksums of an extent, as they are made while it is streamed. -/
def extentChecksums (sector disk_bytenr nr_sectors : Nat) (data : Bytes) : List (Nat × Nat) :=
  (List.range nr_sectors).map fun i => (disk_bytenr + i * sector, crc32c (sector_buf sector data i))

section

variable (sha256 : Digest) {sector disk_bytenr n nr : Nat} {data : Bytes}

theorem csum_payload_eq (first count : Nat) :
    csum_payload sha256 .Crc32c sector data first count = groupPayload ((List.range' first count).map fun i =>
      (disk_bytenr + i * sector, crc32c (sector_buf sector data i))) := by
  unfold csum_payload groupPayload
  rw [List.flatMap_map]
  apply List.flatMap_congr
  intro i _
  simp only [CsumType.calculate, CsumType.size]
  exact List.take_left' (Bytes.length_le 4 _)

theorem stride_range' (first count : Nat) (f : Nat → Nat) :
    Stride sector ((List.range' first count).map fun i => (disk_bytenr + i * sector, f i)) := by
  intro i c hc
  rw [List.getElem?_map, Option.map_eq_some_iff] at hc
  obtain ⟨j, hj, rfl⟩ := hc
  obtain ⟨hi, hfound⟩ := List.getElem?_eq_some_iff.mp hj
  rw [List.getElem_range', Nat.one_mul] at hfound
  cases count with
  | zero => simp at hi
  | succ count =>
    simp only [groupStart, List.range'_succ, List.map_cons, List.head?_cons, Option.map_some, Option.getD_some]
    rw [← hfound, Nat.add_mul]
    omega

theorem csum_items_from_groups (hn : 0 < n) (hwords : ∀ i < nr, disk_bytenr + i * sector < size) (fuel first : Nat)
    (hfuel : nr ≤ first + fuel) :
    ∃ gs : List (List (Nat × Nat)), gs.flatten = (List.range' first (nr - first)).map (fun i =>
        (disk_bytenr + i * sector, crc32c (sector_buf sector data i))) ∧
      csum_items_from sha256 .Crc32c sector disk_bytenr data n nr fuel first = gs.map groupItem ∧
      ∀ g ∈ gs, g ≠ [] ∧ Stride sector g := by
  induction fuel generalizing first with
  | zero =>
    have hzero : nr - first = 0 := by omega
    exact ⟨[], by simp [hzero], rfl, by simp⟩
  | succ fuel ih =>
    unfold csum_items_from
    split
    · rename_i hlt
      obtain ⟨gs, hflat, hitems, hgs⟩ := ih (first + min n (nr - first)) (by omega)
      have hcut : nr - first = min n (nr - first) + (nr - (first + min n (nr - first))) := by omega
      refine ⟨(List.range' first (min n (nr - first))).map (fun i =>
        (disk_bytenr + i * sector, crc32c (sector_buf sector data i))) :: gs, ?_, ?_, ?_⟩
      · rw [List.flatten_cons, hflat, hcut, ← List.range'_append_1, List.map_append, ← hcut]
      · simp only
        rw [List.map_cons, hitems, groupItem, csum_payload_eq sha256, wrapping_add_of_lt (hwords first hlt)]
        congr 2
        obtain ⟨k, hk⟩ : ∃ k, min n (nr - first) = k + 1 := ⟨min n (nr - first) - 1, by omega⟩
        rw [hk]
        simp [groupStart, List.range'_succ]
      · intro g hg
        rcases List.mem_cons.mp hg with rfl | hg
        · refine ⟨?_, stride_range' _ _ _⟩
          rw [← List.length_pos_iff]
          simp
          omega
        · exact hgs g hg
    · have hzero : nr - first = 0 := by omega
      exact ⟨[], by simp [hzero], rfl, by simp⟩

end

/-! ## The builders and the reader -/

/-- The sizes that the superblock parser admits. -/
structure AdmittedSizes (node_size sector_size : Nat) : Prop where
  sector : is_power_of_two sector_size = true ∧ 512 ≤ sector_size ∧ sector_size ≤ 65536
  node : is_power_of_two node_size = true ∧ sector_size ≤ node_size ∧ node_size ≤ 65536

/-- The checksum that the reader finds for a sector in one of the items. -/
def ReadsAs (sector_size : Nat) (items : List (Nat × Bytes)) (target : Nat) (csum : Bytes) : Prop :=
  ∃ item ∈ items, item_csum (extent_csum_item item) target 4 sector_size = some csum

/-- Every item fits, every listed sector has its checksum, and no other sector has one. -/
structure ReadsBack (node_size sector_size : Nat) (checksums : List (Nat × Nat)) (items : List (Nat × Bytes)) :
    Prop where
  fits : ∀ item ∈ items, item.2.length ≤ max_csum_item_bytes node_size 4
  reads : ∀ target, sector_size ∣ target → ∀ csum,
    ReadsAs sector_size items target csum ↔ ∃ crc, (target, crc) ∈ checksums ∧ csum = Bytes.le 4 crc

section

variable {node_size sector_size : Nat} {checksums : List (Nat × Nat)}

theorem AdmittedSizes.even (h : AdmittedSizes node_size sector_size) : 2 ∣ sector_size :=
  even_of_is_power_of_two h.sector.1 (by have := h.sector.2.1; omega)

theorem AdmittedSizes.max_item (h : AdmittedSizes node_size sector_size) :
    8 ≤ max_csum_item_bytes node_size 4 ∧ max_csum_item_bytes node_size 4 % 4 = 0 := by
  have h1 := h.sector.2.1
  have h2 := h.node.2.1
  unfold max_csum_item_bytes HEADER_SIZE ITEM_SIZE CSUM_ITEM_LEAF_HEADROOM
  rw [if_neg (by decide)]
  omega

theorem Grouped.stride {gs : List (List (Nat × Nat))} {n : Nat} (hgs : Grouped n gs) (hflat : gs.flatten = checksums)
    (hl : ChecksumList sector_size checksums) (hs : 2 ∣ sector_size)
    (hcond : 4096 ≤ sector_size ∨ checksums.IsChain fun a b => b.1 ≠ a.1 + 4096) : ∀ g ∈ gs, Stride sector_size g := by
  rcases hcond with hle | hchain
  · exact hgs.stride_of_le hflat hl hs hle
  · exact hgs.stride_of_chain hflat hl hs hchain

theorem reads_back_iff (h : AdmittedSizes node_size sector_size) (hl : ChecksumList sector_size checksums) :
    ∃ items, build_extent_csum_items_from_checksums node_size checksums = .ok items ∧
      (ReadsBack node_size sector_size checksums items ↔
        4096 ≤ sector_size ∨ checksums.IsChain fun a b => b.1 ≠ a.1 + 4096) := by
  obtain ⟨hmax, hfour⟩ := h.max_item
  have hpos : 0 < sector_size := by have := h.sector.2.1; omega
  obtain ⟨gs, hflat, hgs, hbuild⟩ :=
    build_from_checksums_spec (by omega : 0 < max_csum_item_bytes node_size 4) checksums
  refine ⟨_, hbuild, ?_, ?_⟩
  · intro hback
    by_cases hle : 4096 ≤ sector_size
    · exact Or.inl hle
    refine Or.inr (chain_of_single (by omega) hgs hflat hl h.even ?_)
    refine single_of_covered (s := sector_size) (by omega)
      (fun g hg => stride_of_chain (hgs.chain hflat hl h.even g hg)) ?_ ?_
    · rw [hflat]
      exact hl.nodup
    · intro target htarget
      obtain ⟨c, hc, rfl⟩ := List.mem_map.mp htarget
      rw [hflat] at hc
      have haligned := hl.aligned c hc
      obtain ⟨item, hitem, hat⟩ := (hback.reads c.1 haligned (Bytes.le 4 c.2)).mpr ⟨c.2, hc, rfl⟩
      obtain ⟨g, hg, rfl⟩ := List.mem_map.mp hitem
      obtain ⟨i, a, hi, heq, -⟩ := (item_csum_group hpos haligned (hgs.aligned hflat hl g hg) _).mp hat
      refine List.mem_flatMap.mpr ⟨g, hg, List.mem_map.mpr ⟨i, ?_, heq.symm⟩⟩
      exact List.mem_range.mpr (List.getElem?_eq_some_iff.mp hi).1
  · intro hcond
    have hstride := hgs.stride hflat hl h.even hcond
    refine ⟨?_, ?_⟩
    · intro item hitem
      obtain ⟨g, hg, rfl⟩ := List.mem_map.mp hitem
      have := (hgs.filled g hg).2
      simp only [groupItem, length_groupPayload]
      omega
    · intro target ht csum
      rw [← hflat]
      exact mapped_of_stride hpos ht (fun g hg => ⟨hgs.aligned hflat hl g hg, hstride g hg⟩) csum

theorem extentChecksums_list {disk_bytenr nr : Nat} {data : Bytes} (hpos : 0 < sector_size)
    (haligned : sector_size ∣ disk_bytenr)
    (hwords : ∀ c ∈ extentChecksums sector_size disk_bytenr nr data, c.1 < size) :
    ChecksumList sector_size (extentChecksums sector_size disk_bytenr nr data) where
  nodup := by
    unfold extentChecksums
    rw [List.map_map]
    refine List.Nodup.map_on ?_ List.nodup_range
    intro i _ j _ hij
    simp only [Function.comp_apply, Nat.add_left_cancel_iff] at hij
    exact Nat.eq_of_mul_eq_mul_right hpos hij
  aligned := by
    intro c hc
    obtain ⟨i, -, rfl⟩ := List.mem_map.mp hc
    exact Nat.dvd_add haligned (Nat.dvd_mul_left _ _)
  words := hwords

theorem extentChecksums_chain (disk_bytenr nr : Nat) (data : Bytes) :
    4096 ≤ sector_size ∨
      (extentChecksums sector_size disk_bytenr nr data).IsChain fun a b => b.1 ≠ a.1 + 4096 := by
  by_cases hle : 4096 ≤ sector_size
  · exact Or.inl hle
  · refine Or.inr ((List.isChain_map _).mpr ?_)
    rw [List.isChain_range]
    intro i _
    simp only [Nat.succ_eq_add_one, Nat.add_mul]
    omega

theorem builders_agree (sha256 : Digest) (h : AdmittedSizes node_size sector_size) (disk_bytenr disk_num_bytes : Nat)
    (data : Bytes) (haligned : sector_size ∣ disk_bytenr)
    (hwords : ∀ c ∈ extentChecksums sector_size disk_bytenr ((disk_num_bytes + sector_size - 1) / sector_size) data,
      c.1 < size) :
    ∃ items items', build_extent_csum_items sha256 .Crc32c node_size sector_size disk_bytenr disk_num_bytes data =
        .ok items ∧
      build_extent_csum_items_from_checksums node_size
        (extentChecksums sector_size disk_bytenr ((disk_num_bytes + sector_size - 1) / sector_size) data) = .ok items' ∧
      ∀ target, sector_size ∣ target → ∀ csum,
        ReadsAs sector_size items target csum ↔ ReadsAs sector_size items' target csum := by
  obtain ⟨hmax, hfour⟩ := h.max_item
  have hpos : 0 < sector_size := by have := h.sector.2.1; omega
  generalize hnr : (disk_num_bytes + sector_size - 1) / sector_size = nr at hwords
  have hl := extentChecksums_list hpos haligned hwords
  obtain ⟨gs, hflat, hgs, hbuild⟩ := build_from_checksums_spec (by omega : 0 < max_csum_item_bytes node_size 4)
    (extentChecksums sector_size disk_bytenr nr data)
  have hstride := hgs.stride hflat hl h.even (extentChecksums_chain disk_bytenr nr data)
  obtain ⟨gs', hflat', hitems', hgs'⟩ := @csum_items_from_groups sha256 _ _ _ _ data
    (by omega : 0 < max_csum_item_bytes node_size 4 / 4)
    (fun i hi => hwords _ (List.mem_map.mpr ⟨i, List.mem_range.mpr hi, rfl⟩)) nr 0 (by omega)
  have hsame : gs'.flatten = gs.flatten := by
    rw [hflat', hflat, Nat.sub_zero, ← List.range_eq_range']
    rfl
  have hstart' : ∀ g ∈ gs', sector_size ∣ groupStart g := by
    intro g hg
    obtain ⟨c, hc, hstart⟩ := groupStart_mem (hgs' g hg).1
    rw [hstart]
    exact hl.aligned c (by rw [← hflat, ← hsame]; exact List.mem_flatten.mpr ⟨g, hg, hc⟩)
  refine ⟨gs'.map groupItem, gs.map groupItem, ?_, hbuild, ?_⟩
  · have hzero : ¬ max_csum_item_bytes node_size 4 = 0 := by omega
    unfold build_extent_csum_items
    simp only [CsumType.size, if_neg hzero, hnr, hitems']
  · intro target ht csum
    refine (mapped_of_stride hpos ht (fun g hg => ⟨hstart' g hg, (hgs' g hg).2⟩) csum).trans ?_
    rw [hsame]
    exact (mapped_of_stride hpos ht (fun g hg => ⟨hgs.aligned hflat hl g hg, hstride g hg⟩) csum).symm

/-- The streaming builder is right exactly when its fixed stride cannot show. On the run of an extent it always agrees
with the builder over the data. -/
theorem csum_items_read_back (sha256 : Digest) (h : AdmittedSizes node_size sector_size) :
    (∀ checksums, ChecksumList sector_size checksums →
      ∃ items, build_extent_csum_items_from_checksums node_size checksums = .ok items ∧
        (ReadsBack node_size sector_size checksums items ↔
          4096 ≤ sector_size ∨ checksums.IsChain fun a b => b.1 ≠ a.1 + 4096)) ∧
    ∀ disk_bytenr disk_num_bytes data, sector_size ∣ disk_bytenr →
      (∀ c ∈ extentChecksums sector_size disk_bytenr ((disk_num_bytes + sector_size - 1) / sector_size) data,
        c.1 < size) →
      ∃ items items', build_extent_csum_items sha256 .Crc32c node_size sector_size disk_bytenr disk_num_bytes data =
          .ok items ∧
        build_extent_csum_items_from_checksums node_size
          (extentChecksums sector_size disk_bytenr ((disk_num_bytes + sector_size - 1) / sector_size) data) =
            .ok items' ∧
        ∀ target, sector_size ∣ target → ∀ csum,
          ReadsAs sector_size items target csum ↔ ReadsAs sector_size items' target csum :=
  ⟨fun _ hl => reads_back_iff h hl, builders_agree sha256 h⟩

end

theorem admitted_page : AdmittedSizes 16384 4096 := ⟨by decide, by decide⟩

theorem page_items_read_back :
    ∃ items, build_extent_csum_items_from_checksums 16384 [(4096, 7), (8192, 8), (20480, 9)] = .ok items ∧
      ReadsBack 16384 4096 [(4096, 7), (8192, 8), (20480, 9)] items := by
  obtain ⟨items, hbuild, hback⟩ := (csum_items_read_back ⟨fun _ => List.replicate 32 0, fun _ => rfl⟩ admitted_page).1
    [(4096, 7), (8192, 8), (20480, 9)] ⟨by decide, by decide, by simp [size]⟩
  exact ⟨items, hbuild, hback.mpr (Or.inl (by decide))⟩

/-- With sectors of 512 bytes the second checksum is read for the sector behind the first. -/
theorem small_sector_misread :
    AdmittedSizes 4096 512 ∧ ChecksumList 512 [(0, 7), (4096, 8)] ∧
      ∃ items, build_extent_csum_items_from_checksums 4096 [(0, 7), (4096, 8)] = .ok items ∧
        ReadsAs 512 items 512 (Bytes.le 4 8) ∧ ¬ ReadsBack 4096 512 [(0, 7), (4096, 8)] items := by
  have hbuild : build_extent_csum_items_from_checksums 4096 [(0, 7), (4096, 8)] =
    .ok [(0, Bytes.le 4 7 ++ Bytes.le 4 8)] := by decide +kernel
  have hread : ReadsAs 512 [(0, Bytes.le 4 7 ++ Bytes.le 4 8)] 512 (Bytes.le 4 8) :=
    ⟨_, List.mem_singleton.mpr rfl, by decide⟩
  refine ⟨⟨by decide, by decide⟩, ⟨by decide, by decide, by simp [size]⟩, _, hbuild, hread, fun hback => ?_⟩
  obtain ⟨crc, hmem, -⟩ := (hback.reads 512 (by decide) _).mp hread
  simp at hmem

end LuksAndroid.Btrfs

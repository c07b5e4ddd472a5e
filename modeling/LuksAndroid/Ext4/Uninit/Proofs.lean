import LuksAndroid.Ext4.Alloc.Basic
import LuksAndroid.Ext4.Uninit.Spec

/-!
# A computed bitmap says what the geometry says

The bits of a computed bitmap are listed first. They are those of the metadata exactly when
the raw descriptor size covers the descriptor backup. An allocation takes clear bits only.
-/

namespace LuksAndroid.Ext4

open Word

/-! ## Powers -/

/-- Dividing by a factor as long as it goes ends at 1 for the powers of it. -/
theorem strip_factor_eq_one_iff {p : Nat} (hp : 1 < p) (fuel n : Nat) :
    Superblock.strip_factor p fuel n = 1 ↔ ∃ k ≤ fuel, n = p ^ k := by
  induction fuel generalizing n with
  | zero => simp [Superblock.strip_factor]
  | succ fuel ih =>
    rw [Superblock.strip_factor]
    by_cases hdvd : n % p = 0
    · rw [if_pos hdvd, ih]
      have hn : n = n / p * p := (Nat.div_mul_cancel (Nat.dvd_of_mod_eq_zero hdvd)).symm
      constructor
      · rintro ⟨k, hk, hpow⟩
        refine ⟨k + 1, by omega, ?_⟩
        rw [pow_succ, ← hpow]
        exact hn
      · rintro ⟨- | k, hk, hpow⟩
        · rw [hpow, pow_zero, Nat.mod_eq_of_lt hp] at hdvd
          cases hdvd
        · refine ⟨k, by omega, ?_⟩
          rw [hpow, pow_succ, Nat.mul_div_cancel _ (by omega)]
    · rw [if_neg hdvd]
      constructor
      · intro hone
        exact ⟨0, by omega, hone⟩
      · rintro ⟨- | k, -, hpow⟩
        · exact hpow
        · rw [hpow, pow_succ, Nat.mul_mod_left] at hdvd
          exact absurd rfl hdvd

theorem strip_factor_pow {p n : Nat} (hp : 1 < p) (hn : n < 2 ^ 64) :
    Superblock.strip_factor p 64 n = 1 ↔ ∃ k, n = p ^ k := by
  rw [strip_factor_eq_one_iff hp]
  constructor
  · rintro ⟨k, -, hpow⟩
    exact ⟨k, hpow⟩
  · rintro ⟨k, hpow⟩
    refine ⟨k, ?_, hpow⟩
    by_contra hk
    have hle : 2 ^ 64 ≤ 2 ^ k := Nat.pow_le_pow_right (by decide) (by omega)
    have hbase : 2 ^ k ≤ p ^ k := Nat.pow_le_pow_left hp k
    omega

theorem group_has_super_iff {sb : Superblock} {group : Nat} (hgroup : group < 2 ^ 64) :
    sb.group_has_super group = true ↔ sb.Backs group := by
  unfold Superblock.group_has_super Superblock.Backs
  rw [decide_eq_true_eq, strip_factor_pow (by decide) hgroup, strip_factor_pow (by decide) hgroup,
    strip_factor_pow (by decide) hgroup, Bool.not_eq_true, exists_or, exists_or]

/-! ## Bits -/

theorem mem_span {lo hi b : Nat} : b ∈ span lo hi ↔ lo ≤ b ∧ b < hi := by
  unfold span
  rw [List.mem_range'_1]
  omega

theorem bit_set_bits (bits : List Nat) {bm : Bytes} {b : Nat} (hb : b / 8 < bm.length) :
    (set_bits bm bits).bit b = true ↔ bm.bit b = true ∨ b ∈ bits := by
  induction bits generalizing bm with
  | nil => simp [set_bits]
  | cons bit rest ih =>
    rw [set_bits, List.foldl_cons, ← set_bits]
    by_cases hbit : bit / 8 < bm.length
    · rw [if_pos hbit, ih (by rwa [Bytes.length_setBit]), Bytes.bit_setBit hbit]
      rw [Bool.or_eq_true, decide_eq_true_eq, List.mem_cons, or_assoc, @eq_comm _ bit b]
    · rw [if_neg hbit, ih hb, List.mem_cons]
      have hne : b ≠ bit := by
        rintro rfl
        exact hbit hb
      simp [hne]

theorem bit_fold_set_bits {α : Type} (bits : α → List Nat) (l : List α) {bm : Bytes} {b : Nat}
    (hb : b / 8 < bm.length) :
    (l.foldl (fun bm a => set_bits bm (bits a)) bm).bit b = true ↔ bm.bit b = true ∨ ∃ a ∈ l, b ∈ bits a := by
  induction l generalizing bm with
  | nil => simp
  | cons a rest ih =>
    rw [List.foldl_cons, ih (by rwa [length_set_bits]), bit_set_bits _ hb]
    simp only [List.mem_cons, exists_eq_or_imp, or_assoc]

theorem bit_zeros (n b : Nat) : Bytes.bit (List.replicate n 0) b = false := by
  unfold Bytes.bit
  rw [List.getD_eq_getElem?_getD, List.getElem?_replicate]
  split <;> simp

/-! ## Where a group lies -/

namespace Consistent

variable {sb : Superblock} {groups : List GroupDesc} {group : Nat}

theorem blocks_lt (h : Consistent sb groups) : sb.blocks_count * 1024 < 2 ^ 64 :=
  (Nat.mul_le_mul_left sb.blocks_count h.block_size.1).trans_lt h.word

theorem group_start_lt (h : Consistent sb groups) (hgroup : group < groups.length) :
    sb.group_start group < sb.blocks_count := by
  have hword := h.blocks_lt
  have hfirst := h.first
  rw [h.count, Superblock.group_count, lt_div_ceil h.blocks_per_group.1,
    wrapping_sub_of_le hfirst.le (by unfold size; omega)] at hgroup
  unfold Superblock.group_start
  omega

theorem group_lt (h : Consistent sb groups) (hgroup : group < groups.length) : group < 2 ^ 64 := by
  have hstart := h.group_start_lt hgroup
  have hword := h.blocks_lt
  have hmul := Nat.le_mul_of_pos_right group h.blocks_per_group.1
  unfold Superblock.group_start at hstart
  omega

theorem group_first_block (h : Consistent sb groups) (hgroup : group < groups.length) :
    sb.group_first_block group = sb.group_start group := by
  have hstart := h.group_start_lt hgroup
  have hword := h.blocks_lt
  unfold Superblock.group_start at hstart ⊢
  unfold Superblock.group_first_block
  rw [wrapping_mul_of_lt (by unfold size; omega), wrapping_add_of_lt (by unfold size; omega), Nat.add_comm]

theorem group_len_le (h : Consistent sb groups) (hgroup : group < groups.length) :
    0 < sb.group_len group ∧ sb.group_len group ≤ 8 * sb.block_size ∧
      sb.group_start group + sb.group_len group ≤ sb.blocks_count := by
  have hstart := h.group_start_lt hgroup
  have hper := h.blocks_per_group
  unfold Superblock.group_len
  omega

theorem valid_blocks (h : Consistent sb groups) (hgroup : group < groups.length) :
    valid_blocks sb (sb.group_start group) = sb.group_len group := by
  have hstart := h.group_start_lt hgroup
  have hword := h.blocks_lt
  have hper := h.blocks_per_group
  have hbs := h.block_size
  unfold Ext4.valid_blocks Superblock.group_len
  rw [wrapping_add_of_lt (by unfold size; omega)]
  split
  · rw [Nat.mod_eq_of_lt (by omega)]
    omega
  · omega

theorem table_end (h : Consistent sb groups) {g : GroupDesc} (hg : g ∈ groups) :
    g.inode_table + sb.table_len ≤ sb.blocks_count := by
  have hpos := h.table_len
  have hlast := h.inside (g.inode_table + sb.table_len - 1) ⟨g, hg, .inr (.inr ⟨by omega, by omega⟩)⟩
  omega

theorem mem_table_bits (h : Consistent sb groups) (hgroup : group < groups.length) {g : GroupDesc} (hg : g ∈ groups)
    (bit : Nat) :
    bit ∈ table_bits sb (sb.group_start group)
        (wrapping_sub (wrapping_add (sb.group_start group) (sb.group_len group)) 1) g ↔
      bit < sb.group_len group ∧ g.Owns sb (sb.group_start group + bit) := by
  have hword := h.blocks_lt
  obtain ⟨hlen, -, hend⟩ := h.group_len_le hgroup
  have htable := h.table_end hg
  have hpos := h.table_len
  have hlast : wrapping_sub (wrapping_add (sb.group_start group) (sb.group_len group)) 1 =
      sb.group_start group + sb.group_len group - 1 := by
    rw [wrapping_add_of_lt (by unfold size; omega), wrapping_sub_of_le (by omega) (by unfold size; omega)]
  have htable_last : wrapping_sub (wrapping_add g.inode_table sb.table_len) 1 =
      g.inode_table + sb.table_len - 1 := by
    rw [wrapping_add_of_lt (by unfold size; omega), wrapping_sub_of_le (by omega) (by unfold size; omega)]
  have hhere : ∀ b, bit ∈ (if sb.group_start group ≤ b ∧ b ≤ sb.group_start group + sb.group_len group - 1
      then [b - sb.group_start group] else []) ↔ bit < sb.group_len group ∧ sb.group_start group + bit = b := by
    intro b
    split
    · rw [List.mem_singleton]
      omega
    · simp only [List.not_mem_nil, false_iff]
      omega
  unfold Superblock.table_len at hpos htable htable_last
  unfold table_bits GroupDesc.Owns Superblock.table_len
  simp only [hlast, htable_last, List.mem_append, hhere, mem_span]
  omega

/-- The raw descriptor size gives no more blocks than fit into 32 bits. -/
theorem backup_blocks (h : Consistent sb groups) (hgroup : group < groups.length) (hbacks : sb.Backs group) :
    backup_blocks sb groups.length = sb.backup_len groups.length sb.desc_size := by
  obtain ⟨hbs, hbs'⟩ := h.block_size
  obtain ⟨hdesc, hreserved⟩ := h.fields
  obtain ⟨-, hbits, -⟩ := h.group_len_le hgroup
  have hroom := h.room group hgroup hbacks
  have hsize := desc_size_ge sb
  have hdescs : groups.length * sb.group_desc_size ≤ 8 * sb.block_size * sb.block_size := by
    by_contra hlt
    have hblocks := (lt_div_ceil (show 0 < sb.block_size by omega)).mpr (Nat.lt_of_not_le hlt)
    unfold Superblock.backup_len at hroom
    omega
  have hcount : groups.length * 32 ≤ 8 * sb.block_size * sb.block_size :=
    (Nat.mul_le_mul_left _ hsize).trans hdescs
  have hraw : groups.length * sb.desc_size ≤ 2048 * (8 * sb.block_size) * sb.block_size :=
    calc groups.length * sb.desc_size ≤ groups.length * (32 * 2048) := Nat.mul_le_mul_left _ (by omega)
      _ = 2048 * (groups.length * 32) := by ring
      _ ≤ 2048 * (8 * sb.block_size * sb.block_size) := Nat.mul_le_mul_left _ hcount
      _ = 2048 * (8 * sb.block_size) * sb.block_size := by ring
  have hblocks : div_ceil (groups.length * sb.desc_size) sb.block_size ≤ 2048 * (8 * sb.block_size) := by
    by_contra hlt
    have hmul := (lt_div_ceil (show 0 < sb.block_size by omega)).mp (Nat.lt_of_not_le hlt)
    omega
  unfold Ext4.backup_blocks Superblock.backup_len
  exact Nat.mod_eq_of_lt (by omega)

/-! ## The computed bitmap -/

theorem bit_materialize (h : Consistent sb groups) (hgroup : group < groups.length) {bit : Nat}
    (hbit : bit < 8 * sb.block_size) :
    (materialize sb groups group .Block sb.block_size).bit bit = true ↔ sb.group_len group ≤ bit ∨
      sb.Backs group ∧ bit < sb.backup_len groups.length sb.desc_size ∨
        bit < sb.group_len group ∧ Owned sb groups (sb.group_start group + bit) := by
  have hzeros : bit / 8 < (List.replicate sb.block_size (0 : UInt8)).length := by
    rw [List.length_replicate]
    omega
  have hfold : (∃ g ∈ groups, bit < sb.group_len group ∧ g.Owns sb (sb.group_start group + bit)) ↔
      bit < sb.group_len group ∧ Owned sb groups (sb.group_start group + bit) := by
    unfold Owned
    constructor
    · rintro ⟨g, hg, hlt, howns⟩
      exact ⟨hlt, g, hg, howns⟩
    · rintro ⟨hlt, g, hg, howns⟩
      exact ⟨g, hg, hlt, howns⟩
  have hvalid : (set_bits (List.replicate sb.block_size 0) (span (sb.group_len group) (sb.block_size * 8))).bit bit =
      true ↔ sb.group_len group ≤ bit := by
    rw [bit_set_bits _ hzeros, bit_zeros, mem_span]
    simp only [Bool.false_eq_true, false_or]
    omega
  have hbacks : (if sb.group_has_super group = true then
      set_bits (set_bits (List.replicate sb.block_size 0) (span (sb.group_len group) (sb.block_size * 8)))
        (span 0 (Ext4.backup_blocks sb groups.length))
      else set_bits (List.replicate sb.block_size 0) (span (sb.group_len group) (sb.block_size * 8))).bit bit =
        true ↔
      sb.group_len group ≤ bit ∨ sb.Backs group ∧ bit < sb.backup_len groups.length sb.desc_size := by
    split
    case isTrue hsuper =>
      rw [group_has_super_iff (h.group_lt hgroup)] at hsuper
      rw [bit_set_bits _ (by rwa [length_set_bits]), hvalid, mem_span, h.backup_blocks hgroup hsuper]
      simp [hsuper]
    case isFalse hsuper =>
      rw [group_has_super_iff (h.group_lt hgroup)] at hsuper
      rw [hvalid]
      simp [hsuper]
  simp only [materialize]
  rw [h.group_first_block hgroup, h.valid_blocks hgroup, bit_fold_set_bits, hbacks, or_assoc]
  · apply or_congr_right
    apply or_congr_right
    rw [← hfold]
    constructor
    · rintro ⟨g, hg, hmem⟩
      exact ⟨g, hg, (h.mem_table_bits hgroup hg bit).mp hmem⟩
    · rintro ⟨g, hg, hmem⟩
      exact ⟨g, hg, (h.mem_table_bits hgroup hg bit).mpr hmem⟩
  · split
    · rwa [length_set_bits, length_set_bits]
    · rwa [length_set_bits]

theorem exact_iff (h : Consistent sb groups) (hgroup : group < groups.length) :
    Exact sb groups group ↔ (sb.Backs group → Covered sb groups group) := by
  obtain ⟨-, hbits, -⟩ := h.group_len_le hgroup
  constructor
  · intro hexact hbacks
    have hroom := h.room group hgroup hbacks
    constructor
    · -- the first block of the backup that the raw size leaves out is nothing else
      by_contra hlt
      have hbit : sb.backup_len groups.length sb.desc_size < 8 * sb.block_size := by omega
      have hset := (hexact _ hbit).mpr (.inr (.inl ⟨hbacks, by omega⟩))
      rcases (h.bit_materialize hgroup hbit).mp hset with hout | ⟨-, hout⟩ | ⟨-, howned⟩
      · omega
      · omega
      · exact h.apart group hgroup hbacks _ (by omega) howned
    · intro bit hlt hlo hhi
      have hbit : bit < 8 * sb.block_size := by omega
      have hset := (h.bit_materialize hgroup hbit).mpr (.inr (.inl ⟨hbacks, hhi⟩))
      rcases (hexact bit hbit).mp hset with hout | ⟨-, hout⟩ | howned
      · omega
      · omega
      · exact howned
  · intro hcovered bit hbit
    rw [h.bit_materialize hgroup hbit]
    unfold Metadata
    constructor
    · rintro (hout | ⟨hbacks, hlt⟩ | ⟨-, howned⟩)
      · exact .inl hout
      · by_cases hin : bit < sb.backup_len groups.length sb.group_desc_size
        · exact .inr (.inl ⟨hbacks, hin⟩)
        · by_cases hout : sb.group_len group ≤ bit
          · exact .inl hout
          · exact .inr (.inr ((hcovered hbacks).surplus bit (by omega) (by omega) hlt))
      · exact .inr (.inr howned)
    · rintro (hout | ⟨hbacks, hlt⟩ | howned)
      · exact .inl hout
      · exact .inr (.inl ⟨hbacks, hlt.trans_le (hcovered hbacks).enough⟩)
      · by_cases hout : sb.group_len group ≤ bit
        · exact .inl hout
        · exact .inr (.inr ⟨by omega, howned⟩)

end Consistent

/-! ## Allocations -/

/-- All blocks of a run are fine. -/
def Extent.All (fine : Nat → Prop) (e : Extent) : Prop :=
  e.physical + e.len < size ∧ ∀ b, e.physical ≤ b → b < e.physical + e.len → fine b

section

variable {fine : Nat → Prop} {out : List Extent}

theorem push_block_all (h : ∀ e ∈ out, e.All fine) {block : Nat} (hword : block + 1 < size) (hfine : fine block) :
    ∀ e ∈ push_block out block, e.All fine := by
  have hnew : Extent.All fine ⟨block, 1⟩ := by
    refine ⟨hword, fun b hlo hhi => ?_⟩
    obtain rfl : b = block := by
      simp only at hlo hhi
      omega
    exact hfine
  unfold push_block
  rcases hlast : out.getLast? with - | last
  · simpa using hnew
  have hall := h last (List.mem_of_getLast? hlast)
  simp only
  split
  case isTrue hadjacent =>
    intro e he
    rcases List.mem_append.mp he with he | he
    · exact h e (List.dropLast_subset _ he)
    · obtain rfl := List.mem_singleton.mp he
      rw [wrapping_add_of_lt hall.1] at hadjacent
      refine ⟨by simp only; omega, fun b hlo hhi => ?_⟩
      by_cases hb : b = block
      · rw [hb]
        exact hfine
      · exact hall.2 b hlo (by simp only at hhi; omega)
  case isFalse =>
    intro e he
    rcases List.mem_append.mp he with he | he
    · exact h e he
    · rwa [List.mem_singleton.mp he]

theorem take_bits_all {start limit : Nat} {bm : Bytes}
    (hclear : ∀ bit < limit, bm.bit bit = false →
      fine (wrapping_add start bit) ∧ wrapping_add start bit + 1 < size)
    (allowance cursor : Nat) {t : Taking} (hbm : ∀ bit, t.bm.bit bit = false → bm.bit bit = false)
    (h : ∀ e ∈ t.out, e.All fine) : ∀ e ∈ (take_bits start limit allowance cursor t).out, e.All fine := by
  induction allowance generalizing cursor t with
  | zero => exact h
  | succ allowance ih =>
    rw [take_bits]
    rcases hfind : find_free_bit_from t.bm cursor limit with - | bit
    · exact h
    obtain ⟨-, hlimit, hlength, hzero⟩ := find_free_bit_from_some hfind
    obtain ⟨hfine, hword⟩ := hclear bit hlimit (hbm bit hzero)
    apply ih
    · intro bit' hbit'
      apply hbm
      simp only [Bytes.bit_setBit hlength, Bool.or_eq_false_iff] at hbit'
      exact hbit'.1
    · exact push_block_all h hword hfine

end

section

variable {σ : Type} {d : WriteAt σ} {fs s : Mount σ} {group : Nat}

theorem get_bind_ok {α : Type} {f : Mount σ → FsM σ α} {a : α} :
    (get >>= f) fs = .ok a s ↔ f fs fs = .ok a s := Iff.rfl

theorem check_ok {α : Type} {x : Except LuksError α} {a : α} (h : check x fs = .ok a s) : s = fs := by
  unfold check at h
  split at h
  · exact (Run.pure_ok.mp h).2.symm
  · cases h

theorem group_at_ok {g : GroupDesc} (h : group_at group fs = .ok g s) : fs.groups[group]? = some g ∧ s = fs := by
  unfold group_at at h
  have hget := get_bind_ok.mp h
  rcases hg : fs.groups[group]? with - | g'
  · rw [hg] at hget
    cases hget
  · rw [hg] at hget
    obtain ⟨rfl, hs⟩ := Run.pure_ok.mp hget
    exact ⟨rfl, hs.symm⟩

theorem read_at_ok {offset n : Nat} {b : Bytes} (h : read_at d offset n fs = .ok b s) :
    s.sb = fs.sb ∧ s.groups = fs.groups := by
  unfold read_at device at h
  rcases hread : d.toReadAt.read offset n fs.io with ⟨b', io⟩ | ⟨e, io⟩
  · rw [hread] at h
    cases h
    exact ⟨rfl, rfl⟩
  · rw [hread] at h
    cases h

theorem bitmap_extent_ok {which : Bitmap} {p : Nat × Nat} (h : bitmap_extent group which fs = .ok p s) : s = fs := by
  unfold bitmap_extent at h
  obtain ⟨g, s₁, hg, hrest⟩ := Run.bind_ok.mp h
  obtain ⟨offset, s₂, hcheck, hpure⟩ := Run.bind_ok.mp (get_bind_ok.mp hrest)
  rw [← (Run.pure_ok.mp hpure).2, check_ok hcheck, (group_at_ok hg).2]

theorem read_bitmap_ok {bm : Bytes} (h : read_bitmap d group .Block fs = .ok bm s) :
    s.sb = fs.sb ∧ s.groups = fs.groups ∧ ∀ g, fs.groups[group]? = some g → g.block_bitmap_uninit = true →
      bm = materialize fs.sb fs.groups group .Block fs.sb.block_size := by
  unfold read_bitmap at h
  obtain ⟨p, s₁, hextent, hrest⟩ := Run.bind_ok.mp h
  rw [bitmap_extent_ok hextent] at hrest
  obtain ⟨g, s₂, hg, hread⟩ := Run.bind_ok.mp (get_bind_ok.mp hrest)
  obtain ⟨hgroup, hs⟩ := group_at_ok hg
  rw [hs] at hread
  split at hread
  case isTrue =>
    obtain ⟨rfl, rfl⟩ := Run.pure_ok.mp hread
    exact ⟨rfl, rfl, fun _ _ _ => rfl⟩
  case isFalse hinit =>
    obtain ⟨hsb, hgroups⟩ := read_at_ok hread
    refine ⟨hsb, hgroups, fun g' hg' huninit => ?_⟩
    obtain rfl := Option.some.inj (hgroup.symm.trans hg')
    exact absurd huninit hinit

end

namespace Consistent

variable {sb : Superblock} {groups : List GroupDesc} {group : Nat}

theorem start_add_ne {other bit bit' : Nat} (hne : other ≠ group) (hbit : bit < sb.group_len group)
    (hbit' : bit' < sb.group_len other) : sb.group_start other + bit' ≠ sb.group_start group + bit := by
  unfold Superblock.group_len at hbit hbit'
  unfold Superblock.group_start at hbit hbit' ⊢
  intro heq
  rcases Nat.lt_or_gt_of_ne hne with hlt | hlt
  · have hmul := Nat.mul_le_mul_right sb.blocks_per_group hlt
    rw [Nat.succ_mul] at hmul
    omega
  · have hmul := Nat.mul_le_mul_right sb.blocks_per_group hlt
    rw [Nat.succ_mul] at hmul
    omega

/-- One group's map gives out no metadata of the group. -/
theorem plan_group_spares (h : Consistent sb groups) {g : GroupDesc} (hg : groups[group]? = some g)
    (huninit : g.block_bitmap_uninit = true) (hexact : Exact sb groups group) {σ : Type} {d : WriteAt σ}
    {fs s : Mount σ} (hsb : fs.sb = sb) (hgroups : fs.groups = groups) {p p' : Plan} {other : Nat}
    (hrun : plan_group d p other fs = .ok p' s)
    (hp : ∀ e ∈ p.out, e.All fun b => ∀ bit < sb.group_len group, Metadata sb groups group bit →
      b ≠ sb.group_start group + bit) :
    s.sb = sb ∧ s.groups = groups ∧ ∀ e ∈ p'.out, e.All fun b => ∀ bit < sb.group_len group,
      Metadata sb groups group bit → b ≠ sb.group_start group + bit := by
  unfold plan_group at hrun
  obtain ⟨g', s₁, hg', hrest⟩ := Run.bind_ok.mp hrun
  obtain ⟨hother, hs⟩ := group_at_ok hg'
  rw [hgroups] at hother
  rw [hs] at hrest
  split at hrest
  case isTrue =>
    obtain ⟨rfl, rfl⟩ := Run.pure_ok.mp hrest
    exact ⟨hsb, hgroups, hp⟩
  obtain ⟨bm, s₂, hread, hrest'⟩ := Run.bind_ok.mp hrest
  obtain ⟨hsb', hgroups', hbm⟩ := read_bitmap_ok hread
  rw [hsb] at hsb' hbm
  rw [hgroups] at hgroups' hbm
  have htake := get_bind_ok.mp hrest'
  rw [hsb'] at htake
  obtain ⟨hlt, -⟩ := List.getElem?_eq_some_iff.mp hother
  have hword := h.blocks_lt
  have hstart := h.group_start_lt hlt
  obtain ⟨-, hbits, hend⟩ := h.group_len_le hlt
  have hadd : wrapping_add sb.first_data_block (other * sb.blocks_per_group) = sb.group_start other := by
    unfold Superblock.group_start at hstart ⊢
    exact wrapping_add_of_lt (by unfold size; omega)
  have hlimit : sb.blocks_in_group other = sb.group_len other := by
    unfold Superblock.blocks_in_group Superblock.group_len
    rw [hadd, wrapping_sub_of_le hstart.le (by unfold size; omega), Nat.min_comm]
  have hclear : ∀ bit < sb.group_len other, bm.bit bit = false →
      (∀ bit' < sb.group_len group, Metadata sb groups group bit' →
        wrapping_add (sb.group_start other) bit ≠ sb.group_start group + bit') ∧
      wrapping_add (sb.group_start other) bit + 1 < size := by
    intro bit hbit hzero
    rw [wrapping_add_of_lt (by unfold size; omega)]
    refine ⟨fun bit' hbit' hmeta heq => ?_, by unfold size; omega⟩
    by_cases hsame : other = group
    · subst hsame
      obtain rfl : bit = bit' := by omega
      rw [hbm g hg huninit, (hexact bit (by omega)).mpr (.inr hmeta)] at hzero
      cases hzero
    · exact start_add_ne hsame hbit' hbit heq
  have hall := take_bits_all hclear (min g'.free_blocks_count p.remaining) 0 (t := ⟨bm, p.out, 0⟩)
    (fun _ hbit => hbit) hp
  simp only [hadd, hlimit] at htake
  split at htake
  case isTrue =>
    obtain ⟨rfl, rfl⟩ := Run.pure_ok.mp htake
    exact ⟨hsb', hgroups', hall⟩
  case isFalse =>
    obtain ⟨rfl, rfl⟩ := Run.pure_ok.mp htake
    exact ⟨hsb', hgroups', hp⟩

theorem plan_groups_spares (h : Consistent sb groups) {g : GroupDesc} (hg : groups[group]? = some g)
    (huninit : g.block_bitmap_uninit = true) (hexact : Exact sb groups group) {σ : Type} {d : WriteAt σ}
    (order : List Nat) : ∀ {fs s : Mount σ} {p p' : Plan}, fs.sb = sb → fs.groups = groups →
    plan_groups d order p fs = .ok p' s →
    (∀ e ∈ p.out, e.All fun b => ∀ bit < sb.group_len group, Metadata sb groups group bit →
      b ≠ sb.group_start group + bit) →
    ∀ e ∈ p'.out, e.All fun b => ∀ bit < sb.group_len group,
      Metadata sb groups group bit → b ≠ sb.group_start group + bit := by
  induction order with
  | nil =>
    intro fs s p p' _ _ hrun hp
    obtain ⟨rfl, -⟩ := Run.pure_ok.mp hrun
    exact hp
  | cons other rest ih =>
    intro fs s p p' hsb hgroups hrun hp
    rw [plan_groups] at hrun
    split at hrun
    case isTrue =>
      obtain ⟨rfl, -⟩ := Run.pure_ok.mp hrun
      exact hp
    case isFalse =>
      obtain ⟨p'', s', hplan, hrest⟩ := Run.bind_ok.mp hrun
      obtain ⟨hsb', hgroups', hp'⟩ := h.plan_group_spares hg huninit hexact hsb hgroups hplan hp
      exact ih hsb' hgroups' hrest hp'

theorem spares (h : Consistent sb groups) {g : GroupDesc} (hg : groups[group]? = some g)
    (huninit : g.block_bitmap_uninit = true) (hexact : Exact sb groups group) : Spares sb groups group := by
  intro σ d fs fs' goal count out hsb hgroups hrun e he bit hbit hmeta hin
  unfold alloc_blocks at hrun
  split at hrun
  case isTrue =>
    obtain ⟨rfl, -⟩ := Run.pure_ok.mp hrun
    cases he
  obtain ⟨seed, s₁, hcheck, hrest⟩ := Run.bind_ok.mp (get_bind_ok.mp hrun)
  obtain ⟨p, s₂, hplan, hcommit⟩ := Run.bind_ok.mp hrest
  rw [check_ok hcheck] at hplan
  have hall := h.plan_groups_spares hg huninit hexact _ hsb hgroups hplan (by simp)
  have hout : out = p.out := by
    dsimp only at hcommit
    split at hcommit
    case isTrue => cases hcommit
    obtain ⟨-, s₃, -, hwrite⟩ := Run.bind_ok.mp hcommit
    obtain ⟨-, s₄, -, hpure⟩ := Run.bind_ok.mp hwrite
    exact (Run.pure_ok.mp hpure).1.symm
  subst hout
  exact (hall e he).2 _ hin.1 hin.2 bit hbit hmeta rfl

end Consistent

/-! ## A filesystem of two groups -/

/-- Blocks of 1 KiB, with descriptors of 64 bytes or without. -/
def two_groups (wide : Bool) : Superblock where
  inodes_count := 16
  blocks_count := 16385
  first_data_block := 1
  block_size := 1024
  blocks_per_group := 8192
  inodes_per_group := 8
  inode_size := 128
  feature_incompat := if wide then 0xC2 else 0x42
  feature_ro_compat := 1
  desc_size := if wide then 64 else 0
  uuid := List.replicate 16 0
  free_blocks_count := 16000
  free_inodes_count := 5
  clusters_per_group := 8192
  first_ino := 11
  checksum_seed := none
  min_extra_isize := 0
  state := 1
  reserved_gdt_blocks := 0

/-- The metadata of both groups is in the first one. -/
def two_descs : List GroupDesc := [⟨3, 5, 7, 8000, 5, 1, 0, 0, 0, 0, 0⟩, ⟨4, 6, 8, 8000, 0, 0, 3, 8, 0, 0, 0⟩]

theorem two_groups_owned {wide : Bool} {b : Nat} (h : Owned (two_groups wide) two_descs b) : 3 ≤ b ∧ b ≤ 8 := by
  have htable : (two_groups wide).table_len = 1 := by cases wide <;> decide
  obtain ⟨g, hg, howns⟩ := h
  unfold GroupDesc.Owns at howns
  rw [htable] at howns
  rcases List.mem_cons.mp hg with rfl | hg
  · simp only at howns
    omega
  · obtain rfl := List.mem_singleton.mp hg
    simp only at howns
    omega

theorem two_groups_consistent (wide : Bool) : Consistent (two_groups wide) two_descs := by
  have hbackup : (two_groups wide).backup_len two_descs.length (two_groups wide).group_desc_size = 2 := by
    cases wide <;> decide
  have hlen : ∀ group < two_descs.length, 2 ≤ (two_groups wide).group_len group := by cases wide <;> decide
  have hstart : ∀ group < two_descs.length,
      (two_groups wide).group_start group = 1 ∨ (two_groups wide).group_start group = 8193 := by
    cases wide <;> decide
  refine ⟨by cases wide <;> decide, by cases wide <;> decide, by cases wide <;> decide, by cases wide <;> decide,
    by cases wide <;> decide, by cases wide <;> decide, by cases wide <;> decide +kernel, ?_, ?_, ?_⟩
  · intro b howned
    have hb := two_groups_owned howned
    change b < 16385
    omega
  · intro group hgroup _
    rw [hbackup]
    exact hlen group hgroup
  · intro group hgroup _ bit hbit howned
    rw [hbackup] at hbit
    have hb := two_groups_owned howned
    have hplace := hstart group hgroup
    omega

/-! ## The result -/

/-- The map that is computed for a group is the right one, and no allocation gives out metadata of the group,
exactly when the field `s_desc_size` covers the descriptors of the backup. -/
theorem materialize_bitmap_exact {sb : Superblock} {groups : List GroupDesc} {group : Nat} {g : GroupDesc}
    (h : Consistent sb groups) (hg : groups[group]? = some g) (huninit : g.block_bitmap_uninit = true) :
    Exact sb groups group ∧ Spares sb groups group ↔ (sb.Backs group → Covered sb groups group) := by
  obtain ⟨hgroup, -⟩ := List.getElem?_eq_some_iff.mp hg
  rw [← h.exact_iff hgroup]
  constructor
  · rintro ⟨hexact, -⟩
    exact hexact
  · intro hexact
    exact ⟨hexact, h.spares hg huninit hexact⟩

theorem materialize_bitmap_exact_wide :
    Exact (two_groups true) two_descs 1 ∧ Spares (two_groups true) two_descs 1 :=
  (materialize_bitmap_exact (two_groups_consistent true) (show two_descs[1]? = some _ from rfl) (by decide)).mpr
    fun _ => ⟨by decide, fun _ _ hlo hhi => absurd hhi (Nat.not_lt.mpr hlo)⟩

/-- Without 64-bit descriptors the raw size is 0, and the backup of the descriptors is left out of the map. -/
theorem materialize_bitmap_misses_backup : Consistent (two_groups false) two_descs ∧
    (∃ g, two_descs[1]? = some g ∧ g.block_bitmap_uninit = true) ∧
      ¬ (Exact (two_groups false) two_descs 1 ∧ Spares (two_groups false) two_descs 1) := by
  refine ⟨two_groups_consistent false, ⟨_, rfl, by decide⟩, ?_⟩
  rintro ⟨hexact, -⟩
  have hcovered := ((two_groups_consistent false).exact_iff (by decide)).mp hexact (.inl (by decide))
  exact absurd hcovered.enough (by decide)

end LuksAndroid.Ext4

import LuksAndroid.Ext4.Layout
import LuksAndroid.Ext4.Quiet

/-!
# What the allocator reads and writes

A search returns a clear bit. A bitmap has the length of a block, whether it is read or
computed. A descriptor and the superblock keep their length when they are patched.
-/

namespace LuksAndroid.Ext4

open Word

/-! ## Searching for a clear bit -/

/-- A byte that is not full has a clear bit, and the run of ones at its low end stops there. -/
theorem trailing_ones_spec {byte : UInt8} (h : byte ≠ 0xFF) :
    trailing_ones byte < 8 ∧ byte.toNat.testBit (trailing_ones byte) = false := by
  have hfull : ∀ n < 256, (∀ i < 8, n.testBit i = true) → n = 255 := by
    intro n hn hall
    apply Nat.eq_of_testBit_eq
    intro i
    rw [show 255 = 2 ^ 8 - 1 by rfl, Nat.testBit_two_pow_sub_one]
    by_cases hi : i < 8
    · rw [hall i hi, decide_eq_true hi]
    · rw [decide_eq_false hi]
      have hpow : 2 ^ 8 ≤ 2 ^ i := Nat.pow_le_pow_right (by omega) (Nat.not_lt.mp hi)
      exact Nat.testBit_lt_two_pow (by omega)
  have hsplit := List.takeWhile_append_dropWhile (p := byte.toNat.testBit) (l := List.range 8)
  have hhead := List.head?_dropWhile_not byte.toNat.testBit (List.range 8)
  have hlen := congrArg List.length hsplit
  rw [List.length_append, List.length_range, ← trailing_ones] at hlen
  cases hdrop : (List.range 8).dropWhile byte.toNat.testBit with
  | nil =>
    rw [hdrop, List.append_nil] at hsplit
    have hn := hfull byte.toNat byte.toNat_lt fun i hi =>
      List.takeWhile_eq_self_iff.mp hsplit i (List.mem_range.mpr hi)
    exact absurd (UInt8.toNat_inj.mp hn) h
  | cons x rest =>
    rw [hdrop, List.length_cons] at hlen
    rw [hdrop] at hhead hsplit
    have hx : (List.range 8)[trailing_ones byte]? = some x := by
      rw [← hsplit, trailing_ones, List.getElem?_append_right (Nat.le_refl _), Nat.sub_self]
      rfl
    rw [List.getElem?_range (by omega)] at hx
    cases hx
    exact ⟨by omega, hhead⟩

theorem scan_bytes_some {limit i bit : Nat} {bytes : Bytes} (h : scan_bytes limit i bytes = some bit) :
    i * 8 ≤ bit ∧ bit < limit ∧ bit / 8 - i < bytes.length ∧
      (bytes.getD (bit / 8 - i) 0).toNat.testBit (bit % 8) = false := by
  induction bytes generalizing i with
  | nil => cases h
  | cons byte rest ih =>
    rw [scan_bytes] at h
    by_cases hfull : byte ≠ 0xFF
    · rw [if_pos hfull] at h
      obtain ⟨hlt, hclear⟩ := trailing_ones_spec hfull
      by_cases hlim : i * 8 + trailing_ones byte ≥ limit
      · rw [if_pos hlim] at h
        cases h
      · rw [if_neg hlim] at h
        cases h
        have hdiv : (i * 8 + trailing_ones byte) / 8 = i := by omega
        have hmod : (i * 8 + trailing_ones byte) % 8 = trailing_ones byte := by omega
        rw [hdiv, hmod]
        simp only [Nat.sub_self, List.length_cons, Nat.zero_lt_succ, List.getD_cons_zero, hclear, and_true]
        omega
    · rw [if_neg hfull] at h
      obtain ⟨hlo, hhi, hlen, hclear⟩ := ih h
      have hsub : bit / 8 - i = bit / 8 - (i + 1) + 1 := by omega
      rw [hsub, List.getD_cons_succ]
      refine ⟨by omega, hhi, ?_, hclear⟩
      rw [List.length_cons]
      omega

theorem find_free_bit_from_some {bm : Bytes} {start limit bit : Nat}
    (h : find_free_bit_from bm start limit = some bit) :
    start ≤ bit ∧ bit < limit ∧ bit / 8 < bm.length ∧ bm.bit bit = false := by
  unfold find_free_bit_from at h
  by_cases hstart : start ≥ limit
  · rw [if_pos hstart] at h
    cases h
  rw [if_neg hstart] at h
  cases hdrop : bm.drop (start / 8) with
  | nil =>
    rw [hdrop] at h
    cases h
  | cons byte rest =>
    rw [hdrop] at h
    obtain ⟨hlo, hhi, hlen, hclear⟩ := scan_bytes_some h
    have hsize : bm.length = start / 8 + (rest.length + 1) := by
      have := congrArg List.length hdrop
      rw [List.length_drop, List.length_cons] at this
      omega
    rw [List.length_cons] at hlen
    have hget : ∀ k, bm.getD (start / 8 + k) 0 = (byte :: rest).getD k 0 := by
      intro k
      rw [← hdrop, List.getD_eq_getElem?_getD, List.getD_eq_getElem?_getD, List.getElem?_drop]
    -- only the first byte is masked, so the bit is at or after `start` there
    have hbits : start ≤ bit ∧ bm.bit bit = false := by
      by_cases hfirst : bit / 8 - start / 8 = 0
      · rw [hfirst, List.getD_cons_zero, UInt8.toNat_or, Nat.testBit_or, Bool.or_eq_false_iff] at hclear
        have hb : bit / 8 = start / 8 + 0 := by omega
        constructor
        · by_contra hlt
          have hmask : (UInt8.ofNat (2 ^ (start % 8) - 1)).toNat = 2 ^ (start % 8) - 1 := by
            have : start % 8 < 8 := Nat.mod_lt _ (by omega)
            rw [UInt8.toNat_ofNat']
            apply Nat.mod_eq_of_lt
            have : 2 ^ (start % 8) ≤ 2 ^ 7 := Nat.pow_le_pow_right (by omega) (by omega)
            omega
          rw [hmask, Nat.testBit_two_pow_sub_one] at hclear
          have : bit % 8 < start % 8 := by omega
          simp [this] at hclear
        · rw [Bytes.bit, hb, hget, List.getD_cons_zero]
          exact hclear.1
      · obtain ⟨k, hk⟩ := Nat.exists_eq_succ_of_ne_zero hfirst
        rw [hk, Nat.succ_eq_add_one, List.getD_cons_succ] at hclear
        have hb : bit / 8 = start / 8 + (k + 1) := by omega
        constructor
        · omega
        · rw [Bytes.bit, hb, hget, List.getD_cons_succ]
          exact hclear
    exact ⟨hbits.1, hhi, by omega, hbits.2⟩

/-! ## Bitmaps -/

theorem length_set_bits (bits : List Nat) (bm : Bytes) : (set_bits bm bits).length = bm.length := by
  induction bits generalizing bm with
  | nil => rfl
  | cons b bits ih =>
    rw [set_bits, List.foldl_cons, ← set_bits, ih]
    split <;> simp

theorem length_materialize (sb : Superblock) (groups : List GroupDesc) (group : Nat) (which : Bitmap) (len : Nat) :
    (materialize sb groups group which len).length = len := by
  have hfold : ∀ (gs : List GroupDesc) (a b : Nat) (bm : Bytes),
      (gs.foldl (fun buf g => set_bits buf (table_bits sb a b g)) bm).length = bm.length := by
    intro gs a b
    induction gs with
    | nil => intro bm; rfl
    | cons g gs ih => intro bm; rw [List.foldl_cons, ih, length_set_bits]
  cases which with
  | Inode => simp [materialize, length_set_bits]
  | Block =>
    simp only [materialize, hfold]
    split <;> simp [length_set_bits]

/-- A group's bitmap as the mount sees it. -/
def Mount.bitmapOf (fs : Mount Disk) (which : Bitmap) (group : Nat) : Bytes :=
  match fs.groups[group]? with
  | none => []
  | some g =>
    if g.bitmap_uninit which then materialize fs.sb fs.groups group which fs.sb.block_size
    else load fs.io.state ((fs.sb.metadata_block_offset (g.bitmap which)).toOption.getD 0) fs.sb.block_size

variable {S : Shape} {fs : Mount Disk}

theorem shape_bitmap_offset (h : fs.shape = S) (which : Bitmap) {group : Nat} {g : GroupDesc}
    (hg : fs.groups[group]? = some g) :
    S.bitmap_offset which group = fs.sb.metadata_block_offset (g.bitmap which) := by
  have hplace : S.places[group]? = some g.place := by rw [shape_getElem? h, hg]; rfl
  rw [Shape.bitmap_offset, hplace, shape_metadata_block_offset h]
  cases which <;> rfl

theorem bitmapOf_eq (h : fs.shape = S) (which : Bitmap) {group : Nat} {g : GroupDesc}
    (hg : fs.groups[group]? = some g) :
    fs.bitmapOf which group =
      if g.bitmap_uninit which then materialize S.sb S.places group which S.bs
      else load fs.io.state (S.range (.bitmap which group)).1 (S.range (.bitmap which group)).2 := by
  unfold Mount.bitmapOf
  rw [hg]
  simp only [Shape.range, shape_bitmap_offset h which hg]
  rw [shape_materialize h, shape_block_size h]

theorem Mount.Same.bitmapOf {s : Mount Disk} (h : fs.Same s) (which : Bitmap) (group : Nat) :
    s.bitmapOf which group = fs.bitmapOf which group := by
  unfold Mount.bitmapOf
  rw [h.sb, h.groups, h.state]

theorem exists_group (h : fs.shape = S) {group : Nat} (hlt : group < S.places.length) :
    ∃ g, fs.groups[group]? = some g := by
  rw [← shape_length h] at hlt
  exact ⟨_, List.getElem?_eq_getElem hlt⟩

theorem length_bitmapOf (h : fs.shape = S) {which : Bitmap} {group : Nat} (hlt : group < S.places.length) :
    (fs.bitmapOf which group).length = S.bs := by
  obtain ⟨g, hg⟩ := exists_group h hlt
  rw [bitmapOf_eq h which hg]
  split
  · exact length_materialize _ _ _ _ _
  · rw [length_load]
    rfl

namespace Tame

variable {R : Rules} {known : Bool}

theorem group_at (hpanic : R.halts .panic) (h : R.inv fs) (group : Nat) :
    Tame R (group_at group) fs fun g s => fs.groups[group]? = some g ∧ s = fs := by
  refine get_bind ?_
  cases fs.groups[group]? with
  | some g => exact pure h ⟨rfl, rfl⟩
  | none => exact throw h hpanic

theorem bitmap_extent (hpanic : R.halts .panic) (h : R.inv fs) (hs : fs.shape = S) (which : Bitmap) (group : Nat) :
    Tame R (bitmap_extent group which) fs fun p s => s = fs ∧ S.bitmap_offset which group = .ok p.1 ∧
      p.2 = div_ceil (S.sb.bitmap_bits which) 8 := by
  refine (group_at hpanic h group).bind fun g s hq hi => ?_
  obtain ⟨hg, rfl⟩ := hq
  refine get_bind (check_bind hi fun offset hoff => pure hi ⟨rfl, ?_, ?_⟩)
  · rw [shape_bitmap_offset hs which hg, hoff]
  · subst hs
    cases which <;> rfl

theorem read_bitmap (hpanic : R.halts .panic) (h : R.inv fs) (hs : fs.shape = S) (which : Bitmap) (group : Nat) :
    Tame R (read_bitmap (memory R.cap known) group which) fs fun bm s =>
      bm = fs.bitmapOf which group ∧ fs.Same s ∧ S.Meta (.bitmap which group) := by
  refine (bitmap_extent hpanic h hs which group).bind fun p s hq hi => ?_
  obtain ⟨rfl, hoff, -⟩ := hq
  refine get_bind ((group_at hpanic hi group).bind fun g s' hq hi' => ?_)
  obtain ⟨hg, rfl⟩ := hq
  have hbm := bitmapOf_eq hs which hg
  have hmeta : S.Meta (.bitmap which group) := ⟨_, hoff⟩
  refine ite (fun hu => ?_) fun hu => ?_
  · rw [if_pos hu] at hbm
    refine pure hi' ⟨?_, .refl _, hmeta⟩
    rw [hbm, shape_materialize hs, shape_block_size hs]
  · rw [if_neg hu] at hbm
    refine (read known hi' _ _).weaken fun bm s' _ hq => ⟨?_, ?_, hmeta⟩
    · rw [hq.1, hbm, shape_block_size hs]
      simp only [Shape.range, hoff]
      rfl
    · rw [hq.2]
      exact ⟨rfl, rfl, rfl⟩

end Tame

/-! ## Descriptors and the superblock -/

/-- A change that leaves the place and the flags of a descriptor alone. -/
def Mild (f : GroupDesc → GroupDesc) : Prop := ∀ g, (f g).place = g.place ∧ (f g).flags = g.flags

theorem bitmap_uninit_of_flags {g g' : GroupDesc} (h : g'.flags = g.flags) (which : Bitmap) :
    g'.bitmap_uninit which = g.bitmap_uninit which := by
  cases which with
  | Block => exact congrArg (has · BG_BLOCK_UNINIT) h
  | Inode => exact congrArg (has · BG_INODE_UNINIT) h

theorem shape_modify {f : GroupDesc → GroupDesc} (hf : ∀ g, (f g).place = g.place) (fs : Mount Disk) (group : Nat) :
    ({ fs with groups := fs.groups.modify group f } : Mount Disk).shape = fs.shape := by
  unfold Mount.shape
  congr 1
  apply List.ext_getElem?
  intro i
  rw [List.getElem?_map, List.getElem?_map, List.getElem?_modify]
  cases fs.groups[i]? with
  | none => simp
  | some g =>
    by_cases hi : group = i
    · simp [hi, hf]
    · simp [hi]

theorem mild_with_csum (which : Bitmap) (csum : Nat) : Mild fun g => g.with_csum which csum := by
  intro g
  cases which <;> exact ⟨rfl, rfl⟩

theorem mild_checksum (csum : Nat) : Mild fun g => { g with checksum := csum } := fun _ => ⟨rfl, rfl⟩

theorem fields_spans (g : GroupDesc) (wide : Bool) :
    (g.fields wide).map Bytes.span = [(0x0C, 2), (0x0E, 2), (0x10, 2), (0x12, 2), (0x18, 2), (0x1A, 2), (0x1C, 2)] ++
      if wide then [(0x2C, 2), (0x2E, 2), (0x30, 2), (0x32, 2), (0x38, 2), (0x3A, 2)] else [] := by
  cases wide <;> simp [GroupDesc.fields, Bytes.span]

theorem desc_size_ge (sb : Superblock) : 32 ≤ sb.group_desc_size := by
  unfold Superblock.group_desc_size
  split <;> omega

theorem fields_fit (g : GroupDesc) {raw : Bytes} (h : 32 ≤ raw.length) :
    ∀ s ∈ (g.fields (raw.length ≥ 64)).map Bytes.span, s.1 + s.2 ≤ raw.length := by
  rw [fields_spans]
  by_cases hw : raw.length ≥ 64
  · simp [hw]
    omega
  · simp [hw]
    omega

theorem fields_apart (g : GroupDesc) (wide : Bool) :
    ((g.fields wide).map Bytes.span).Pairwise Bytes.Apart := by
  rw [fields_spans]
  cases wide <;> decide

theorem length_desc_patch (g : GroupDesc) {raw : Bytes} (h : 32 ≤ raw.length) :
    (raw.patch (g.fields (raw.length ≥ 64))).length = raw.length :=
  Bytes.length_patch _ (fields_fit g h)

theorem length_desc_put {raw : Bytes} (h : 32 ≤ raw.length) (csum : Nat) :
    (raw.put BG_CHECKSUM_OFFSET (Bytes.le 2 csum)).length = raw.length := by
  apply Bytes.length_put
  rw [Bytes.length_le]
  exact h

theorem length_super_patch (sb : Superblock) {raw : Bytes} (h : raw.length = 1024) :
    (raw.patch sb.fields).length = 1024 := by
  rw [Bytes.length_patch, h]
  rw [h]
  unfold Superblock.fields
  split <;> simp [Bytes.span, SB_FREE_BLOCKS_COUNT_HI]

theorem length_super_put {raw : Bytes} (h : raw.length = 1024) (csum : Nat) :
    (raw.put SB_CHECKSUM_OFFSET (Bytes.le 4 csum)).length = 1024 := by
  rw [Bytes.length_put, h]
  rw [h, Bytes.length_le]
  decide

end LuksAndroid.Ext4

import LuksAndroid.Ext4.Rename.Names

/-!
# Giving an inode and its blocks back

The maps, the descriptors and the superblock are written cell by cell, and no byte of a directory is
touched. No bit that was clear is set, and the bits of what is given back are clear in the end.
-/

namespace LuksAndroid.Ext4

open Word

variable {cap : Nat} {known : Bool} {S : Shape} {fs s t : Mount Disk} {dir_ino : Nat}

/-- Whole cells of the filesystem itself are written, all but one inode's. The shape stays. -/
def cells (cap : Nat) (S : Shape) (dir_ino : Nat) : Rules where
  cap := cap
  asks
    | .write offset data => ∃ c, S.Meta c ∧ c ≠ .inode dir_ino ∧ S.range c = (offset, data.length)
    | _ => True
  halts _ := True
  inv fs := fs.shape = S
  read _ _ := trivial
  flush := trivial
  orderly _ := trivial
  quiet _ _ h hs := hs.shape.trans h

/-! ## Which maps change -/

theorem meta_bitmap_lt {which : Bitmap} {group : Nat} (h : S.Meta (.bitmap which group)) : group < S.places.length := by
  obtain ⟨offset, hoffset⟩ := h
  unfold Shape.bitmap_offset at hoffset
  rcases hg : S.places[group]? with - | g
  · rw [hg] at hoffset
    cases hoffset
  · exact (List.getElem?_eq_some_iff.mp hg).1

theorem bitmapOf_congr (h : fs.shape = S) (hs : s.shape = S) {which : Bitmap} {group : Nat}
    (hlt : group < S.places.length)
    (hflag : ∀ g g', fs.groups[group]? = some g → s.groups[group]? = some g' →
      g'.bitmap_uninit which = g.bitmap_uninit which)
    (hbytes : load s.io.state (S.range (.bitmap which group)).1 (S.range (.bitmap which group)).2 =
      load fs.io.state (S.range (.bitmap which group)).1 (S.range (.bitmap which group)).2) :
    s.bitmapOf which group = fs.bitmapOf which group := by
  obtain ⟨g, hg⟩ := exists_group h hlt
  obtain ⟨g', hg'⟩ := exists_group hs hlt
  rw [bitmapOf_eq h which hg, bitmapOf_eq hs which hg', hflag g g' hg hg', hbytes]

/-- The maps of these groups are as they were. -/
def MapsKept (S : Shape) (P : Bitmap → Nat → Prop) (fs s : Mount Disk) : Prop :=
  ∀ which group, S.Meta (.bitmap which group) → P which group → s.bitmapOf which group = fs.bitmapOf which group

theorem MapsKept.trans {P : Bitmap → Nat → Prop} (h : MapsKept S P fs s) (h' : MapsKept S P s t) :
    MapsKept S P fs t :=
  fun which group hmeta hp => (h' which group hmeta hp).trans (h which group hmeta hp)

theorem MapsKept.mono {P Q : Bitmap → Nat → Prop} (h : MapsKept S P fs s) (hpq : ∀ which group, Q which group →
    P which group) : MapsKept S Q fs s :=
  fun which group hmeta hq => h which group hmeta (hpq which group hq)

theorem mapsKept_of_same {P : Bitmap → Nat → Prop} (h : fs.Same s) : MapsKept S P fs s :=
  fun which group _ _ => h.bitmapOf which group

/-- A cell of the filesystem itself is written. -/
theorem mapsKept_stored (A : S.CellsApart) (h : fs.shape = S) {c : Cell} (hc : S.Meta c) {data : Bytes}
    (hlen : data.length = (S.range c).2) :
    MapsKept S (fun which group => c ≠ .bitmap which group) fs (fs.stored (S.range c).1 data) := by
  intro which group hmeta hne
  have hs : (fs.stored (S.range c).1 data).shape = S := h
  refine bitmapOf_congr h hs (meta_bitmap_lt hmeta) (fun g g' hg hg' => ?_) ?_
  · obtain rfl := Option.some.inj (hg.symm.trans hg')
    rfl
  · apply load_store_of_apart
    rw [hlen]
    exact A c _ hc hmeta hne

/-- One descriptor is changed, but not where its maps are. -/
theorem mapsKept_modify (h : fs.shape = S) {f : GroupDesc → GroupDesc} (hf : ∀ g, (f g).place = g.place)
    (group : Nat) :
    MapsKept S (fun which other => other = group → ∀ g, (f g).bitmap_uninit which = g.bitmap_uninit which) fs
      { fs with groups := fs.groups.modify group f } := by
  intro which other hmeta hflag
  refine bitmapOf_congr h ((shape_modify hf fs group).trans h) (meta_bitmap_lt hmeta) (fun g g' hg hg' => ?_) rfl
  rw [List.getElem?_modify, hg] at hg'
  by_cases heq : group = other
  · simp only [heq, if_true, Option.map_eq_map, Option.map_some, Option.some.injEq] at hg'
    rw [← hg', hflag heq.symm]
  · simp only [heq, if_false, Option.map_eq_map, Option.map_some, Option.some.injEq] at hg'
    rw [hg']

theorem shape_counters {f : Superblock → Superblock} (hf : ∀ sb, (f sb).shape = sb.shape) (fs : Mount Disk) :
    ({ fs with sb := f fs.sb } : Mount Disk).shape = fs.shape := by
  unfold Mount.shape
  rw [hf]

theorem mapsKept_counters (h : fs.shape = S) {f : Superblock → Superblock} (hf : ∀ sb, (f sb).shape = sb.shape)
    {P : Bitmap → Nat → Prop} : MapsKept S P fs { fs with sb := f fs.sb } := by
  have hs : ({ fs with sb := f fs.sb } : Mount Disk).shape = S := (shape_counters hf fs).trans h
  intro which group hmeta _
  refine bitmapOf_congr h hs (meta_bitmap_lt hmeta) (fun g g' hg hg' => ?_) rfl
  obtain rfl := Option.some.inj (hg.symm.trans hg')
  rfl

theorem initialised_uninit (g : GroupDesc) (which which' : Bitmap) :
    (g.initialised which).bitmap_uninit which' = if which = which' then false else g.bitmap_uninit which' := by
  cases which <;> cases which' <;>
    simp [GroupDesc.initialised, GroupDesc.bitmap_uninit, GroupDesc.block_bitmap_uninit,
      GroupDesc.inode_bitmap_uninit, has, Nat.and_assoc, BG_BLOCK_UNINIT, BG_INODE_UNINIT]
  by_cases hflag : g.flags &&& 2 = 0 <;> simp [hflag]

/-! ## One write at a time -/

theorem tame_set_group {f : GroupDesc → GroupDesc} (hf : ∀ g, (f g).place = g.place) (h : fs.shape = S)
    (group : Nat) : Tame (cells cap S dir_ino) (set_group group f) fs fun _ s =>
      s = { fs with groups := fs.groups.modify group f } :=
  .update rfl ((shape_modify hf fs group).trans h)

theorem tame_counters {f : Superblock → Superblock} (hf : ∀ sb, (f sb).shape = sb.shape) (h : fs.shape = S) :
    Tame (cells cap S dir_ino) (modify fun fs : Mount Disk => { fs with sb := f fs.sb }) fs fun _ s =>
      s = { fs with sb := f fs.sb } :=
  .update (f := fun fs : Mount Disk => { fs with sb := f fs.sb }) rfl ((shape_counters hf fs).trans h)

theorem tame_write_cell (h : fs.shape = S) {c : Cell} (hc : S.Meta c) (hne : c ≠ .inode dir_ino) {data : Bytes}
    (hlen : data.length = (S.range c).2) :
    Tame (cells cap S dir_ino) (write_at (memory cap known) (S.range c).1 data) fs fun _ s =>
      s = fs.stored (S.range c).1 data := by
  refine Tame.write (R := cells cap S dir_ino) known h ?_ fun _ => h
  exact ⟨c, hc, hne, by rw [hlen]⟩

theorem tame_read_bitmap (h : fs.shape = S) (which : Bitmap) (group : Nat) :
    Tame (cells cap S dir_ino) (read_bitmap (memory cap known) group which) fs fun bm s =>
      bm = fs.bitmapOf which group ∧ bm.length = S.bs ∧ fs.Same s ∧ S.Meta (.bitmap which group) := by
  refine (Tame.read_bitmap (R := cells cap S dir_ino) trivial h h which group).weaken fun bm s _ hq => ?_
  obtain ⟨rfl, hsame, hmeta⟩ := hq
  exact ⟨rfl, length_bitmapOf h (meta_bitmap_lt hmeta), hsame, hmeta⟩

theorem tame_test_bit (h : fs.shape = S) (bm : Bytes) (bit : Nat) :
    Tame (cells cap S dir_ino) (test_bit bm bit) fs fun _ s => s = fs ∧ bit / 8 < bm.length :=
  .guard (fun _ => .throw h trivial) fun hin => .pure h ⟨rfl, Nat.not_le.mp hin⟩

theorem tame_clear_bit (h : fs.shape = S) (bm : Bytes) (bit : Nat) :
    Tame (cells cap S dir_ino) (clear_bit bm bit) fs fun bm' s => s = fs ∧ bm' = bm.clearBit bit :=
  .guard (fun _ => .throw h trivial) fun _ => .pure h ⟨rfl, rfl⟩

/-- The descriptor says that there is a map. -/
def Initialised (which : Bitmap) (group : Nat) (fs : Mount Disk) : Prop :=
  ∀ g, fs.groups[group]? = some g → g.bitmap_uninit which = false

theorem bitmapOf_stored (h : fs.shape = S) {which : Bitmap} {group : Nat} (hmeta : S.Meta (.bitmap which group))
    (hinit : Initialised which group fs) {bm : Bytes} (hlen : bm.length = S.bs) :
    (fs.stored (S.range (.bitmap which group)).1 bm).bitmapOf which group = bm := by
  obtain ⟨g, hg⟩ := exists_group h (meta_bitmap_lt hmeta)
  have hs : (fs.stored (S.range (.bitmap which group)).1 bm).shape = S := h
  have hg' : (fs.stored (S.range (.bitmap which group)).1 bm).groups[group]? = some g := hg
  have hself := load_store_self fs.io.state (S.range (.bitmap which group)).1 bm
  rw [hlen] at hself
  rw [bitmapOf_eq hs which hg', hinit g hg]
  exact hself

theorem tame_write_bitmap (A : S.CellsApart) (h : fs.shape = S) {which : Bitmap} {group : Nat}
    (hmeta : S.Meta (.bitmap which group)) {bm : Bytes} (hlen : bm.length = S.bs) (seed : Seed) :
    Tame (cells cap S dir_ino) (write_bitmap (memory cap known) group which bm seed) fs fun _ s =>
      (Initialised which group fs → s.bitmapOf which group = bm) ∧
      MapsKept S (fun which' group' => (which', group') ≠ (which, group)) fs s := by
  have hwritten := fun hinit => bitmapOf_stored h hmeta hinit hlen
  have hkept : MapsKept S (fun which' group' => (which', group') ≠ (which, group)) fs
      (fs.stored (S.range (.bitmap which group)).1 bm) :=
    (mapsKept_stored A h hmeta hlen).mono fun which' group' hne heq => hne (by cases heq; rfl)
  refine (Tame.bitmap_extent (R := cells cap S dir_ino) trivial h h which group).bind fun p s hq hi => ?_
  obtain ⟨rfl, hoff, hsize⟩ := hq
  have hrange : p.1 = (S.range (.bitmap which group)).1 := by
    simp only [Shape.range, hoff]
    rfl
  simp only [hrange]
  refine (tame_write_cell h hmeta Cell.noConfusion hlen).bind fun _ s' hq hi' => ?_
  subst hq
  refine .guard (fun _ => .throw hi' trivial) fun _ => ?_
  cases seed.bitmap (bm.take p.2) with
  | none => exact .pure hi' ⟨hwritten, hkept⟩
  | some csum =>
    have hmild := mild_with_csum which csum
    refine (tame_set_group (fun g => (hmild g).1) hi' group).weaken fun _ s'' _ hq => ?_
    subst hq
    have hmodify := mapsKept_modify hi' (fun g => (hmild g).1) group
    have hflag : ∀ which' group', group' = group → ∀ g, ((fun g : GroupDesc => g.with_csum which csum) g).bitmap_uninit
        which' = g.bitmap_uninit which' := fun which' _ _ g => bitmap_uninit_of_flags (hmild g).2 which'
    refine ⟨fun hinit => ?_, hkept.trans (hmodify.mono fun which' group' _ => hflag which' group')⟩
    exact (hmodify which group hmeta (hflag which group)).trans (hwritten hinit)

theorem tame_write_group_desc (A : S.CellsApart) (h : fs.shape = S) {group : Nat} (hlt : group < S.places.length)
    (seed : Seed) :
    Tame (cells cap S dir_ino) (write_group_desc (memory cap known) group seed) fs fun _ s =>
      MapsKept S (fun _ _ => True) fs s := by
  have hsize : fs.sb.group_desc_size = (S.range (.desc group)).2 := by subst h; rfl
  have hoff : fs.sb.desc_offset group = (S.range (.desc group)).1 := by subst h; rfl
  have hge : 32 ≤ (S.range (.desc group)).2 := desc_size_ge S.sb
  refine .get_bind ?_
  simp only [hsize, hoff]
  refine (Tame.read (R := cells cap S dir_ino) known h _ _).bind fun old s hq hi => ?_
  obtain ⟨hold, rfl⟩ := hq
  have hread : MapsKept S (fun _ _ => True) fs
      (fs.logged (.read (S.range (.desc group)).1 (S.range (.desc group)).2)) :=
    mapsKept_of_same (fs.same_logged _)
  have hlen : old.length = (S.range (.desc group)).2 := by rw [hold, length_load]
  refine (Tame.group_at (R := cells cap S dir_ino) trivial hi group).bind fun g s' hq hi' => ?_
  obtain ⟨-, rfl⟩ := hq
  have hwide : decide ((S.range (.desc group)).2 ≥ 64) = decide (old.length ≥ 64) := by rw [hlen]
  rw [hwide]
  have hpatch : (old.patch (g.fields (old.length ≥ 64))).length = (S.range (.desc group)).2 := by
    rw [length_desc_patch _ (by omega), hlen]
  cases seed.group_desc group (old.patch (g.fields (old.length ≥ 64))) with
  | none =>
    refine (tame_write_cell hi' (c := .desc group) hlt Cell.noConfusion hpatch).weaken fun _ s'' _ hq => ?_
    subst hq
    exact hread.trans ((mapsKept_stored A hi' (c := .desc group) hlt hpatch).mono fun _ _ _ => Cell.noConfusion)
  | some csum =>
    have hmild := mild_checksum csum
    refine (tame_set_group (fun g => (hmild g).1) hi' group).bind fun _ s'' hq hi'' => ?_
    subst hq
    have hput : ((old.patch (g.fields (old.length ≥ 64))).put BG_CHECKSUM_OFFSET (Bytes.le 2 csum)).length =
        (S.range (.desc group)).2 := by
      rw [length_desc_put (by omega), hpatch]
    refine (tame_write_cell hi'' (c := .desc group) hlt Cell.noConfusion hput).weaken fun _ t _ hq => ?_
    subst hq
    have hmodify := (mapsKept_modify hi' (fun g => (hmild g).1) group).mono (Q := fun _ _ => True)
      fun which' group' _ _ g => bitmap_uninit_of_flags (hmild g).2 which'
    exact (hread.trans hmodify).trans
      ((mapsKept_stored A hi'' (c := .desc group) hlt hput).mono fun _ _ _ => Cell.noConfusion)

theorem tame_write_superblock (A : S.CellsApart) (h : fs.shape = S) (seed : Seed) :
    Tame (cells cap S dir_ino) (write_superblock (memory cap known) seed) fs fun _ s =>
      MapsKept S (fun _ _ => True) fs s := by
  refine (Tame.read (R := cells cap S dir_ino) known h _ _).bind fun old s hq hi => ?_
  obtain ⟨hold, rfl⟩ := hq
  have hread : MapsKept S (fun _ _ => True) fs (fs.logged (.read SUPERBLOCK_OFFSET 1024)) :=
    mapsKept_of_same (fs.same_logged _)
  have hlen : old.length = 1024 := by rw [hold, length_load]
  have hwrite : ∀ raw : Bytes, raw.length = 1024 → Tame (cells cap S dir_ino)
      (write_at (memory cap known) SUPERBLOCK_OFFSET raw) (fs.logged (.read SUPERBLOCK_OFFSET 1024)) fun _ s =>
        MapsKept S (fun _ _ => True) fs s := by
    intro raw hraw
    refine (tame_write_cell hi (c := .super) trivial Cell.noConfusion hraw).weaken fun _ s' _ hq => ?_
    subst hq
    exact hread.trans ((mapsKept_stored A hi (c := .super) trivial hraw).mono fun _ _ _ => Cell.noConfusion)
  refine .get_bind ?_
  dsimp only
  have hpatch := length_super_patch (fs.logged (.read SUPERBLOCK_OFFSET 1024)).sb hlen
  cases seed.superblock (old.patch (fs.logged (.read SUPERBLOCK_OFFSET 1024)).sb.fields) with
  | none => exact hwrite _ hpatch
  | some csum => exact hwrite _ (length_super_put hpatch csum)

/-- The bitmap and the descriptor of a group whose descriptor was changed for it. -/
theorem tame_write_planned (A : S.CellsApart) (h : fs.shape = S) {which : Bitmap} {group : Nat}
    (hmeta : S.Meta (.bitmap which group)) (hinit : Initialised which group fs) {bm : Bytes} (hlen : bm.length = S.bs)
    (seed : Seed) :
    Tame (cells cap S dir_ino) (do
      write_bitmap (memory cap known) group which bm seed
      write_group_desc (memory cap known) group seed) fs fun _ s =>
        s.bitmapOf which group = bm ∧ MapsKept S (fun which' group' => (which', group') ≠ (which, group)) fs s := by
  refine (tame_write_bitmap A h hmeta hlen seed).bind fun _ s hq hi => ?_
  obtain ⟨hself, hothers⟩ := hq
  refine (tame_write_group_desc A hi (meta_bitmap_lt hmeta) seed).weaken fun _ t _ hkept => ⟨?_, ?_⟩
  · exact (hkept which group hmeta trivial).trans (hself hinit)
  · exact hothers.trans (hkept.mono fun _ _ _ => trivial)

theorem initialised_modify {f : GroupDesc → GroupDesc} {which : Bitmap} {group : Nat}
    (hf : ∀ g, (f g).bitmap_uninit which = false) :
    Initialised which group { fs with groups := fs.groups.modify group f } := by
  intro g hg
  rw [List.getElem?_modify] at hg
  rcases hold : fs.groups[group]? with - | g'
  · simp [hold] at hg
  · simp only [hold, if_true, Option.map_eq_map, Option.map_some, Option.some.injEq] at hg
    rw [← hg]
    exact hf g'

theorem tame_commit (A : S.CellsApart) (h : fs.shape = S) {which : Bitmap} {group : Nat}
    (hmeta : S.Meta (.bitmap which group)) {bm : Bytes} (hlen : bm.length = S.bs) (seed : Seed) :
    Tame (cells cap S dir_ino) (commit (memory cap known) group which bm seed) fs fun _ s =>
      s.bitmapOf which group = bm ∧ MapsKept S (fun which' group' => (which', group') ≠ (which, group)) fs s := by
  have hplace : ∀ g : GroupDesc, (g.initialised which).place = g.place := fun _ => rfl
  refine (tame_set_group hplace h group).bind fun _ s hq hi => ?_
  subst hq
  have hflags := (mapsKept_modify h hplace group).mono (Q := fun which' group' => (which', group') ≠ (which, group))
    fun which' group' hne heq g => by
      rw [initialised_uninit, if_neg]
      rintro rfl
      exact hne (by rw [heq])
  have hinit : Initialised which group { fs with groups := fs.groups.modify group fun g => g.initialised which } :=
    initialised_modify fun g => by rw [initialised_uninit, if_pos rfl]
  have hassoc : (do
      write_bitmap (memory cap known) group which bm seed
      write_group_desc (memory cap known) group seed
      write_superblock (memory cap known) seed : FsM Disk Unit) =
    (do
      write_bitmap (memory cap known) group which bm seed
      write_group_desc (memory cap known) group seed) >>= fun _ => write_superblock (memory cap known) seed :=
    (bind_assoc _ _ _).symm
  rw [hassoc]
  refine (tame_write_planned A hi hmeta hinit hlen seed).bind fun _ s hq hi' => ?_
  refine (tame_write_superblock A hi' seed).weaken fun _ t _ hkept => ⟨?_, ?_⟩
  · exact (hkept which group hmeta trivial).trans hq.1
  · exact (hflags.trans hq.2).trans (hkept.mono fun _ _ _ => trivial)

/-! ## Blocks -/

namespace Shape

variable (S : Shape)

def group_of (b : Nat) : Nat := (b - S.sb.first_data_block) / S.sb.blocks_per_group

def bit_of (b : Nat) : Nat := (b - S.sb.first_data_block) % S.sb.blocks_per_group

/-- The block is not marked as used. -/
def FreeBlock (s : Mount Disk) (b : Nat) : Prop :=
  S.Meta (.bitmap .Block (S.group_of b)) ∧ (s.bitmapOf .Block (S.group_of b)).bit (S.bit_of b) = false

def FreeInode (s : Mount Disk) (ino : Nat) : Prop :=
  S.Meta (.bitmap .Inode ((ino - 1) / S.sb.inodes_per_group)) ∧
    (s.bitmapOf .Inode ((ino - 1) / S.sb.inodes_per_group)).bit ((ino - 1) % S.sb.inodes_per_group) = false

end Shape

/-- No bit is set that was clear. -/
def Clearer (S : Shape) (fs s : Mount Disk) : Prop :=
  ∀ which group, S.Meta (.bitmap which group) → ∀ bit, (s.bitmapOf which group).bit bit = true →
    (fs.bitmapOf which group).bit bit = true

theorem Clearer.trans (h : Clearer S fs s) (h' : Clearer S s t) : Clearer S fs t :=
  fun which group hmeta bit hbit => h which group hmeta bit (h' which group hmeta bit hbit)

theorem MapsKept.clearer (h : MapsKept S (fun _ _ => True) fs s) : Clearer S fs s := by
  intro which group hmeta bit hbit
  rwa [h which group hmeta trivial] at hbit

theorem Clearer.freeBlock (h : Clearer S fs s) {b : Nat} (hb : S.FreeBlock fs b) : S.FreeBlock s b := by
  refine ⟨hb.1, Bool.eq_false_iff.mpr fun hset => ?_⟩
  have hold := h _ _ hb.1 _ hset
  rw [hb.2] at hold
  cases hold

theorem Clearer.freeInode (h : Clearer S fs s) {ino : Nat} (hino : S.FreeInode fs ino) : S.FreeInode s ino := by
  refine ⟨hino.1, Bool.eq_false_iff.mpr fun hset => ?_⟩
  have hold := h _ _ hino.1 _ hset
  rw [hino.2] at hold
  cases hold

/-- The maps of a plan have bits cleared, those of the blocks in `done` among them. -/
structure Planned (S : Shape) (fs : Mount Disk) (done : List Nat) (plan : List (Nat × Bytes × Nat)) : Prop where
  nodup : (plan.map (·.1)).Nodup
  entries : ∀ e ∈ plan, S.Meta (.bitmap .Block e.1) ∧ e.2.1.length = S.bs ∧
    ∀ bit, e.2.1.bit bit = true → (fs.bitmapOf .Block e.1).bit bit = true
  cleared : ∀ b ∈ done, ∃ e ∈ plan, e.1 = S.group_of b ∧ e.2.1.bit (S.bit_of b) = false

theorem Planned.nil : Planned S fs [] [] := ⟨by simp, by simp, by simp⟩

theorem Planned.push {done : List Nat} {plan : List (Nat × Bytes × Nat)} (h : Planned S fs done plan) {group : Nat}
    (hnew : plan.find? (·.1 = group) = none) (hmeta : S.Meta (.bitmap .Block group))
    (hlen : (fs.bitmapOf .Block group).length = S.bs) :
    Planned S fs done (plan ++ [(group, fs.bitmapOf .Block group, 0)]) where
  nodup := by
    rw [List.map_append, List.nodup_append]
    refine ⟨h.nodup, by simp, ?_⟩
    rintro a ha b hb rfl
    obtain ⟨e, he, rfl⟩ := List.mem_map.mp ha
    rw [List.find?_eq_none] at hnew
    apply hnew e he
    simpa using hb
  entries e he := by
    rcases List.mem_append.mp he with he | he
    · exact h.entries e he
    · rw [List.mem_singleton.mp he]
      exact ⟨hmeta, hlen, fun _ hbit => hbit⟩
  cleared b hb := by
    obtain ⟨e, he, hgroup, hbit⟩ := h.cleared b hb
    exact ⟨e, List.mem_append_left _ he, hgroup, hbit⟩

theorem Planned.clear {done : List Nat} {plan : List (Nat × Bytes × Nat)} (h : Planned S fs done plan) {block : Nat}
    {e : Nat × Bytes × Nat} (he : e ∈ plan) (hgroup : e.1 = S.group_of block)
    (hin : S.bit_of block / 8 < e.2.1.length) :
    Planned S fs (block :: done) (plan.map fun x =>
      if x.1 = S.group_of block then (S.group_of block, e.2.1.clearBit (S.bit_of block), e.2.2 + 1) else x) := by
  -- the groups of a plan differ, so the entry that is replaced is `e`
  have hself : ∀ x ∈ plan, x.1 = S.group_of block → x = e := by
    intro x hx hx_group
    exact List.inj_on_of_nodup_map h.nodup hx he (hx_group.trans hgroup.symm)
  refine ⟨?_, ?_, ?_⟩
  · have hmap : (plan.map fun x => if x.1 = S.group_of block then
        (S.group_of block, e.2.1.clearBit (S.bit_of block), e.2.2 + 1) else x).map (·.1) = plan.map (·.1) := by
      rw [List.map_map]
      apply List.map_congr_left
      intro x _
      by_cases hx : x.1 = S.group_of block
      · simp [hx]
      · simp [hx]
    rw [hmap]
    exact h.nodup
  · intro y hy
    obtain ⟨x, hx, rfl⟩ := List.mem_map.mp hy
    by_cases hx_group : x.1 = S.group_of block
    · rw [if_pos hx_group]
      obtain ⟨hmeta, hlen, hbits⟩ := h.entries e he
      rw [hgroup] at hmeta hbits
      refine ⟨hmeta, by rw [Bytes.length_clearBit, hlen], fun bit hbit => hbits bit ?_⟩
      rw [Bytes.bit_clearBit hin, Bool.and_eq_true] at hbit
      exact hbit.1
    · rw [if_neg hx_group]
      exact h.entries x hx
  · intro b hb
    rcases List.mem_cons.mp hb with rfl | hb
    · refine ⟨_, List.mem_map.mpr ⟨e, he, rfl⟩, ?_, ?_⟩
      · rw [if_pos hgroup]
      · rw [if_pos hgroup, Bytes.bit_clearBit hin]
        simp
    · obtain ⟨x, hx, hx_group, hbit⟩ := h.cleared b hb
      refine ⟨_, List.mem_map.mpr ⟨x, hx, rfl⟩, ?_⟩
      by_cases hsame : x.1 = S.group_of block
      · rw [if_pos hsame, Bytes.bit_clearBit hin, ← hself x hx hsame, hbit]
        exact ⟨hsame.symm.trans hx_group, by simp⟩
      · rw [if_neg hsame]
        exact ⟨hx_group, hbit⟩

theorem Planned.same {done : List Nat} {plan : List (Nat × Bytes × Nat)} (h : Planned S fs done plan)
    (hs : fs.Same s) : Planned S s done plan := by
  refine ⟨h.nodup, fun e he => ?_, h.cleared⟩
  rw [hs.bitmapOf]
  exact h.entries e he

/-- The second half of `plan_free`: the plan has the map of the group. -/
def clear_in_plan {σ : Type} (plan : List (Nat × Bytes × Nat)) (group bit : Nat) :
    FsM σ (List (Nat × Bytes × Nat)) :=
  match plan.find? (·.1 = group) with
  | none => return plan
  | some (_, bm, freed) => do
    if ¬ (← test_bit bm bit) then fail (.CorruptFs "double free of a block")
    let bm ← clear_bit bm bit
    return plan.map fun e => if e.1 = group then (group, bm, freed + 1) else e

theorem tame_clear_in_plan (h : fs.shape = S) {done : List Nat} {plan : List (Nat × Bytes × Nat)}
    (hp : Planned S fs done plan) {block : Nat} (hsome : (plan.find? (·.1 = S.group_of block)).isSome) :
    Tame (cells cap S dir_ino) (clear_in_plan plan (S.group_of block) (S.bit_of block)) fs fun plan' s =>
      fs.Same s ∧ Planned S fs (block :: done) plan' := by
  unfold clear_in_plan
  cases hfind : plan.find? (·.1 = S.group_of block) with
  | none =>
    rw [hfind] at hsome
    cases hsome
  | some e =>
    obtain ⟨group, bm, freed⟩ := e
    have he := List.mem_of_find?_eq_some hfind
    have hgroup : group = S.group_of block := by simpa using List.find?_some hfind
    subst hgroup
    refine (tame_test_bit h bm (S.bit_of block)).bind fun set s hq hi => ?_
    obtain ⟨rfl, hin⟩ := hq
    refine .guard (fun _ => .fail hi _) fun _ => ?_
    refine (tame_clear_bit hi bm (S.bit_of block)).bind fun bm' s' hq hi' => .pure hi' ?_
    obtain ⟨rfl, rfl⟩ := hq
    exact ⟨.refl _, hp.clear he rfl hin⟩

theorem tame_plan_free (h : fs.shape = S) {done : List Nat} {plan : List (Nat × Bytes × Nat)}
    (hp : Planned S fs done plan) (block : Nat) :
    Tame (cells cap S dir_ino) (plan_free (memory cap known) plan block) fs fun plan' s =>
      fs.Same s ∧ Planned S fs (block :: done) plan' := by
  have hgroup : (block - fs.sb.first_data_block) / fs.sb.blocks_per_group = S.group_of block := by
    subst h
    rfl
  have hbit : (block - fs.sb.first_data_block) % fs.sb.blocks_per_group = S.bit_of block := by
    subst h
    rfl
  refine .get_bind (.guard (fun _ => .fail h _) fun _ => ?_)
  dsimp only
  rw [hgroup, hbit]
  cases hfind : plan.find? (·.1 = S.group_of block) with
  | some e => exact (tame_clear_in_plan h hp (by rw [hfind]; rfl)).congr rfl
  | none =>
    refine (tame_read_bitmap h .Block _).bind fun bm s hq hi => ?_
    obtain ⟨rfl, hlen, hsame, hmeta⟩ := hq
    have hpushed := (hp.push hfind hmeta hlen).same hsame
    have hsome : ((plan ++ [(S.group_of block, fs.bitmapOf .Block (S.group_of block), 0)]).find?
        fun e : Nat × Bytes × Nat => decide (e.1 = S.group_of block)).isSome := by
      simp [List.find?_append, hfind]
    have htame := (@tame_clear_in_plan cap S s dir_ino hi _ _ hpushed _ hsome).weaken
      fun plan' s' _ hq => And.intro (hsame.trans hq.1) (hq.2.same hsame.symm)
    exact htame.congr rfl

theorem tame_plan_frees (blocks : List Nat) : ∀ {fs : Mount Disk} {done : List Nat}
    {plan : List (Nat × Bytes × Nat)}, fs.shape = S → Planned S fs done plan →
    Tame (cells cap S dir_ino) (plan_frees (memory cap known) blocks plan) fs fun plan' s =>
      fs.Same s ∧ ∃ done', Planned S fs done' plan' ∧ ∀ b, b ∈ blocks ∨ b ∈ done → b ∈ done' := by
  induction blocks with
  | nil => exact fun h hp => .pure h ⟨.refl _, _, hp, by simp⟩
  | cons block rest ih =>
    intro fs done plan h hp
    refine (tame_plan_free h hp block).bind fun plan' s hq hi => ?_
    obtain ⟨hsame, hp'⟩ := hq
    refine (ih hi (hp'.same hsame)).weaken fun plan'' t _ hq => ?_
    obtain ⟨hsame', done', hp'', hall⟩ := hq
    refine ⟨hsame.trans hsame', done', hp''.same hsame.symm, fun b hb => hall b ?_⟩
    rw [List.mem_cons] at hb ⊢
    tauto

theorem tame_commit_freed (A : S.CellsApart) (seed : Seed) (plan : List (Nat × Bytes × Nat)) :
    ∀ {fs : Mount Disk}, fs.shape = S → (plan.map (·.1)).Nodup →
    (∀ e ∈ plan, S.Meta (.bitmap .Block e.1) ∧ e.2.1.length = S.bs) →
    Tame (cells cap S dir_ino) (commit_freed (memory cap known) seed plan) fs fun _ s =>
      (∀ e ∈ plan, s.bitmapOf .Block e.1 = e.2.1) ∧
        MapsKept S (fun which group => which = .Block → group ∉ plan.map (·.1)) fs s := by
  induction plan with
  | nil => exact fun h _ _ => .pure h ⟨by simp, mapsKept_of_same (.refl _)⟩
  | cons e rest ih =>
    intro fs h hnodup hmaps
    obtain ⟨group, bm, freed⟩ := e
    rw [List.map_cons, List.nodup_cons] at hnodup
    obtain ⟨hmeta, hlen⟩ := hmaps (group, bm, freed) List.mem_cons_self
    have hplace : ∀ g : GroupDesc, (g.give_back_blocks freed).place = g.place := fun _ => rfl
    have huninit : ∀ (g : GroupDesc) which, (g.give_back_blocks freed).bitmap_uninit which =
        if Bitmap.Block = which then false else g.bitmap_uninit which :=
      fun g which => initialised_uninit g .Block which
    refine (tame_set_group hplace h group).bind fun _ s hq hi => ?_
    subst hq
    have hflags := (mapsKept_modify h hplace group).mono
      (Q := fun which group' => (which, group') ≠ (.Block, group)) fun which group' hne heq g => by
        rw [huninit, if_neg]
        rintro rfl
        exact hne (by rw [heq])
    have hinit : Initialised .Block group
        { fs with groups := fs.groups.modify group fun g => g.give_back_blocks freed } :=
      initialised_modify fun g => by rw [huninit, if_pos rfl]
    refine (tame_counters (f := fun sb => sb.give_back_blocks freed) (fun _ => rfl) hi).bind fun _ s hq hi' => ?_
    subst hq
    have hcounters := mapsKept_counters (P := fun which group' => (which, group') ≠ (.Block, group)) hi
      (f := fun sb => sb.give_back_blocks freed) fun _ => rfl
    refine (tame_write_planned A hi' hmeta (fun g hg => hinit g hg) hlen seed).bind fun _ s hq hi'' => ?_
    obtain ⟨hself, hothers⟩ := hq
    refine (ih hi'' hnodup.2 fun e he => hmaps e (List.mem_cons_of_mem _ he)).weaken fun _ t _ hq => ?_
    obtain ⟨hrest, hkept⟩ := hq
    refine ⟨fun e he => ?_, ?_⟩
    · rcases List.mem_cons.mp he with rfl | he
      · exact (hkept .Block group hmeta fun _ => hnodup.1).trans hself
      · exact hrest e he
    · have hall := (hflags.trans hcounters).trans hothers
      refine (hall.mono ?_).trans (hkept.mono ?_)
      · rintro which group' hnot heq
        obtain ⟨rfl, rfl⟩ := Prod.mk.inj heq
        exact hnot rfl (by simp)
      · intro which group' hnot hwhich hmem
        exact hnot hwhich (List.mem_cons_of_mem _ hmem)

theorem tame_free_blocks (A : S.CellsApart) (h : fs.shape = S) (extents : List Extent) :
    Tame (cells cap S dir_ino) (free_blocks (memory cap known) extents) fs fun _ s =>
      Clearer S fs s ∧ ∀ e ∈ extents, ∀ b ∈ e.blocks, S.FreeBlock s b := by
  refine .ite (fun hempty => ?_) fun _ => .get_bind (.check_bind h fun seed _ => ?_)
  · rw [List.isEmpty_iff] at hempty
    exact .pure h ⟨(mapsKept_of_same (.refl fs)).clearer, by simp [hempty]⟩
  refine (tame_plan_frees _ h Planned.nil).bind fun plan s hq hi => ?_
  obtain ⟨hsame, done, hp, hdone⟩ := hq
  refine (tame_commit_freed A seed plan hi hp.nodup fun e he => ⟨(hp.entries e he).1, (hp.entries e he).2.1⟩).bind
    fun _ s' hq hi' => ?_
  obtain ⟨hself, hkept⟩ := hq
  have hclearer : Clearer S fs s' := by
    intro which group hmeta bit hbit
    by_cases hin : which = .Block ∧ group ∈ plan.map (·.1)
    · obtain ⟨rfl, hmem⟩ := hin
      obtain ⟨e, he, rfl⟩ := List.mem_map.mp hmem
      rw [hself e he] at hbit
      exact (hp.entries e he).2.2 bit hbit
    · rw [hkept which group hmeta fun hwhich hmem => hin ⟨hwhich, hmem⟩, hsame.bitmapOf] at hbit
      exact hbit
  refine (tame_write_superblock A hi' seed).weaken fun _ t _ hq => ⟨hclearer.trans hq.clearer, fun e he b hb => ?_⟩
  apply hq.clearer.freeBlock
  obtain ⟨x, hx, hgroup, hbit⟩ := hp.cleared b (hdone b (.inl (List.mem_flatMap.mpr ⟨e, he, hb⟩)))
  have hmeta := (hp.entries x hx).1
  have hmap := hself x hx
  rw [hgroup] at hmeta hmap
  exact ⟨hmeta, by rw [hmap, hbit]⟩

/-! ## The inode, and all together -/

theorem tame_free_inode (A : S.CellsApart) (h : fs.shape = S) {ino : Nat} (hne : ino ≠ dir_ino)
    (hbounds : 0 < ino ∧ ino < 2 ^ 32) (was_dir : Bool) :
    Tame (cells cap S dir_ino) (free_inode (memory cap known) ino was_dir) fs fun _ s =>
      Clearer S fs s ∧ S.FreeInode s ino := by
  have hsub : wrapping_sub ino 1 = ino - 1 := by
    apply wrapping_sub_of_le hbounds.1
    unfold size
    omega
  have hper : fs.sb.inodes_per_group = S.sb.inodes_per_group := by
    subst h
    rfl
  refine .get_bind (.check_bind h fun seed _ => .guard (fun _ => .fail h _) fun _ => ?_)
  dsimp only
  rw [hsub, hper]
  refine .guard (fun _ => .fail h _) fun _ => ?_
  refine (Tame.group_at (R := cells cap S dir_ino) trivial h _).bind fun g s hq hi => ?_
  obtain ⟨-, rfl⟩ := hq
  refine .guard (fun _ => .fail hi _) fun _ => ?_
  refine (tame_read_bitmap hi .Inode _).bind fun bm s hq hi => ?_
  obtain ⟨rfl, hlen, hsame, hmeta⟩ := hq
  refine (tame_test_bit hi _ _).bind fun set s' hq hi' => ?_
  obtain ⟨rfl, hin⟩ := hq
  refine .guard (fun _ => .fail hi' _) fun _ => .check_bind hi' fun offset hoffset => ?_
  rw [shape_inode_offset h] at hoffset
  have hcell : S.Meta (.inode ino) := ⟨offset, hoffset⟩
  have hrange : offset = (S.range (.inode ino)).1 := by
    simp only [Shape.range, hoffset]
    rfl
  have hsize : (List.replicate s.sb.inode_size (0 : UInt8)).length = (S.range (.inode ino)).2 := by
    rw [List.length_replicate]
    exact shape_inode_size h
  rw [hrange]
  refine (tame_write_cell hi' hcell (fun heq => hne (Cell.inode.inj heq)) hsize).bind fun _ s₁ hq hi₁ => ?_
  subst hq
  have hkept₁ : MapsKept S (fun _ _ => True) s (s'.stored (S.range (.inode ino)).1
      (List.replicate s.sb.inode_size 0)) :=
    (mapsKept_of_same hsame).trans ((mapsKept_stored A hi' hcell hsize).mono fun _ _ _ => Cell.noConfusion)
  refine (tame_clear_bit hi₁ _ _).bind fun bm s₂ hq hi₂ => ?_
  obtain ⟨rfl, rfl⟩ := hq
  refine (tame_set_group (f := fun g => g.give_back_inode was_dir) (fun _ => rfl) hi₂ _).bind fun _ s₃ hq hi₃ => ?_
  subst hq
  have hkept₂ := (mapsKept_modify (f := fun g => g.give_back_inode was_dir) hi₂ (fun _ => rfl)
    ((ino - 1) / S.sb.inodes_per_group)).mono (Q := fun _ _ => True) fun which _ _ _ g =>
      @bitmap_uninit_of_flags g (g.give_back_inode was_dir) rfl which
  refine (tame_counters (f := Superblock.give_back_inode) (fun _ => rfl) hi₃).bind fun _ s₄ hq hi₄ => ?_
  subst hq
  have hkept := (hkept₁.trans hkept₂).trans
    (mapsKept_counters (P := fun _ _ => True) (f := Superblock.give_back_inode) hi₃ fun _ => rfl)
  have hlength : ((s.bitmapOf .Inode ((ino - 1) / S.sb.inodes_per_group)).clearBit
      ((ino - 1) % S.sb.inodes_per_group)).length = S.bs := by rw [Bytes.length_clearBit, hlen]
  refine (tame_commit A hi₄ hmeta hlength seed).weaken fun _ t _ hq => ?_
  obtain ⟨hself, hothers⟩ := hq
  refine ⟨fun which group hmeta' bit hbit => ?_, hmeta, ?_⟩
  · by_cases hwhere : (which, group) = (.Inode, (ino - 1) / S.sb.inodes_per_group)
    · obtain ⟨rfl, rfl⟩ := Prod.mk.inj hwhere
      rw [hself, Bytes.bit_clearBit hin, Bool.and_eq_true] at hbit
      exact hbit.1
    · rwa [hothers which group hmeta' hwhere, hkept which group hmeta' trivial] at hbit
  · rw [hself, Bytes.bit_clearBit hin]
    simp

theorem tame_release (A : S.CellsApart) (h : fs.shape = S) {ino : Nat} (hne : ino ≠ dir_ino)
    (hbounds : 0 < ino ∧ ino < 2 ^ 32) (was_dir : Bool) (data index : List Extent) :
    Tame (cells cap S dir_ino) (release (memory cap known) ino was_dir data index) fs fun _ s =>
      S.FreeInode s ino ∧ ∀ e ∈ data ++ index, ∀ b ∈ e.blocks, S.FreeBlock s b := by
  refine (tame_free_inode A h hne hbounds was_dir).bind fun _ s hq hi => ?_
  obtain ⟨-, hinode⟩ := hq
  refine (tame_free_blocks A hi data).bind fun _ s' hq hi' => ?_
  obtain ⟨hclearer, hdata⟩ := hq
  have hflush : ∀ t : Mount Disk, t.shape = S → Tame (cells cap S dir_ino) (flush (memory cap known)) t fun _ t' =>
      t.Same t' := by
    intro t ht
    refine (Tame.flush (R := cells cap S dir_ino) known ht).weaken fun _ t' _ hq => ?_
    rw [hq]
    exact t.same_logged _
  refine .ite (fun _ => ?_) fun hempty => ?_
  · refine (tame_free_blocks A hi' index).bind fun _ t hq ht => (hflush t ht).weaken fun _ t' _ hsame => ?_
    obtain ⟨hclearer', hindex⟩ := hq
    have hlast : Clearer S t t' := (mapsKept_of_same hsame).clearer
    refine ⟨((hclearer.trans hclearer').trans hlast).freeInode hinode, fun e he b hb => ?_⟩
    rcases List.mem_append.mp he with he | he
    · exact (hclearer'.trans hlast).freeBlock (hdata e he b hb)
    · exact hlast.freeBlock (hindex e he b hb)
  · rw [not_not, List.isEmpty_iff] at hempty
    refine (hflush s' hi').weaken fun _ t' _ hsame => ?_
    have hlast : Clearer S s' t' := (mapsKept_of_same hsame).clearer
    refine ⟨(hclearer.trans hlast).freeInode hinode, fun e he b hb => ?_⟩
    rw [hempty, List.append_nil] at he
    exact hlast.freeBlock (hdata e he b hb)

end LuksAndroid.Ext4

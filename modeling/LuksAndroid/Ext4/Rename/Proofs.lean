import LuksAndroid.Ext4.Descent
import LuksAndroid.Ext4.Rename.Steps

/-!
# No rename keeps the file named

A rename removes the old name before it adds the new one, and what is on the device between
the two writes has neither. Only one that is refused, or that the device stops before that, is
as it should be. The names are right in the end all the same.
-/

namespace LuksAndroid.Ext4

open Word

variable {cap : Nat} {known : Bool} {fuel : Nat} {fs s t : Mount Disk} {dir_ino : Nat} {dir : Inode}
  {blocks : List Nat} {old_name new_name : Bytes}

/-! ## Renames that are refused -/

/-- What a call that reads returns is what it returned. -/
theorem Tame.of_quiet {R : Rules} {α : Type} {x : FsM Disk α} (hx : Quiet R x) {s : Mount Disk} (h : R.inv s) :
    Tame R x s fun a t => x s = .ok a t ∧ s.Same t where
  log := (hx.tame h).log
  halts := (hx.tame h).halts
  inv := (hx.tame h).inv
  post a t hrun := ⟨hrun, (hx.tame h).post a t hrun⟩

theorem replace_file_refused {s : Mount Disk} {dest : Nat} (hs : fs.Same s)
    (hdest : ∀ inode t, read_inode (memory cap known) dest fs = .ok inode t → inode.file_type.is_dir = true ∨
      inode.links > 1 ∨ ∀ p t', collect_extents (memory cap known) inode fs ≠ .ok p t') :
    Tame (still cap fs) (replace_file (memory cap known) fuel dir_ino new_name dest) s fun _ _ => False := by
  refine (Tame.of_quiet (R := still cap fs) (Quiet.read_inode dest) hs).bind fun inode u hq hu => ?_
  obtain ⟨hread, -⟩ := hq
  obtain ⟨t, hread', -⟩ := Blind.read_inode dest s fs inode u hs.symm hread
  refine .guard (fun _ => .fail hu _) fun hdir => .guard (fun _ => .fail hu _) fun hlinks => ?_
  have hcollect := ((hdest inode t hread').resolve_left hdir).resolve_left hlinks
  refine (Tame.of_quiet (R := still cap fs) (Quiet.collect_extents inode) hu).bind fun p v hq _ => ?_
  obtain ⟨t', hrun, -⟩ := Blind.collect_extents inode u fs p v hu.symm hq.1
  exact absurd hrun (hcollect p t')

theorem rename_refused (h : Directory cap known fuel fs dir_ino dir blocks) (hne : old_name ≠ new_name)
    (hrefused : Refused cap known fs blocks old_name new_name) :
    Tame (still cap fs) (rename_file (memory cap known) fuel dir_ino old_name new_name) fs fun _ _ => False := by
  have hfs : fs.Same fs := .refl fs
  refine .get_bind (.check_bind hfs fun seed hseed => .guard (fun _ => .fail hfs _) fun hslash => ?_)
  refine .check_bind hfs fun _ hold => .check_bind hfs fun _ hnew => ?_
  have hrefused : NotMovable cap known fs blocks old_name ∨ NotReplaceable cap known fs blocks new_name := by
    rcases hrefused with hwrite | hrefused | hrefused | hrefused
    · exact absurd hseed (hwrite seed)
    · exact absurd hold hrefused
    · exact absurd hnew hrefused
    · exact hrefused
  obtain ⟨s₁, hinode, -⟩ := h.read_inode
  refine (Tame.of_quiet (R := still cap fs) (Quiet.read_inode dir_ino) hfs).bind fun dir' s hq hs => ?_
  obtain rfl : dir' = dir := by
    have heq := hq.1.symm.trans hinode
    cases heq
    rfl
  rw [if_neg hne]
  refine .guard (fun _ => .fail hs _) fun _ => ?_
  obtain ⟨s₂, hfind, -⟩ := (h.same hs).find_entry old_name
  refine (Tame.of_quiet (R := still cap fs) (Quiet.find_entry trivial fuel dir' old_name) hs).bind
    fun found t hq ht => ?_
  obtain rfl : found = fs.named blocks old_name := by
    have heq := hq.1.symm.trans hfind
    rw [hs.named] at heq
    cases heq
    rfl
  rcases hino : fs.named blocks old_name with - | ino
  · exact .fail ht _
  refine (Tame.of_quiet (R := still cap fs) (Quiet.read_inode ino) ht).bind fun inode v hq hv => ?_
  obtain ⟨w, hread, -⟩ := Blind.read_inode ino t fs inode v ht.symm hq.1
  refine .guard (fun _ => .fail hv _) fun _ => .guard (fun _ => .fail hv _) fun hfile => ?_
  have hreplace : NotReplaceable cap known fs blocks new_name := by
    refine hrefused.resolve_left fun hnot => ?_
    rw [hnot ino hino inode w hread] at hfile
    exact hfile (by simp)
  obtain ⟨dest, hdest, hnot⟩ := hreplace
  obtain ⟨s₃, hfind', -⟩ := (h.same hv).find_entry new_name
  refine (Tame.of_quiet (R := still cap fs) (Quiet.find_entry trivial fuel dir' new_name) hv).bind
    fun found t' hq ht' => ?_
  obtain rfl : found = some dest := by
    have heq := hq.1.symm.trans hfind'
    rw [hv.named, hdest] at heq
    cases heq
    rfl
  exact (replace_file_refused ht' hnot).bind fun _ _ hq => hq.elim

theorem renameOk_of_still
    (h : Tame (still cap fs) (rename_file (memory cap known) fuel dir_ino old_name new_name) fs fun _ _ => False) :
    RenameOk cap known fuel fs dir_ino blocks old_name new_name := by
  constructor
  · intro u s hrun
    exact (h.post u s hrun).elim
  · intro e s hrun _ name
    have hinv := h.inv
    rw [hrun] at hinv
    exact (hinv trivial).named name
  · intro log hlog ino hino k
    have hthrough : Through cap (· = fs.io.state) fs _ :=
      h.through (R := still cap fs) (P := (· = fs.io.state)) (fun m a ha hm => (applied_of_read ha).trans hm) rfl
    exact holds_of_through hino (hthrough.mono fun m hm => by rw [hm]; exact hino) log hlog ino hino k

/-! ## The result -/

theorem freed_of_free (h : Directory cap known fuel s dir_ino dir blocks) {ino : Nat} {extents : List Extent}
    (hinode : s.shape.FreeInode s ino) (hblocks : ∀ e ∈ extents, ∀ b ∈ e.blocks, s.shape.FreeBlock s b)
    (ht : OnlyBlocks blocks s t) : Freed t ino extents := by
  have hper : t.sb.inodes_per_group = s.shape.sb.inodes_per_group := by
    rw [ht.sb]
    rfl
  have hgroup (b : Nat) : (b - t.sb.first_data_block) / t.sb.blocks_per_group = s.shape.group_of b := by
    rw [ht.sb]
    rfl
  have hbit (b : Nat) : (b - t.sb.first_data_block) % t.sb.blocks_per_group = s.shape.bit_of b := by
    rw [ht.sb]
    rfl
  constructor
  · rw [hper, ht.bitmapOf h hinode.1]
    exact hinode.2
  · intro e he b hb
    rw [hgroup, hbit, ht.bitmapOf h (hblocks e he b hb).1]
    exact (hblocks e he b hb).2

section

variable (h : Directory cap known fuel fs dir_ino dir blocks) (hne : old_name ≠ new_name)
include h hne

/-- A rename that is not refused, by what has the new name. -/
theorem rename_cases (hgo : ¬ Refused cap known fs blocks old_name new_name) :
    ∃ seed ino s, Begun cap known fuel dir_ino blocks old_name new_name seed ino fs s ∧
      (fs.named blocks new_name = none ∨ ∃ dest data index t, fs.named blocks new_name = some dest ∧
        Taken cap known fuel dir_ino dir blocks old_name new_name ino dest data index fs t) := by
  obtain ⟨seed, ino, s, hb⟩ := rename_begins h hne hgo
  refine ⟨seed, ino, s, hb, ?_⟩
  rcases hdest : fs.named blocks new_name with - | dest
  · exact .inl rfl
  · obtain ⟨data, index, t, T⟩ := hb.takes h hdest fun hnot => hgo (.inr (.inr (.inr (.inr hnot))))
    exact .inr ⟨dest, data, index, t, rfl, T⟩

variable (A : fs.shape.CellsApart)
include A

theorem rename_file_moves (hlt : usable fs.sb (Seed.of fs.sb) < 65536) :
    Moves cap known fuel fs dir_ino blocks old_name new_name := by
  rintro ⟨⟩ w hrun
  have hgo : ¬ Refused cap known fs blocks old_name new_name :=
    fun hrefused => (rename_refused h hne hrefused).post _ w hrun
  obtain ⟨seed, ino, s, hb, hnone | ⟨dest, data, index, t, hdest, T⟩⟩ := rename_cases h hne hgo
  · obtain ⟨u, hu⟩ := hb.moved h hnone
    rw [(hb.fresh hnone).1] at hrun
    have hdone := hu.done hne hrun
    refine ⟨⟨ino, hb.named, hdone.moved⟩, hdone.gone, fun name hold hnew => ?_, fun dest _ _ _ _ _ hdest => ?_⟩
    · rw [hdone.keeps ?_ name hold hnew, hb.same.named]
      rwa [hb.same.sb]
    · cases hnone.symm.trans hdest
  · rw [T.run] at hrun
    obtain ⟨⟨⟩, u, hrelease, hmove⟩ := Run.bind_ok.mp hrun
    obtain ⟨hshape, hdir, -, hnamed⟩ := T.released A (u := u) (by rw [hrelease]; trivial) (by rw [hrelease]; rfl)
    have hino : t.named blocks old_name = some ino := (T.unlinked.keeps hlt old_name hne).trans hb.named
    obtain ⟨v, hv⟩ := T.moved A hb.seed hb.valid.1 hb.valid.2 hino hrelease
    have hdone := hv.done hne hmove
    refine ⟨⟨ino, hb.named, hdone.moved⟩, hdone.gone, fun name hold hnew => ?_, ?_⟩
    · have hlt' : usable u.sb (Seed.of u.sb) < 65536 := by
        rwa [Directory.usable_of (hshape.trans T.shape)]
      rw [hdone.keeps hlt' name hold hnew, hnamed, T.unlinked.keeps hlt name hnew]
    · intro dest' inode t' data' index' t'' hdest' hread _ hcollect
      obtain rfl := Option.some.inj (hdest.symm.trans hdest')
      obtain ⟨rfl, rfl⟩ := T.extents inode t' data' index' t'' hread hcollect
      obtain ⟨hinode, hblocks⟩ := (T.tame A).post () u hrelease
      rw [← hshape] at hinode hblocks
      exact freed_of_free hdir hinode hblocks hdone.only_blocks

theorem rename_file_keeps_iff (hlt : usable fs.sb (Seed.of fs.sb) < 65536) :
    Keeps cap known fuel fs dir_ino blocks old_name new_name ↔
      Refused cap known fs blocks old_name new_name ∨
        Releasable cap known fuel fs dir_ino old_name new_name := by
  constructor
  · intro hkeeps
    by_contra hnot
    rw [not_or] at hnot
    obtain ⟨hgo, hrel⟩ := hnot
    unfold Releasable at hrel
    simp only [not_forall] at hrel
    obtain ⟨dest, data, index, t, e, u, hway, hrun, hfailed⟩ := hrel
    obtain ⟨seed, ino, s, hb, hnone | ⟨dest', data', index', t', hdest, T⟩⟩ := rename_cases h hne hgo
    · obtain ⟨e, herr⟩ := (hb.fresh hnone).2
      cases herr.symm.trans hway
    · cases T.way.symm.trans hway
      exact T.not_keeps A hdest hrun (Bool.eq_false_iff.mpr hfailed) hkeeps
  · rintro (hrefused | hrel)
    · exact (renameOk_of_still (rename_refused h hne hrefused)).keeps
    by_cases hgo : Refused cap known fs blocks old_name new_name
    · exact (renameOk_of_still (rename_refused h hne hgo)).keeps
    intro e w hrun hfailed name
    obtain ⟨seed, ino, s, hb, hnone | ⟨dest, data, index, t, hdest, T⟩⟩ := rename_cases h hne hgo
    · obtain ⟨u, hu⟩ := hb.moved h hnone
      have hlt' : usable s.sb (Seed.of s.sb) < 65536 := by rwa [hb.same.sb]
      rw [(hb.fresh hnone).1] at hrun
      rcases hu.ends with ⟨v, w', hok, -⟩ | ⟨-, e', w', herr, hback⟩
      · cases hok.symm.trans hrun
      · cases herr.symm.trans hrun
        obtain ⟨v, hvw, hlinked⟩ := hback hlt'
        rw [hvw.named]
        by_cases hname : name = old_name
        · rw [hname, hlinked.named, hb.named]
        · rw [hlinked.keeps name hname, hu.unlinked.keeps hlt' name hname, hb.same.named]
    · rw [T.run] at hrun
      rcases hrelease : release (memory cap known) dest false data index t with ⟨⟨⟩, u⟩ | ⟨e', u⟩
      · -- there was room for the new name before the old one was removed
        rw [Run.bind_eq_of_ok hrelease] at hrun
        obtain ⟨hshape, -, hblocks, -⟩ := T.released A (u := u) (by rw [hrelease]; trivial) (by rw [hrelease]; rfl)
        have husable := Directory.usable_of (hshape.trans T.shape)
        have hino : t.named blocks old_name = some ino := (T.unlinked.keeps hlt old_name hne).trans hb.named
        obtain ⟨v, hv⟩ := T.moved A hb.seed hb.valid.1 hb.valid.2 hino hrelease
        rcases hv.ends with ⟨v', w', hok, -⟩ | ⟨hfull, -⟩
        · cases hok.symm.trans hrun
        · obtain ⟨b, hb', hroom⟩ := T.unlinked.room hlt new_name rfl ino .Regular
          rw [← hblocks b hb', ← husable] at hroom
          exact absurd (hfull b hb') (hv.unlinked.roomy (by rwa [husable]) new_name ino .Regular b hb' hroom)
      · rw [Run.bind_eq_of_error hrelease] at hrun
        cases hrun
        rw [hrel dest data index t e w T.way hrelease] at hfailed
        cases hfailed

theorem renameOk_iff : RenameOk cap known fuel fs dir_ino blocks old_name new_name ↔
    Refused cap known fs blocks old_name new_name ∨
      Halfway cap known fuel fs dir_ino blocks old_name new_name := by
  constructor
  · intro hok
    by_contra hnot
    rw [not_or] at hnot
    obtain ⟨hgo, hhalf⟩ := hnot
    obtain ⟨seed, ino, s, hb, hnone | ⟨dest, data, index, t, hdest, T⟩⟩ := rename_cases h hne hgo
    · exact hb.not_holds h hnone hok.holds
    by_cases hlost : t.named blocks old_name = none
    · exact T.not_holds_of_lost A hb.named hlost hok.holds
    rcases hrelease : release (memory cap known) dest false data index t with ⟨⟨⟩, u⟩ | ⟨e, u⟩
    · exact T.not_holds_of_released A hb.seed hb.valid.1 hb.valid.2 hb.named hrelease hok.holds
    · refine hhalf ⟨dest, data, index, t, e, u, T.way, hlost, hrelease, fun err herr => ?_⟩
      subst herr
      by_contra hfailed
      exact T.not_keeps A hdest hrelease (Bool.eq_false_iff.mpr hfailed) hok.keeps
  · rintro (hrefused | ⟨dest, data, index, t, e, u, hway, hlost, hrelease, hdevice⟩)
    · exact renameOk_of_still (rename_refused h hne hrefused)
    by_cases hgo : Refused cap known fs blocks old_name new_name
    · exact renameOk_of_still (rename_refused h hne hgo)
    obtain ⟨seed, ino, s, hb, hnone | ⟨dest', data', index', t', hdest, T⟩⟩ := rename_cases h hne hgo
    · obtain ⟨e', herr⟩ := (hb.fresh hnone).2
      cases herr.symm.trans hway
    · cases T.way.symm.trans hway
      have herr : rename_file (memory cap known) fuel dir_ino old_name new_name fs = .error e u := by
        rw [T.run, Run.bind_eq_of_error hrelease]
      refine ⟨fun x w hrun => ?_, fun err w hrun hfailed => ?_, T.holds_of_error A hb.named hlost hrelease⟩
      · cases herr.symm.trans hrun
      · cases herr.symm.trans hrun
        rw [hdevice err rfl] at hfailed
        cases hfailed

end

/-! ## A small directory -/

/-- The record of an inode that has its blocks behind one extent header. -/
def extent_record (mode size : Nat) (extents : Bytes) : Bytes :=
  Bytes.patch (List.replicate 128 0) [(0, Bytes.le 2 mode), (4, Bytes.le 4 size), (26, Bytes.le 2 1),
    (32, Bytes.le 4 INODE_FL_EXTENTS), (40, extents)]

/-- `"a"` is the inode 12, and it is empty. The directory has block 8. -/
def small_mount : Mount Disk :=
  { looping_mount with io := { looping_mount.io with
      state := store (store (store (fun _ => 0)
        5248 (extent_record 0x41ED 1024 [0x0A, 0xF3, 1, 0, 4, 0, 0, 0, 0, 0, 0, 0, 0, 0, 0, 0, 1, 0, 0, 0, 8, 0, 0, 0]))
        6528 (extent_record 0x81A4 0 [0x0A, 0xF3, 0, 0, 4, 0, 0, 0, 0, 0, 0, 0]))
        8192 (two_records 1024) } }

def small_dir : Inode := Inode.parse 2 (load small_mount.io.state 5248 128)

theorem read_inode_eq {ino offset : Nat} (h : inode_offset fs.sb fs.groups ino = .ok offset)
    (hcap : offset + fs.sb.inode_size ≤ cap) : ∃ t, read_inode (memory cap known) ino fs =
      .ok (Inode.parse ino (load fs.io.state offset fs.sb.inode_size)) t := by
  refine ⟨fs.logged (.read offset fs.sb.inode_size), ?_⟩
  have hget : (get : FsM Disk (Mount Disk)) fs = .ok fs fs := rfl
  have hraw : read_raw_inode (memory cap known) ino fs =
      .ok (load fs.io.state offset fs.sb.inode_size) (fs.logged (.read offset fs.sb.inode_size)) := by
    rw [read_raw_inode, Run.bind_eq_of_ok hget, Run.bind_eq_of_ok (check_eq h fs)]
    exact read_at_of_le known fs hcap
  rw [read_inode, Run.bind_eq_of_ok hraw]
  rfl

/-- All that the filesystem itself has there. -/
def small_cells : List Cell :=
  [.super, .desc 0, .bitmap .Block 0, .bitmap .Inode 0] ++ (List.range 16).map fun i => .inode (i + 1)

/-- The directory has `"b"` too, and its one block is 20. -/
def pair_block : Bytes := (inserted (two_records 1024) 1024 [98] 13 .Regular).getD []

/-- Its block and its inode are marked as used. -/
def pair_maps : Disk := store (store small_mount.io.state 3072 [0xFF, 0xFF, 0x0F]) 4096 [0xFF, 0x1F]

def pair_record : Bytes :=
  extent_record 0x81A4 1024 [0x0A, 0xF3, 1, 0, 4, 0, 0, 0, 0, 0, 0, 0, 0, 0, 0, 0, 1, 0, 0, 0, 20, 0, 0, 0]

def pair_mount : Mount Disk :=
  { small_mount with io := { small_mount.io with state := store (store pair_maps 6656 pair_record) 8192 pair_block } }

/-- What is computed of the two directories. -/
theorem small_values :
    ((∀ c ∈ small_cells, ∀ c' ∈ small_cells, c ≠ c' →
        Bytes.Apart (small_mount.shape.range c) (small_mount.shape.range c')) ∧
      ∀ c ∈ small_cells, c ≠ .inode 2 → Bytes.Apart (small_mount.shape.range c) (8192, 1024)) ∧
    (small_dir.file_type.is_dir = true ∧ has small_dir.flags INODE_FL_INDEX = false ∧ small_dir.is_inline = false) ∧
    (dir_blocks small_mount.sb small_dir = [0] ∧ small_dir.uses_extents = true ∧
      small_dir.block_area.get 0 2 = EXTENT_MAGIC ∧
      12 + small_dir.block_area.get 2 2 * 12 ≤ small_dir.block_area.length ∧ small_dir.block_area.get 6 2 = 0 ∧
      leaf_run small_dir.block_area 0 (List.range (small_dir.block_area.get 2 2)) = (some 8, 1)) ∧
    (Inode.parse 12 (load small_mount.io.state 6528 128)).file_type.is_file = true ∧
    (inserted (two_records 1024) 1024 [98] 13 .Regular).isSome = true ∧ pair_record.length = 128 ∧
    (Inode.parse 13 (load pair_mount.io.state 6656 128)).file_type.is_file = true ∧
    (collect_extents (memory 65536 true)
      (Inode.parse 13 (load pair_mount.io.state 6656 128))).run' pair_mount = some ([⟨20, 1⟩], []) ∧
    (rename_file (memory 65536 true) 1 2 [97] [98]).run' pair_mount = some () := by
  decide +kernel

theorem small_maps (s : Mount Disk) :
    map_blocks (memory 65536 true) 1 small_dir (dir_blocks small_mount.sb small_dir) s = .ok [some 8] s := by
  obtain ⟨-, -, ⟨hblocks, hextents, hmagic, hfits, hdepth, hleaf⟩, -⟩ := small_values
  have hrun : map_run (memory 65536 true) 1 small_dir 0 s = .ok (some 8, 1) s := by
    rw [map_run, if_pos hextents, map_run_extents, if_neg (not_not.mpr hmagic), if_neg (not_lt.mpr hfits),
      if_pos hdepth, hleaf]
    rfl
  have hmap : map_block (memory 65536 true) 1 small_dir 0 s = .ok (some 8) s := by
    rw [map_block, Run.bind_eq_of_ok hrun]
    rfl
  rw [hblocks, map_blocks, Run.bind_eq_of_ok hmap]
  rfl

theorem small_offsets : inode_offset small_mount.sb small_mount.groups 2 = .ok 5248 ∧
    inode_offset small_mount.sb small_mount.groups 12 = .ok 6528 ∧
    inode_offset small_mount.sb small_mount.groups 13 = .ok 6656 := by
  with_unfolding_all exact ⟨rfl, rfl, rfl⟩

def small_recs : List Rec := [⟨12, some ⟨0, 2, [46], 2⟩⟩, ⟨1012, some ⟨12, 12, [97], 1⟩⟩]

theorem small_tiled : Tiled (two_records 1024) 1024 small_recs :=
  two_records_tiled (by decide) (by decide) (by decide)

theorem small_block : small_mount.block 8 = two_records 1024 := by
  have hlength : (two_records 1024).length = 1024 := (length_two_records (by decide)).trans rfl
  have hself := load_store_self (store (store (fun _ => 0)
    5248 (extent_record 0x41ED 1024 [0x0A, 0xF3, 1, 0, 4, 0, 0, 0, 0, 0, 0, 0, 0, 0, 0, 0, 1, 0, 0, 0, 8, 0, 0, 0]))
    6528 (extent_record 0x81A4 0 [0x0A, 0xF3, 0, 0, 4, 0, 0, 0, 0, 0, 0, 0])) 8192 (two_records 1024)
  rw [hlength] at hself
  exact hself

theorem small_sound : Sound 1024 (two_records 1024) small_recs :=
  ⟨small_tiled, .inl (length_two_records (by decide)).symm, by decide⟩

theorem small_named (name : Bytes) :
    small_mount.named [8] name = ((entries small_recs).find? (·.name = name)).map (·.ino) := by
  have hlookup : small_mount.named [8] name = (find (small_mount.block 8) name).or none := lookup_cons _ _ _ _ _
  rw [hlookup, Option.or_none, small_block, find_eq small_sound]

theorem mem_small_cells {c : Cell} (h : small_mount.shape.Meta c) : c ∈ small_cells := by
  cases c with
  | super => decide
  | desc group =>
    obtain rfl : group = 0 := Nat.lt_one_iff.mp h
    decide
  | bitmap which group =>
    obtain rfl : group = 0 := Nat.lt_one_iff.mp (meta_bitmap_lt h)
    cases which <;> decide
  | inode ino =>
    obtain ⟨offset, hoffset⟩ := h
    have hcount : small_mount.shape.sb.inodes_count = 16 := rfl
    by_cases hbounds : ino = 0 ∨ ino > small_mount.shape.sb.inodes_count
    · rw [inode_offset, if_pos hbounds] at hoffset
      cases hoffset
    · rw [not_or] at hbounds
      have hino : ino - 1 + 1 = ino := by omega
      exact List.mem_append_right _ (List.mem_map.mpr ⟨ino - 1, List.mem_range.mpr (by omega), by rw [hino]⟩)

theorem small_apart : small_mount.shape.CellsApart :=
  fun c c' hc hc' => small_values.1.1 c (mem_small_cells hc) c' (mem_small_cells hc')

theorem small_directory : Directory 65536 true 1 small_mount 2 small_dir [8] := by
  have hinode : small_mount.shape.range (.inode 2) = (5248, 128) := by with_unfolding_all rfl
  have hmeta : small_mount.shape.Meta (.inode 2) := ⟨5248, small_offsets.1⟩
  obtain ⟨⟨-, hblocks⟩, ⟨hdir, hplain⟩, -⟩ := small_values
  refine ⟨hdir, hplain, fun s hs => ⟨?_, _, s, small_maps s, rfl⟩, by decide, ?_, ?_, ?_, ?_⟩
  · have hoffset : inode_offset s.sb s.groups 2 = .ok 5248 := by
      rw [shape_inode_offset hs.shape]
      exact small_offsets.1
    have hsize : s.sb.inode_size = 128 := shape_inode_size hs.shape
    obtain ⟨t, hread⟩ := @read_inode_eq 65536 true s 2 5248 hoffset (by rw [hsize]; decide)
    refine ⟨t, hread.trans ?_⟩
    have hsame : load s.io.state 5248 s.sb.inode_size = load small_mount.io.state 5248 128 := by
      rw [hsize]
      apply load_congr
      intro i hi
      apply hs.state
      rintro (⟨b, hb, hlow, -⟩ | ⟨c, hc, hne, hlow, hhigh⟩)
      · obtain rfl := List.mem_singleton.mp hb
        have hbs : small_mount.shape.bs = 1024 := rfl
        omega
      · have hapart := small_apart c _ hc hmeta hne
        rw [hinode] at hapart
        rcases hapart with hbefore | hbehind
        · omega
        · omega
    rw [hsame]
    rfl
  · intro b hb
    obtain rfl := List.mem_singleton.mp hb
    exact ⟨by with_unfolding_all rfl, by decide⟩
  · intro b hb c hc hne
    obtain rfl := List.mem_singleton.mp hb
    exact hblocks c (mem_small_cells hc) hne
  · intro b hb
    obtain rfl := List.mem_singleton.mp hb
    rw [small_block]
    exact .inl ⟨_, small_sound⟩
  · intro b hb b' hb' _ _ _
    rw [List.mem_singleton.mp hb, List.mem_singleton.mp hb']

theorem pair_renamed : Renamed 1024 (two_records 1024) [98] 13 pair_block := by
  have hnone : find (two_records 1024) [98] = none := by
    rw [find_eq small_sound]
    decide
  obtain ⟨-, -, -, -, hsome, -⟩ := small_values
  obtain ⟨block, hrun⟩ := Option.isSome_iff_exists.mp hsome
  have hblock : pair_block = block := by rw [pair_block, hrun, Option.getD_some]
  rw [hblock]
  exact Readable.inserted (.inl ⟨_, small_sound⟩) rfl (by decide) hnone hrun

theorem length_pair_block : pair_block.length = 1024 := pair_renamed.length.trans (length_two_records (by decide))

theorem pair_state : pair_mount.block 8 = pair_block := by
  have hself := load_store_self (store pair_maps 6656 pair_record) 8192 pair_block
  rw [length_pair_block] at hself
  exact hself

theorem pair_beside : small_mount.Beside 2 [8] pair_mount := by
  have hsb : pair_mount.sb = small_mount.sb := rfl
  have hgroups : pair_mount.groups = small_mount.groups := rfl
  refine ⟨by rw [Mount.shape, Mount.shape, hsb, hgroups], fun i hi => ?_⟩
  have hmaps (which : Bitmap) : small_mount.shape.Meta (.bitmap which 0) := by
    cases which
    · exact ⟨3072, by with_unfolding_all rfl⟩
    · exact ⟨4096, by with_unfolding_all rfl⟩
  have hinode : small_mount.shape.Meta (.inode 13) := ⟨6656, small_offsets.2.2⟩
  have hranges : small_mount.shape.range (.bitmap .Block 0) = (3072, 1024) ∧
      small_mount.shape.range (.bitmap .Inode 0) = (4096, 1024) ∧
      small_mount.shape.range (.inode 13) = (6656, 128) := by with_unfolding_all exact ⟨rfl, rfl, rfl⟩
  have hblock : ¬ (8192 ≤ i ∧ i < 8192 + 1024) := fun hin => hi (.inl ⟨8, List.mem_singleton_self 8, hin⟩)
  have hout {c : Cell} {p : Nat × Nat} (hc : small_mount.shape.Meta c) (hne : c ≠ .inode 2)
      (hrange : small_mount.shape.range c = p) : ¬ (p.1 ≤ i ∧ i < p.1 + p.2) := by
    intro hin
    refine hi (.inr ⟨c, hc, hne, ?_⟩)
    rwa [hrange]
  have hblocks := hout (hmaps .Block) Cell.noConfusion hranges.1
  have hinodes := hout (hmaps .Inode) Cell.noConfusion hranges.2.1
  have hrecord := hout hinode (by decide) hranges.2.2
  dsimp only at hblocks hinodes hrecord
  obtain ⟨-, -, -, -, -, hlength, -⟩ := small_values
  change store (store (store (store small_mount.io.state 3072 _) 4096 _) 6656 pair_record) 8192 pair_block i = _
  rw [store_of_not_mem _ (by rw [length_pair_block]; omega), store_of_not_mem _ (by rw [hlength]; omega),
    store_of_not_mem _ (by simp only [List.length_cons, List.length_nil]; omega),
    store_of_not_mem _ (by simp only [List.length_cons, List.length_nil]; omega)]

theorem pair_directory : Directory 65536 true 1 pair_mount 2 small_dir [8] := by
  apply small_directory.beside pair_beside
  · intro b hb
    obtain rfl := List.mem_singleton.mp hb
    rw [pair_state]
    exact pair_renamed.readable
  · intro b hb b' hb' _ _ _
    rw [List.mem_singleton.mp hb, List.mem_singleton.mp hb']

theorem pair_apart : pair_mount.shape.CellsApart := by
  rw [pair_beside.shape]
  exact small_apart

theorem pair_named (name : Bytes) : pair_mount.named [8] name = find pair_block name := by
  have hlookup : pair_mount.named [8] name = (find (pair_mount.block 8) name).or none := lookup_cons _ _ _ _ _
  rw [hlookup, Option.or_none, pair_state]

theorem ok_of_run' {α : Type} {x : FsM Disk α} {a : α} (h : x.run' s = some a) : ∃ t, x s = .ok a t := by
  unfold EStateM.run' EStateM.run at h
  rcases hx : x s with ⟨b, t⟩ | ⟨e, t⟩
  · rw [hx] at h
    cases h
    exact ⟨t, rfl⟩
  · rw [hx] at h
    cases h

/-! ## The result -/

/-- A rename is as it should be when it is refused at once, or when the device fails after the new name was taken
from the file that has it and before anything else. Below 64 KiB what it returns is right all the same, and an
error changes no name, as long as the file that is replaced can be given back. -/
theorem rename_file_atomic (h : Directory cap known fuel fs dir_ino dir blocks) (hne : old_name ≠ new_name)
    (A : fs.shape.CellsApart) :
    (RenameOk cap known fuel fs dir_ino blocks old_name new_name ↔
      Refused cap known fs blocks old_name new_name ∨ Halfway cap known fuel fs dir_ino blocks old_name new_name) ∧
    (usable fs.sb (Seed.of fs.sb) < 65536 → Moves cap known fuel fs dir_ino blocks old_name new_name ∧
      (Keeps cap known fuel fs dir_ino blocks old_name new_name ↔
        Refused cap known fs blocks old_name new_name ∨ Releasable cap known fuel fs dir_ino old_name new_name)) :=
  ⟨renameOk_iff h hne A, fun hlt => ⟨rename_file_moves h hne A hlt, rename_file_keeps_iff h hne A hlt⟩⟩

/-- `"a"` takes the place of `"b"`, whose inode and block are free then. What is not there cannot be renamed. -/
theorem rename_file_atomic_replaces :
    (∃ s, rename_file (memory 65536 true) 1 2 [97] [98] pair_mount = .ok () s ∧ s.named [8] [98] = some 12 ∧
      s.named [8] [97] = none ∧ s.named [8] [46] = some 2 ∧ Freed s 13 [⟨20, 1⟩]) ∧
    RenameOk 65536 true 1 pair_mount 2 [8] [99] [98] := by
  have hfind (name : Bytes) (hname : name ≠ [98]) :
      pair_mount.named [8] name = ((entries small_recs).find? (·.name = name)).map (·.ino) := by
    rw [pair_named, pair_renamed.keeps name hname, find_eq small_sound]
  have hdest : pair_mount.named [8] [98] = some 13 := (pair_named [98]).trans pair_renamed.named
  obtain ⟨-, -, -, -, -, -, hfile, hextents, hruns⟩ := small_values
  obtain ⟨t, hread⟩ := @read_inode_eq 65536 true pair_mount 13 6656 small_offsets.2.2 (by decide)
  obtain ⟨s, hrun⟩ := ok_of_run' hruns
  obtain ⟨t', hcollect⟩ := ok_of_run' hextents
  constructor
  · obtain ⟨-, hbelow⟩ := rename_file_atomic pair_directory (show ([97] : Bytes) ≠ [98] by decide) pair_apart
    obtain ⟨hmoves, -⟩ := hbelow (show (1024 : Nat) < 65536 by decide)
    obtain ⟨⟨ino, hold, hnew⟩, hgone, hothers, hfreed⟩ := hmoves () s hrun
    rw [hfind [97] (by decide)] at hold
    cases hold
    refine ⟨s, hrun, hnew, hgone, ?_, hfreed 13 _ t _ _ t' hdest hread hfile hcollect⟩
    exact (hothers [46] (by decide) (by decide)).trans ((hfind [46] (by decide)).trans (by decide))
  · obtain ⟨hiff, -⟩ := rename_file_atomic pair_directory (show ([99] : Bytes) ≠ [98] by decide) pair_apart
    refine hiff.mpr (.inl (.inr (.inr (.inr (.inl fun ino hino => ?_)))))
    rw [hfind [99] (by decide)] at hino
    cases hino

/-- `"a"` is nowhere while it becomes `"b"`. -/
theorem rename_file_loses_name : Directory 65536 true 1 small_mount 2 small_dir [8] ∧
    ¬ RenameOk 65536 true 1 small_mount 2 [8] [97] [98] := by
  have hino : small_mount.named [8] [97] = some 12 := (small_named [97]).trans (by decide)
  have hnone : small_mount.named [8] [98] = none := (small_named [98]).trans (by decide)
  refine ⟨small_directory, fun hok => ?_⟩
  obtain ⟨t, hread⟩ := @read_inode_eq 65536 true small_mount 12 6528 small_offsets.2.1 (by decide)
  have hgo : ¬ Refused 65536 true small_mount [8] [97] [98] := by
    rintro (hwrite | hold | hnew | hmovable | ⟨dest, hdest, -⟩)
    · exact hwrite _ rfl
    · exact hold rfl
    · exact hnew rfl
    · obtain ⟨-, -, -, hfile, -⟩ := small_values
      cases hfile.symm.trans (hmovable 12 hino _ t hread)
    · cases hnone.symm.trans hdest
  obtain ⟨seed, ino, s, hb⟩ := rename_begins small_directory (by decide) hgo
  exact hb.not_holds small_directory hnone hok.holds

end LuksAndroid.Ext4

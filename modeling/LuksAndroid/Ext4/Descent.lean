import LuksAndroid.Ext4.Logic
import LuksAndroid.Lib.Acyclic

/-!
# The walk down an extent tree

`map_run_extents` goes on as long as the block it reads says that it is not a leaf. It
ends on a drive exactly if the nodes it meets do not lead back to one of them.
-/

namespace LuksAndroid.Ext4

open Word

variable {cap : Nat} {known : Bool} {lblock : Nat}

/-- The block that the walk asks for behind this node, if it does not stop here. -/
def next_block (lblock : Nat) (node : Bytes) : Option Nat :=
  if node.get 0 2 ≠ EXTENT_MAGIC ∨ 12 + node.get 2 2 * 12 > node.length ∨ node.get 6 2 = 0 then none
  else index_child node lblock (List.range (node.get 2 2)) none

/-- What a block of the filesystem holds, if it can be read. -/
def block_bytes (sb : Superblock) (cap : Nat) (m : Disk) (block : Nat) : Option Bytes :=
  if block < sb.blocks_count ∧ wrapping_mul block sb.block_size + sb.block_size ≤ cap then
    some (load m (wrapping_mul block sb.block_size) sb.block_size)
  else none

/-- The walk for `lblock` goes from the first node to the second. -/
def LeadsTo (sb : Superblock) (cap : Nat) (m : Disk) (lblock : Nat) (node child : Bytes) : Prop :=
  (next_block lblock node).bind (block_bytes sb cap m) = some child

theorem LeadsTo.unique {sb : Superblock} {m : Disk} {node child child' : Bytes}
    (h : LeadsTo sb cap m lblock node child) (h' : LeadsTo sb cap m lblock node child') : child' = child :=
  Option.some.inj (h'.symm.trans h)

/-- The contents of all blocks of the filesystem. -/
def all_blocks (sb : Superblock) (m : Disk) : Finset Bytes :=
  (Finset.range sb.blocks_count).image fun block => load m (wrapping_mul block sb.block_size) sb.block_size

theorem LeadsTo.mem_all_blocks {sb : Superblock} {m : Disk} {node child : Bytes}
    (h : LeadsTo sb cap m lblock node child) : child ∈ all_blocks sb m := by
  obtain ⟨block, -, hblock⟩ := Option.bind_eq_some_iff.mp h
  unfold block_bytes at hblock
  split at hblock
  case isTrue hread =>
    apply Finset.mem_image.mpr
    exact ⟨block, Finset.mem_range.mpr hread.1, Option.some.inj hblock⟩
  case isFalse => cases hblock

theorem card_all_blocks_le (sb : Superblock) (m : Disk) : (all_blocks sb m).card ≤ sb.blocks_count := by
  apply Finset.card_image_le.trans
  simp

/-! ## One step -/

theorem read_block_eq (cap : Nat) (known : Bool) (fs : Mount Disk) (block : Nat) :
    (∃ child, block_bytes fs.sb cap fs.io.state block = some child ∧
      ∃ fs', fs.Same fs' ∧ read_block (memory cap known) block fs.sb.block_size fs = .ok child fs') ∨
    block_bytes fs.sb cap fs.io.state block = none ∧
      ∃ e fs', read_block (memory cap known) block fs.sb.block_size fs = .error (.err e) fs' := by
  unfold block_bytes
  have hrun : read_block (memory cap known) block fs.sb.block_size fs =
      if block ≥ fs.sb.blocks_count then .error (.err (.CorruptFs "block pointer past end of filesystem")) fs
      else read_at (memory cap known) (wrapping_mul block fs.sb.block_size) fs.sb.block_size fs := by
    simp only [read_block, bind, EStateM.bind, get, getThe, MonadStateOf.get, EStateM.get]
    split <;> rfl
  rw [hrun]
  by_cases hblock : block ≥ fs.sb.blocks_count
  · right
    rw [if_pos hblock, if_neg (by omega)]
    exact ⟨rfl, _, _, rfl⟩
  · rw [if_neg hblock]
    by_cases hcap : wrapping_mul block fs.sb.block_size + fs.sb.block_size ≤ cap
    · left
      rw [if_pos ⟨by omega, hcap⟩, read_at_of_le known fs hcap]
      exact ⟨_, rfl, fs.logged _, ⟨rfl, rfl, rfl⟩, rfl⟩
    · right
      rw [if_neg (by omega)]
      obtain ⟨fs', hread, -⟩ := read_at_of_lt known fs hcap
      exact ⟨rfl, _, fs', hread⟩

theorem map_run_extents_step (fs : Mount Disk) (node : Bytes) :
    ((∀ child, ¬ LeadsTo fs.sb cap fs.io.state lblock node child) ∧
      ∀ fuel, Survives (map_run_extents (memory cap known) lblock (fuel + 1) node fs)) ∨
    ∃ child fs', LeadsTo fs.sb cap fs.io.state lblock node child ∧ fs.Same fs' ∧
      ∀ fuel, map_run_extents (memory cap known) lblock (fuel + 1) node fs =
        map_run_extents (memory cap known) lblock fuel child fs' := by
  unfold LeadsTo next_block
  by_cases hmagic : node.get 0 2 = EXTENT_MAGIC
  case neg =>
    left
    refine ⟨by simp [hmagic], fun fuel => ?_⟩
    rw [map_run_extents, if_pos hmagic]
    trivial
  by_cases hlen : 12 + node.get 2 2 * 12 > node.length
  case pos =>
    left
    refine ⟨by simp [hlen], fun fuel => ?_⟩
    rw [map_run_extents, if_neg (not_not_intro hmagic), if_pos hlen]
    trivial
  by_cases hdepth : node.get 6 2 = 0
  case pos =>
    left
    refine ⟨by simp [hdepth], fun fuel => ?_⟩
    rw [map_run_extents, if_neg (not_not_intro hmagic), if_neg hlen, if_pos hdepth]
    trivial
  have hinner : ∀ fuel, map_run_extents (memory cap known) lblock (fuel + 1) node fs =
      ((index_child node lblock (List.range (node.get 2 2)) none).elim
        (fail (.BadExtentTree "no index covers this block")) fun block =>
          read_block (memory cap known) block fs.sb.block_size >>= map_run_extents (memory cap known) lblock fuel)
        fs := by
    intro fuel
    rw [map_run_extents, if_neg (not_not_intro hmagic), if_neg hlen, if_neg hdepth]
    cases index_child node lblock (List.range (node.get 2 2)) none with
    | none => rfl
    | some block => rfl
  rw [if_neg (by tauto)]
  simp only [hinner]
  cases index_child node lblock (List.range (node.get 2 2)) none with
  | none =>
    left
    exact ⟨by simp, fun fuel => trivial⟩
  | some block =>
    simp only [Option.bind_some, Option.elim_some, bind, EStateM.bind]
    rcases read_block_eq cap known fs block with ⟨child, hchild, fs', hsame, hread⟩ | ⟨hchild, e, fs', hread⟩
    · right
      exact ⟨child, fs', hchild, hsame, fun fuel => by rw [hread]⟩
    · left
      rw [hchild, hread]
      exact ⟨by simp, fun fuel => trivial⟩

/-! ## The whole walk -/

/-- The nodes ahead are fewer with every step. -/
theorem survives_of_acyclic (fuel : Nat) : ∀ (fs : Mount Disk) (node : Bytes),
    Acyclic (LeadsTo fs.sb cap fs.io.state lblock) node →
    (Acyclic.ahead (LeadsTo fs.sb cap fs.io.state lblock) (all_blocks fs.sb fs.io.state) node).card < fuel →
    Survives (map_run_extents (memory cap known) lblock fuel node fs) := by
  induction fuel with
  | zero =>
    intro fs node _ hcard
    omega
  | succ fuel ih =>
    intro fs node hacyclic hcard
    rcases @map_run_extents_step cap known lblock fs node with
      ⟨-, hends⟩ | ⟨child, fs', hleads, hsame, hgoes⟩
    · exact hends fuel
    · have hless := Acyclic.card_ahead_lt hacyclic hleads hleads.mem_all_blocks
      rw [hgoes]
      apply ih
      · rw [hsame.sb, hsame.state]
        exact hacyclic.next hleads
      · rw [hsame.sb, hsame.state]
        omega

theorem acyclic_of_survives (fuel : Nat) : ∀ (fs : Mount Disk) (node : Bytes),
    Survives (map_run_extents (memory cap known) lblock fuel node fs) →
    Acyclic (LeadsTo fs.sb cap fs.io.state lblock) node := by
  induction fuel with
  | zero =>
    intro fs node h
    exact h.elim
  | succ fuel ih =>
    intro fs node h
    apply Acyclic.of_next
    intro next hnext
    rcases @map_run_extents_step cap known lblock fs node with
      ⟨hstops, -⟩ | ⟨child, fs', hleads, hsame, hgoes⟩
    · exact absurd hnext (hstops next)
    · rw [hgoes] at h
      have hchild := ih fs' child h
      rw [hsame.sb, hsame.state] at hchild
      rw [hleads.unique hnext]
      exact hchild

/-- Mapping a block ends if and only if no node on its way leads back to itself. Then it reads no more
blocks than the filesystem has. -/
theorem map_run_extents_ends (cap : Nat) (known : Bool) (fs : Mount Disk) (inode : Inode) (lblock : Nat) :
    ((∃ fuel, Survives (map_run_extents (memory cap known) lblock fuel inode.block_area fs)) ↔
      Acyclic (LeadsTo fs.sb cap fs.io.state lblock) inode.block_area) ∧
    (Survives (map_run_extents (memory cap known) lblock (fs.sb.blocks_count + 1) inode.block_area fs) ↔
      Acyclic (LeadsTo fs.sb cap fs.io.state lblock) inode.block_area) := by
  have hbounded (hacyclic : Acyclic (LeadsTo fs.sb cap fs.io.state lblock) inode.block_area) :
      Survives (map_run_extents (memory cap known) lblock (fs.sb.blocks_count + 1) inode.block_area fs) := by
    apply survives_of_acyclic _ _ _ hacyclic
    have hahead := Acyclic.card_ahead_le (r := LeadsTo fs.sb cap fs.io.state lblock) (a := inode.block_area)
      (all_blocks fs.sb fs.io.state)
    have hall := card_all_blocks_le fs.sb fs.io.state
    omega
  refine ⟨⟨?_, fun hacyclic => ⟨_, hbounded hacyclic⟩⟩, acyclic_of_survives _ _ _, hbounded⟩
  rintro ⟨fuel, h⟩
  exact acyclic_of_survives fuel _ _ h

/-- An index node with one entry, which is the block it stands in. -/
def looping_node : Bytes :=
  [0x0A, 0xF3, 1, 0, 4, 0, 1, 0, 0, 0, 0, 0, 0, 0, 0, 0, 9, 0, 0, 0, 0, 0, 0, 0]

def looping_mount : Mount Disk where
  sb := {
    inodes_count := 16
    blocks_count := 64
    first_data_block := 1
    block_size := 1024
    blocks_per_group := 8192
    inodes_per_group := 16
    inode_size := 128
    feature_incompat := INCOMPAT_FILETYPE + INCOMPAT_EXTENTS
    feature_ro_compat := 0
    desc_size := 0
    uuid := List.replicate 16 0
    free_blocks_count := 40
    free_inodes_count := 5
    clusters_per_group := 8192
    first_ino := 11
    checksum_seed := none
    min_extra_isize := 0
    state := STATE_CLEANLY_UNMOUNTED
    reserved_gdt_blocks := 0 }
  groups := [{
    block_bitmap := 3
    inode_bitmap := 4
    inode_table := 5
    free_blocks_count := 40
    free_inodes_count := 5
    used_dirs_count := 1
    flags := 0
    itable_unused := 0
    checksum := 0
    block_bitmap_csum := 0
    inode_bitmap_csum := 0 }]
  io := { state := store (fun _ => 0) (9 * 1024) looping_node, accesses := [], failed := false }

def looping_inode : Inode where
  number := 12
  mode := 0x81A4
  size := 4096
  links := 1
  flags := INODE_FL_EXTENTS
  generation := 0
  block_area := looping_node ++ List.replicate 36 0

/-- The node in block 9 points at block 9. -/
theorem map_run_extents_loops :
    ¬ ∃ fuel, Survives (map_run_extents (memory 65536 true) 0 fuel looping_inode.block_area looping_mount) := by
  rintro ⟨fuel, h⟩
  have hacyclic := acyclic_of_survives fuel _ _ h
  have hroot : LeadsTo looping_mount.sb 65536 looping_mount.io.state 0 looping_inode.block_area
      (load looping_mount.io.state 9216 1024) := by
    unfold LeadsTo
    decide +kernel
  have hself : LeadsTo looping_mount.sb 65536 looping_mount.io.state 0 (load looping_mount.io.state 9216 1024)
      (load looping_mount.io.state 9216 1024) := by
    unfold LeadsTo
    decide +kernel
  exact hacyclic _ (.single hroot) (.single hself)

end LuksAndroid.Ext4

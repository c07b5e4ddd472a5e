import LuksAndroid.Ext4.Logic

/-!
# Where things are on the device

The filesystem itself has cells: the superblock, the descriptors, the bitmaps and the inode
records. Where they are never changes, and no two of them share a byte. What a call may touch is
said in cells, and what it leaves alone follows.
-/

namespace LuksAndroid.Ext4

open Word

/-! ## What never changes -/

/-- The superblock without its counters. -/
def Superblock.shape (sb : Superblock) : Superblock := { sb with free_blocks_count := 0, free_inodes_count := 0 }

/-- A descriptor without what changes in it. -/
def GroupDesc.place (g : GroupDesc) : GroupDesc :=
  ⟨g.block_bitmap, g.inode_bitmap, g.inode_table, 0, 0, 0, 0, 0, 0, 0, 0⟩

structure Shape where
  sb : Superblock
  places : List GroupDesc

def Mount.shape {σ : Type} (fs : Mount σ) : Shape := ⟨fs.sb.shape, fs.groups.map GroupDesc.place⟩

/-! ## Cells -/

inductive Cell where
  | super
  | desc (group : Nat)
  | bitmap (which : Bitmap) (group : Nat)
  | inode (ino : Nat)
deriving DecidableEq, Repr

namespace Shape

variable (S : Shape)

def bs : Nat := S.sb.block_size

/-- The offset that the code computes for a bitmap. -/
def bitmap_offset (which : Bitmap) (group : Nat) : Except LuksError Nat :=
  match S.places[group]? with
  | none => .error .OutOfBounds
  | some g => S.sb.metadata_block_offset (g.bitmap which)

/-- The first byte and the number of bytes of a cell. -/
def range : Cell → Nat × Nat
  | .super => (SUPERBLOCK_OFFSET, 1024)
  | .desc group => (S.sb.desc_offset group, S.sb.group_desc_size)
  | .bitmap which group => ((S.bitmap_offset which group).toOption.getD 0, S.bs)
  | .inode ino => ((inode_offset S.sb S.places ino).toOption.getD 0, S.sb.inode_size)

/-- The cells of the filesystem itself. -/
def Meta : Cell → Prop
  | .super => True
  | .desc group => group < S.places.length
  | .bitmap which group => ∃ offset, S.bitmap_offset which group = .ok offset
  | .inode ino => ∃ offset, inode_offset S.sb S.places ino = .ok offset

/-- No two cells share a byte. -/
def CellsApart : Prop := ∀ c c', S.Meta c → S.Meta c' → c ≠ c' → Bytes.Apart (S.range c) (S.range c')

end Shape

/-! ## The code's offsets depend on the shape only -/

section

variable {σ : Type} {fs : Mount σ} {S : Shape}

theorem shape_metadata_block_offset (h : fs.shape = S) (b : Nat) :
    fs.sb.metadata_block_offset b = S.sb.metadata_block_offset b := by
  subst h; rfl

theorem shape_block_size (h : fs.shape = S) : fs.sb.block_size = S.bs := by
  subst h; rfl

theorem shape_inode_size (h : fs.shape = S) : fs.sb.inode_size = S.sb.inode_size := by
  subst h; rfl

theorem shape_getElem? (h : fs.shape = S) (g : Nat) : S.places[g]? = fs.groups[g]?.map GroupDesc.place := by
  subst h
  exact List.getElem?_map ..

theorem shape_length (h : fs.shape = S) : fs.groups.length = S.places.length := by
  subst h
  exact (List.length_map _).symm

theorem shape_inode_offset (h : fs.shape = S) (ino : Nat) :
    inode_offset fs.sb fs.groups ino = inode_offset S.sb S.places ino := by
  have hget := shape_getElem? h ((ino - 1) / fs.sb.inodes_per_group)
  subst h
  unfold inode_offset
  have hper : fs.shape.sb.inodes_per_group = fs.sb.inodes_per_group := rfl
  have hcount : fs.shape.sb.inodes_count = fs.sb.inodes_count := rfl
  rw [hper, hcount, hget]
  cases fs.groups[(ino - 1) / fs.sb.inodes_per_group]? with
  | none => rfl
  | some g => rfl

theorem shape_materialize (h : fs.shape = S) (group : Nat) (which : Bitmap) (len : Nat) :
    materialize fs.sb fs.groups group which len = materialize S.sb S.places group which len := by
  subst h
  cases which with
  | Inode => rfl
  | Block =>
    have hlen : fs.shape.places.length = fs.groups.length := List.length_map _
    unfold materialize
    simp only [hlen]
    rw [Mount.shape, List.foldl_map]
    rfl

end

end LuksAndroid.Ext4

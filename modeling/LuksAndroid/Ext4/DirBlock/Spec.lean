import LuksAndroid.Ext4.Dirent
import LuksAndroid.Lib.Machine
import LuksAndroid.Lib.Tiling

/-!
# What a directory block holds

A directory block is tiled by its records. The live ones, each with its place, are what the
directory holds there. Inserting adds one, removing takes the first of a name away, and
nothing else changes.
-/

namespace LuksAndroid.Ext4

/-- A name in use, and where its record begins. -/
structure Live where
  pos : Nat
  ino : Nat
  name : Bytes
  file_type : Nat
deriving DecidableEq, Repr

structure Rec where
  len : Nat
  live : Option Live
deriving DecidableEq, Repr

/-- The bytes that a record's own name needs. -/
def Rec.used (r : Rec) : Nat := (r.live.map fun e => record_len e.name.length).getD 0

def live_at (block : Bytes) (pos : Nat) : Option Live :=
  if block.get pos 4 = 0 then none
  else some ⟨pos, block.get pos 4, block.slice (pos + DIRENT_HEADER) (block.get (pos + 6) 1), block.get (pos + 7) 1⟩

structure RecordAt (block : Bytes) (pos : Nat) (r : Rec) : Prop where
  len : block.get (pos + 4) 2 = r.len
  header : DIRENT_HEADER ≤ r.len
  aligned : r.len % 4 = 0
  live : live_at block pos = r.live
  fits : in_use block pos ≤ r.len

/-- The records tile the block up to `usable`. What comes behind is the checksum. -/
structure Tiled (block : Bytes) (usable : Nat) (recs : List Rec) : Prop where
  tiles : Tiles (RecordAt block) Rec.len 0 recs usable
  usable_le : usable ≤ block.length
  length_le : block.length ≤ 65536

def entries (recs : List Rec) : List Live := recs.filterMap (·.live)

/-- The block is as long as before, and so is all that comes behind the records. -/
def SameTail (usable : Nat) (block block' : Bytes) : Prop := block'.drop usable = block.drop usable ∧
  block'.length = block.length

/-! ## Operations -/

inductive Op where
  | insert (name : Bytes) (ino : Nat) (file_type : FileType)
  | remove (name : Bytes)

def Op.Valid : Op → Prop
  | .insert name ino _ => validate_name name = .ok () ∧ 0 < ino ∧ ino < 2 ^ 32
  | .remove _ => True

/-- As the callers ask for it. -/
def inserted (block : Bytes) (usable : Nat) (name : Bytes) (ino : Nat) (file_type : FileType) : Option Bytes :=
  insert_into_block block usable name ino file_type (record_len name.length) block.length 0

def removed (block : Bytes) (usable : Nat) (name : Bytes) : Option (Nat × Bytes) :=
  remove_from_block block usable name block.length 0 none

/-- The block after an operation. One that fails leaves it alone. -/
def Op.apply (usable : Nat) (block : Bytes) : Op → Bytes
  | .insert name ino file_type => (inserted block usable name ino file_type).getD block
  | .remove name => ((removed block usable name).map (·.2)).getD block

/-- An insertion fails only when no record has the room. One that succeeds adds one entry. -/
structure InsertOk (usable : Nat) (block name : Bytes) (ino : Nat) (file_type : FileType) (recs : List Rec) :
    Prop where
  fails : inserted block usable name ino file_type = none ↔ ∀ r ∈ recs, r.len - r.used < record_len name.length
  adds : ∀ block', inserted block usable name ino file_type = some block' → SameTail usable block block' ∧
    ∃ recs', Tiled block' usable recs' ∧ ∃ before behind pos, entries recs = before ++ behind ∧
      entries recs' = before ++ ⟨pos, ino, name, (type_code file_type).toNat⟩ :: behind

/-- A removal fails only when the name is not there. One that succeeds takes the first entry of the name
away, and leaves the room for a name as long. -/
structure RemoveOk (usable : Nat) (block name : Bytes) (recs : List Rec) : Prop where
  fails : removed block usable name = none ↔ ∀ e ∈ entries recs, e.name ≠ name
  takes : ∀ ino block', removed block usable name = some (ino, block') → SameTail usable block block' ∧
    ((entries recs).find? (·.name = name)).map (·.ino) = some ino ∧
    ∃ recs', Tiled block' usable recs' ∧ entries recs' = (entries recs).eraseP (·.name = name)
  room : ∀ ino block', removed block usable name = some (ino, block') → ∀ name' : Bytes,
    name'.length = name.length → ∀ ino' file_type, inserted block' usable name' ino' file_type ≠ none

def Op.Correct (usable : Nat) (block : Bytes) (recs : List Rec) : Op → Prop
  | .insert name ino file_type => InsertOk usable block name ino file_type recs
  | .remove name => RemoveOk usable block name recs

/-- The block is tiled at the start and after every operation, and every operation does what it should. -/
def AllCorrect (usable : Nat) : Bytes → List Op → Prop
  | block, [] => ∃ recs, Tiled block usable recs
  | block, op :: rest => (∃ recs, Tiled block usable recs ∧ op.Correct usable block recs) ∧
    AllCorrect usable (op.apply usable block) rest

/-- Removing the name merges two records that fill 65536 bytes, which is no `rec_len`. -/
def Wraps (block : Bytes) (usable : Nat) (name : Bytes) : Prop :=
  is_entry block name usable 0 = false ∧ is_entry block name usable (block.get 4 2) = true ∧
    block.get 4 2 + block.get (block.get 4 2 + 4) 2 = 65536

instance (block : Bytes) (usable : Nat) (name : Bytes) : Decidable (Wraps block usable name) :=
  inferInstanceAs (Decidable (_ ∧ _ ∧ _))

def Fits (usable : Nat) (block : Bytes) : Op → Prop
  | .insert _ _ _ => True
  | .remove name => ¬ Wraps block usable name

end LuksAndroid.Ext4

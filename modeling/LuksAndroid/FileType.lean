import Mathlib

/-!
# File types

What both filesystems call the kind of a file (`core/src/fs/mod.rs`).
-/

namespace LuksAndroid

inductive FileType where
  | Regular
  | Directory
  | Symlink
  | CharDevice
  | BlockDevice
  | Fifo
  | Socket
  | Unknown
deriving DecidableEq, Repr

def FileType.is_dir (t : FileType) : Bool := t = .Directory

def FileType.is_file (t : FileType) : Bool := t = .Regular

end LuksAndroid

import Mathlib

/-!
# The errors of the core crate

The variants of `core/src/error.rs` that the modelled code raises.
-/

namespace LuksAndroid

/-- Why a drive refused a command: `Sense` of `core/src/usb/scsi.rs`. -/
structure Sense where
  key : UInt8
  asc : UInt8
  ascq : UInt8
deriving DecidableEq, Repr

inductive LuksError where
  | Truncated (needed got : Nat)
  | OutOfBounds
  | NotBtrfs (found : List UInt8)
  | FsChecksumMismatch (what : String)
  | UnsupportedFsFeature (what : String)
  | FsNeedsRecovery
  | BadInode (ino : Nat)
  | NotFound (path : String)
  | NotADirectory (path : String)
  | IsADirectory (path : String)
  | DirectoryNotEmpty (path : String)
  | CorruptFs (what : String)
  | AlreadyExists (what : String)
  | WriterBusy
  | FilesystemFull
  | BtrfsItemTooLarge (what : String) (item_bytes node_size : Nat)
  | BadMagic (found : List UInt8)
  | UnsupportedVersion (version : Nat)
  | Luks1NotImplemented
  | ImplausibleHeaderSize (hdr_size : Nat)
  | ChecksumMismatch
  | UnsupportedChecksumAlg (alg : String)
  | JsonNotUtf8
  | JsonParse (message : String)
  | KdfFailed (message : String)
  | UnsupportedHash (hash : String)
  | UnsupportedDigest (kind : String)
  | WrongPassword
  | UnknownFs
  | UnsupportedFs (name : String)
  | AmbiguousFs
  | UnsupportedCipher (encryption : String)
  | BadSectorSize (sector_size : Nat)
  | BadKeyLength (len : Nat)
  | Missing (what : String)
  | BadGpt (what : String)
  | NoPartitionTable
  | NotExt4 (magic : Nat)
  | BadExtentHeader (magic : Nat)
  | BadExtentTree (what : String)
  | SymlinkLoop (path : String)
  | NoFreeInodes
  | ScsiProtocol (what : String)
  | ScsiCommandFailed (opcode : UInt8) (sense : Option Sense)
  | UsbTransfer (message : String)
  | Io (path : String) (raw_os_error : Option Int)
  | SessionPoisoned
  | Cancelled
  | WriteSessionFenced (reason : String)
  | ReadOnlyVolume
deriving DecidableEq, Repr

/-- `message.contains(what)`. -/
def contains (message what : String) : Bool :=
  message.toList.tails.any fun rest => what.toList.isPrefixOf rest

namespace LuksError

/-- Whether the failure leaves the state of the drive unknown. -/
def fences_write_session : LuksError → Bool
  | .ScsiProtocol _ | .ScsiCommandFailed _ _ | .UsbTransfer _ | .Io _ _ | .SessionPoisoned
  | .WriteSessionFenced _ => true
  | _ => false

/-- Whether the drive is gone, going by the text of the error or its number. -/
def is_disconnected : LuksError → Bool
  | .UsbTransfer msg =>
    contains msg "No such device" || contains msg "Bad file descriptor" || contains msg "endpoint shutdown" ||
      contains msg "errno 108" || contains msg "ESHUTDOWN" || contains msg "dead"
  | .Io _ raw_os_error => raw_os_error = some 19 || raw_os_error = some 9 || raw_os_error = some 108
  | _ => false

end LuksError

end LuksAndroid

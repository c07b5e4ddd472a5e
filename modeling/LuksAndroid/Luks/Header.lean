import LuksAndroid.Lib.Utf8
import LuksAndroid.Luks.Keyslot
import LuksAndroid.Partition

/-!
# The LUKS2 header

`core/src/luks/header.rs`: two copies of the metadata, each with a checksum and an update counter.
SHA-256 and the JSON parser are the `sha2` and `serde_json` crates: they are parameters. A Rust
string is its bytes.
-/

namespace LuksAndroid.Luks

open Word
open Bytes (unbe)

/-- `SKUL`, `0xba`, `0xbe`. -/
def MAGIC_SECONDARY : Bytes := [0x53, 0x4B, 0x55, 0x4C, 0xBA, 0xBE]

def BINARY_HEADER_LEN : Nat := 4096
def MIN_HDR_SIZE : Nat := 16 * 1024
def MAX_HDR_SIZE : Nat := 4 * 1024 * 1024

def VALID_HDR_SIZES : List Nat :=
  [16 * 1024, 32 * 1024, 64 * 1024, 128 * 1024, 256 * 1024, 512 * 1024, 1024 * 1024, 2048 * 1024, 4096 * 1024]

/-- `sha256`. -/
def CHECKSUM_ALG : Bytes := [0x73, 0x68, 0x61, 0x32, 0x35, 0x36]

inductive HeaderCopy where
  | Primary
  | Secondary
deriving DecidableEq, Repr

structure BinaryHeader where
  version : Nat
  hdr_size : Nat
  seqid : Nat
  label : Bytes
  checksum_alg : Bytes
  salt : Bytes
  uuid : Bytes
  subsystem : Bytes
  hdr_offset : Nat
deriving DecidableEq, Repr

/-- The struct `Luks2Header`. -/
structure Header where
  binary : BinaryHeader
  metadata : Metadata
  source : HeaderCopy
deriving DecidableEq, Repr

/-- SHA-256, and what a JSON text says. -/
structure Crates where
  sha256 : Bytes → Bytes
  from_str : Bytes → Except LuksError Metadata

/-! ## Parsing -/

/-- A field as far as its first NUL. -/
def c_string (field : Bytes) : Bytes := Utf8.lossy (field.takeWhile fun b => b ≠ 0)

def size_in_range (hdr_size : Nat) : Bool := MIN_HDR_SIZE ≤ hdr_size ∧ hdr_size ≤ MAX_HDR_SIZE

/-- The fixed part, from the bytes that start with it. -/
def binary_header (hdr : Bytes) : BinaryHeader where
  version := unbe (hdr.slice 6 2)
  hdr_size := unbe (hdr.slice 8 8)
  seqid := unbe (hdr.slice 16 8)
  label := c_string (hdr.slice 24 48)
  checksum_alg := c_string (hdr.slice 72 32)
  salt := hdr.slice 104 64
  uuid := c_string (hdr.slice 168 40)
  subsystem := c_string (hdr.slice 208 48)
  hdr_offset := unbe (hdr.slice 256 8)

variable (crates : Crates)

/-- The checksum is taken with its own field zeroed. SHA-256 fills the first half of it. -/
def verify_checksum (copy : Bytes) (binary : BinaryHeader) : Except LuksError Unit :=
  if binary.checksum_alg ≠ CHECKSUM_ALG then
    .error (.UnsupportedChecksumAlg (String.ofList (binary.checksum_alg.map fun b => Char.ofNat b.toNat)))
  else if copy.slice 448 32 = crates.sha256 (copy.put 448 (List.replicate 64 0)) then .ok ()
  else .error .ChecksumMismatch

def parse_json (area : Bytes) : Except LuksError Metadata :=
  let text := area.takeWhile fun b => b ≠ 0
  if Utf8.valid text then crates.from_str text else .error .JsonNotUtf8

def parse_copy (data : Bytes) (offset : Nat) (expect_magic : Bytes) (source : HeaderCopy) :
    Except LuksError Header := do
  let stop := offset + BINARY_HEADER_LEN
  if stop ≥ size then throw (.ImplausibleHeaderSize offset)
  if data.length < stop then throw (.Truncated stop data.length)
  let hdr : Bytes := data.drop offset
  if hdr.slice 0 6 ≠ expect_magic then throw (.BadMagic (hdr.slice 0 6))
  let version := unbe (hdr.slice 6 2)
  if version ≠ 2 then throw (.UnsupportedVersion version)
  let hdr_size := unbe (hdr.slice 8 8)
  if ¬ size_in_range hdr_size then throw (.ImplausibleHeaderSize hdr_size)
  let total := offset + hdr_size
  if total ≥ size then throw (.ImplausibleHeaderSize hdr_size)
  if data.length < total then throw (.Truncated total data.length)
  let binary := binary_header hdr
  verify_checksum crates (data.slice offset hdr_size) binary
  let metadata ← parse_json crates (data.slice (offset + BINARY_HEADER_LEN) (hdr_size - BINARY_HEADER_LEN))
  return { binary, metadata, source }

/-! ## The two copies -/

/-- Where the second copy may start: at the size that the first one gives, and at all sizes there are. -/
def candidates (data : Bytes) : List Nat :=
  let declared := unbe (data.slice 8 8)
  let first := if 16 ≤ data.length ∧ size_in_range declared then [declared] else []
  first ++ VALID_HDR_SIZES.filter fun size => size ∉ first

/-- The loop over the offsets, with the last error. -/
def search_secondary (data : Bytes) : List Nat → LuksError → Except LuksError Header
  | [], last => .error last
  | off :: rest, last =>
    if off + BINARY_HEADER_LEN > data.length then search_secondary data rest last
    else if data.slice off 6 ≠ MAGIC_SECONDARY then search_secondary data rest last
    else
      match parse_copy crates data off MAGIC_SECONDARY .Secondary with
      | .ok h => .ok h
      | .error e => search_secondary data rest e

def find_secondary (data : Bytes) : Except LuksError Header :=
  search_secondary crates data (candidates data) (.Missing "secondary header")

/-- The copy that counts, when both are sound: the later one, and the first one of equals. -/
def later (p s : Header) : Header := if s.binary.seqid > p.binary.seqid then s else p

def parse (data : Bytes) : Except LuksError Header := do
  let version ← detect_version data
  if version = 1 then throw .Luks1NotImplemented
  match parse_copy crates data 0 MAGIC_PRIMARY .Primary, find_secondary crates data with
  | .ok p, .ok s => return later p s
  | .ok p, .error _ => return p
  | .error _, .ok s => return s
  | .error e, .error _ => throw e

/-- How much of the device both copies take, going by the first one. -/
def span (declared : Nat) : Nat := if size_in_range declared then declared * 2 else MIN_HDR_SIZE * 2

def read_from {σ : Type} (device : ReadAt σ) (partition_offset : Nat) : IoM σ Header := do
  let probe ← device.read partition_offset BINARY_HEADER_LEN
  let buf ← device.read partition_offset (span (unbe (probe.slice 8 8)))
  IoM.lift (parse crates buf)

end LuksAndroid.Luks

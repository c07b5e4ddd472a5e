import LuksAndroid.Luks.Volume

/-!
# Keyslots

`core/src/luks/keyslot.rs`, from a password to a verified master key, and the metadata of
`core/src/luks/header.rs` that it reads. Argon2, PBKDF2, the hashes and the cipher are the
`argon2`, `pbkdf2`, `sha2` and `xts-mode` crates: they are parameters. A map is the list of
its entries in the order of its keys. The wiping of memory is left out.
-/

namespace LuksAndroid.Luks

open Word

/-! ## Metadata -/

structure Argon2Params where
  salt : Bytes
  time : Nat
  memory : Nat
  cpus : Nat
deriving DecidableEq, Repr

inductive Kdf where
  | Argon2i (p : Argon2Params)
  | Argon2id (p : Argon2Params)
  | Pbkdf2 (salt : Bytes) (hash : String) (iterations : Nat)
deriving DecidableEq, Repr

structure AntiForensic where
  kind : String
  stripes : Nat
  hash : String
deriving DecidableEq, Repr

structure Area where
  kind : String
  offset : Nat
  size : Nat
  encryption : String
  key_size : Nat
deriving DecidableEq, Repr

structure Keyslot where
  kind : String
  key_size : Nat
  kdf : Kdf
  area : Area
  af : Option AntiForensic
  priority : Option Int
deriving DecidableEq, Repr

structure Digest where
  kind : String
  keyslots : List String
  segments : List String
  hash : String
  iterations : Nat
  salt : Bytes
  digest : Bytes
deriving DecidableEq, Repr

structure Metadata where
  keyslots : List (String × Keyslot)
  segments : List (String × Segment)
  digests : List (String × Digest)
deriving DecidableEq, Repr

/-- The segments alone, as a volume takes them. -/
def Metadata.header (md : Metadata) : Luks2Header := ⟨md.segments.map Prod.snd⟩

/-! ## The crates -/

inductive HashName where
  | sha256
  | sha512
deriving DecidableEq, Repr

inductive Algorithm where
  | Argon2i
  | Argon2id
deriving DecidableEq, Repr

def HashName.of : String → Option HashName
  | "sha256" => some .sha256
  | "sha512" => some .sha512
  | _ => none

def HashName.digest_size : HashName → Nat
  | .sha256 => 32
  | .sha512 => 64

/-- Functions of their inputs, with results of the length that was asked for. -/
structure Crypto where
  argon2 : Algorithm → Argon2Params → (password : Bytes) → (out_len : Nat) → Except String Bytes
  pbkdf2 : HashName → (password salt : Bytes) → (rounds out_len : Nat) → Except String Bytes
  hash : HashName → Bytes → Bytes
  cipher : SectorCipher
  length_hash : ∀ h b, (hash h b).length = h.digest_size

/-! ## Deriving -/

variable (c : Crypto)

def pbkdf2_into (hash : String) (password salt : Bytes) (rounds out_len : Nat) : Except LuksError Bytes :=
  match HashName.of hash with
  | some h => (c.pbkdf2 h password salt rounds out_len).mapError .KdfFailed
  | none => .error (.UnsupportedHash hash)

def derive_key (kdf : Kdf) (password : Bytes) (out_len : Nat) : Except LuksError Bytes :=
  match kdf with
  | .Argon2i p => (c.argon2 .Argon2i p password out_len).mapError .KdfFailed
  | .Argon2id p => (c.argon2 .Argon2id p password out_len).mapError .KdfFailed
  | .Pbkdf2 salt hash iterations => pbkdf2_into c hash password salt iterations out_len

def KEYSLOT_SECTOR_SIZE : Nat := 512

def decrypt_keyslot_area (encryption : String) (key buf : Bytes) : Except LuksError Bytes :=
  if encryption ≠ "aes-xts-plain64" then .error (.UnsupportedCipher encryption)
  else xts_decrypt c.cipher key buf KEYSLOT_SECTOR_SIZE 0 1

/-! ## Merging -/

/-- `acc ^= b` over two slices of one length. -/
def xor (a b : Bytes) : Bytes := List.zipWith (· ^^^ ·) a b

/-- `u32::to_be_bytes`. -/
def be32 (n : Nat) : Bytes := (Bytes.le 4 n).reverse

/-- The hash of one chunk behind its index, cut to the length of the chunk. -/
def diffuse_chunk (h : HashName) (i : Nat) (chunk : Bytes) : Bytes :=
  (c.hash h (be32 i ++ chunk)).take chunk.length

def diffuse (block : Bytes) (hash : String) : Except LuksError Bytes :=
  match HashName.of hash with
  | none => .error (.UnsupportedHash hash)
  | some h =>
    .ok ((List.range (div_ceil block.length h.digest_size)).flatMap fun i =>
      diffuse_chunk c h i (block.slice (i * h.digest_size) h.digest_size))

/-- The loop over all stripes but the last. -/
def fold_stripes (src : Bytes) (block_size : Nat) (hash : String) : List Nat → Bytes → Except LuksError Bytes
  | [], d => return d
  | i :: rest, d => do
    let d ← diffuse c (xor d (src.slice (i * block_size) block_size)) hash
    fold_stripes src block_size hash rest d

def af_merge (src : Bytes) (block_size stripes : Nat) (hash : String) : Except LuksError Bytes := do
  if stripes = 0 then throw (.Missing "AF stripes")
  match checked_mul block_size stripes with
  | none => throw (.Missing "AF stripes")
  | some needed =>
    if src.length < needed then throw (.Truncated needed src.length)
    let d ← fold_stripes c src block_size hash (List.range (stripes - 1)) (List.replicate block_size 0)
    return xor d (src.slice ((stripes - 1) * block_size) block_size)

/-! ## Verifying -/

def verify_digest (digest : Digest) (master_key : Bytes) : Except LuksError Bool := do
  if digest.kind ≠ "pbkdf2" then throw (.UnsupportedDigest digest.kind)
  let computed ← pbkdf2_into c digest.hash master_key digest.salt digest.iterations digest.digest.length
  return computed = digest.digest

/-- Whether a digest takes the candidate, asked one after the other. -/
def verify_digests (candidate : Bytes) : List (String × Digest) → Except LuksError Bool
  | [] => return false
  | (_, digest) :: rest => do
    if ← verify_digest c digest candidate then return true
    verify_digests candidate rest

/-! ## A keyslot -/

variable {σ : Type}

/-- How much of the area the stripes take. -/
def material_len (slot : Keyslot) : Except LuksError (AntiForensic × Nat) :=
  match slot.af with
  | none => .error (.Missing "AF parameters")
  | some af =>
    match checked_mul slot.key_size af.stripes with
    | none => .error (.Missing "AF stripes")
    | some material_len =>
      if material_len > slot.area.size then .error (.Truncated material_len slot.area.size)
      else .ok (af, material_len)

/-- What the slot holds for this password, before it is verified. -/
def derive_candidate (device : ReadAt σ) (partition_offset : Nat) (slot : Keyslot) (password : Bytes) :
    IoM σ Bytes := do
  let derived ← IoM.lift (derive_key c slot.kdf password slot.area.key_size)
  let (af, material_len) ← IoM.lift (material_len slot)
  let read_len := wrapping_mul (div_ceil material_len KEYSLOT_SECTOR_SIZE) KEYSLOT_SECTOR_SIZE
  let area ← device.read (wrapping_add partition_offset slot.area.offset) read_len
  let area ← IoM.lift (decrypt_keyslot_area c slot.area.encryption derived area)
  IoM.lift (af_merge c area slot.key_size af.stripes af.hash)

def try_keyslot (device : ReadAt σ) (partition_offset : Nat) (md : Metadata) (slot : Keyslot) (password : Bytes) :
    IoM σ (Option Bytes) := do
  let candidate ← derive_candidate c device partition_offset slot password
  if ← IoM.lift (verify_digests c candidate md.digests) then return some candidate
  return none

def unlock_slots (device : ReadAt σ) (partition_offset : Nat) (md : Metadata) (password : Bytes) :
    List (String × Keyslot) → IoM σ Bytes
  | [] => throw .WrongPassword
  | (_, slot) :: rest => do
    if slot.kind ≠ "luks2" then unlock_slots device partition_offset md password rest
    else
      match ← try_keyslot c device partition_offset md slot password with
      | some key => return key
      | none => unlock_slots device partition_offset md password rest

def unlock (device : ReadAt σ) (partition_offset : Nat) (md : Metadata) (password : Bytes) : IoM σ Bytes :=
  if md.keyslots.isEmpty then throw (.Missing "keyslots")
  else unlock_slots c device partition_offset md password md.keyslots

end LuksAndroid.Luks

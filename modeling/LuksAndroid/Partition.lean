import LuksAndroid.Device
import LuksAndroid.Lib.Word

/-!
# Partition tables

`core/src/partition/`: the GPT with its backup, the four primary MBR entries, and
the probe for a LUKS header. The CRC of the `crc32fast` crate is a parameter.
-/

namespace LuksAndroid

open Word

structure Partition where
  index : Nat
  start_lba : Nat
  end_lba : Nat
  sector_size : Nat
  type_guid : Option Bytes
  mbr_type : Option Nat
  name : List Char
  is_luks : Bool
  luks_version : Option Nat
deriving DecidableEq, Repr

namespace Partition

def offset_bytes (p : Partition) : Nat := wrapping_mul p.start_lba p.sector_size

def size_bytes (p : Partition) : Nat :=
  wrapping_mul (wrapping_sub (wrapping_add p.end_lba 1) p.start_lba) p.sector_size

end Partition

inductive TableKind where
  | Gpt
  | Mbr
deriving DecidableEq, Repr

structure PartitionTable where
  kind : TableKind
  partitions : List Partition
deriving DecidableEq, Repr

variable {σ : Type}

/-! ## GPT -/

namespace Gpt

/-- `EFI PART`. -/
def SIGNATURE : Bytes := [0x45, 0x46, 0x49, 0x20, 0x50, 0x41, 0x52, 0x54]

def MIN_HEADER_SIZE : Nat := 92
def MAX_ENTRIES : Nat := 4096
def MAX_ENTRY_SIZE : Nat := 4096

structure Header where
  header_size : Nat
  backup_lba : Nat
  entry_lba : Nat
  num_entries : Nat
  entry_size : Nat
  entries_crc : Nat

def parse_header (hash : Bytes → Nat) (raw : Bytes) : Except LuksError Header := do
  if raw.length < MIN_HEADER_SIZE then throw (.BadGpt "header too short")
  if raw.slice 0 8 ≠ SIGNATURE then throw (.BadGpt "bad signature")
  let header_size := raw.get 12 4
  if header_size < MIN_HEADER_SIZE ∨ header_size > raw.length then
    throw (.BadGpt "implausible header size")
  let stored_crc := raw.get 16 4
  let scratch := Bytes.put (raw.take header_size) 16 [0, 0, 0, 0]
  if hash scratch ≠ stored_crc then throw (.BadGpt "header CRC mismatch")
  let num_entries := raw.get 80 4
  let entry_size := raw.get 84 4
  if num_entries = 0 ∨ num_entries > MAX_ENTRIES then throw (.BadGpt "implausible entry count")
  if entry_size < 128 ∨ entry_size > MAX_ENTRY_SIZE ∨ entry_size % 8 ≠ 0 then
    throw (.BadGpt "implausible entry size")
  return {
    header_size
    backup_lba := raw.get 32 8
    entry_lba := raw.get 72 8
    num_entries
    entry_size
    entries_crc := raw.get 88 4 }

/-- `String::from_utf16_lossy`: half of a pair alone becomes a replacement character. -/
def from_utf16_lossy : List UInt16 → List Char
  | [] => []
  | [u] => [if 0xD800 ≤ u ∧ u < 0xE000 then '\uFFFD' else Char.ofNat u.toNat]
  | u :: v :: rest =>
    if (0xD800 ≤ u ∧ u < 0xDC00) ∧ 0xDC00 ≤ v ∧ v < 0xE000 then
      Char.ofNat (0x10000 + (u.toNat - 0xD800) * 0x400 + (v.toNat - 0xDC00)) :: from_utf16_lossy rest
    else
      (if 0xD800 ≤ u ∧ u < 0xE000 then '\uFFFD' else Char.ofNat u.toNat) :: from_utf16_lossy (v :: rest)

/-- 36 UTF-16 units, padded with zeros. -/
def name_units (e : Bytes) : List UInt16 :=
  ((List.range 36).map fun i => UInt16.ofNat (e.get (56 + 2 * i) 2)).takeWhile fun u => u ≠ 0

/-- One slot of the entry array. An unused one lists nothing. -/
def read_entry (sector_size i : Nat) (e : Bytes) : Except LuksError (Option Partition) :=
  let type_guid := e.slice 0 16
  if type_guid = List.replicate 16 0 then .ok none
  else
    let start_lba := e.get 32 8
    let end_lba := e.get 40 8
    if end_lba < start_lba then .error (.BadGpt "entry ends before it starts")
    else
      let name := from_utf16_lossy (name_units e)
      .ok (some ⟨i + 1, start_lba, end_lba, sector_size, some type_guid, none, name, false, none⟩)

def read_entry_list (sector_size entry_size : Nat) (raw : Bytes) :
    List Nat → Except LuksError (List Partition)
  | [] => return []
  | i :: rest => do
    let p ← read_entry sector_size i (raw.slice (i * entry_size) entry_size)
    return p.toList ++ (← read_entry_list sector_size entry_size raw rest)

def read_entries (hash : Bytes → Nat) (d : ReadAt σ) (header : Header) (sector_size : Nat) :
    IoM σ (List Partition) := do
  let total := header.num_entries * header.entry_size
  let raw ← d.read (wrapping_mul header.entry_lba sector_size) total
  if hash raw ≠ header.entries_crc then throw (.BadGpt "entry array CRC mismatch")
  IoM.lift (read_entry_list sector_size header.entry_size raw (List.range header.num_entries))

def parse_at (hash : Bytes → Nat) (d : ReadAt σ) (sector_size lba : Nat) : IoM σ PartitionTable := do
  let buf ← d.read (wrapping_mul lba sector_size) sector_size
  let header ← IoM.lift (parse_header hash buf)
  return ⟨.Gpt, ← read_entries hash d header sector_size⟩

/-- The header in LBA 1, when it can be read and is sound. -/
def primary_header (hash : Bytes → Nat) (d : ReadAt σ) (sector_size : Nat) : IoM σ (Option Header) :=
  return (← (d.read sector_size sector_size).ok).bind fun buf => (parse_header hash buf).toOption

/-- The table in the last LBA, when the size of the device is known. -/
def parse_last (hash : Bytes → Nat) (d : ReadAt σ) (sector_size : Nat) : IoM σ PartitionTable :=
  match d.len with
  | none => throw (.BadGpt "no primary header and unknown device size")
  | some n => parse_at hash d sector_size (wrapping_sub (n / sector_size) 1)

def parse (hash : Bytes → Nat) (d : ReadAt σ) (sector_size : Nat) : IoM σ PartitionTable := do
  match ← primary_header hash d sector_size with
  | none => parse_last hash d sector_size
  | some h =>
    match ← (read_entries hash d h sector_size).ok with
    | some parts => return ⟨.Gpt, parts⟩
    | none =>
      match ← (parse_at hash d sector_size h.backup_lba).ok with
      | some table => return table
      | none => parse_last hash d sector_size

end Gpt

/-! ## MBR -/

namespace Mbr

def BOOT_SIGNATURE : Nat := 0xAA55
def TABLE_OFFSET : Nat := 446
def ENTRY_SIZE : Nat := 16
def TYPE_PROTECTIVE_GPT : Nat := 0xEE

def read_entry (sector_size i : Nat) (e : Bytes) : Except LuksError (Option Partition) :=
  let part_type := e.get 4 1
  let start_lba := e.get 8 4
  let sectors := e.get 12 4
  if part_type = 0 ∨ sectors = 0 then .ok none
  else if part_type = TYPE_PROTECTIVE_GPT then
    .error (.BadGpt "protective MBR present but GPT unreadable")
  else
    .ok (some ⟨i + 1, start_lba, start_lba + sectors - 1, sector_size, none, some part_type, [], false, none⟩)

def read_entry_list (sector_size : Nat) (sector : Bytes) : List Nat → Except LuksError (List Partition)
  | [] => return []
  | i :: rest => do
    let p ← read_entry sector_size i (sector.slice (TABLE_OFFSET + i * ENTRY_SIZE) ENTRY_SIZE)
    return p.toList ++ (← read_entry_list sector_size sector rest)

def parse (d : ReadAt σ) (sector_size : Nat) : IoM σ PartitionTable := do
  let sector ← d.read 0 512
  if sector.get 510 2 ≠ BOOT_SIGNATURE then throw .NoPartitionTable
  let partitions ← IoM.lift (read_entry_list sector_size sector [0, 1, 2, 3])
  if partitions.isEmpty then throw .NoPartitionTable
  return ⟨.Mbr, partitions⟩

end Mbr

/-! ## The scan -/

/-- `LUKS`, `0xba`, `0xbe`. -/
def MAGIC_PRIMARY : Bytes := [0x4C, 0x55, 0x4B, 0x53, 0xBA, 0xBE]

/-- The version of the LUKS header that starts with these bytes. -/
def detect_version (data : Bytes) : Except LuksError Nat := do
  if data.length < 8 then throw (.Truncated 8 data.length)
  let magic := data.slice 0 6
  if magic ≠ MAGIC_PRIMARY then throw (.BadMagic magic)
  let version := (data.getD 6 0).toNat * 256 + (data.getD 7 0).toNat
  if version = 1 ∨ version = 2 then return version
  throw (.UnsupportedVersion version)

def probe_luks (d : ReadAt σ) (offset : Nat) : IoM σ (Option Nat) :=
  return (← (d.read offset 8).ok).bind fun head => (detect_version head).toOption

def probe_partition (d : ReadAt σ) (p : Partition) : IoM σ Partition := do
  match ← probe_luks d p.offset_bytes with
  | some version => return { p with is_luks := true, luks_version := some version }
  | none => return p

def probe_partitions (d : ReadAt σ) : List Partition → IoM σ (List Partition)
  | [] => return []
  | p :: rest => return (← probe_partition d p) :: (← probe_partitions d rest)

/-- The GPT, or the MBR when there is none. -/
def find_table (hash : Bytes → Nat) (d : ReadAt σ) (sector_size : Nat) : IoM σ PartitionTable := do
  match ← (Gpt.parse hash d sector_size).ok with
  | some t => return t
  | none => Mbr.parse d sector_size

def scan (hash : Bytes → Nat) (d : ReadAt σ) (sector_size : Nat) : IoM σ PartitionTable := do
  let table ← find_table hash d sector_size
  return { table with partitions := ← probe_partitions d table.partitions }

/-! ## What a listed partition satisfies -/

section

variable {Q : Partition → Prop} {hash : Bytes → Nat} {sector_size : Nat}

theorem Gpt.read_entry_list_all (hQ : ∀ i e p, Gpt.read_entry sector_size i e = .ok (some p) → Q p)
    {entry_size : Nat} {raw : Bytes} (is : List Nat) {ps : List Partition}
    (h : Gpt.read_entry_list sector_size entry_size raw is = .ok ps) : ∀ p ∈ ps, Q p := by
  induction is generalizing ps with
  | nil =>
    cases h
    simp
  | cons i is ih =>
    obtain ⟨p, hp, h⟩ := Run.except_bind_ok.mp h
    obtain ⟨rest, hrest, h⟩ := Run.except_bind_ok.mp h
    cases h
    intro q hq
    rcases List.mem_append.mp hq with hq | hq
    · rw [Option.mem_toList] at hq
      exact hQ _ _ _ (hp.trans (congrArg _ hq))
    · exact ih hrest q hq

theorem Mbr.read_entry_list_all (hQ : ∀ i e p, Mbr.read_entry sector_size i e = .ok (some p) → Q p)
    {sector : Bytes} (is : List Nat) {ps : List Partition}
    (h : Mbr.read_entry_list sector_size sector is = .ok ps) : ∀ p ∈ ps, Q p := by
  induction is generalizing ps with
  | nil =>
    cases h
    simp
  | cons i is ih =>
    obtain ⟨p, hp, h⟩ := Run.except_bind_ok.mp h
    obtain ⟨rest, hrest, h⟩ := Run.except_bind_ok.mp h
    cases h
    intro q hq
    rcases List.mem_append.mp hq with hq | hq
    · rw [Option.mem_toList] at hq
      exact hQ _ _ _ (hp.trans (congrArg _ hq))
    · exact ih hrest q hq

theorem Gpt.read_entries_all (hQ : ∀ i e p, Gpt.read_entry sector_size i e = .ok (some p) → Q p)
    {d : ReadAt σ} {header : Gpt.Header} {io io' : Io σ} {ps : List Partition}
    (h : Gpt.read_entries hash d header sector_size io = .ok ps io') : ∀ p ∈ ps, Q p := by
  obtain ⟨raw, io₁, -, h⟩ := Run.bind_ok.mp h
  split at h
  · exact absurd h Run.throw_bind_ok
  · exact Gpt.read_entry_list_all hQ _ (IoM.lift_ok.mp h).1

theorem Gpt.parse_at_all (hQ : ∀ i e p, Gpt.read_entry sector_size i e = .ok (some p) → Q p)
    {d : ReadAt σ} {lba : Nat} {io io' : Io σ} {table : PartitionTable}
    (h : Gpt.parse_at hash d sector_size lba io = .ok table io') : ∀ p ∈ table.partitions, Q p := by
  obtain ⟨buf, io₁, -, h⟩ := Run.bind_ok.mp h
  obtain ⟨header, io₂, -, h⟩ := Run.bind_ok.mp h
  obtain ⟨ps, io₃, hps, h⟩ := Run.bind_ok.mp h
  obtain ⟨rfl, -⟩ := Run.pure_ok.mp h
  exact Gpt.read_entries_all hQ hps

theorem Gpt.parse_last_all (hQ : ∀ i e p, Gpt.read_entry sector_size i e = .ok (some p) → Q p)
    {d : ReadAt σ} {io io' : Io σ} {table : PartitionTable}
    (h : Gpt.parse_last hash d sector_size io = .ok table io') : ∀ p ∈ table.partitions, Q p := by
  unfold Gpt.parse_last at h
  cases hlen : d.len with
  | none =>
    rw [hlen] at h
    exact absurd h Run.throw_ok
  | some n =>
    rw [hlen] at h
    exact Gpt.parse_at_all hQ h

theorem Gpt.parse_all (hQ : ∀ i e p, Gpt.read_entry sector_size i e = .ok (some p) → Q p)
    {d : ReadAt σ} {io io' : Io σ} {table : PartitionTable}
    (h : Gpt.parse hash d sector_size io = .ok table io') : ∀ p ∈ table.partitions, Q p := by
  obtain ⟨header, io₁, -, h⟩ := Run.bind_ok.mp h
  cases header with
  | none => exact Gpt.parse_last_all hQ h
  | some header =>
    obtain ⟨parts, io₂, hparts, h⟩ := Run.bind_ok.mp h
    cases parts with
    | some parts =>
      obtain ⟨rfl, -⟩ := Run.pure_ok.mp h
      exact Gpt.read_entries_all hQ (IoM.ok_some.mp hparts)
    | none =>
      obtain ⟨backup, io₃, hbackup, h⟩ := Run.bind_ok.mp h
      cases backup with
      | some backup =>
        obtain ⟨rfl, -⟩ := Run.pure_ok.mp h
        exact Gpt.parse_at_all hQ (IoM.ok_some.mp hbackup)
      | none => exact Gpt.parse_last_all hQ h

theorem Mbr.parse_all (hQ : ∀ i e p, Mbr.read_entry sector_size i e = .ok (some p) → Q p)
    {d : ReadAt σ} {io io' : Io σ} {table : PartitionTable}
    (h : Mbr.parse d sector_size io = .ok table io') : ∀ p ∈ table.partitions, Q p := by
  obtain ⟨sector, io₁, -, h⟩ := Run.bind_ok.mp h
  split at h
  · exact absurd h Run.throw_bind_ok
  · obtain ⟨ps, io₂, hps, h⟩ := Run.bind_ok.mp h
    split at h
    · exact absurd h Run.throw_bind_ok
    · obtain ⟨rfl, -⟩ := Run.pure_ok.mp h
      exact Mbr.read_entry_list_all hQ _ (IoM.lift_ok.mp hps).1

theorem probe_partitions_all {d : ReadAt σ}
    (hprobe : ∀ p version, Q p → Q { p with is_luks := true, luks_version := some version })
    (ps : List Partition) {io io' : Io σ} {qs : List Partition} (hps : ∀ p ∈ ps, Q p)
    (h : probe_partitions d ps io = .ok qs io') : ∀ q ∈ qs, Q q := by
  induction ps generalizing io io' qs with
  | nil =>
    obtain ⟨rfl, -⟩ := Run.pure_ok.mp h
    simp
  | cons p ps ih =>
    obtain ⟨q, io₁, hq, h⟩ := Run.bind_ok.mp h
    obtain ⟨rest, io₂, hrest, h⟩ := Run.bind_ok.mp h
    obtain ⟨rfl, -⟩ := Run.pure_ok.mp h
    have hp := hps p (by simp)
    intro x hx
    rcases List.mem_cons.mp hx with rfl | hx
    · obtain ⟨version, io₃, -, hq⟩ := Run.bind_ok.mp hq
      cases version with
      | none =>
        obtain ⟨rfl, -⟩ := Run.pure_ok.mp hq
        exact hp
      | some version =>
        obtain ⟨rfl, -⟩ := Run.pure_ok.mp hq
        exact hprobe p version hp
    · exact ih (fun r hr => hps r (by simp [hr])) hrest x hx

/-- What holds of an entry as it is read holds of every partition that a scan lists. -/
theorem scan_all (hgpt : ∀ i e p, Gpt.read_entry sector_size i e = .ok (some p) → Q p)
    (hmbr : ∀ i e p, Mbr.read_entry sector_size i e = .ok (some p) → Q p)
    (hprobe : ∀ p version, Q p → Q { p with is_luks := true, luks_version := some version })
    {d : ReadAt σ} {io io' : Io σ} {table : PartitionTable} (h : scan hash d sector_size io = .ok table io') :
    ∀ p ∈ table.partitions, Q p := by
  obtain ⟨found, io₁, hfound, h⟩ := Run.bind_ok.mp h
  obtain ⟨ps, io₂, hps, h⟩ := Run.bind_ok.mp h
  obtain ⟨rfl, -⟩ := Run.pure_ok.mp h
  refine probe_partitions_all hprobe _ ?_ hps
  obtain ⟨gpt, io₃, hgpt', hfound⟩ := Run.bind_ok.mp hfound
  cases gpt with
  | some t =>
    obtain ⟨rfl, -⟩ := Run.pure_ok.mp hfound
    exact Gpt.parse_all hgpt (IoM.ok_some.mp hgpt')
  | none => exact Mbr.parse_all hmbr hfound

end

/-- The sectors are in order, and their numbers are 64-bit words. -/
structure Partition.Ordered (p : Partition) : Prop where
  le : p.start_lba ≤ p.end_lba
  lt : p.end_lba < size

theorem Gpt.read_entry_ordered {sector_size i : Nat} {e : Bytes} {p : Partition}
    (h : Gpt.read_entry sector_size i e = .ok (some p)) : p.Ordered ∧ p.sector_size = sector_size := by
  have hend := Bytes.get_lt e 40 8
  simp only [Gpt.read_entry] at h
  split at h
  · cases h
  · split at h
    · cases h
    · cases h
      refine ⟨⟨by simp only; omega, ?_⟩, rfl⟩
      simp only [size]
      omega

theorem Mbr.read_entry_ordered {sector_size i : Nat} {e : Bytes} {p : Partition}
    (h : Mbr.read_entry sector_size i e = .ok (some p)) : p.Ordered ∧ p.sector_size = sector_size := by
  have hstart := Bytes.get_lt e 8 4
  have hsectors := Bytes.get_lt e 12 4
  simp only [Mbr.read_entry] at h
  split at h
  · cases h
  · split at h
    · cases h
    · cases h
      refine ⟨⟨by simp only; omega, ?_⟩, rfl⟩
      simp only [size]
      omega

theorem scan_ordered {hash : Bytes → Nat} {d : ReadAt σ} {sector_size : Nat} {io io' : Io σ}
    {table : PartitionTable} (h : scan hash d sector_size io = .ok table io') :
    ∀ p ∈ table.partitions, p.Ordered ∧ p.sector_size = sector_size := by
  intro p hp
  refine @scan_all σ (fun p => p.Ordered ∧ p.sector_size = sector_size) hash sector_size ?_ ?_ ?_ d io io' table h p hp
  · exact fun _ _ _ => Gpt.read_entry_ordered
  · exact fun _ _ _ => Mbr.read_entry_ordered
  · exact fun _ _ hq => ⟨⟨hq.1.le, hq.1.lt⟩, hq.2⟩

end LuksAndroid

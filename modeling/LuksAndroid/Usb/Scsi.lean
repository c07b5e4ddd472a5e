import LuksAndroid.Device
import LuksAndroid.Lib.Word
import LuksAndroid.Usb.Bot

/-!
# SCSI over Bulk-Only Transport

`core/src/usb/scsi.rs` over the trait of `core/src/usb/mod.rs`. A transport has a state
of its own and may answer anything. What is asked of it and what it answers is recorded,
beside the record of commands that the source keeps itself.
-/

namespace LuksAndroid.Usb

open Word
open Bytes (be unbe)

/-- A pair of bulk endpoints. A write says how much was accepted, a read what arrived. -/
structure BulkTransport (σ : Type) where
  write : (data : Bytes) → EStateM LuksError σ { n : Nat // n ≤ data.length }
  read : (n : Nat) → EStateM LuksError σ { b : Bytes // b.length ≤ n }
  max_transfer : σ → Nat
  clear_halt : (endpoint_in : Bool) → EStateM LuksError σ Unit
  reset : EStateM LuksError σ Unit

/-- The three phases of an exchange. -/
inductive Phase where
  | Command
  | Data
  | Status
deriving DecidableEq, Repr

inductive Event where
  /-- `ScsiEvent::Command`, recorded before anything is sent. -/
  | command (opcode : UInt8) (tag : UInt32) (data_len : Nat) (dir : Direction)
  | wrote (phase : Phase) (data : Bytes) (n : Nat)
  | write_failed (phase : Phase) (data : Bytes) (e : LuksError)
  | read (phase : Phase) (asked : Nat) (got : Bytes)
  | read_failed (phase : Phase) (asked : Nat) (e : LuksError)
  | cleared
  | clear_failed (e : LuksError)
  | reset
deriving DecidableEq, Repr

/-- The transport, the fields of the device that change, and the record. -/
structure Bus (σ : Type) where
  state : σ
  tag : UInt32
  no_flush_command : Bool
  log : List Event

abbrev BusM (σ : Type) := EStateM LuksError (Bus σ)

variable {σ α : Type}

def BusM.lift (x : Except LuksError α) : BusM σ α :=
  match x with
  | .ok a => pure a
  | .error e => throw e

/-- Call the transport. -/
def BusM.call (x : EStateM LuksError σ α) (ok : α → Event) (failed : LuksError → Event) : BusM σ α := fun b =>
  match x b.state with
  | .ok a s => .ok a { b with state := s, log := b.log ++ [ok a] }
  | .error e s => .error e { b with state := s, log := b.log ++ [failed e] }

def BusM.note (e : Event) : BusM σ Unit := modify fun b => { b with log := b.log ++ [e] }

namespace BulkTransport

variable (t : BulkTransport σ)

def send (phase : Phase) (data : Bytes) : BusM σ Nat := do
  let n ← BusM.call (t.write data) (fun n => .wrote phase data n.1) (.write_failed phase data)
  return n.1

def receive (phase : Phase) (n : Nat) : BusM σ Bytes := do
  let b ← BusM.call (t.read n) (fun b => .read phase n b.1) (.read_failed phase n)
  return b.1

def clear (endpoint_in : Bool) : BusM σ Unit := BusM.call (t.clear_halt endpoint_in) (fun _ => .cleared) .clear_failed

/-- `let _ = transport.reset()`: its own failure is dropped. -/
def try_reset : BusM σ Unit := fun b =>
  .ok () { b with state := after (t.reset b.state), log := b.log ++ [.reset] }

/-- Reset the bus before a failure of the transport is passed on. -/
def recover (x : BusM σ α) : BusM σ α := do
  match ← Run.attempt x with
  | .ok a => return a
  | .error e =>
    t.try_reset
    throw e

end BulkTransport

/-! ## Commands -/

def OP_TEST_UNIT_READY : UInt8 := 0x00
def OP_REQUEST_SENSE : UInt8 := 0x03
def OP_INQUIRY : UInt8 := 0x12
def OP_READ_CAPACITY_10 : UInt8 := 0x25
def OP_READ_10 : UInt8 := 0x28
def OP_READ_16 : UInt8 := 0x88
def OP_READ_CAPACITY_16 : UInt8 := 0x9E
def OP_WRITE_10 : UInt8 := 0x2A
def OP_WRITE_16 : UInt8 := 0x8A
def OP_SYNCHRONIZE_CACHE_10 : UInt8 := 0x35
def OP_SYNCHRONIZE_CACHE_16 : UInt8 := 0x91
def SA_READ_CAPACITY_16 : UInt8 := 0x10

def READ10_MAX_BLOCKS : Nat := 0xFFFF
def READ10_MAX_LBA : Nat := 0xFFFFFFFF
def MAX_SCSI_TRANSFER : Nat := 128 * 1024

def Sense.parse (b : Bytes) : Sense := ⟨b.getD 2 0 &&& 0x0F, b.getD 12 0, b.getD 13 0⟩

/-- `next_tag`, and the record of the command. -/
def begin_command (opcode : UInt8) (data_len : Nat) (dir : Direction) : BusM σ UInt32 := fun b =>
  .ok b.tag { b with tag := b.tag + 1, log := b.log ++ [.command opcode b.tag data_len dir] }

def send_cbw (t : BulkTransport σ) (cbw : CommandBlockWrapper) : BusM σ Unit := do
  let encoded ← BusM.lift cbw.encode
  let sent ← t.recover (t.send .Command encoded)
  if sent ≠ encoded.length then throw (.ScsiProtocol "short CBW write")

/-- The IN loop. Every round reads a byte at least, or is the last. -/
def data_in (t : BulkTransport σ) (len : Nat) : Nat → Bytes → BusM σ Bytes
  | 0, got => return got
  | rounds + 1, got => do
    if ¬ got.length < len then return got
    let b ← t.recover (t.receive .Data (len - got.length))
    if b.length = 0 then return got -- device ended the data phase early
    data_in t len rounds (got ++ b)

/-- The OUT loop. -/
def data_out (t : BulkTransport σ) (data : Bytes) : Nat → Nat → BusM σ Nat
  | 0, transferred => return transferred
  | rounds + 1, transferred => do
    if ¬ transferred < data.length then return transferred
    let n ← t.recover (t.send .Data (data.drop transferred))
    if n = 0 then return transferred
    data_out t data rounds (transferred + n)

/-- How much was transferred, and the buffer afterwards. -/
def data_phase (t : BulkTransport σ) (direction : Direction) (data : Bytes) : BusM σ (Nat × Bytes) := do
  match direction with
  | .In =>
    let got ← data_in t data.length data.length []
    return (got.length, Bytes.put data 0 got)
  | .Out => return (← data_out t data data.length 0, data)
  | .None => return (0, data)

/-- A stall before the status is standard: clear it, or give up. -/
def clear_stall (t : BulkTransport σ) : BusM σ Unit := do
  match ← Run.attempt (t.clear true) with
  | .ok _ => return
  | .error e =>
    if ¬ e.is_disconnected then t.try_reset
    throw e

/-- The status loop. Every round reads a byte at least, but for the one that clears the halt. -/
def read_csw (t : BulkTransport σ) : Nat → Bool → Bytes → BusM σ Bytes
  | 0, _, got => return got
  | rounds + 1, cleared_halt, got => do
    if ¬ got.length < CSW_LEN then return got
    match ← Run.attempt (t.receive .Status (CSW_LEN - got.length)) with
    | .error e =>
      if e.is_disconnected then throw e
      if ¬ cleared_halt then
        clear_stall t
        read_csw t rounds true got
      else
        t.try_reset
        throw e
    | .ok b =>
      if b.length = 0 then
        if ¬ cleared_halt then
          clear_stall t
          read_csw t rounds true got
        else
          t.try_reset
          throw (.ScsiProtocol "no CSW")
      else read_csw t rounds cleared_halt (got ++ b)

/-- The status, which has to carry the tag of the command. -/
def status_phase (t : BulkTransport σ) (tag : UInt32) : BusM σ CommandStatusWrapper := do
  let csw_buf ← read_csw t (CSW_LEN + 2) false []
  let csw ← BusM.lift (CommandStatusWrapper.decode csw_buf)
  if csw.tag ≠ tag then throw (.ScsiProtocol "CSW tag mismatch")
  return csw

/-- What the status makes of the command. -/
def judge (t : BulkTransport σ) (opcode : UInt8) (direction : Direction) (phase_error : String)
    (ask_why : BusM σ (Option Sense)) (out : Nat × Bytes) (csw : CommandStatusWrapper) : BusM σ (Nat × Bytes) := do
  match csw.status with
  | .Passed =>
    if direction = .Out ∧ csw.data_residue ≠ 0 then
      throw (.ScsiProtocol "drive committed less than the full data phase")
    return out
  | .Failed =>
    let sense ← ask_why
    throw (.ScsiCommandFailed opcode sense)
  | .PhaseError =>
    t.try_reset
    throw (.ScsiProtocol phase_error)

/-- What `command_inner` and `command_out_inner` share. They differ in the text of a phase error. -/
def exchange (t : BulkTransport σ) (cdb : Bytes) (direction : Direction) (data : Bytes) (phase_error : String)
    (ask_why : BusM σ (Option Sense)) : BusM σ (Nat × Bytes) := do
  let opcode := cdb.getD 0 0
  let tag ← begin_command opcode data.length direction
  send_cbw t (CommandBlockWrapper.new tag (UInt32.ofNat data.length) direction cdb)
  let out ← data_phase t direction data
  let csw ← status_phase t tag
  judge t opcode direction phase_error ask_why out csw

/-- Fetch the sense data after a failure. -/
def request_sense (t : BulkTransport σ) : BusM σ Bytes := do
  let cdb := Bytes.patch (List.replicate 6 0) [(0, [OP_REQUEST_SENSE]), (4, [18])]
  let (_, buf) ← exchange t cdb .In (List.replicate 18 0) "phase error" (pure none)
  return buf

/-- `request_sense().ok()`, only when the caller wants to know. -/
def sense_if (t : BulkTransport σ) (ask_why : Bool) : BusM σ (Option Sense) := do
  if ¬ ask_why then return none
  match ← Run.attempt (request_sense t) with
  | .ok b => return some (Sense.parse b)
  | .error _ => return none

def command_inner (t : BulkTransport σ) (cdb : Bytes) (direction : Direction) (data : Bytes) (ask_why : Bool) :
    BusM σ (Nat × Bytes) :=
  exchange t cdb direction data "phase error" (sense_if t ask_why)

def command_out_inner (t : BulkTransport σ) (cdb data : Bytes) (ask_why : Bool) : BusM σ Nat := do
  let (transferred, _) ← exchange t cdb .Out data "CSW phase error" (sense_if t ask_why)
  return transferred

def command (t : BulkTransport σ) (cdb : Bytes) (direction : Direction) (data : Bytes) : BusM σ (Nat × Bytes) :=
  command_inner t cdb direction data true

def command_out (t : BulkTransport σ) (cdb data : Bytes) : BusM σ Nat := command_out_inner t cdb data true

/-! ## The device -/

structure Capacity where
  blocks : Nat
  block_size : Nat
deriving DecidableEq, Repr

def Capacity.bytes (c : Capacity) : Nat := wrapping_mul c.blocks c.block_size

/-- The bytes of the standard answer that `open` looks at. -/
def inquiry (t : BulkTransport σ) : BusM σ Bytes := do
  let cdb := Bytes.patch (List.replicate 6 0) [(0, [OP_INQUIRY]), (4, [36])]
  let (_, buf) ← command t cdb .In (List.replicate 36 0)
  return buf

def is_block_device (inquiry : Bytes) : Bool := inquiry.getD 0 0 &&& 0x1F = 0x00

def test_unit_ready (t : BulkTransport σ) : BusM σ Unit := do
  let _ ← command t [OP_TEST_UNIT_READY, 0, 0, 0, 0, 0] .None []
  return

def read_capacity_16 (t : BulkTransport σ) : BusM σ Capacity := do
  let cdb := Bytes.patch (List.replicate 16 0)
    [(0, [OP_READ_CAPACITY_16]), (1, [SA_READ_CAPACITY_16]), (13, [32])]
  let (_, buf) ← command t cdb .In (List.replicate 32 0)
  let last_lba := unbe (Bytes.slice buf 0 8)
  let block_size := unbe (Bytes.slice buf 8 4)
  match checked_add last_lba 1 with
  | none => throw (.ScsiProtocol "capacity overflows")
  | some blocks =>
    match checked_mul blocks block_size with
    | none => throw (.ScsiProtocol "capacity overflows")
    | some _ => return { blocks, block_size }

def read_capacity (t : BulkTransport σ) : BusM σ Capacity := do
  let cdb := Bytes.patch (List.replicate 10 0) [(0, [OP_READ_CAPACITY_10])]
  let (_, buf) ← command t cdb .In (List.replicate 8 0)
  let last_lba := unbe (Bytes.slice buf 0 4)
  let block_size := unbe (Bytes.slice buf 4 4)
  if last_lba = 2 ^ 32 - 1 then read_capacity_16 t
  else return { blocks := last_lba + 1, block_size }

/-- The three tries of `open`. Media that are not ready, or were changed, are tried again. -/
def wait_ready (t : BulkTransport σ) : Nat → BusM σ Unit
  | 0 => return
  | tries + 1 => do
    match ← Run.attempt (test_unit_ready t) with
    | .ok _ => return
    | .error e =>
      if e.is_disconnected then throw e
      match ← Run.attempt (request_sense t) with
      | .ok sense =>
        let sense_key := sense.getD 2 0 &&& 0x0F
        if sense_key ≠ 0x02 ∧ sense_key ≠ 0x06 then
          throw (.ScsiCommandFailed OP_TEST_UNIT_READY (some (Sense.parse sense)))
        wait_ready t tries
      | .error _ => wait_ready t tries

/-- Probe the device. -/
def open_device (t : BulkTransport σ) : BusM σ Capacity := do
  let data ← inquiry t
  if ¬ is_block_device data then throw (.ScsiProtocol "not a direct-access block device")
  wait_ready t 3
  let capacity ← read_capacity t
  if capacity.block_size = 0 ∨ ¬ is_power_of_two capacity.block_size then
    throw (.ScsiProtocol "implausible block size")
  return capacity

/-- The CDB of a read or a write: the 10-byte form when it fits the whole range. -/
def rw_cdb (op_10 op_16 : UInt8) (lba count : Nat) : Bytes :=
  let needs_16 : Bool := count > READ10_MAX_BLOCKS ||
    match checked_add lba count with
    | none => true
    | some stop => stop > READ10_MAX_LBA + 1
  if needs_16 then
    Bytes.patch (List.replicate 16 0) [(0, [op_16]), (2, be 8 lba), (10, be 4 count)]
  else
    Bytes.patch (List.replicate 10 0) [(0, [op_10]), (2, be 4 lba), (7, be 2 count)]

/-- Read `count` blocks into the start of the buffer. -/
def read_blocks (t : BulkTransport σ) (cap : Capacity) (lba count : Nat) (buf : Bytes) : BusM σ (Nat × Bytes) := do
  let expected := count * cap.block_size
  if buf.length < expected then throw (.ScsiProtocol "read buffer too small")
  let (n, data) ← command t (rw_cdb OP_READ_10 OP_READ_16 lba count) .In (buf.take expected)
  return (n, Bytes.put buf 0 data)

def write_blocks (t : BulkTransport σ) (cap : Capacity) (lba count : Nat) (buf : Bytes) : BusM σ Nat := do
  let expected := count * cap.block_size
  if buf.length < expected then throw (.ScsiProtocol "write buffer too small")
  command_out t (rw_cdb OP_WRITE_10 OP_WRITE_16 lba count) (buf.take expected)

/-- `checked_add`, and the bound of the drive. -/
def check_range (cap : Capacity) (offset len : Nat) : Except LuksError Unit :=
  match checked_add offset len with
  | none => .error .OutOfBounds
  | some stop => if stop > cap.bytes then .error .OutOfBounds else .ok ()

/-- The blocks that one command may move. -/
def max_blocks (t : BulkTransport σ) (cap : Capacity) (s : σ) : Nat :=
  max 1 (min (min (t.max_transfer s) MAX_SCSI_TRANSFER / cap.block_size) READ10_MAX_BLOCKS)

/-- The blocks of the next command: those that the rest of the request touches, as far as they go. -/
def next_blocks (cap : Capacity) (max_blocks within remaining : Nat) : Nat :=
  min (div_ceil (within + remaining) cap.block_size) max_blocks

/-- The loop of `read_at`. Every round reads a byte at least. -/
def read_rounds (t : BulkTransport σ) (cap : Capacity) (max_blocks offset len : Nat) : Nat → Bytes → BusM σ Bytes
  | 0, buf => return buf
  | rounds + 1, buf => do
    if ¬ buf.length < len then return buf
    let pos := offset + buf.length
    let lba := pos / cap.block_size
    let within := pos % cap.block_size
    let remaining := len - buf.length
    let blocks := next_blocks cap max_blocks within remaining
    let span := blocks * cap.block_size
    let (got, chunk) ← read_blocks t cap lba (blocks % 2 ^ 32) (List.replicate span 0)
    if got < span then throw (.ScsiProtocol "short data phase")
    let take := min (span - within) remaining
    read_rounds t cap max_blocks offset len rounds (buf ++ Bytes.slice chunk within take)

def read_at (t : BulkTransport σ) (cap : Capacity) (offset len : Nat) : BusM σ Bytes := do
  if len = 0 then return []
  BusM.lift (check_range cap offset len)
  let max_blocks := max_blocks t cap (← get).state
  read_rounds t cap max_blocks offset len len []

/-- One command of a write: blocks that are not covered whole are fetched and patched. -/
def put_blocks (t : BulkTransport σ) (cap : Capacity) (lba blocks within : Nat) (data : Bytes) : BusM σ Nat := do
  let span := blocks * cap.block_size
  if within ≠ 0 ∨ data.length ≠ span then
    let (got, chunk) ← read_blocks t cap lba (blocks % 2 ^ 32) (List.replicate span 0)
    if got < span then throw (.ScsiProtocol "short data phase")
    write_blocks t cap lba (blocks % 2 ^ 32) (Bytes.put chunk within data)
  else write_blocks t cap lba (blocks % 2 ^ 32) data

/-- The loop of `write_at`. Every round writes a byte at least. -/
def write_rounds (t : BulkTransport σ) (cap : Capacity) (max_blocks offset : Nat) (buf : Bytes) :
    Nat → Nat → BusM σ Unit
  | 0, _ => return
  | rounds + 1, done => do
    if ¬ done < buf.length then return
    let pos := offset + done
    let lba := pos / cap.block_size
    let within := pos % cap.block_size
    let remaining := buf.length - done
    let blocks := next_blocks cap max_blocks within remaining
    let span := blocks * cap.block_size
    let take := min (span - within) remaining
    let put ← put_blocks t cap lba blocks within (Bytes.slice buf done take)
    if put < span then throw (.ScsiProtocol "short data phase")
    write_rounds t cap max_blocks offset buf rounds (done + take)

def write_at (t : BulkTransport σ) (cap : Capacity) (offset : Nat) (buf : Bytes) : BusM σ Unit := do
  if buf.isEmpty then return
  BusM.lift (check_range cap offset buf.length)
  let max_blocks := max_blocks t cap (← get).state
  write_rounds t cap max_blocks offset buf buf.length 0

/-- The drive does not know the opcode. -/
def unsupported : LuksError → Bool
  | .ScsiCommandFailed _ (some s) => s.key = 0x5 ∧ s.asc = 0x20
  | _ => false

def synchronize_cache (t : BulkTransport σ) : BusM σ Unit := do
  if (← get).no_flush_command then return
  let short := Bytes.patch (List.replicate 10 0) [(0, [OP_SYNCHRONIZE_CACHE_10])]
  let long := Bytes.patch (List.replicate 16 0) [(0, [OP_SYNCHRONIZE_CACHE_16])]
  match ← Run.attempt (command t short .None []) with
  | .ok _ => return
  | .error e =>
    if ¬ unsupported e then throw e
    match ← Run.attempt (command t long .None []) with
    | .ok _ => return
    | .error e =>
      if ¬ unsupported e then throw e
      modify fun b => { b with no_flush_command := true }

/-! ## The traits of a device -/

theorem read_blocks_length {t : BulkTransport σ} {cap : Capacity} {lba count : Nat} {buf : Bytes} {b b' : Bus σ}
    {got : Nat} {chunk : Bytes} (h : read_blocks t cap lba count buf b = .ok (got, chunk) b') :
    buf.length ≤ chunk.length := by
  unfold read_blocks at h
  split at h
  · exact absurd h Run.throw_bind_ok
  · obtain ⟨⟨n, data⟩, b₁, -, h⟩ := Run.bind_ok.mp h
    obtain ⟨heq, -⟩ := Run.pure_ok.mp h
    cases heq
    simp only [Bytes.put, List.take_zero, List.nil_append, List.length_append, List.length_drop]
    omega

theorem next_blocks_span {cap : Capacity} (hpos : 0 < cap.block_size) {n : Nat} (hn : 0 < n) (pos : Nat)
    {remaining : Nat}
    (hmore : 0 < remaining) :
    pos % cap.block_size < next_blocks cap n (pos % cap.block_size) remaining * cap.block_size := by
  have hceil : 0 < div_ceil (pos % cap.block_size + remaining) cap.block_size := by
    rw [lt_div_ceil hpos]
    omega
  have hblocks : 0 < next_blocks cap n (pos % cap.block_size) remaining := Nat.lt_min.mpr ⟨hceil, hn⟩
  exact (Nat.mod_lt pos hpos).trans_le (Nat.le_mul_of_pos_left _ hblocks)

theorem read_rounds_length {t : BulkTransport σ} {cap : Capacity} (hpos : 0 < cap.block_size) {n : Nat} (hn : 0 < n)
    {offset len rounds : Nat} {buf out : Bytes} {b b' : Bus σ} (hle : buf.length ≤ len)
    (hrounds : len ≤ buf.length + rounds) (h : read_rounds t cap n offset len rounds buf b = .ok out b') :
    out.length = len := by
  induction rounds generalizing buf b with
  | zero =>
    obtain ⟨rfl, -⟩ := Run.pure_ok.mp h
    omega
  | succ rounds ih =>
    unfold read_rounds at h
    split at h
    · obtain ⟨rfl, -⟩ := Run.pure_ok.mp h
      omega
    · rename_i hmore
      obtain ⟨⟨got, chunk⟩, b₁, hread, h⟩ := Run.bind_ok.mp h
      have hchunk := read_blocks_length hread
      rw [List.length_replicate] at hchunk
      have hspan := next_blocks_span hpos hn (offset + buf.length) (show 0 < len - buf.length by omega)
      simp only at h
      split at h
      · exact absurd h Run.throw_bind_ok
      · generalize hspan' : next_blocks cap n ((offset + buf.length) % cap.block_size) (len - buf.length) *
          cap.block_size = span at h hchunk hspan
        have htaken : (Bytes.slice chunk ((offset + buf.length) % cap.block_size)
            (min (span - (offset + buf.length) % cap.block_size) (len - buf.length))).length =
              min (span - (offset + buf.length) % cap.block_size) (len - buf.length) := by
          rw [Bytes.slice, List.length_take, List.length_drop]
          omega
        refine ih ?_ ?_ h
        · rw [List.length_append, htaken]
          omega
        · rw [List.length_append, htaken]
          omega

theorem read_at_length {t : BulkTransport σ} {cap : Capacity} {offset len : Nat} {out : Bytes} {b b' : Bus σ}
    (h : read_at t cap offset len b = .ok out b') : out.length = len := by
  unfold read_at at h
  split at h
  · obtain ⟨rfl, -⟩ := Run.pure_ok.mp h
    rw [‹len = 0›]
    rfl
  · obtain ⟨_, b₁, hrange, h⟩ := Run.bind_ok.mp h
    obtain ⟨b₂, b₃, -, h⟩ := Run.bind_ok.mp h
    have hpos : 0 < cap.block_size := by
      -- without a block size no byte is in range
      by_contra hzero
      have hbytes : cap.bytes = 0 := by
        unfold Capacity.bytes
        rw [Nat.eq_zero_of_not_pos hzero, wrapping_mul, Nat.mul_zero, Nat.zero_mod]
      unfold check_range BusM.lift at hrange
      cases hadd : checked_add offset len with
      | none =>
        rw [hadd] at hrange
        exact absurd hrange Run.throw_ok
      | some stop =>
        have hstop := (checked_add_eq_some hadd).1
        rw [hadd, hbytes] at hrange
        simp only [show stop > 0 by omega, if_true] at hrange
        exact absurd hrange Run.throw_ok
    refine read_rounds_length hpos ?_ (Nat.zero_le _) (by simp) h
    exact Nat.le_max_left _ _

/-- `ScsiBlockDevice`, as `ReadAt` and `WriteAt` show it. -/
def scsi_block_device (t : BulkTransport σ) (cap : Capacity) : WriteAt (Bus σ) where
  len := some cap.bytes
  read_at offset n := fun b =>
    match h : read_at t cap offset n b with
    | .ok out b' => .ok ⟨out, read_at_length h⟩ b'
    | .error e b' => .error e b'
  write_at := write_at t cap
  flush := synchronize_cache t

end LuksAndroid.Usb

import LuksAndroid.Store
import LuksAndroid.Usb.Steps

/-!
# A drive of blocks

A drive that executes the reads and writes of SCSI on its blocks and reports its capacity,
and how the commands of the block layer run on it.
-/

namespace LuksAndroid.Usb

open Word
open Bytes (be unbe)

/-! ## The drive -/

/-- A read or a write of blocks, as its CDB says. -/
structure Transfer where
  writes : Bool
  lba : Nat
  count : Nat
deriving DecidableEq, Repr

def Transfer.decode (cdb : Bytes) : Option Transfer :=
  let op := cdb.getD 0 0
  if cdb.length = 10 ∧ (op = OP_READ_10 ∨ op = OP_WRITE_10) then
    some ⟨op = OP_WRITE_10, unbe (Bytes.slice cdb 2 4), unbe (Bytes.slice cdb 7 2)⟩
  else if cdb.length = 16 ∧ (op = OP_READ_16 ∨ op = OP_WRITE_16) then
    some ⟨op = OP_WRITE_16, unbe (Bytes.slice cdb 2 8), unbe (Bytes.slice cdb 10 4)⟩
  else none

/-- The size of a drive, and how the bus treats it. -/
structure Model where
  blocks : Nat
  block_size : Nat
  max_transfer : Nat
  chunk : Nat
  stalls_status : Bool
  pos : 0 < blocks
  blocks_le : blocks ≤ 2 ^ 64
  size_lt : block_size < 2 ^ 32
  wide : CBW_LEN ≤ chunk

namespace Model

variable (M : Model)

/-- All blocks of the transfer are there, and the CBW says how many bytes they are. -/
def Fits (x : Transfer) (len : Nat) : Prop := x.lba + x.count ≤ M.blocks ∧ len = x.count * M.block_size

instance (x : Transfer) (len : Nat) : Decidable (M.Fits x len) := inferInstanceAs (Decidable (_ ∧ _))

/-- The drive sends these bytes. -/
def sends (data : Bytes) : Response := ⟨data, .complete, 0, M.stalls_status, .Passed, 0⟩

/-- The drive takes everything, or has nothing to take. -/
def takes (len : Nat) : Response := ⟨[], if len = 0 then .complete else .stall, len, M.stalls_status, .Passed, 0⟩

def refuses (len : UInt32) : Response := ⟨[], if len = 0 then .complete else .stall, 0, M.stalls_status, .Failed, len⟩

/-- Answers to the commands that are not transfers. -/
def other (cbw : CommandBlockWrapper) : Response :=
  let op := cbw.cdb.getD 0 0
  let len := cbw.data_transfer_length.toNat
  if op = OP_INQUIRY ∧ len = 36 then M.sends (List.replicate 36 0)
  else if op = OP_TEST_UNIT_READY ∧ len = 0 then M.takes 0
  else if op = OP_READ_CAPACITY_10 ∧ len = 8 then
    M.sends (be 4 (min (M.blocks - 1) (2 ^ 32 - 1)) ++ be 4 M.block_size)
  else if op = OP_READ_CAPACITY_16 ∧ len = 32 then
    M.sends (be 8 (M.blocks - 1) ++ be 4 M.block_size ++ List.replicate 20 0)
  else M.refuses cbw.data_transfer_length

def answer (m : Nat → UInt8) (cbw : CommandBlockWrapper) : Response :=
  match Transfer.decode cbw.cdb with
  | some x =>
    if M.Fits x cbw.data_transfer_length.toNat then
      if x.writes then M.takes cbw.data_transfer_length.toNat
      else M.sends (load m (x.lba * M.block_size) (x.count * M.block_size))
    else M.refuses cbw.data_transfer_length
  | none => M.other cbw

def finish (m : Nat → UInt8) (cbw : CommandBlockWrapper) (data : Bytes) : Nat → UInt8 :=
  match Transfer.decode cbw.cdb with
  | some x =>
    if x.writes ∧ M.Fits x cbw.data_transfer_length.toNat ∧ data.length = cbw.data_transfer_length.toNat then
      store m (x.lba * M.block_size) data
    else m
  | none => m

def drive : Drive (Nat → UInt8) := ⟨M.answer, M.finish, M.max_transfer, M.chunk, M.wide⟩

end Model

/-! ## Commands that pass -/

section

variable {δ : Type} (D : Drive δ) {d : δ} {b : Bus (Link δ)} {r : Response} {cdb data : Bytes} {enc : Bytes}

/-- What a command leaves on the bus: one CBW, and nothing else that matters. -/
structure Issued (b : Bus (Link δ)) (cdb : Bytes) (direction : Direction) (data : Bytes) (d' : δ)
    (b' : Bus (Link δ)) : Prop where
  state : b'.state = ⟨d', .idle⟩
  log : ∃ op enc new, (CommandBlockWrapper.new b.tag (UInt32.ofNat data.length) direction cdb).encode = .ok enc ∧
    b'.log = b.log ++ (.command op b.tag data.length direction :: .wrote .Command enc enc.length :: new) ∧ Quiet new

theorem exchange_passes (hpos : 0 < cdb.length) (hmax : cdb.length ≤ MAX_CDB_LEN) {direction : Direction}
    (phase_error : String) (ask_why : BusM (Link δ) (Option Sense)) (hb : b.state = ⟨d, .idle⟩)
    (hlen : data.length < 2 ^ 32) {out : Nat × Bytes} {d' : δ} (hpassed : r.status = .Passed) (hres : r.residue = 0)
    (hdata : ∀ b₁ : Bus (Link δ), b₁.state = D.start d (seenCbw b.tag cdb direction data) →
      ∃ new, Quiet new ∧ data_phase D.transport direction data b₁ =
        .ok out (b₁.move ⟨d', .status r.stalls_status (r.csw b.tag)⟩ new)) :
    ∃ b', exchange D.transport cdb direction data phase_error ask_why b = .ok out b' ∧
      Issued b cdb direction data d' b' := by
  obtain ⟨enc, henc, hex⟩ := exchange_start D hpos hmax direction phase_error ask_why hb hlen
  obtain ⟨new, hnew, hphase⟩ := hdata ((b.begun (cdb.getD 0 0) data.length direction).move
    (D.start d (seenCbw b.tag cdb direction data)) [.wrote .Command enc enc.length]) rfl
  rw [Bus.move_move] at hphase
  obtain ⟨more, hstatus, hmore, -⟩ := status_phase_run D (b := (b.begun (cdb.getD 0 0) data.length direction).move
    ⟨d', .status r.stalls_status (r.csw b.tag)⟩ ([.wrote .Command enc enc.length] ++ new)) rfl
  rw [Bus.move_move] at hstatus
  refine ⟨(b.begun (cdb.getD 0 0) data.length direction).move ⟨d', .idle⟩
    ([.wrote .Command enc enc.length] ++ new ++ more), ?_, rfl, cdb.getD 0 0, enc, new ++ more, henc, ?_,
      hnew.append hmore⟩
  · rw [hex, Run.bind_eq_of_ok hphase, Run.bind_eq_of_ok hstatus]
    unfold judge
    simp only [hpassed, hres, ne_eq, not_true_eq_false, and_false, if_false]
    rfl
  · simp [Bus.begun]

theorem exchange_in (hpos : 0 < cdb.length) (hmax : cdb.length ≤ MAX_CDB_LEN) (phase_error : String)
    (ask_why : BusM (Link δ) (Option Sense)) (hb : b.state = ⟨d, .idle⟩) (hlen : data.length < 2 ^ 32)
    (hdata : 0 < data.length) (hr : D.answer d (seenCbw b.tag cdb .In data) = r) (hend : r.ending = .complete)
    (hall : r.data.length = data.length) (hpassed : r.status = .Passed) (hres : r.residue = 0) :
    ∃ b', exchange D.transport cdb .In data phase_error ask_why b = .ok (data.length, r.data) b' ∧
      Issued b cdb .In data (D.finish d (seenCbw b.tag cdb .In data) []) b' := by
  refine exchange_passes D hpos hmax phase_error ask_why hb hlen hpassed hres fun b₁ hb₁ => ?_
  have hstart : b₁.state = ⟨D.finish d (seenCbw b.tag cdb .In data) [], .sending b.tag r.data r⟩ := by
    rw [hb₁, ← hr]
    simp only [Drive.start, seenCbw, Direction.seen, hdata.ne', if_false, if_true, CommandBlockWrapper.new]
  obtain ⟨new, hrun, hnew⟩ := data_in_complete D hend data.length [] hstart (by simpa using hall) (by omega) hall.le
  have hphase : data_phase D.transport .In data b₁ = .ok (r.data.length, Bytes.put data 0 r.data)
      (b₁.move ⟨D.finish d (seenCbw b.tag cdb .In data) [], .status r.stalls_status (r.csw b.tag)⟩ new) :=
    Run.bind_eq_of_ok hrun _
  have hput : Bytes.put data 0 r.data = r.data := by
    simp [Bytes.put, hall]
  rw [hput, hall] at hphase
  exact ⟨new, hnew.quiet, hphase⟩

theorem exchange_out (hpos : 0 < cdb.length) (hmax : cdb.length ≤ MAX_CDB_LEN) (phase_error : String)
    (ask_why : BusM (Link δ) (Option Sense)) (hb : b.state = ⟨d, .idle⟩) (hlen : data.length < 2 ^ 32)
    (hdata : 0 < data.length) (hr : D.answer d (seenCbw b.tag cdb .Out data) = r) (hroom : data.length ≤ r.room)
    (hpassed : r.status = .Passed) (hres : r.residue = 0) :
    ∃ b', exchange D.transport cdb .Out data phase_error ask_why b = .ok (data.length, data) b' ∧
      Issued b cdb .Out data (D.finish d (seenCbw b.tag cdb .Out data) data) b' := by
  refine exchange_passes D hpos hmax phase_error ask_why hb hlen hpassed hres fun b₁ hb₁ => ?_
  have hstart : b₁.state = ⟨d, .receiving (seenCbw b.tag cdb .Out data) [] r⟩ := by
    rw [hb₁, ← hr]
    simp only [Drive.start, seenCbw, Direction.seen, hdata.ne', if_false, CommandBlockWrapper.new, reduceCtorEq]
  have hcbw : (seenCbw b.tag cdb .Out data).data_transfer_length.toNat = data.length := by
    simp only [seenCbw, CommandBlockWrapper.new]
    rw [UInt32.toNat_ofNat', Nat.mod_eq_of_lt hlen]
  obtain ⟨new, hnew, hrun⟩ := (data_out_run D hcbw data.length 0 hstart hdata (by omega)).1 hroom
  exact ⟨new, hnew.quiet, Run.bind_eq_of_ok hrun _⟩

theorem exchange_none (hpos : 0 < cdb.length) (hmax : cdb.length ≤ MAX_CDB_LEN) (phase_error : String)
    (ask_why : BusM (Link δ) (Option Sense)) (hb : b.state = ⟨d, .idle⟩)
    (hr : D.answer d (seenCbw b.tag cdb .None []) = r) (hpassed : r.status = .Passed) (hres : r.residue = 0) :
    ∃ b', exchange D.transport cdb .None [] phase_error ask_why b = .ok (0, []) b' ∧
      Issued b cdb .None [] (D.finish d (seenCbw b.tag cdb .None []) []) b' := by
  refine exchange_passes D hpos hmax phase_error ask_why hb (by simp) hpassed hres fun b₁ hb₁ => ?_
  refine ⟨[], .nil, ?_⟩
  have hstart : b₁.state = ⟨D.finish d (seenCbw b.tag cdb .None []) [], .status r.stalls_status (r.csw b.tag)⟩ := by
    rw [hb₁, ← hr]
    rfl
  rw [← hstart]
  simp only [data_phase, Bus.move, List.append_nil]
  rfl

end

/-! ## Command blocks -/

theorem slice_cdb {n : Nat} (fields : List (Nat × Bytes)) (hfit : ∀ s ∈ fields.map Bytes.span, s.1 + s.2 ≤ n)
    (hapart : (fields.map Bytes.span).Pairwise Bytes.Apart) {f : Nat × Bytes} (hf : f ∈ fields) :
    Bytes.slice (Bytes.patch (List.replicate n 0) fields) f.1 f.2.length = f.2 :=
  Bytes.slice_patch_mem fields hf (by simpa using hfit) hapart

def cdb10 (op : UInt8) (lba count : Nat) : Bytes :=
  Bytes.patch (List.replicate 10 0) [(0, [op]), (2, be 4 lba), (7, be 2 count)]

def cdb16 (op : UInt8) (lba count : Nat) : Bytes :=
  Bytes.patch (List.replicate 16 0) [(0, [op]), (2, be 8 lba), (10, be 4 count)]

theorem rw_cdb_eq (op_10 op_16 : UInt8) (lba count : Nat) :
    rw_cdb op_10 op_16 lba count =
      if count ≤ READ10_MAX_BLOCKS ∧ lba + count ≤ READ10_MAX_LBA + 1 then cdb10 op_10 lba count
      else cdb16 op_16 lba count := by
  have hmax : READ10_MAX_LBA + 1 < size := by norm_num [READ10_MAX_LBA, size]
  unfold rw_cdb checked_add
  by_cases hsum : lba + count < size
  · by_cases hcase : count ≤ READ10_MAX_BLOCKS ∧ lba + count ≤ READ10_MAX_LBA + 1
    · rw [if_pos hcase, if_pos hsum, if_neg]
      · rfl
      · simp only [Bool.or_eq_true, decide_eq_true_eq, not_or, not_lt]
        exact hcase
    · rw [if_neg hcase, if_pos hsum, if_pos]
      · rfl
      · simp only [Bool.or_eq_true, decide_eq_true_eq]
        omega
  · have hcase : ¬ (count ≤ READ10_MAX_BLOCKS ∧ lba + count ≤ READ10_MAX_LBA + 1) := by omega
    rw [if_neg hcase, if_neg hsum, if_pos]
    · rfl
    · simp

section

variable (op : UInt8) (lba count : Nat)

@[simp] theorem length_cdb10 : (cdb10 op lba count).length = 10 := by
  unfold cdb10
  rw [Bytes.length_patch _ (by simp [Bytes.span]), List.length_replicate]

@[simp] theorem length_cdb16 : (cdb16 op lba count).length = 16 := by
  unfold cdb16
  rw [Bytes.length_patch _ (by simp [Bytes.span]), List.length_replicate]

theorem cdb10_fields :
    (cdb10 op lba count).getD 0 0 = op ∧ Bytes.slice (cdb10 op lba count) 2 4 = be 4 lba ∧
      Bytes.slice (cdb10 op lba count) 7 2 = be 2 count := by
  have hfield := fun f => slice_cdb (n := 10) [(0, [op]), (2, be 4 lba), (7, be 2 count)] (by simp [Bytes.span])
    (by simp [Bytes.span, Bytes.Apart]) (f := f)
  refine ⟨getElem?_eq_of_slice (hfield (0, [op]) (by simp)) rfl, ?_, ?_⟩
  · have hslice := hfield (2, be 4 lba) (by simp)
    simp only [Bytes.length_be] at hslice
    exact hslice
  · have hslice := hfield (7, be 2 count) (by simp)
    simp only [Bytes.length_be] at hslice
    exact hslice

theorem cdb16_fields :
    (cdb16 op lba count).getD 0 0 = op ∧ Bytes.slice (cdb16 op lba count) 2 8 = be 8 lba ∧
      Bytes.slice (cdb16 op lba count) 10 4 = be 4 count := by
  have hfield := fun f => slice_cdb (n := 16) [(0, [op]), (2, be 8 lba), (10, be 4 count)] (by simp [Bytes.span])
    (by simp [Bytes.span, Bytes.Apart]) (f := f)
  refine ⟨getElem?_eq_of_slice (hfield (0, [op]) (by simp)) rfl, ?_, ?_⟩
  · have hslice := hfield (2, be 8 lba) (by simp)
    simp only [Bytes.length_be] at hslice
    exact hslice
  · have hslice := hfield (10, be 4 count) (by simp)
    simp only [Bytes.length_be] at hslice
    exact hslice

end

/-- The opcodes of a transfer. -/
def transferOps (writes : Bool) : UInt8 × UInt8 :=
  if writes then (OP_WRITE_10, OP_WRITE_16) else (OP_READ_10, OP_READ_16)

/-- Whatever form is chosen, the drive reads the same blocks out of it. -/
theorem decode_rw_cdb (writes : Bool) {lba count : Nat} (hpos : 0 < count) (hcount : count < 2 ^ 32)
    (hlba : lba < 2 ^ 64) :
    Transfer.decode (rw_cdb (transferOps writes).1 (transferOps writes).2 lba count) = some ⟨writes, lba, count⟩ := by
  rw [rw_cdb_eq]
  split
  · rename_i hcase
    unfold READ10_MAX_BLOCKS READ10_MAX_LBA at hcase
    obtain ⟨hop, hl, hc⟩ := cdb10_fields (transferOps writes).1 lba count
    unfold Transfer.decode
    simp only [hop, hl, hc, length_cdb10]
    rw [Bytes.unbe_be (by omega), Bytes.unbe_be (by omega)]
    cases writes with
    | true => simp [transferOps, OP_WRITE_10, OP_READ_10]
    | false => simp [transferOps, OP_WRITE_10, OP_READ_10]
  · obtain ⟨hop, hl, hc⟩ := cdb16_fields (transferOps writes).2 lba count
    unfold Transfer.decode
    simp only [hop, hl, hc, length_cdb16]
    rw [Bytes.unbe_be (by omega), Bytes.unbe_be (by omega)]
    cases writes with
    | true => simp [transferOps, OP_WRITE_16, OP_READ_16]
    | false => simp [transferOps, OP_WRITE_16, OP_READ_16]

theorem length_rw_cdb (op_10 op_16 : UInt8) (lba count : Nat) :
    (rw_cdb op_10 op_16 lba count).length = 10 ∧ lba + count ≤ READ10_MAX_LBA + 1 ∧ count ≤ READ10_MAX_BLOCKS ∨
      (rw_cdb op_10 op_16 lba count).length = 16 := by
  rw [rw_cdb_eq]
  split
  · rename_i hcase
    exact .inl ⟨length_cdb10 _ _ _, hcase.2, hcase.1⟩
  · exact .inr (length_cdb16 _ _ _)

end LuksAndroid.Usb

import LuksAndroid.Error
import LuksAndroid.Lib.Bytes

/-!
# Bulk-Only Transport

The wrappers of `core/src/usb/bot.rs`: a command goes out in a CBW of 31 bytes, its
status comes back in a CSW of 13.
-/

namespace LuksAndroid.Usb

def CBW_SIGNATURE : Nat := 0x43425355
def CSW_SIGNATURE : Nat := 0x53425355
def CBW_LEN : Nat := 31
def CSW_LEN : Nat := 13
def MAX_CDB_LEN : Nat := 16

inductive Direction where
  | In
  | Out
  | None
deriving DecidableEq, Repr

def Direction.flags : Direction → UInt8
  | .In => 0x80
  | .Out | .None => 0x00

structure CommandBlockWrapper where
  tag : UInt32
  data_transfer_length : UInt32
  direction : Direction
  lun : UInt8
  cdb : Bytes
deriving DecidableEq, Repr

namespace CommandBlockWrapper

def new (tag data_transfer_length : UInt32) (direction : Direction) (cdb : Bytes) : CommandBlockWrapper :=
  { tag, data_transfer_length, direction, lun := 0, cdb }

/-- The fields of the wrapper, with their offsets. -/
def fields (c : CommandBlockWrapper) : List (Nat × Bytes) :=
  [(0, Bytes.le 4 CBW_SIGNATURE),
    (4, Bytes.le 4 c.tag.toNat),
    (8, Bytes.le 4 c.data_transfer_length.toNat),
    (12, [c.direction.flags]),
    (13, [c.lun &&& 0x0F]),
    (14, [UInt8.ofNat c.cdb.length]),
    (15, c.cdb)]

def encode (c : CommandBlockWrapper) : Except LuksError Bytes :=
  if c.cdb.isEmpty ∨ c.cdb.length > MAX_CDB_LEN then .error (.ScsiProtocol "CDB length out of range")
  else .ok (Bytes.patch (List.replicate CBW_LEN 0) c.fields)

end CommandBlockWrapper

inductive CswStatus where
  | Passed
  | Failed
  | PhaseError
deriving DecidableEq, Repr

structure CommandStatusWrapper where
  tag : UInt32
  /-- The bytes that the device did *not* transfer. -/
  data_residue : UInt32
  status : CswStatus
deriving DecidableEq, Repr

namespace CommandStatusWrapper

def status_of (b : UInt8) : Except LuksError CswStatus :=
  if b = 0 then .ok .Passed
  else if b = 1 then .ok .Failed
  else if b = 2 then .ok .PhaseError
  else .error (.ScsiProtocol "reserved CSW status")

def decode (b : Bytes) : Except LuksError CommandStatusWrapper := do
  if b.length < CSW_LEN then throw (.ScsiProtocol "CSW too short")
  if Bytes.get b 0 4 ≠ CSW_SIGNATURE then throw (.ScsiProtocol "bad CSW signature")
  let status ← status_of (b.getD 12 0)
  return {
    tag := UInt32.ofNat (Bytes.get b 4 4)
    data_residue := UInt32.ofNat (Bytes.get b 8 4)
    status }

end CommandStatusWrapper

/-! ## The other end -/

theorem CommandBlockWrapper.spans (c : CommandBlockWrapper) :
    c.fields.map Bytes.span = [(0, 4), (4, 4), (8, 4), (12, 1), (13, 1), (14, 1), (15, c.cdb.length)] := by
  simp [fields, Bytes.span]

section

variable {c : CommandBlockWrapper} {b : Bytes}

theorem CommandBlockWrapper.encode_ok (h : c.encode = .ok b) :
    0 < c.cdb.length ∧ c.cdb.length ≤ MAX_CDB_LEN ∧ b = Bytes.patch (List.replicate CBW_LEN 0) c.fields := by
  unfold encode at h
  split at h
  · cases h
  · rename_i hlen
    rw [not_or, List.isEmpty_iff, not_lt] at hlen
    cases h
    exact ⟨List.length_pos_iff.mpr hlen.1, hlen.2, rfl⟩

theorem CommandBlockWrapper.fields_fit (h : c.cdb.length ≤ MAX_CDB_LEN) :
    ∀ s ∈ c.fields.map Bytes.span, s.1 + s.2 ≤ (List.replicate CBW_LEN (0 : UInt8)).length := by
  rw [c.spans]
  unfold MAX_CDB_LEN at h
  simp only [List.mem_cons, List.not_mem_nil, or_false, List.length_replicate, CBW_LEN]
  rintro s (rfl | rfl | rfl | rfl | rfl | rfl | rfl) <;> simp only <;> omega

theorem CommandBlockWrapper.fields_apart (c : CommandBlockWrapper) :
    (c.fields.map Bytes.span).Pairwise Bytes.Apart := by
  rw [c.spans]
  simp [Bytes.Apart]

theorem CommandBlockWrapper.length_encode (h : c.encode = .ok b) : b.length = CBW_LEN := by
  obtain ⟨-, hlen, rfl⟩ := encode_ok h
  rw [Bytes.length_patch _ (fields_fit hlen), List.length_replicate]

theorem CommandBlockWrapper.slice_encode (h : c.encode = .ok b) {f : Nat × Bytes} (hf : f ∈ c.fields) :
    Bytes.slice b f.1 f.2.length = f.2 := by
  obtain ⟨-, hlen, rfl⟩ := encode_ok h
  exact Bytes.slice_patch_mem _ hf (fields_fit hlen) c.fields_apart

end

end LuksAndroid.Usb

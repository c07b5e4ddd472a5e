import LuksAndroid.Usb.Scsi

/-!
# A drive on the bus

The other end of Bulk-Only Transport, as the drive sees it: it takes a CBW, moves the
data and sends one CSW. It may end the data early with a short packet or a stall, pad it,
and stall the IN pipe before the status. A read returns one transfer.
-/

namespace LuksAndroid.Usb

/-- How a drive ends the data that it sends. -/
inductive Ending where
  | complete
  | short
  | stall
deriving DecidableEq, Repr

/-- What a drive does with a command. -/
structure Response where
  /-- What it sends, with the padding. -/
  data : Bytes
  ending : Ending
  /-- How many bytes it takes before it stalls. -/
  room : Nat
  stalls_status : Bool
  status : CswStatus
  residue : UInt32
deriving DecidableEq, Repr

/-- The rules of the transport for a command of `len` bytes. -/
structure Response.Follows (r : Response) (direction : Direction) (len : Nat) : Prop where
  sends : r.data.length ≤ len
  complete : r.ending = .complete ↔ r.data.length = len
  residue_le : r.residue.toNat ≤ len
  sent : direction = .In → len - r.residue.toNat ≤ r.data.length
  taken : direction = .Out → len - r.residue.toNat ≤ r.room

/-! ## Wrappers, seen from the drive -/

def parse_cbw (b : Bytes) : Option CommandBlockWrapper :=
  let cdb_len := (b.getD 14 0).toNat
  if b.length = CBW_LEN ∧ Bytes.get b 0 4 = CBW_SIGNATURE ∧ 0 < cdb_len ∧ cdb_len ≤ MAX_CDB_LEN then
    some {
      tag := UInt32.ofNat (Bytes.get b 4 4)
      data_transfer_length := UInt32.ofNat (Bytes.get b 8 4)
      direction :=
        if Bytes.get b 8 4 = 0 then .None else if (b.getD 12 0) &&& 0x80 = 0 then .Out else .In
      lun := b.getD 13 0
      cdb := Bytes.slice b 15 cdb_len }
  else none

def CswStatus.byte : CswStatus → UInt8
  | .Passed => 0
  | .Failed => 1
  | .PhaseError => 2

def Response.csw (r : Response) (tag : UInt32) : Bytes :=
  Bytes.le 4 CSW_SIGNATURE ++ Bytes.le 4 tag.toNat ++ Bytes.le 4 r.residue.toNat ++ [r.status.byte]

/-! ## The drive -/

inductive Stage where
  | idle
  | sending (tag : UInt32) (left : Bytes) (r : Response)
  | receiving (cbw : CommandBlockWrapper) (got : Bytes) (r : Response)
  | status (stalled : Bool) (csw : Bytes)
deriving DecidableEq, Repr

/-- A kind of drive: how it answers a command, what the command does to it, and how much one transfer
may move. -/
structure Drive (δ : Type) where
  answer : δ → CommandBlockWrapper → Response
  finish : δ → CommandBlockWrapper → Bytes → δ
  max_transfer : Nat
  chunk : Nat
  wide : CBW_LEN ≤ chunk

structure Link (δ : Type) where
  drive : δ
  stage : Stage

def stalled : LuksError := .UsbTransfer "endpoint stalled"
def timed_out : LuksError := .UsbTransfer "timed out"
def overflow : LuksError := .UsbTransfer "more data than asked for"

namespace Drive

variable {δ : Type} (D : Drive δ)

/-- What the CBW starts. -/
def start (d : δ) (cbw : CommandBlockWrapper) : Link δ :=
  let r := D.answer d cbw
  match cbw.direction with
  | .In => ⟨D.finish d cbw [], .sending cbw.tag r.data r⟩
  | .Out => ⟨d, .receiving cbw [] r⟩
  | .None => ⟨D.finish d cbw [], .status r.stalls_status (r.csw cbw.tag)⟩

/-- The drive has taken these bytes. -/
def took (d : δ) (cbw : CommandBlockWrapper) (got : Bytes) (r : Response) : Link δ :=
  if got.length < cbw.data_transfer_length.toNat then ⟨d, .receiving cbw got r⟩
  else ⟨D.finish d cbw got, .status r.stalls_status (r.csw cbw.tag)⟩

def write (data : Bytes) : EStateM LuksError (Link δ) { n : Nat // n ≤ data.length } := fun l =>
  match l.stage with
  | .idle =>
    match parse_cbw data with
    | none => .error stalled l
    | some cbw => .ok ⟨data.length, le_rfl⟩ (D.start l.drive cbw)
  | .receiving cbw got r =>
    if got.length + min data.length D.chunk ≤ r.room then
      .ok ⟨min data.length D.chunk, Nat.min_le_left _ _⟩ (D.took l.drive cbw (got ++ data.take D.chunk) r)
    else .error stalled ⟨D.finish l.drive cbw got, .status true (r.csw cbw.tag)⟩
  | .sending _ _ _ | .status _ _ => .error timed_out l

/-- The drive has sent all but `left`. -/
def sent (d : δ) (tag : UInt32) (left : Bytes) (r : Response) : Link δ :=
  if left = [] ∧ r.ending = .complete then ⟨d, .status r.stalls_status (r.csw tag)⟩ else ⟨d, .sending tag left r⟩

def read (n : Nat) : EStateM LuksError (Link δ) { b : Bytes // b.length ≤ n } := fun l =>
  match l.stage with
  | .sending tag left r =>
    if hwhole : min n D.chunk ≤ left.length then
      .ok ⟨left.take (min n D.chunk), (List.length_take_le _ _).trans (Nat.min_le_left _ _)⟩
        (sent l.drive tag (left.drop (min n D.chunk)) r)
    else if r.ending = .stall then .error stalled ⟨l.drive, .status true (r.csw tag)⟩
    else
      -- a short packet ends the transfer
      .ok ⟨left, by omega⟩ ⟨l.drive, .status r.stalls_status (r.csw tag)⟩
  | .status true _ => .error stalled l
  | .status false csw =>
    if hfits : csw.length ≤ n then .ok ⟨csw, hfits⟩ ⟨l.drive, .idle⟩
    else .error overflow ⟨l.drive, .idle⟩
  | .idle | .receiving _ _ _ => .error timed_out l

def clear_halt (endpoint_in : Bool) : EStateM LuksError (Link δ) Unit := fun l =>
  match endpoint_in, l.stage with
  | true, .status _ csw => .ok () ⟨l.drive, .status false csw⟩
  | _, _ => .ok () l

def reset : EStateM LuksError (Link δ) Unit := fun l => .ok () ⟨l.drive, .idle⟩

def transport : BulkTransport (Link δ) where
  write := D.write
  read := D.read
  max_transfer _ := D.max_transfer
  clear_halt := clear_halt
  reset := reset

end Drive

/-! ## Both ends agree on the wrappers -/

theorem getElem?_eq_of_slice {b v : Bytes} {i : Nat} {x : UInt8} (h : Bytes.slice b i v.length = v) (hv : v = [x]) :
    b.getD i 0 = x := by
  have hget := congrArg (fun s : Bytes => s[0]?) h
  simp only [Bytes.getElem?_slice, hv, List.length_singleton, Nat.lt_one_iff, if_true, Nat.add_zero,
    List.getElem?_cons_zero] at hget
  rw [List.getD_eq_getElem?_getD, hget]
  rfl

/-- The direction that the drive sees: a command without data has none. -/
def Direction.seen (direction : Direction) (len : Nat) : Direction :=
  if len = 0 then .None else if direction = .In then .In else .Out

theorem parse_cbw_encode {c : CommandBlockWrapper} {b : Bytes} (hlun : c.lun = 0) (h : c.encode = .ok b) :
    parse_cbw b = some { c with direction := c.direction.seen c.data_transfer_length.toNat } := by
  obtain ⟨hpos, hmax, -⟩ := CommandBlockWrapper.encode_ok h
  have hlen := CommandBlockWrapper.length_encode h
  have hfield := fun f => CommandBlockWrapper.slice_encode h (f := f)
  have hsig := hfield (0, Bytes.le 4 CBW_SIGNATURE) (by simp [CommandBlockWrapper.fields])
  have htag := hfield (4, Bytes.le 4 c.tag.toNat) (by simp [CommandBlockWrapper.fields])
  have hdata := hfield (8, Bytes.le 4 c.data_transfer_length.toNat) (by simp [CommandBlockWrapper.fields])
  have hflags := getElem?_eq_of_slice (hfield (12, [c.direction.flags]) (by simp [CommandBlockWrapper.fields])) rfl
  have hl := getElem?_eq_of_slice (hfield (13, [c.lun &&& 0x0F]) (by simp [CommandBlockWrapper.fields])) rfl
  have hcdblen := getElem?_eq_of_slice
    (hfield (14, [UInt8.ofNat c.cdb.length]) (by simp [CommandBlockWrapper.fields])) rfl
  have hcdb := hfield (15, c.cdb) (by simp [CommandBlockWrapper.fields])
  simp only [Bytes.length_le] at hsig htag hdata
  have hn : (UInt8.ofNat c.cdb.length).toNat = c.cdb.length := by
    rw [UInt8.toNat_ofNat']
    unfold MAX_CDB_LEN at hmax
    omega
  have h4 : ∀ x : UInt32, x.toNat < 256 ^ 4 := fun x => x.toNat_lt
  unfold parse_cbw
  simp only [Bytes.get, hsig, htag, hdata, hcdblen, hflags, hl, hn, hlen]
  rw [if_pos ⟨trivial, Bytes.unle_le_of_lt (by decide), hpos, hmax⟩]
  rw [Bytes.unle_le_of_lt (h4 _), Bytes.unle_le_of_lt (h4 _)]
  simp only [UInt32.ofNat_toNat, hcdb, hlun, Option.some.injEq, Direction.seen]
  cases c.direction with
  | In => rfl
  | Out => rfl
  | None => rfl

theorem length_csw (r : Response) (tag : UInt32) : (r.csw tag).length = CSW_LEN := by
  simp [Response.csw, CSW_LEN]

theorem decode_csw (r : Response) (tag : UInt32) :
    CommandStatusWrapper.decode (r.csw tag) = .ok ⟨tag, r.residue, r.status⟩ := by
  have h4 : ∀ x : UInt32, x.toNat < 256 ^ 4 := fun x => x.toNat_lt
  have hsig : Bytes.slice (r.csw tag) 0 4 = Bytes.le 4 CSW_SIGNATURE := by
    simp only [Bytes.slice, List.drop_zero, Response.csw, List.append_assoc]
    rw [List.take_left' (Bytes.length_le _ _)]
  have htag : Bytes.slice (r.csw tag) 4 4 = Bytes.le 4 tag.toNat := by
    simp only [Bytes.slice, Response.csw, List.append_assoc]
    rw [List.drop_left' (Bytes.length_le _ _), List.take_left' (Bytes.length_le _ _)]
  have hres : Bytes.slice (r.csw tag) 8 4 = Bytes.le 4 r.residue.toNat := by
    simp only [Bytes.slice, Response.csw, List.append_assoc]
    rw [← List.append_assoc, List.drop_left' (by simp), List.take_left' (Bytes.length_le _ _)]
  have hstatus : (r.csw tag).getD 12 0 = r.status.byte := by
    rw [Response.csw, List.getD_append_right _ _ _ _ (by simp)]
    simp
  unfold CommandStatusWrapper.decode
  rw [if_neg (by rw [length_csw]; exact Nat.lt_irrefl _)]
  simp only [Bytes.get, hsig, htag, hres, hstatus]
  rw [if_neg (by rw [Bytes.unle_le_of_lt (by decide)]; exact fun h => h rfl), Bytes.unle_le_of_lt (h4 _),
    Bytes.unle_le_of_lt (h4 _)]
  simp only [UInt32.ofNat_toNat]
  cases r.status with
  | Passed => rfl
  | Failed => rfl
  | PhaseError => rfl

end LuksAndroid.Usb

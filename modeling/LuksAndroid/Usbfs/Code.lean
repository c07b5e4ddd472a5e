import LuksAndroid.Error
import LuksAndroid.Lib.Word

/-!
# Bulk transfers over usbfs

`usbfs/src/lib.rs`. A transfer is cut into chunks, each chunk is a URB, and all URBs of a
round are with the kernel at once. Whatever the kernel answers in a round is given by a
script, with what each URB moves in the end. A byte is known by its place in the buffer.
-/

namespace LuksAndroid.Usbfs

open Word

/-! ## Errors -/

def ENOENT : Int := 2
def EINTR : Int := 4
def EBADF : Int := 9
def EAGAIN : Int := 11
def ENOMEM : Int := 12
def ENODEV : Int := 19
def EINVAL : Int := 22
def EPIPE : Int := 32
def ECONNRESET : Int := 104
def ESHUTDOWN : Int := 108
def ETIMEDOUT : Int := 110

def hint (e : Int) : String :=
  if e = EPIPE then " (endpoint stalled — clear_halt required before the next command)"
  else if e = ETIMEDOUT then " (timed out)"
  else if e = ENODEV then " (device disconnected)"
  else if e = EBADF then " (bad file descriptor — was the UsbDeviceConnection closed?)"
  else if e = EINVAL then " (invalid argument — the endpoint address, or a buffer the kernel considers too large)"
  else if e = ENOMEM then " (kernel memory allocation failed for this transfer size)"
  else if e = EAGAIN then " (would block)"
  else ""

/-- The text of an errno is the system's. -/
def transfer_err (strerror : Int → String) (what : String) (e : Int) : String :=
  what ++ ": errno " ++ toString e ++ " (" ++ strerror e ++ ")" ++ hint e

/-- A failure names how much it was moving. -/
def bulk_err (strerror : Int → String) (len limit : Nat) (e : Int) : LuksError :=
  .UsbTransfer (transfer_err strerror "USBDEVFS_BULK" e ++ " while moving " ++ toString len ++
    " bytes (max_transfer is " ++ toString limit ++ ")")

def dead_err : LuksError := .UsbTransfer "USB transport dead: un-drained URBs pending from earlier failure"

/-! ## The arena -/

inductive TransportState where
  | Healthy
  | Draining
  | Dead
deriving DecidableEq, Repr

def MAX_URB_SLOTS : Nat := 32

abbrev Slot := Fin MAX_URB_SLOTS

/-- A slot, with the part of the caller's buffer that its URB covers. -/
structure UrbSlot where
  buffer : Nat
  buffer_length : Nat
  generation : Nat
  index : Nat
  in_use : Bool
  submitted : Bool
  reaped : Bool
deriving DecidableEq, Repr

structure UrbArena where
  slots : Slot → UrbSlot
  next_generation : Nat

namespace UrbArena

def new : UrbArena := ⟨fun _ => ⟨0, 0, 0, 0, false, false, false⟩, 1⟩

/-- Change the slots of a list, each by its place in the list. -/
def each (a : UrbArena) (l : List Slot) (f : Nat → UrbSlot → UrbSlot) : UrbArena :=
  { a with slots := fun i => if i ∈ l then f (l.idxOf i) (a.slots i) else a.slots i }

def update (a : UrbArena) (i : Slot) (f : UrbSlot → UrbSlot) : UrbArena :=
  { a with slots := Function.update a.slots i (f (a.slots i)) }

/-- The slots that the loop of `allocate` takes. It stops at the `count`-th. -/
def free (a : UrbArena) (count : Nat) : List Slot :=
  let l := (List.finRange MAX_URB_SLOTS).filter fun i => ¬ (a.slots i).in_use
  if count = 0 then l else l.take count

def allocate (a : UrbArena) (count : Nat) : Except LuksError (Nat × List Slot) × UrbArena :=
  let gen := a.next_generation
  let indices := a.free count
  let a := { a with next_generation := max (wrapping_add gen 1) 1 }
  let a := a.each indices fun index slot =>
    { slot with in_use := true, generation := gen, index, submitted := false, reaped := false }
  if count ≠ 0 ∧ indices.length = count then (.ok (gen, indices), a)
  else (.error (.UsbTransfer "all URB slots in use"), a.each indices fun _ slot => { slot with in_use := false })

end UrbArena

/-- What `REAPURB` hands back. -/
inductive Pointer where
  | urb (i : Slot)
  | raw (v : Nat)
deriving DecidableEq, Repr

/-- The pointer of a URB, or the number of a slot counted from one. -/
def find_slot_idx : Pointer → Option Slot
  | .urb i => some i
  | .raw v => if h : 1 ≤ v ∧ v ≤ MAX_URB_SLOTS then some ⟨v - 1, by omega⟩ else none

/-- The sum over the longest prefix that completed. -/
def contiguous_prefix : List (Option Nat) → Nat
  | some n :: rest => n + contiguous_prefix rest
  | _ => 0

/-! ## The kernel -/

/-- Which URB a reap returns: the one of a chunk of this round, an older one, or something else. -/
inductive Returned where
  | ours (i : Nat)
  | stale (i : Slot)
  | unknown
deriving DecidableEq, Repr

def Returned.pointer (indices : List Slot) : Returned → Pointer
  | .ours i => ((indices[i]?).map .urb).getD (.raw 0)
  | .stale i => if i ∈ indices then .raw 0 else .urb i
  | .unknown => .raw 0

/-- How one turn of a waiting loop goes: `poll` fails, or `REAPURB` does, or something is reaped. -/
inductive Wait where
  | poll_failed (e : Int)
  | reap_failed (e : Int)
  | reap (r : Returned)
deriving DecidableEq, Repr

/-- The kernel in one round. A URB ends with a status and has moved no more than its buffer holds. The
drain is over when its time is. -/
structure Kernel where
  refuses : Nat → Option Int
  status : Nat → Int
  moves : Nat → Nat
  waits : List Wait
  drains : List Wait

inductive Event where
  | allocated (i : Slot)
  /-- With the place of the chunk in the buffer, and what the URB moves of it. -/
  | submitted (i : Slot) (buffer moved : Nat)
  | discarded (i : Slot)
  | reaped (i : Slot)
deriving DecidableEq, Repr

/-- What the threads share, and the record of what happened. -/
structure UsbFsTransport where
  arena : UrbArena
  state : TransportState
  max_transfer : Nat
  log : List Event

namespace UsbFsTransport

variable (t : UsbFsTransport)

/-- `DISCARDURB` for what is not back. Its answer is dropped. -/
def discard (indices : List Slot) : UsbFsTransport :=
  { t with
    log := t.log ++
      (indices.filter fun i => (t.arena.slots i).submitted ∧ ¬ (t.arena.slots i).reaped).map .discarded }

/-- Whether a reaped URB counts for this transfer. A slot of an older one is given back. -/
def take_back (generation : Nat) (i : Slot) : Bool × UsbFsTransport :=
  let slot := t.arena.slots i
  let t := { t with log := t.log ++ [.reaped i] }
  if slot.generation = generation ∧ slot.submitted ∧ ¬ slot.reaped then
    (true, { t with arena := t.arena.update i fun slot => { slot with reaped := true, in_use := false } })
  else if slot.in_use ∧ slot.generation < generation then
    (false, { t with arena := t.arena.update i fun slot => { slot with in_use := false } })
  else (false, t)

end UsbFsTransport

/-! ## A round -/

def CHUNK_SIZE : Nat := 128 * 1024
def MIN_MAX_TRANSFER : Nat := 4 * 1024
def num_urbs (attempted : Nat) : Nat := div_ceil attempted CHUNK_SIZE

/-- The chunks start at multiples of `CHUNK_SIZE`, and the last one is what is left. -/
def chunk_len (attempted i : Nat) : Nat := min (attempted - i * CHUNK_SIZE) CHUNK_SIZE

/-- What a URB that completed has moved. -/
def Kernel.actual_length (k : Kernel) (index buffer_length : Nat) : Nat := min (k.moves index) buffer_length

/-- Submit until the kernel refuses. -/
def submit_urbs (k : Kernel) : List Slot → Nat → UsbFsTransport → Option Int × Nat × UsbFsTransport
  | [], n, t => (none, n, t)
  | i :: rest, n, t =>
    match k.refuses n with
    | some e => (some e, n, t)
    | none =>
      let slot := t.arena.slots i
      submit_urbs k rest (n + 1)
        { t with
          arena := t.arena.update i fun slot => { slot with submitted := true }
          log := t.log ++ [.submitted i slot.buffer (k.actual_length n slot.buffer_length)] }

/-- The variables of the reaping loop. -/
structure Progress where
  transport : UsbFsTransport
  outcomes : List (Option Nat)
  completed : Nat
  completion_err : Option Int
  discarded_for_short_read : Bool

/-- Score a URB of this transfer. The first failure has the others discarded, and so has a short read. -/
def score (inward : Bool) (submitted : List Slot) (k : Kernel) (i : Slot) (p : Progress) : Progress :=
  let slot := p.transport.arena.slots i
  let status := k.status slot.index
  if status < 0 then
    let err := -status
    if ¬ (err = ENOENT ∨ err = ECONNRESET) ∧ p.completion_err = none then
      { p with completion_err := some err, transport := p.transport.discard submitted }
    else p
  else
    let actual_length := k.actual_length slot.index slot.buffer_length
    let p := { p with outcomes := p.outcomes.set slot.index (some actual_length) }
    if inward ∧ actual_length < slot.buffer_length ∧ ¬ p.discarded_for_short_read then
      { p with discarded_for_short_read := true, transport := p.transport.discard submitted }
    else p

def reap_one (inward : Bool) (generation : Nat) (indices submitted : List Slot) (k : Kernel) (r : Returned)
    (p : Progress) : Progress :=
  match find_slot_idx (r.pointer indices) with
  | none => p
  | some i =>
    let (counts, transport) := p.transport.take_back generation i
    if counts then score inward submitted k i { p with transport, completed := p.completed + 1 }
    else { p with transport }

/-- The reaping loop, with the error that ends it. It may not end at all. -/
def reap_loop (inward : Bool) (generation : Nat) (indices submitted : List Slot) (k : Kernel) :
    List Wait → Progress → Option (Option Int × Progress)
  | [], p => if p.completed < submitted.length then none else some (none, p)
  | w :: rest, p =>
    if ¬ p.completed < submitted.length then some (none, p)
    else match w with
      | .poll_failed e => some (some e, p)
      | .reap_failed e => if e = EINTR then reap_loop inward generation indices submitted k rest p else some (some e, p)
      | .reap r => reap_loop inward generation indices submitted k rest
        (reap_one inward generation indices submitted k r p)

/-- There is nobody to answer any more. -/
def is_gone (e : Int) : Bool := e = ENODEV ∨ e = EBADF ∨ e = ESHUTDOWN

def drain_loop (generation submitted_count : Nat) (indices : List Slot) :
    List Wait → Nat → UsbFsTransport → Nat × UsbFsTransport
  | [], completed, t => (completed, t)
  | w :: rest, completed, t =>
    if ¬ completed < submitted_count then (completed, t)
    else match w with
      | .poll_failed e | .reap_failed e =>
        if is_gone e then (completed, t) else drain_loop generation submitted_count indices rest completed t
      | .reap r =>
        match find_slot_idx (r.pointer indices) with
        | none => drain_loop generation submitted_count indices rest completed t
        | some i =>
          let (counts, t) := t.take_back generation i
          drain_loop generation submitted_count indices rest (if counts then completed + 1 else completed) t

/-- Discard and reap what is out. What cannot be reaped in time kills the transport. -/
def drain_unreaped (generation : Nat) (indices submitted : List Slot) (k : Kernel) (completed : Nat)
    (t : UsbFsTransport) : UsbFsTransport :=
  if completed ≥ submitted.length then t
  else
    let t := { t with state := .Draining }
    let (completed, t) := drain_loop generation submitted.length indices k.drains completed (t.discard submitted)
    { t with state := if completed = submitted.length then .Healthy else .Dead }

/-- How a round ends. -/
inductive Outcome where
  | done (r : Except LuksError Nat)
  | again

/-- What the errors and the counted prefix make of the round, with the new limit. -/
def conclude (strerror : Int → String) (attempted limit count : Nat) (err : Option Int) (max_transfer : Nat) :
    Outcome × Nat :=
  match err with
  | none => (.done (.ok count), max_transfer)
  | some e =>
    let is_shrinkable_error : Bool := e = EINVAL ∨ e = ENOMEM
    let shrinks : Bool := (is_shrinkable_error ∨ e = ETIMEDOUT) ∧ limit > MIN_MAX_TRANSFER
    let max_transfer := if shrinks then min max_transfer (max (limit / 2) MIN_MAX_TRANSFER) else max_transfer
    if shrinks ∧ is_shrinkable_error ∧ count = 0 then (.again, max_transfer)
    else if count > 0 then (.done (.ok count), max_transfer)
    else (.done (.error (bulk_err strerror attempted limit e)), max_transfer)

/-- The chunk of each slot that was taken. -/
def prepare (attempted : Nat) (indices : List Slot) (a : UrbArena) : UrbArena :=
  a.each indices fun i slot => { slot with buffer := i * CHUNK_SIZE, buffer_length := chunk_len attempted i }

/-- The URBs of a round. -/
structure Batch where
  generation : Nat
  indices : List Slot
  submit_err : Option Int
  submitted_count : Nat

def Batch.submitted (b : Batch) : List Slot := b.indices.take b.submitted_count

/-- Take slots and submit. Slots that were never handed to the kernel are freed. -/
def start_round (attempted : Nat) (k : Kernel) (t : UsbFsTransport) : Except LuksError Batch × UsbFsTransport :=
  let log := t.log ++ (t.arena.free (num_urbs attempted)).map .allocated
  match t.arena.allocate (num_urbs attempted) with
  | (.error e, arena) => (.error e, { t with arena, log })
  | (.ok (generation, indices), arena) =>
    let (submit_err, submitted_count, t) :=
      submit_urbs k indices 0 { t with arena := prepare attempted indices arena, log }
    (.ok { generation, indices, submit_err, submitted_count },
      { t with arena := t.arena.each (indices.drop submitted_count) fun _ slot =>
        { slot with in_use := false, submitted := false } })

/-- The reaping loop, unless a submission failed. -/
def reap_urbs (inward : Bool) (attempted : Nat) (b : Batch) (k : Kernel) (t : UsbFsTransport) :
    Option (Option Int × Progress) :=
  let p : Progress := ⟨t, List.replicate (num_urbs attempted) none, 0, none, false⟩
  if b.submit_err = none then reap_loop inward b.generation b.indices b.submitted k k.waits p else some (none, p)

/-- Drain after a failure. -/
def close_round (b : Batch) (k : Kernel) (err : Option Int) (p : Progress) : UsbFsTransport :=
  if 0 < b.submitted_count ∧ (err ≠ none ∨ p.completed < b.submitted_count) then
    drain_unreaped b.generation b.indices b.submitted k p.completed p.transport
  else if 0 < b.submitted_count ∧ err = none then
    { p.transport with arena := p.transport.arena.each b.submitted fun _ slot => { slot with in_use := false } }
  else p.transport

/-- What is done under one lock of the arena, for a buffer of `len` bytes. -/
def locked_round (strerror : Int → String) (inward : Bool) (len limit : Nat) (k : Kernel) (t : UsbFsTransport) :
    Option (Outcome × UsbFsTransport) :=
  let attempted := min limit len
  match start_round attempted k t with
  | (.error e, t) => some (.done (.error e), t)
  | (.ok b, t) =>
    match reap_urbs inward attempted b k t with
    | none => none
    | some (reap_err, p) =>
      let err := b.submit_err <|> p.completion_err <|> reap_err
      let t := close_round b k err p
      let (outcome, max_transfer) :=
        conclude strerror attempted limit ( contiguous_prefix p.outcomes) err t.max_transfer
      some (outcome, { t with max_transfer })

/-! ## A call -/

/-- The rounds of one call, with the kernel of each. A call that needs more of them has not returned. -/
def rounds (strerror : Int → String) (inward : Bool) (len : Nat) :
    List Kernel → UsbFsTransport → Option (Except LuksError Nat × UsbFsTransport)
  | [], _ => none
  | k :: rest, t =>
    match locked_round strerror inward len t.max_transfer k t with
    | none => none
    | some (.done r, t) => if rest = [] then some (r, t) else none
    | some (.again, t) => rounds strerror inward len rest t

/-- A transfer on one endpoint. The two directions differ in what a short completion does. -/
def bulk (strerror : Int → String) (inward : Bool) (len : Nat) (kernels : List Kernel) (t : UsbFsTransport) :
    Option (Except LuksError Nat × UsbFsTransport) :=
  if len = 0 then some (.ok 0, t)
  else if t.state = .Dead then some (.error dead_err, t)
  else rounds strerror inward len kernels t

def bulk_out (strerror : Int → String) := bulk strerror false

def bulk_in (strerror : Int → String) := bulk strerror true

end LuksAndroid.Usbfs

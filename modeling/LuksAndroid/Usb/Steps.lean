import LuksAndroid.Usb.Drive
import LuksAndroid.Usb.Sync

/-!
# The phases of a command on a drive

How each phase runs on a drive that answers a command in a given way. The data loop asks
for more until the buffer is full or a read returns nothing, so a short packet in between
lets it read on into the status.
-/

namespace LuksAndroid.Usb

open Trace

variable {σ δ α β : Type}

/-! ## Steps -/

/-- The bus after the transport moved on to `s`, with this record. -/
def Bus.move (b : Bus σ) (s : σ) (new : List Event) : Bus σ := { b with state := s, log := b.log ++ new }

@[simp] theorem Bus.move_state (b : Bus σ) (s : σ) (new : List Event) : (b.move s new).state = s := rfl

@[simp] theorem Bus.move_tag (b : Bus σ) (s : σ) (new : List Event) : (b.move s new).tag = b.tag := rfl

@[simp] theorem Bus.move_log (b : Bus σ) (s : σ) (new : List Event) : (b.move s new).log = b.log ++ new := rfl

@[simp] theorem Bus.move_move (b : Bus σ) (s s' : σ) (new new' : List Event) :
    (b.move s new).move s' new' = b.move s' (new ++ new') := by
  simp [Bus.move]

/-- A read that returns these bytes. -/
def BulkTransport.Reads (t : BulkTransport σ) (n : Nat) (s : σ) (x : Bytes) (s' : σ) : Prop :=
  ∃ h : x.length ≤ n, t.read n s = .ok ⟨x, h⟩ s'

section

variable (t : BulkTransport σ) (phase : Phase) {b : Bus σ} {s : σ} {e : LuksError}

theorem receive_ok {n : Nat} {x : Bytes} (h : t.Reads n b.state x s) :
    t.receive phase n b = .ok x (b.move s [.read phase n x]) := by
  obtain ⟨hx, h⟩ := h
  have hcall : BusM.call (t.read n) (fun x => .read phase n x.1) (.read_failed phase n) b =
      .ok ⟨x, hx⟩ (b.move s [.read phase n x]) := by
    simp only [BusM.call, h]
    rfl
  exact Run.bind_eq_of_ok hcall _

theorem receive_error {n : Nat} (h : t.read n b.state = .error e s) :
    t.receive phase n b = .error e (b.move s [.read_failed phase n e]) := by
  simp only [BulkTransport.receive, BusM.call, bind, EStateM.bind, h]
  rfl

theorem send_ok {data : Bytes} {n : { n : Nat // n ≤ data.length }} (h : t.write data b.state = .ok n s) :
    t.send phase data b = .ok n.1 (b.move s [.wrote phase data n.1]) := by
  have hcall : BusM.call (t.write data) (fun n => .wrote phase data n.1) (.write_failed phase data) b =
      .ok n (b.move s [.wrote phase data n.1]) := by
    simp only [BusM.call, h]
    rfl
  exact Run.bind_eq_of_ok hcall _

theorem send_error {data : Bytes} (h : t.write data b.state = .error e s) :
    t.send phase data b = .error e (b.move s [.write_failed phase data e]) := by
  simp only [BulkTransport.send, BusM.call, bind, EStateM.bind, h]
  rfl

end

section

variable (t : BulkTransport σ) {b : Bus σ} {e : LuksError}

theorem recover_ok {x : BusM σ α} {a : α} {b' : Bus σ} (h : x b = .ok a b') : t.recover x b = .ok a b' := by
  simp only [BulkTransport.recover, Run.attempt, bind, EStateM.bind, h]
  rfl

theorem recover_error {x : BusM σ α} {b' : Bus σ} (h : x b = .error e b') :
    t.recover x b = .error e (b'.move (after (t.reset b'.state)) [.reset]) := by
  simp only [BulkTransport.recover, Run.attempt, bind, EStateM.bind, h]
  rfl

end

theorem attempt_ok {x : BusM σ α} {b b' : Bus σ} {a : α} (h : x b = .ok a b') : Run.attempt x b = .ok (.ok a) b' := by
  simp only [Run.attempt, h]

theorem attempt_error {x : BusM σ α} {b b' : Bus σ} {e : LuksError} (h : x b = .error e b') :
    Run.attempt x b = .ok (.error e) b' := by
  simp only [Run.attempt, h]

/-! ## The command phase -/

variable (D : Drive δ) {d : δ} {b : Bus (Link δ)} {r : Response} {tag : UInt32}

theorem send_cbw_run (hb : b.state = ⟨d, .idle⟩) {cbw : CommandBlockWrapper} {enc : Bytes} (hlun : cbw.lun = 0)
    (henc : cbw.encode = .ok enc) :
    send_cbw D.transport cbw b =
      .ok () (b.move (D.start d { cbw with direction := cbw.direction.seen cbw.data_transfer_length.toNat })
        [.wrote .Command enc enc.length]) := by
  have hwrite : D.transport.write enc b.state = .ok ⟨enc.length, le_rfl⟩
      (D.start d { cbw with direction := cbw.direction.seen cbw.data_transfer_length.toNat }) := by
    simp only [Drive.transport, Drive.write, hb, parse_cbw_encode hlun henc]
  have hsend := recover_ok D.transport (send_ok D.transport .Command hwrite)
  unfold send_cbw
  rw [henc]
  simp only [BusM.lift, pure_bind]
  rw [Run.bind_eq_of_ok hsend, if_neg (fun h => h rfl)]
  rfl

/-! ## The status phase -/

theorem read_status (hb : b.state = ⟨d, .status false (r.csw tag)⟩) {n : Nat} (hn : CSW_LEN ≤ n) :
    D.transport.Reads n b.state (r.csw tag) ⟨d, .idle⟩ := by
  refine ⟨(length_csw r tag).le.trans hn, ?_⟩
  change D.read n b.state = _
  rw [hb]
  unfold Drive.read
  simp only
  rw [dif_pos ((length_csw r tag).le.trans hn)]

theorem read_csw_whole (hb : b.state = ⟨d, .status false (r.csw tag)⟩) (rounds : Nat) (cleared_halt : Bool) :
    read_csw D.transport (rounds + 2) cleared_halt [] b =
      .ok (r.csw tag) (b.move ⟨d, .idle⟩ [.read .Status CSW_LEN (r.csw tag)]) := by
  have hlen := length_csw r tag
  have hrec := attempt_ok (receive_ok D.transport .Status (read_status D hb le_rfl))
  rw [read_csw, if_neg (by simp [CSW_LEN])]
  simp only [List.length_nil, Nat.sub_zero]
  rw [Run.bind_eq_of_ok hrec]
  dsimp only
  rw [if_neg (by rw [hlen]; decide), List.nil_append, read_csw, if_pos (by rw [hlen]; decide)]
  rfl

theorem read_csw_stalled (hb : b.state = ⟨d, .status true (r.csw tag)⟩) (rounds : Nat) :
    read_csw D.transport (rounds + 3) false [] b =
      .ok (r.csw tag) (b.move ⟨d, .idle⟩
        [.read_failed .Status CSW_LEN stalled, .cleared, .read .Status CSW_LEN (r.csw tag)]) := by
  have hread : D.transport.read CSW_LEN b.state = .error stalled b.state := by
    change D.read CSW_LEN b.state = _
    rw [hb]
    rfl
  have hrec := attempt_error (receive_error D.transport .Status hread)
  have hdisc : stalled.is_disconnected = false := by decide
  have hclear : clear_stall D.transport (b.move b.state [.read_failed .Status CSW_LEN stalled]) =
      .ok () (b.move ⟨d, .status false (r.csw tag)⟩ [.read_failed .Status CSW_LEN stalled, .cleared]) := by
    have hcall : D.transport.clear true (b.move b.state [.read_failed .Status CSW_LEN stalled]) =
        .ok () (b.move ⟨d, .status false (r.csw tag)⟩ [.read_failed .Status CSW_LEN stalled, .cleared]) := by
      rw [hb]
      simp [BulkTransport.clear, BusM.call, Drive.transport, Drive.clear_halt, Bus.move]
    exact Run.bind_eq_of_ok (attempt_ok hcall) _
  have hnext := read_csw_whole D (b := b.move ⟨d, .status false (r.csw tag)⟩
    [.read_failed .Status CSW_LEN stalled, .cleared]) rfl rounds true
  rw [read_csw, if_neg (by simp [CSW_LEN])]
  simp only [List.length_nil, Nat.sub_zero]
  rw [Run.bind_eq_of_ok hrec]
  simp only [hdisc, Bool.false_eq_true, if_false, not_false_eq_true, if_true]
  rw [Run.bind_eq_of_ok hclear, hnext]
  simp

theorem status_phase_run {stalls : Bool} (hb : b.state = ⟨d, .status stalls (r.csw tag)⟩) :
    ∃ new, status_phase D.transport tag b = .ok ⟨tag, r.residue, r.status⟩ (b.move ⟨d, .idle⟩ new) ∧
      Quiet new ∧ received .Data new = [] := by
  obtain ⟨new, hread, hquiet, hnone⟩ : ∃ new,
      read_csw D.transport (CSW_LEN + 2) false [] b = .ok (r.csw tag) (b.move ⟨d, .idle⟩ new) ∧
        Quiet new ∧ received .Data new = [] := by
    cases stalls with
    | false => exact ⟨_, read_csw_whole D hb CSW_LEN false, by simp [Quiet, Event.isCommand], rfl⟩
    | true => exact ⟨_, read_csw_stalled D hb 12, by simp [Quiet, Event.isCommand], rfl⟩
  refine ⟨new, ?_, hquiet, hnone⟩
  unfold status_phase
  rw [Run.bind_eq_of_ok hread, decode_csw]
  simp only [BusM.lift, pure_bind]
  rw [if_neg (fun h => h rfl)]
  rfl

/-! ## The data phase of a command that reads -/

theorem read_whole {left : Bytes} (hb : b.state = ⟨d, .sending tag left r⟩) {n : Nat}
    (h : min n D.chunk ≤ left.length) :
    D.transport.Reads n b.state (left.take (min n D.chunk)) (Drive.sent d tag (left.drop (min n D.chunk)) r) := by
  refine ⟨(List.length_take_le _ _).trans (Nat.min_le_left _ _), ?_⟩
  change D.read n b.state = _
  rw [hb]
  unfold Drive.read
  simp only
  rw [dif_pos h]

theorem read_short {left : Bytes} (hb : b.state = ⟨d, .sending tag left r⟩) {n : Nat}
    (h : ¬ min n D.chunk ≤ left.length)
    (hend : r.ending ≠ .stall) :
    D.transport.Reads n b.state left ⟨d, .status r.stalls_status (r.csw tag)⟩ := by
  refine ⟨by omega, ?_⟩
  change D.read n b.state = _
  rw [hb]
  unfold Drive.read
  simp only
  rw [dif_neg h, if_neg hend]

theorem read_stall {left : Bytes} (hb : b.state = ⟨d, .sending tag left r⟩) {n : Nat}
    (h : ¬ min n D.chunk ≤ left.length)
    (hend : r.ending = .stall) :
    D.transport.read n b.state = .error stalled ⟨d, .status true (r.csw tag)⟩ := by
  change D.read n b.state = _
  rw [hb]
  unfold Drive.read
  simp only
  rw [dif_neg h, if_pos hend]

theorem data_in_full (t : BulkTransport σ) {b : Bus σ} {len : Nat} (rounds : Nat) {got : Bytes} (h : len ≤ got.length) :
    data_in t len rounds got b = .ok got b := by
  cases rounds with
  | zero => rfl
  | succ rounds =>
    rw [data_in, if_pos (by omega)]
    rfl

theorem data_in_more (t : BulkTransport σ) {b : Bus σ} {s : σ} {len : Nat} (rounds : Nat) {got x : Bytes}
    (hmore : got.length < len) (hread : t.Reads (len - got.length) b.state x s) (hx : x ≠ []) :
    data_in t len (rounds + 1) got b =
      data_in t len rounds (got ++ x) (b.move s [.read .Data (len - got.length) x]) := by
  rw [data_in, if_neg (by omega), Run.bind_eq_of_ok (recover_ok t (receive_ok t .Data hread)),
    if_neg (by rwa [List.length_eq_zero_iff])]

theorem data_in_none (t : BulkTransport σ) {b : Bus σ} {s : σ} {len : Nat} (rounds : Nat) {got : Bytes}
    (hmore : got.length < len) (hread : t.Reads (len - got.length) b.state [] s) :
    data_in t len (rounds + 1) got b = .ok got (b.move s [.read .Data (len - got.length) []]) := by
  rw [data_in, if_neg (by omega), Run.bind_eq_of_ok (recover_ok t (receive_ok t .Data hread)),
    if_pos List.length_nil]
  rfl

theorem data_in_fails (t : BulkTransport σ) {b : Bus σ} {s : σ} {len : Nat} (rounds : Nat) {got : Bytes}
    (hmore : got.length < len) {e : LuksError} (hread : t.read (len - got.length) b.state = .error e s) :
    data_in t len (rounds + 1) got b =
      .error e (b.move (after (t.reset s)) [.read_failed .Data (len - got.length) e, .reset]) := by
  rw [data_in, if_neg (by omega), Run.bind_eq_of_error (recover_error t (receive_error t .Data hread))]
  simp

/-- The record of a data phase: nothing but reads, of these bytes. -/
structure DataRead (new : List Event) (data : Bytes) : Prop where
  quiet : Quiet new
  data : received .Data new = data
  status : received .Status new = []

theorem DataRead.nil : DataRead [] [] := ⟨.nil, rfl, rfl⟩

theorem DataRead.cons {data : Bytes} {new : List Event} (h : DataRead new data) (n : Nat) (x : Bytes) :
    DataRead (.read .Data n x :: new) (x ++ data) := by
  refine ⟨?_, ?_, h.status⟩
  · exact (Quiet.single (e := .read .Data n x) (by simp [Event.isCommand])).append h.quiet
  · simp only [received, if_true, h.data]

theorem data_in_complete (hend : r.ending = .complete) {len : Nat} (rounds : Nat) (got : Bytes) {left : Bytes}
    {b : Bus (Link δ)}
    (hb : b.state = ⟨d, .sending tag left r⟩) (hlen : got.length + left.length = len) (hpos : 0 < left.length)
    (hrounds : left.length ≤ rounds) :
    ∃ new, data_in D.transport len rounds got b =
        .ok (got ++ left) (b.move ⟨d, .status r.stalls_status (r.csw tag)⟩ new) ∧ DataRead new left := by
  have hwide := D.wide
  unfold CBW_LEN at hwide
  induction rounds generalizing got left b with
  | zero => omega
  | succ rounds ih =>
    have hq : min (len - got.length) D.chunk ≤ left.length := by omega
    have hx : left.take (min (len - got.length) D.chunk) ≠ [] := by
      rw [← List.length_pos_iff, List.length_take]
      omega
    rw [data_in_more D.transport rounds (by omega) (read_whole D hb hq) hx]
    by_cases hlast : left.drop (min (len - got.length) D.chunk) = []
    · have hall : left.take (min (len - got.length) D.chunk) = left := by
        rw [List.drop_eq_nil_iff] at hlast
        exact List.take_of_length_le hlast
      rw [Drive.sent, if_pos ⟨hlast, hend⟩, hall]
      refine ⟨_, data_in_full D.transport rounds (by rw [List.length_append]; omega), ?_⟩
      simpa using DataRead.nil.cons (len - got.length) left
    · rw [Drive.sent, if_neg (fun h => hlast h.1)]
      have hdrop : 0 < (left.drop (min (len - got.length) D.chunk)).length := List.length_pos_iff.mpr hlast
      rw [List.length_drop] at hdrop
      obtain ⟨new, hrun, hnew⟩ := @ih (got ++ left.take (min (len - got.length) D.chunk))
        (left.drop (min (len - got.length) D.chunk))
        (b.move ⟨d, .sending tag (left.drop (min (len - got.length) D.chunk)) r⟩
          [.read .Data (len - got.length) (left.take (min (len - got.length) D.chunk))]) rfl
        (by rw [List.length_append, List.length_take, List.length_drop]; omega)
        (by rw [List.length_drop]; omega) (by rw [List.length_drop]; omega)
      refine ⟨.read .Data (len - got.length) (left.take (min (len - got.length) D.chunk)) :: new, ?_, ?_⟩
      · rw [hrun, List.append_assoc, List.take_append_drop, Bus.move_move]
        rfl
      · have hcons := hnew.cons (len - got.length) (left.take (min (len - got.length) D.chunk))
        rwa [List.take_append_drop] at hcons

/-- The drive sends less: the transfers arrive one after the other, and what comes then depends on
whether the last of them was a short one. -/
theorem data_in_short (hend : r.ending = .short) {len : Nat} (rounds : Nat) (got : Bytes) {left : Bytes}
    {b : Bus (Link δ)}
    (hb : b.state = ⟨d, .sending tag left r⟩) (hlen : got.length + left.length < len) (hrounds : left.length < rounds) :
    ∃ new, DataRead new left ∧
      (D.chunk ∣ left.length → data_in D.transport len rounds got b =
        .ok (got ++ left) (b.move ⟨d, .status r.stalls_status (r.csw tag)⟩ new)) ∧
      (¬ D.chunk ∣ left.length → ∃ more, data_in D.transport len rounds got b =
        data_in D.transport len (more + 1) (got ++ left) (b.move ⟨d, .status r.stalls_status (r.csw tag)⟩ new)) := by
  have hwide := D.wide
  unfold CBW_LEN at hwide
  induction rounds generalizing got left b with
  | zero => omega
  | succ rounds ih =>
    by_cases hchunk : D.chunk ≤ left.length
    · -- a whole transfer, and the drive goes on
      have hq : min (len - got.length) D.chunk = D.chunk := by omega
      have hx : left.take D.chunk ≠ [] := by
        rw [← List.length_pos_iff, List.length_take]
        omega
      have hread := read_whole D hb (hq.le.trans hchunk)
      rw [hq, Drive.sent, if_neg (fun h => by rw [hend] at h; cases h.2)] at hread
      obtain ⟨new, hnew, hok, hmore⟩ := @ih (got ++ left.take D.chunk) (left.drop D.chunk)
        (b.move ⟨d, .sending tag (left.drop D.chunk) r⟩ [.read .Data (len - got.length) (left.take D.chunk)]) rfl
        (by rw [List.length_append, List.length_take, List.length_drop]; omega) (by rw [List.length_drop]; omega)
      have hdvd : D.chunk ∣ (left.drop D.chunk).length ↔ D.chunk ∣ left.length := by
        rw [List.length_drop, Nat.dvd_sub_iff_left hchunk (dvd_refl _)]
      have hcons := hnew.cons (len - got.length) (left.take D.chunk)
      rw [List.take_append_drop] at hcons
      refine ⟨.read .Data (len - got.length) (left.take D.chunk) :: new, hcons, fun h => ?_, fun h => ?_⟩
      · rw [data_in_more D.transport rounds (by omega) hread hx, hok (hdvd.mpr h), List.append_assoc,
          List.take_append_drop, Bus.move_move]
        rfl
      · obtain ⟨more, hrun⟩ := hmore (fun h' => h (hdvd.mp h'))
        refine ⟨more, ?_⟩
        rw [data_in_more D.transport rounds (by omega) hread hx, hrun, List.append_assoc, List.take_append_drop,
          Bus.move_move]
        rfl
    · -- the short packet
      have hread := read_short D hb (n := len - got.length) (by omega) (by rw [hend]; exact fun h => by cases h)
      by_cases hnil : left = []
      · subst hnil
        refine ⟨[.read .Data (len - got.length) []], by simpa using DataRead.nil.cons (len - got.length) [],
          fun _ => ?_, fun h => absurd (Nat.dvd_zero _) h⟩
        rw [data_in_none D.transport rounds (by omega) hread, List.append_nil]
      · have hpos := List.length_pos_iff.mpr hnil
        refine ⟨[.read .Data (len - got.length) left], by simpa using DataRead.nil.cons (len - got.length) left,
          fun h => ?_, fun _ => ?_⟩
        · exact absurd (Nat.le_of_dvd hpos h) hchunk
        · obtain ⟨more, rfl⟩ : ∃ more, rounds = more + 1 := ⟨rounds - 1, by omega⟩
          exact ⟨more, data_in_more D.transport _ (by omega) hread hnil⟩

theorem data_in_stall (hend : r.ending = .stall) {len : Nat} (rounds : Nat) (got : Bytes) {left : Bytes}
    {b : Bus (Link δ)}
    (hb : b.state = ⟨d, .sending tag left r⟩) (hlen : got.length + left.length < len) (hrounds : left.length < rounds) :
    ∃ q x, DataRead q x ∧ x <+: left ∧
      data_in D.transport len rounds got b = .error stalled (b.move ⟨d, .idle⟩ (q ++ [.reset])) := by
  have hwide := D.wide
  unfold CBW_LEN at hwide
  induction rounds generalizing got left b with
  | zero => omega
  | succ rounds ih =>
    by_cases hchunk : D.chunk ≤ left.length
    · have hq : min (len - got.length) D.chunk = D.chunk := by omega
      have hx : left.take D.chunk ≠ [] := by
        rw [← List.length_pos_iff, List.length_take]
        omega
      have hread := read_whole D hb (hq.le.trans hchunk)
      rw [hq, Drive.sent, if_neg (fun h => by rw [hend] at h; cases h.2)] at hread
      obtain ⟨q, x, hq', hpre, hrun⟩ := @ih (got ++ left.take D.chunk) (left.drop D.chunk)
        (b.move ⟨d, .sending tag (left.drop D.chunk) r⟩ [.read .Data (len - got.length) (left.take D.chunk)]) rfl
        (by rw [List.length_append, List.length_take, List.length_drop]; omega) (by rw [List.length_drop]; omega)
      refine ⟨_, _, hq'.cons (len - got.length) (left.take D.chunk), ?_, ?_⟩
      · obtain ⟨rest, hrest⟩ := hpre
        exact ⟨rest, by rw [List.append_assoc, hrest, List.take_append_drop]⟩
      · rw [data_in_more D.transport rounds (by omega) hread hx, hrun, Bus.move_move]
        rfl
    · have hread := read_stall D hb (n := len - got.length) (by omega) hend
      refine ⟨[.read_failed .Data (len - got.length) stalled], [], ⟨?_, rfl, rfl⟩, List.nil_prefix, ?_⟩
      · simp [Quiet, Event.isCommand]
      · rw [data_in_fails D.transport rounds (by omega) hread]
        rfl

/-! ## The data phase of a command that writes -/

/-- The record of a data phase that reads nothing. -/
def NoRead (new : List Event) : Prop := DataRead new []

theorem NoRead.wrote {new : List Event} (h : NoRead new) (data : Bytes) (n : Nat) :
    NoRead (.wrote .Data data n :: new) := by
  refine ⟨?_, h.data, h.status⟩
  exact (Quiet.single (e := .wrote .Data data n) (by simp [Event.isCommand])).append h.quiet

theorem data_out_more (t : BulkTransport σ) {b : Bus σ} {s : σ} {data : Bytes} (rounds : Nat) {transferred : Nat}
    (hmore : transferred < data.length) {n : { n : Nat // n ≤ (data.drop transferred).length }}
    (hwrite : t.write (data.drop transferred) b.state = .ok n s) (hn : n.1 ≠ 0) :
    data_out t data (rounds + 1) transferred b =
      data_out t data rounds (transferred + n.1) (b.move s [.wrote .Data (data.drop transferred) n.1]) := by
  rw [data_out, if_neg (by omega), Run.bind_eq_of_ok (recover_ok t (send_ok t .Data hwrite)), if_neg hn]

theorem data_out_full (t : BulkTransport σ) {b : Bus σ} {data : Bytes} (rounds : Nat) {transferred : Nat}
    (h : data.length ≤ transferred) : data_out t data rounds transferred b = .ok transferred b := by
  cases rounds with
  | zero => rfl
  | succ rounds =>
    rw [data_out, if_pos (by omega)]
    rfl

theorem write_taken {cbw : CommandBlockWrapper} {got data : Bytes} (hb : b.state = ⟨d, .receiving cbw got r⟩)
    (hroom : got.length + min data.length D.chunk ≤ r.room) :
    D.transport.write data b.state =
      .ok ⟨min data.length D.chunk, Nat.min_le_left _ _⟩ (D.took d cbw (got ++ data.take D.chunk) r) := by
  change D.write data b.state = _
  rw [hb]
  unfold Drive.write
  simp only
  rw [if_pos hroom]

theorem write_refused {cbw : CommandBlockWrapper} {got data : Bytes} (hb : b.state = ⟨d, .receiving cbw got r⟩)
    (hroom : ¬ got.length + min data.length D.chunk ≤ r.room) :
    D.transport.write data b.state = .error stalled ⟨D.finish d cbw got, .status true (r.csw cbw.tag)⟩ := by
  change D.write data b.state = _
  rw [hb]
  unfold Drive.write
  simp only
  rw [if_neg hroom]

theorem data_out_run {cbw : CommandBlockWrapper} {data : Bytes} (hcbw : cbw.data_transfer_length.toNat = data.length)
    (rounds transferred : Nat) {b : Bus (Link δ)}
    (hb : b.state = ⟨d, .receiving cbw (data.take transferred) r⟩) (hmore : transferred < data.length)
    (hrounds : data.length ≤ transferred + rounds) :
    (data.length ≤ r.room → ∃ new, NoRead new ∧ data_out D.transport data rounds transferred b =
      .ok data.length (b.move ⟨D.finish d cbw data, .status r.stalls_status (r.csw cbw.tag)⟩ new)) ∧
    (r.room < data.length → ∃ q d', NoRead q ∧ data_out D.transport data rounds transferred b =
      .error stalled (b.move ⟨d', .idle⟩ (q ++ [.reset]))) := by
  have hwide := D.wide
  unfold CBW_LEN at hwide
  induction rounds generalizing transferred b with
  | zero => omega
  | succ rounds ih =>
    have hgot : (data.take transferred).length = transferred := by
      rw [List.length_take]
      omega
    have hrest : (data.drop transferred).length = data.length - transferred := List.length_drop
    have hn : min (data.drop transferred).length D.chunk ≠ 0 := by omega
    by_cases hroom : (data.take transferred).length + min (data.drop transferred).length D.chunk ≤ r.room
    · have hstep := data_out_more D.transport rounds hmore (write_taken D hb hroom) hn
      have htake : data.take transferred ++ (data.drop transferred).take D.chunk =
          data.take (transferred + min (data.drop transferred).length D.chunk) := by
        rw [List.take_add, Nat.min_comm, ← List.take_take, List.take_length]
      rw [htake] at hstep
      by_cases hlast : transferred + min (data.drop transferred).length D.chunk < data.length
      · have hlen : (data.take (transferred + min (data.drop transferred).length D.chunk)).length =
            transferred + min (data.drop transferred).length D.chunk := by
          rw [List.length_take]
          omega
        rw [Drive.took, if_pos (by rw [hlen, hcbw]; exact hlast)] at hstep
        obtain ⟨hall, hstall⟩ := @ih (transferred + min (data.drop transferred).length D.chunk)
          (b.move ⟨d, .receiving cbw (data.take (transferred + min (data.drop transferred).length D.chunk)) r⟩
            [.wrote .Data (data.drop transferred) (min (data.drop transferred).length D.chunk)]) rfl hlast (by omega)
        refine ⟨fun h => ?_, fun h => ?_⟩
        · obtain ⟨new, hnew, hrun⟩ := hall h
          refine ⟨_, hnew.wrote (data.drop transferred) (min (data.drop transferred).length D.chunk), ?_⟩
          rw [hstep, hrun, Bus.move_move]
          rfl
        · obtain ⟨q, d', hq, hrun⟩ := hstall h
          refine ⟨_, d', hq.wrote (data.drop transferred) (min (data.drop transferred).length D.chunk), ?_⟩
          rw [hstep, hrun, Bus.move_move]
          rfl
      · have hend : transferred + min (data.drop transferred).length D.chunk = data.length := by omega
        rw [Drive.took, hend, List.take_length, if_neg (by omega), data_out_full D.transport rounds le_rfl] at hstep
        refine ⟨fun _ => ⟨_, ?_, hstep⟩, fun h => ?_⟩
        · exact NoRead.wrote DataRead.nil _ _
        · omega
    · refine ⟨fun h => ?_, fun _ => ?_⟩
      · omega
      · refine ⟨[.write_failed .Data (data.drop transferred) stalled], D.finish d cbw (data.take transferred),
          ⟨?_, rfl, rfl⟩, ?_⟩
        · simp [Quiet, Event.isCommand]
        · rw [data_out, if_neg (by omega), Run.bind_eq_of_error (recover_error D.transport
            (send_error D.transport .Data (write_refused D hb hroom))), Bus.move_move]
          rfl

/-! ## Reading on into the status -/

/-- The bytes of the status are taken as data, unless the pipe is stalled or they do not fit. -/
theorem data_in_past {stalls : Bool} (hb : b.state = ⟨d, .status stalls (r.csw tag)⟩) {len : Nat} (rounds : Nat)
    {got : Bytes} (hmore : got.length < len) :
    (stalls = true ∨ len < got.length + CSW_LEN → ∃ e, data_in D.transport len (rounds + 1) got b =
      .error e (b.move ⟨d, .idle⟩ [.read_failed .Data (len - got.length) e, .reset])) ∧
    (¬ (stalls = true ∨ len < got.length + CSW_LEN) → data_in D.transport len (rounds + 1) got b =
      data_in D.transport len rounds (got ++ r.csw tag)
        (b.move ⟨d, .idle⟩ [.read .Data (len - got.length) (r.csw tag)])) := by
  have hlen := length_csw r tag
  cases stalls with
  | true =>
    refine ⟨fun _ => ⟨stalled, ?_⟩, fun h => absurd (.inl rfl) h⟩
    have hread : D.transport.read (len - got.length) b.state = .error stalled ⟨d, .status true (r.csw tag)⟩ := by
      change D.read _ b.state = _
      rw [hb]
      rfl
    rw [data_in_fails D.transport rounds hmore hread]
    rfl
  | false =>
    by_cases hfits : len < got.length + CSW_LEN
    · refine ⟨fun _ => ⟨overflow, ?_⟩, fun h => absurd (.inr hfits) h⟩
      have hread : D.transport.read (len - got.length) b.state = .error overflow ⟨d, .idle⟩ := by
        change D.read _ b.state = _
        rw [hb]
        unfold Drive.read
        simp only
        rw [dif_neg (by rw [hlen]; omega)]
      rw [data_in_fails D.transport rounds hmore hread]
      rfl
    · refine ⟨fun h => ?_, fun _ => ?_⟩
      · rcases h with h | h
        · cases h
        · exact absurd h hfits
      · refine data_in_more D.transport rounds hmore (read_status D hb (by omega)) ?_
        rw [← List.length_pos_iff, hlen]
        decide

/-! ## The whole exchange -/

/-- The bus when a command has been announced. -/
def Bus.begun (b : Bus σ) (opcode : UInt8) (data_len : Nat) (dir : Direction) : Bus σ :=
  { b with tag := b.tag + 1, log := b.log ++ [.command opcode b.tag data_len dir] }

/-- The command as the drive sees it. -/
def seenCbw (tag : UInt32) (cdb : Bytes) (direction : Direction) (data : Bytes) : CommandBlockWrapper :=
  { CommandBlockWrapper.new tag (UInt32.ofNat data.length) direction cdb with
    direction := direction.seen data.length }

section

variable {cdb : Bytes} (hpos : 0 < cdb.length) (hmax : cdb.length ≤ MAX_CDB_LEN) (direction : Direction) {data : Bytes}
  (phase_error : String) (ask_why : BusM (Link δ) (Option Sense))

include hpos hmax

theorem encode_new (data : Bytes) (tag : UInt32) :
    ∃ enc, (CommandBlockWrapper.new tag (UInt32.ofNat data.length) direction cdb).encode = .ok enc := by
  unfold CommandBlockWrapper.encode
  rw [if_neg]
  · exact ⟨_, rfl⟩
  · rw [not_or, List.isEmpty_iff, not_lt]
    exact ⟨List.length_pos_iff.mp hpos, hmax⟩

theorem exchange_start (hb : b.state = ⟨d, .idle⟩) (hlen : data.length < 2 ^ 32) :
    ∃ enc, (CommandBlockWrapper.new b.tag (UInt32.ofNat data.length) direction cdb).encode = .ok enc ∧
      exchange D.transport cdb direction data phase_error ask_why b =
        (data_phase D.transport direction data >>= fun out => status_phase D.transport b.tag >>= fun csw =>
          judge D.transport (cdb.getD 0 0) direction phase_error ask_why out csw)
          ((b.begun (cdb.getD 0 0) data.length direction).move (D.start d (seenCbw b.tag cdb direction data))
            [.wrote .Command enc enc.length]) := by
  obtain ⟨enc, henc⟩ := encode_new hpos hmax direction data b.tag
  refine ⟨enc, henc, ?_⟩
  have hbegin : begin_command (cdb.getD 0 0) data.length direction b =
      .ok b.tag (b.begun (cdb.getD 0 0) data.length direction) := rfl
  have hsend := send_cbw_run D (b := b.begun (cdb.getD 0 0) data.length direction) hb rfl henc
  have hnat : (UInt32.ofNat data.length).toNat = data.length := by
    rw [UInt32.toNat_ofNat', Nat.mod_eq_of_lt hlen]
  unfold exchange
  rw [Run.bind_eq_of_ok hbegin, Run.bind_eq_of_ok hsend]
  simp only [CommandBlockWrapper.new, seenCbw, hnat]

end

end LuksAndroid.Usb

import LuksAndroid.Usb.Steps

/-!
# Commands on a drive that follows the rules

When a command returns what the drive processed. The residue is looked at for writes
only, and a data phase that ends with a short packet is not recognised as over.
-/

namespace LuksAndroid.Usb

open Trace

variable {σ δ : Type}

namespace Call

def cdb : Call → Cdb
  | .inner cdb _ _ _ => cdb
  | .out cdb _ _ => cdb

def direction : Call → Direction
  | .inner _ direction _ _ => direction
  | .out _ _ _ => .Out

def data : Call → Bytes
  | .inner _ _ data _ => data
  | .out _ data _ => data

/-- What the call returns, and its buffer afterwards. -/
def run (t : BulkTransport σ) : Call → BusM σ (Nat × Bytes)
  | .inner cdb direction data ask_why => command_inner t cdb.bytes direction data ask_why
  | .out cdb data ask_why => do
    let n ← command_out_inner t cdb.bytes data ask_why
    return (n, data)

/-- What a drive does with the call. -/
def response (D : Drive δ) (d : δ) (tag : UInt32) (call : Call) : Response :=
  D.answer d (seenCbw tag call.cdb.bytes call.direction call.data)

/-- The bytes that the drive and the caller talk about. -/
def payload (call : Call) (r : Response) : Bytes := if call.direction = .In then r.data else call.data

/-- What was received as data until the next command. -/
def taken (t : BulkTransport σ) (call : Call) (b : Bus σ) : Bytes :=
  (((segments ((final (call.run t b)).log.drop b.log.length)).head?).map fun x => received .Data x.events).getD []

/-- `Ok(n)` means that the drive passed the command and processed `n` bytes, which are in the buffer. No
byte of the status is taken as data. -/
structure Conforms (t : BulkTransport σ) (call : Call) (b : Bus σ) (r : Response) : Prop where
  result : ∀ n buf b', call.run t b = .ok (n, buf) b' →
    r.status = .Passed ∧ n = call.data.length - r.residue.toNat ∧ buf.take n = (call.payload r).take n
  data : call.taken t b <+: r.data

end Call

/-- The responses that the code copes with. A drive that ends the data early has to do so where a
transfer ends, so that the next one is empty, or to stall the pipe before the status, or to leave
less room than the status takes. -/
def Response.Served (r : Response) (chunk : Nat) (direction : Direction) (len : Nat) : Prop :=
  direction = .In → 0 < len →
    (r.ending = .stall) ∨
    (r.ending = .complete ∧ (r.status = .Passed → r.residue = 0)) ∨
    (r.ending = .short ∧ chunk ∣ r.data.length ∧ (r.status = .Passed → r.residue.toNat = len - r.data.length)) ∨
    (r.ending = .short ∧ ¬ chunk ∣ r.data.length ∧ (r.stalls_status = true ∨ len < r.data.length + CSW_LEN))

/-! ## What is left in the record -/

/-- The call announced itself, received `data` as data and ended like this. -/
structure Ran (b : Bus σ) (tag : UInt32) (data : Bytes) (b' : Bus σ) : Prop where
  log : ∃ op len dir l rest, b'.log = b.log ++ (.command op tag len dir :: (l ++ rest)) ∧ Plain l ∧ StartsAfresh rest ∧
    received .Data l = data

theorem Ran.taken {t : BulkTransport σ} {call : Call} {b : Bus σ} {tag : UInt32} {data : Bytes}
    (h : Ran b tag data (final (call.run t b))) : call.taken t b = data := by
  obtain ⟨op, len, dir, l, rest, hlog, hl, hrest, hdata⟩ := h.log
  rw [Call.taken, hlog, List.drop_left, segments_command op tag len dir hl hrest]
  exact hdata

theorem Call.run_eq (t : BulkTransport σ) (call : Call) (b : Bus σ) :
    ∃ phase_error ask_why, Records Bus.log ask_why (fun _ new => Exchanges new) ∧
      final (call.run t b) = final (exchange t call.cdb.bytes call.direction call.data phase_error ask_why b) ∧
      (∀ n buf b', exchange t call.cdb.bytes call.direction call.data phase_error ask_why b = .ok (n, buf) b' →
        (call.direction = .Out → buf = call.data) → call.run t b = .ok (n, buf) b') ∧
      ∀ e b', exchange t call.cdb.bytes call.direction call.data phase_error ask_why b = .error e b' →
        call.run t b = .error e b' := by
  cases call with
  | inner cdb direction data ask_why =>
    exact ⟨_, _, sense_if_records t ask_why, rfl, fun _ _ _ h _ => h, fun _ _ h => h⟩
  | out cdb data ask_why =>
    refine ⟨"CSW phase error", sense_if t ask_why, sense_if_records t ask_why, ?_, ?_, ?_⟩
    · simp only [Call.run, command_out_inner, bind, EStateM.bind, Call.cdb, Call.direction, Call.data]
      cases exchange t cdb.bytes .Out data "CSW phase error" (sense_if t ask_why) b with
      | ok out b' => rfl
      | error e b' => rfl
    · intro n buf b' h hbuf
      simp only [Call.cdb, Call.direction, Call.data] at h hbuf
      simp only [Call.run, command_out_inner, bind, EStateM.bind, h, hbuf]
      rfl
    · intro e b' h
      simp only [Call.cdb, Call.direction, Call.data] at h
      simp only [Call.run, command_out_inner, bind, EStateM.bind, h]

/-! ## The end of an exchange -/

/-- Whatever the status says, nothing more is received as data. -/
theorem judge_ran (t : BulkTransport σ) {opcode op : UInt8} {direction dir : Direction} {phase_error : String}
    {ask_why : BusM σ (Option Sense)} (hwhy : Records Bus.log ask_why fun _ new => Exchanges new) {out : Nat × Bytes}
    {csw : CommandStatusWrapper} {b b₁ : Bus σ} {tag : UInt32} {len : Nat} {l : List Event}
    (hlog : b₁.log = b.log ++ (.command op tag len dir :: l)) (hl : Plain l) :
    Ran b tag (received .Data l) (final (judge t opcode direction phase_error ask_why out csw b₁)) := by
  unfold judge
  cases csw.status with
  | Passed =>
    dsimp only
    split
    · exact ⟨op, len, dir, l, [], by rw [List.append_nil]; exact hlog, hl, Exchanges.nil.afresh, rfl⟩
    · exact ⟨op, len, dir, l, [], by rw [List.append_nil]; exact hlog, hl, Exchanges.nil.afresh, rfl⟩
  | Failed =>
    obtain ⟨rest, hrest, hex⟩ := hwhy b₁
    have hfinal : (final ((ask_why >>= fun sense => throw (.ScsiCommandFailed opcode sense) :
      BusM σ (Nat × Bytes)) b₁)).log =
        b₁.log ++ rest := by
      rw [← hrest]
      simp only [bind, EStateM.bind]
      cases ask_why b₁ with
      | ok sense b' => rfl
      | error e b' => rfl
    refine ⟨op, len, dir, l, rest, ?_, hl, hex.afresh, rfl⟩
    rw [hfinal, hlog]
    simp
  | PhaseError =>
    refine ⟨op, len, dir, l ++ [.reset], [], ?_, hl.append .reset, Exchanges.nil.afresh, ?_⟩
    · change b₁.log ++ [.reset] = _
      rw [hlog]
      simp
    · rw [received_append]
      simp [received]

theorem judge_passed (t : BulkTransport σ) {opcode : UInt8} {direction : Direction} {phase_error : String}
    {ask_why : BusM σ (Option Sense)} {out : Nat × Bytes} {csw : CommandStatusWrapper} {b : Bus σ}
    (hpassed : csw.status = .Passed) (hres : ¬ (direction = .Out ∧ csw.data_residue ≠ 0)) :
    judge t opcode direction phase_error ask_why out csw b = .ok out b := by
  unfold judge
  rw [hpassed]
  dsimp only
  rw [if_neg hres]
  rfl

theorem judge_refused (t : BulkTransport σ) {opcode : UInt8} {direction : Direction} {phase_error : String}
    {ask_why : BusM σ (Option Sense)} {out : Nat × Bytes} {csw : CommandStatusWrapper} {b : Bus σ}
    (h : csw.status ≠ .Passed ∨ direction = .Out ∧ csw.data_residue ≠ 0) :
    ∃ e b', judge t opcode direction phase_error ask_why out csw b = .error e b' := by
  unfold judge
  cases hst : csw.status with
  | Passed =>
    have hres : direction = .Out ∧ csw.data_residue ≠ 0 := h.resolve_left (fun hne => hne hst)
    dsimp only
    rw [if_pos hres]
    exact ⟨_, _, rfl⟩
  | Failed =>
    simp only [bind, EStateM.bind]
    cases ask_why b with
    | ok sense b' => exact ⟨_, _, rfl⟩
    | error e b' => exact ⟨_, _, rfl⟩
  | PhaseError => exact ⟨_, _, rfl⟩

/-! ## What follows the data phase -/

/-- What an exchange does once the command is out. -/
def afterCbw (t : BulkTransport σ) (tag : UInt32) (opcode : UInt8) (direction : Direction) (data : Bytes)
    (phase_error : String) (ask_why : BusM σ (Option Sense)) : BusM σ (Nat × Bytes) := do
  let out ← data_phase t direction data
  let csw ← status_phase t tag
  judge t opcode direction phase_error ask_why out csw

section

variable (D : Drive δ) (phase_error : String) {ask_why : BusM (Link δ) (Option Sense)} {d : δ} {r : Response}
  {tag : UInt32} {opcode : UInt8} {direction : Direction} {data : Bytes}
  (hwhy : Records Bus.log ask_why fun _ new => Exchanges new) {b b₁ : Bus (Link δ)} {l : List Event}
  (hlog : b₁.log = b.log ++ (.command opcode tag data.length direction :: l)) (hl : Plain l) (hnone :
    received .Data l = [])

include hlog hl hnone

theorem afterCbw_failed (ask_why : BusM (Link δ) (Option Sense)) {e : LuksError} {s : Link δ} {q : List Event}
    {x : Bytes} (hq : DataRead q x)
    (hdata : data_phase D.transport direction data b₁ = .error e (b₁.move s (q ++ [.reset]))) :
    Ran b tag x (final (afterCbw D.transport tag opcode direction data phase_error ask_why b₁)) ∧
      ∃ b', afterCbw D.transport tag opcode direction data phase_error ask_why b₁ = .error e b' := by
  have hrun : afterCbw D.transport tag opcode direction data phase_error ask_why b₁ =
      .error e (b₁.move s (q ++ [.reset])) := Run.bind_eq_of_error hdata _
  refine ⟨⟨opcode, data.length, direction, l ++ q ++ [.reset], [], ?_, ?_, Exchanges.nil.afresh, ?_⟩, _, hrun⟩
  · rw [hrun]
    change b₁.log ++ (q ++ [.reset]) = _
    rw [hlog]
    simp
  · exact (hl.append hq.quiet.plain).append .reset
  · rw [received_append, received_append, hnone, hq.data]
    simp [received]

include hwhy

theorem afterCbw_status {out : Nat × Bytes} {stalls : Bool} {new : List Event} {x : Bytes} (hnew : DataRead new x)
    (hdata : data_phase D.transport direction data b₁ = .ok out (b₁.move ⟨d, .status stalls (r.csw tag)⟩ new)) :
    Ran b tag x (final (afterCbw D.transport tag opcode direction data phase_error ask_why b₁)) ∧
      (r.status = .Passed ∧ ¬ (direction = .Out ∧ r.residue ≠ 0) →
        ∃ b', afterCbw D.transport tag opcode direction data phase_error ask_why b₁ = .ok out b') ∧
      (¬ (r.status = .Passed ∧ ¬ (direction = .Out ∧ r.residue ≠ 0)) →
        ∃ e b', afterCbw D.transport tag opcode direction data phase_error ask_why b₁ = .error e b') := by
  obtain ⟨more, hstatus, hmore, hmoredata⟩ := status_phase_run D (b := b₁.move ⟨d, .status stalls (r.csw tag)⟩ new) rfl
  have hrun : afterCbw D.transport tag opcode direction data phase_error ask_why b₁ =
      judge D.transport opcode direction phase_error ask_why out ⟨tag, r.residue, r.status⟩
        (b₁.move ⟨d, .idle⟩ (new ++ more)) := by
    unfold afterCbw
    rw [Run.bind_eq_of_ok hdata, Run.bind_eq_of_ok hstatus, Bus.move_move]
  rw [hrun]
  refine ⟨?_, fun h => ⟨_, judge_passed D.transport h.1 h.2⟩, fun h => ?_⟩
  · have hlog' : (b₁.move ⟨d, .idle⟩ (new ++ more)).log =
        b.log ++ (.command opcode tag data.length direction :: (l ++ (new ++ more))) := by
      rw [Bus.move_log, hlog]
      simp
    have hdata' : received .Data (l ++ (new ++ more)) = x := by
      rw [received_append, received_append, hnone, hnew.data, hmoredata, List.append_nil, List.nil_append]
    rw [← hdata']
    exact judge_ran D.transport hwhy hlog' (hl.append (hnew.quiet.append hmore).plain)
  · refine judge_refused D.transport ?_
    by_cases hpassed : r.status = .Passed
    · exact .inr (not_not.mp fun hres => h ⟨hpassed, hres⟩)
    · exact .inl hpassed

end

/-! ## Reading on -/

/-- A part of this exchange, and whole ones after it. -/
def Splits (new : List Event) : Prop := ∃ l rest, new = l ++ rest ∧ Plain l ∧ StartsAfresh rest

theorem Plain.splits {l : List Event} (h : Plain l) : Splits l :=
  ⟨l, [], (List.append_nil l).symm, h, Exchanges.nil.afresh⟩

theorem Splits.prepend {a new : List Event} (ha : Plain a) (h : Splits new) : Splits (a ++ new) := by
  obtain ⟨l, rest, rfl, hl, hrest⟩ := h
  exact ⟨a ++ l, rest, (List.append_assoc _ _ _).symm, ha.append hl, hrest⟩

theorem Ended.plain {ok : Prop} {new : List Event} (h : Ended ok new) : Plain new := by
  obtain ⟨q, hq, -, ⟨-, rfl⟩ | ⟨-, rfl⟩⟩ := h
  · exact hq.plain
  · exact hq.plain.append .reset

theorem status_phase_plain (t : BulkTransport σ) (tag : UInt32) :
    Records Bus.log (status_phase t tag) fun _ new => Plain new := by
  unfold status_phase
  refine (read_csw_records t _ false [] (by simp) (by simp)).bind ?_ ?_
  · rintro e new (⟨b, h, -⟩ | ⟨e', q, -, hq, -, rfl | ⟨rfl, -⟩⟩)
    · cases h
    · exact hq.plain.append .reset
    · exact hq.plain
  · rintro b new (⟨b', -, hq, -⟩ | ⟨e', q, h, -⟩)
    · cases CommandStatusWrapper.decode b with
      | error e =>
        refine .throw ?_
        rw [List.append_nil]
        exact hq.plain
      | ok csw =>
        refine Records.bind (Q := fun r more => r = .ok csw ∧ more = []) (.pure ⟨rfl, rfl⟩) ?_ ?_
        · rintro e more ⟨h, -⟩
          cases h
        · rintro csw' more ⟨-, rfl⟩
          refine .ite (fun _ => .throw ?_) fun _ => .pure ?_
          · simpa only [List.append_nil] using hq.plain
          · simpa only [List.append_nil] using hq.plain
    · cases h

theorem judge_splits (t : BulkTransport σ) (opcode : UInt8) (direction : Direction) (phase_error : String)
    {ask_why : BusM σ (Option Sense)} (hwhy : Records Bus.log ask_why fun _ new => Exchanges new) (out : Nat × Bytes)
    (csw : CommandStatusWrapper) :
    Records Bus.log (judge t opcode direction phase_error ask_why out csw) fun _ new => Splits new := by
  have hnil : Splits [] := Quiet.nil.plain.splits
  unfold judge
  cases csw.status with
  | Passed => exact .ite (fun _ => .throw hnil) fun _ => .pure hnil
  | Failed =>
    refine hwhy.bind (fun _ new h => ⟨[], new, rfl, Quiet.nil.plain, h.afresh⟩) fun _ new h => .throw ?_
    exact ⟨[], new, List.append_nil new, Quiet.nil.plain, h.afresh⟩
  | PhaseError =>
    refine (reset_throw_records t _).mono ?_
    rintro r new ⟨-, rfl⟩
    exact Plain.reset.splits

theorem data_in_splits (t : BulkTransport σ) (len rounds : Nat) (got : Bytes) (tag : UInt32) (opcode : UInt8)
    (direction : Direction) (data : Bytes) (phase_error : String) {ask_why : BusM σ (Option Sense)}
    (hwhy : Records Bus.log ask_why fun _ new => Exchanges new) :
    Records Bus.log ((data_in t len rounds got >>= fun got => pure (got.length, Bytes.put data 0 got)) >>= fun out =>
      status_phase t tag >>= fun csw => judge t opcode direction phase_error ask_why out csw) fun _ new =>
        Splits new := by
  refine (Ended.bind_pure _ (data_in_records t len rounds got)).bind (fun _ _ h => h.plain.splits) fun out new h => ?_
  refine (status_phase_plain t tag).bind (fun _ more hmore => .prepend h.plain hmore.splits) fun csw more hmore => ?_
  refine (judge_splits t opcode direction phase_error hwhy out csw).mono fun _ rest hrest => ?_
  exact .prepend h.plain (.prepend hmore hrest)

/-! ## One call -/

section

variable {t : BulkTransport σ} {call : Call} {b : Bus σ} {r : Response} {tag : UInt32} {x : Bytes}

theorem conforms_of_ok {n : Nat} {buf : Bytes} {b' : Bus σ} (hran : Ran b tag x (final (call.run t b)))
    (hrun : call.run t b = .ok (n, buf) b') :
    call.Conforms t b r ↔ (r.status = .Passed ∧ n = call.data.length - r.residue.toNat ∧
      buf.take n = (call.payload r).take n) ∧ x <+: r.data := by
  constructor
  · rintro ⟨hresult, hdata⟩
    rw [hran.taken] at hdata
    exact ⟨hresult n buf b' hrun, hdata⟩
  · rintro ⟨hresult, hdata⟩
    refine ⟨fun n' buf' b'' h => ?_, by rwa [hran.taken]⟩
    rw [hrun] at h
    cases h
    exact hresult

theorem conforms_of_error {e : LuksError} {b' : Bus σ} (hran : Ran b tag x (final (call.run t b)))
    (hrun : call.run t b = .error e b') : call.Conforms t b r ↔ x <+: r.data := by
  constructor
  · rintro ⟨-, hdata⟩
    rwa [hran.taken] at hdata
  · intro hdata
    refine ⟨fun n' buf' b'' h => ?_, by rwa [hran.taken]⟩
    rw [hrun] at h
    cases h

end

section

variable (D : Drive δ) {d : δ} {b b₁ : Bus (Link δ)} {call : Call} {r : Response} {phase_error : String}
  {ask_why : BusM (Link δ) (Option Sense)}

/-- The call is what an exchange does after its CBW, from `b₁` on. -/
structure Call.From (D : Drive δ) (call : Call) (b b₁ : Bus (Link δ)) (phase_error : String)
    (ask_why : BusM (Link δ) (Option Sense)) : Prop where
  records : Records Bus.log ask_why fun _ new => Exchanges new
  final : final (call.run D.transport b) = final (afterCbw D.transport b.tag (call.cdb.bytes.getD 0 0) call.direction
    call.data phase_error ask_why b₁)
  ok : ∀ n buf b', afterCbw D.transport b.tag
    (call.cdb.bytes.getD 0 0) call.direction call.data phase_error ask_why b₁ =
    .ok (n, buf) b' → (call.direction = .Out → buf = call.data) → call.run D.transport b = .ok (n, buf) b'
  error : ∀ e b', afterCbw D.transport b.tag (call.cdb.bytes.getD 0 0) call.direction call.data phase_error ask_why b₁ =
    .error e b' → call.run D.transport b = .error e b'
  log : ∃ l, b₁.log = b.log ++ (.command (call.cdb.bytes.getD 0 0) b.tag call.data.length call.direction :: l) ∧
    Plain l ∧
    received .Data l = []

theorem Call.from_idle (hb : b.state = ⟨d, .idle⟩) (hlen : call.data.length < 2 ^ 32) :
    ∃ b₁ phase_error ask_why, call.From D b b₁ phase_error ask_why ∧
      b₁.state = D.start d (seenCbw b.tag call.cdb.bytes call.direction call.data) := by
  obtain ⟨phase_error, ask_why, hwhy, hfinal, hok, herror⟩ := call.run_eq D.transport b
  obtain ⟨enc, -, hex⟩ := exchange_start D call.cdb.pos call.cdb.fits call.direction phase_error ask_why hb hlen
  rw [hex] at hfinal hok herror
  refine ⟨_, phase_error, ask_why, ⟨hwhy, hfinal, hok, herror, [.wrote .Command enc enc.length], ?_, ?_, rfl⟩, rfl⟩
  · simp [Bus.begun]
  · simp [Plain, Event.isCommand]

theorem conforms_of_data_error (h : call.From D b b₁ phase_error ask_why) {e : LuksError} {s : Link δ} {q : List Event}
    {x : Bytes} (hq : DataRead q x)
    (hdata : data_phase D.transport call.direction call.data b₁ = .error e (b₁.move s (q ++ [.reset]))) :
    call.Conforms D.transport b r ↔ x <+: r.data := by
  obtain ⟨l, hlog, hl, hnone⟩ := h.log
  obtain ⟨hran, b', hrun⟩ := afterCbw_failed D phase_error hlog hl hnone ask_why hq hdata
  rw [← h.final] at hran
  exact conforms_of_error hran (h.error e b' hrun)

theorem conforms_of_status (h : call.From D b b₁ phase_error ask_why) {n : Nat} {buf : Bytes} {stalls : Bool}
    {new : List Event} {x : Bytes} (hnew : DataRead new x) (hbuf : call.direction = .Out → buf = call.data)
    (hdata : data_phase D.transport call.direction call.data b₁ =
      .ok (n, buf) (b₁.move ⟨d, .status stalls (r.csw b.tag)⟩ new)) (hx : x <+: r.data) :
    call.Conforms D.transport b r ↔ (r.status = .Passed ∧ ¬ (call.direction = .Out ∧ r.residue ≠ 0) →
      n = call.data.length - r.residue.toNat ∧ buf.take n = (call.payload r).take n) := by
  obtain ⟨l, hlog, hl, hnone⟩ := h.log
  obtain ⟨hran, hpassed, hrefused⟩ := afterCbw_status D phase_error h.records hlog hl hnone hnew hdata
  rw [← h.final] at hran
  by_cases hst : r.status = .Passed ∧ ¬ (call.direction = .Out ∧ r.residue ≠ 0)
  · obtain ⟨b', hrun⟩ := hpassed hst
    rw [conforms_of_ok hran (h.ok n buf b' hrun hbuf)]
    exact ⟨fun hc _ => hc.1.2, fun hc => ⟨⟨hst.1, hc hst⟩, hx⟩⟩
  · obtain ⟨e, b', hrun⟩ := hrefused hst
    rw [conforms_of_error hran (h.error e b' hrun)]
    exact ⟨fun _ hc => absurd hc hst, fun _ => hx⟩

theorem put_all {data got : Bytes} : (Bytes.put data 0 got).take got.length = got := by
  simp [Bytes.put]

theorem conforms_without_data (h : call.From D b b₁ phase_error ask_why) (hdata : call.data = [])
    (hb : b₁.state = ⟨d, .status r.stalls_status (r.csw b.tag)⟩) : call.Conforms D.transport b r := by
  have hsame : b₁ = b₁.move ⟨d, .status r.stalls_status (r.csw b.tag)⟩ [] := by
    rw [← hb]
    simp [Bus.move]
  have hrun : data_phase D.transport call.direction call.data b₁ =
      .ok (0, []) (b₁.move ⟨d, .status r.stalls_status (r.csw b.tag)⟩ []) := by
    rw [← hsame, hdata]
    cases call.direction with
    | In => rfl
    | Out => rfl
    | None => rfl
  rw [conforms_of_status D h DataRead.nil (fun _ => hdata.symm) hrun List.nil_prefix]
  intro _
  rw [hdata]
  exact ⟨(Nat.zero_sub _).symm, rfl⟩

theorem conforms_out (h : call.From D b b₁ phase_error ask_why) (hdir : call.direction = .Out)
    (hpos : 0 < call.data.length) {cbw : CommandBlockWrapper} (hcbw : cbw.data_transfer_length.toNat = call.data.length)
    (htag : cbw.tag = b.tag) (hb : b₁.state = ⟨d, .receiving cbw [] r⟩) : call.Conforms D.transport b r := by
  obtain ⟨hall, hstall⟩ := data_out_run D hcbw call.data.length 0 hb hpos (by omega)
  rcases Nat.lt_or_ge r.room call.data.length with hroom | hroom
  · obtain ⟨q, d', hq, hrun⟩ := hstall hroom
    have hphase : data_phase D.transport call.direction call.data b₁ =
        .error stalled (b₁.move ⟨d', .idle⟩ (q ++ [.reset])) := by
      rw [hdir]
      exact Run.bind_eq_of_error hrun _
    rw [conforms_of_data_error D h hq hphase]
    exact List.nil_prefix
  · obtain ⟨new, hnew, hrun⟩ := hall hroom
    rw [htag] at hrun
    have hphase : data_phase D.transport call.direction call.data b₁ = .ok (call.data.length, call.data)
        (b₁.move ⟨D.finish d cbw call.data, .status r.stalls_status (r.csw b.tag)⟩ new) := by
      rw [hdir]
      exact Run.bind_eq_of_ok hrun _
    rw [conforms_of_status D h hnew (fun _ => rfl) hphase List.nil_prefix]
    rintro ⟨-, hres⟩
    have hzero : r.residue = 0 := by
      by_contra hne
      exact hres ⟨hdir, hne⟩
    rw [hzero, Call.payload, hdir]
    exact ⟨rfl, rfl⟩

theorem conforms_complete (h : call.From D b b₁ phase_error ask_why) (hdir : call.direction = .In)
    (hpos : 0 < call.data.length) (hend : r.ending = .complete) (hlen : r.data.length = call.data.length)
    (hres : r.residue.toNat ≤ call.data.length) (hb : b₁.state = ⟨d, .sending b.tag r.data r⟩) :
    call.Conforms D.transport b r ↔ (r.status = .Passed → r.residue = 0) := by
  obtain ⟨new, hrun, hnew⟩ := data_in_complete D hend call.data.length [] hb (by simpa using hlen)
    (by omega) hlen.le
  rw [List.nil_append] at hrun
  have hphase : data_phase D.transport call.direction call.data b₁ =
      .ok (r.data.length, Bytes.put call.data 0 r.data) (b₁.move ⟨d, .status r.stalls_status (r.csw b.tag)⟩ new) := by
    rw [hdir]
    exact Run.bind_eq_of_ok hrun _
  have hout : ¬ (call.direction = .Out ∧ r.residue ≠ 0) := by
    rw [hdir]
    rintro ⟨hcase, -⟩
    cases hcase
  rw [conforms_of_status D h hnew (fun hcase => by rw [hdir] at hcase; cases hcase) hphase List.prefix_rfl]
  constructor
  · intro hc hpassed
    have hn := (hc ⟨hpassed, hout⟩).1
    apply UInt32.toNat_inj.mp
    change r.residue.toNat = 0
    omega
  · rintro hc ⟨hpassed, -⟩
    rw [hc hpassed, Call.payload, hdir, if_pos rfl, put_all, List.take_length]
    exact ⟨hlen, rfl⟩

theorem conforms_stall (h : call.From D b b₁ phase_error ask_why) (hdir : call.direction = .In)
    (hend : r.ending = .stall)
    (hlen : r.data.length < call.data.length) (hb : b₁.state = ⟨d, .sending b.tag r.data r⟩) :
    call.Conforms D.transport b r := by
  obtain ⟨q, x, hq, hx, hrun⟩ := data_in_stall D hend call.data.length [] hb (by simpa using hlen) hlen
  have hphase : data_phase D.transport call.direction call.data b₁ =
      .error stalled (b₁.move ⟨d, .idle⟩ (q ++ [.reset])) := by
    rw [hdir]
    exact Run.bind_eq_of_error hrun _
  rw [conforms_of_data_error D h hq hphase]
  exact hx

theorem conforms_short (h : call.From D b b₁ phase_error ask_why) (hdir : call.direction = .In)
    (hend : r.ending = .short)
    (hlen : r.data.length < call.data.length) (hres : r.residue.toNat ≤ call.data.length)
    (hdvd : D.chunk ∣ r.data.length) (hb : b₁.state = ⟨d, .sending b.tag r.data r⟩) :
    call.Conforms D.transport b r ↔ (r.status = .Passed → r.residue.toNat = call.data.length - r.data.length) := by
  obtain ⟨new, hnew, hrun, -⟩ := data_in_short D hend call.data.length [] hb (by simpa using hlen) hlen
  have hphase : data_phase D.transport call.direction call.data b₁ =
      .ok (r.data.length, Bytes.put call.data 0 r.data) (b₁.move ⟨d, .status r.stalls_status (r.csw b.tag)⟩ new) := by
    rw [hdir]
    exact Run.bind_eq_of_ok (hrun hdvd) _
  have hout : ¬ (call.direction = .Out ∧ r.residue ≠ 0) := by
    rw [hdir]
    rintro ⟨hcase, -⟩
    cases hcase
  rw [conforms_of_status D h hnew (fun hcase => by rw [hdir] at hcase; cases hcase) hphase List.prefix_rfl]
  constructor
  · intro hc hpassed
    have hn := (hc ⟨hpassed, hout⟩).1
    omega
  · rintro hc ⟨hpassed, -⟩
    rw [hc hpassed, Call.payload, hdir, if_pos rfl, put_all, List.take_length]
    exact ⟨by omega, rfl⟩

theorem conforms_cut (h : call.From D b b₁ phase_error ask_why) (hdir : call.direction = .In) (hend : r.ending = .short)
    (hlen : r.data.length < call.data.length) (hdvd : ¬ D.chunk ∣ r.data.length)
    (hb : b₁.state = ⟨d, .sending b.tag r.data r⟩) :
    call.Conforms D.transport b r ↔ (r.stalls_status = true ∨ call.data.length < r.data.length + CSW_LEN) := by
  obtain ⟨new, hnew, -, hmore⟩ := data_in_short D hend call.data.length [] hb (by simpa using hlen) hlen
  obtain ⟨rounds, hrun⟩ := hmore hdvd
  rw [List.nil_append] at hrun
  obtain ⟨hfails, hpast⟩ := data_in_past D (b := b₁.move ⟨d, .status r.stalls_status (r.csw b.tag)⟩ new) rfl rounds hlen
  by_cases hcase : r.stalls_status = true ∨ call.data.length < r.data.length + CSW_LEN
  · obtain ⟨e, herror⟩ := hfails hcase
    have hq : DataRead (new ++ [.read_failed .Data (call.data.length - r.data.length) e]) r.data := by
      refine ⟨hnew.quiet.append (.single (by simp [Event.isCommand])), ?_, ?_⟩
      · rw [received_append, hnew.data]
        simp [received]
      · rw [received_append, hnew.status]
        simp [received]
    have hphase : data_phase D.transport call.direction call.data b₁ = .error e
        (b₁.move ⟨d, .idle⟩ (new ++ [.read_failed .Data (call.data.length - r.data.length) e] ++ [.reset])) := by
      rw [hdir]
      refine Run.bind_eq_of_error ?_ _
      rw [hrun, herror, Bus.move_move]
      simp
    rw [conforms_of_data_error D h hq hphase]
    exact ⟨fun _ => hcase, fun _ => List.prefix_rfl⟩
  · -- the next thirteen bytes are taken as data, whatever happens then
    refine ⟨fun hconf => ?_, fun hc => absurd hc hcase⟩
    obtain ⟨l, hlog, hl, hnone⟩ := h.log
    obtain ⟨more, hmorelog, l', rest, rfl, hl', hrest⟩ := data_in_splits D.transport call.data.length rounds
      (r.data ++ r.csw b.tag) b.tag (call.cdb.bytes.getD 0 0) call.direction call.data phase_error h.records
      ((b₁.move ⟨d, .status r.stalls_status (r.csw b.tag)⟩ new).move ⟨d, .idle⟩
        [.read .Data (call.data.length - r.data.length) (r.csw b.tag)])
    have hfinal : final (call.run D.transport b) = final (((data_in D.transport call.data.length rounds
        (r.data ++ r.csw b.tag) >>= fun got => pure (got.length, Bytes.put call.data 0 got)) >>= fun out =>
        status_phase D.transport b.tag >>= fun csw => judge D.transport (call.cdb.bytes.getD 0 0) call.direction
          phase_error ask_why out csw)
        ((b₁.move ⟨d, .status r.stalls_status (r.csw b.tag)⟩ new).move ⟨d, .idle⟩
          [.read .Data (call.data.length - r.data.length) (r.csw b.tag)])) := by
      rw [h.final]
      simp only [afterCbw, data_phase, hdir, bind, EStateM.bind]
      rw [hrun, hpast hcase]
    have hran : Ran b b.tag (r.data ++ r.csw b.tag ++ received .Data l') (final (call.run D.transport b)) := by
      refine ⟨call.cdb.bytes.getD 0 0, call.data.length, call.direction,
        l ++ new ++ [.read .Data (call.data.length - r.data.length) (r.csw b.tag)] ++ l', rest, ?_, ?_, hrest, ?_⟩
      · rw [hfinal, hmorelog, Bus.move_log, Bus.move_log, hlog]
        simp only [List.append_assoc, List.cons_append]
      · exact ((hl.append hnew.quiet.plain).append (by simp [Plain, Event.isCommand])).append hl'
      · rw [received_append, received_append, received_append, hnone, hnew.data]
        simp [received]
    have hle := hconf.data.length_le
    rw [hran.taken, List.length_append, List.length_append, length_csw] at hle
    unfold CSW_LEN at hle
    omega

end

/-- A call conforms exactly when the drive responds in a way that the code copes with. -/
theorem command_conforms_iff {δ : Type} (D : Drive δ) (call : Call) {b : Bus (Link δ)} {d : δ}
    (hidle : b.state = ⟨d, .idle⟩) (hlen : call.data.length < 2 ^ 32) (hnone : call.direction = .None → call.data = [])
    (hfollows : (call.response D d b.tag).Follows call.direction call.data.length) :
    call.Conforms D.transport b (call.response D d b.tag) ↔
      (call.response D d b.tag).Served D.chunk call.direction call.data.length := by
  obtain ⟨b₁, phase_error, ask_why, hfrom, hb₁⟩ := Call.from_idle D hidle hlen
  rcases Nat.eq_zero_or_pos call.data.length with hzero | hpos
  · have hdata : call.data = [] := List.length_eq_zero_iff.mp hzero
    have hstatus : b₁.state = ⟨D.finish d (seenCbw b.tag call.cdb.bytes call.direction call.data) [],
        .status (call.response D d b.tag).stalls_status ((call.response D d b.tag).csw b.tag)⟩ := by
      rw [hb₁]
      simp only [Drive.start, seenCbw, Direction.seen, hzero, if_true, Call.response, CommandBlockWrapper.new]
    refine ⟨fun _ _ hlt => absurd hzero hlt.ne', fun _ => conforms_without_data D hfrom hdata hstatus⟩
  · have hnz : call.data.length ≠ 0 := hpos.ne'
    cases hdir : call.direction with
    | None => exact absurd (List.length_eq_zero_iff.mpr (hnone hdir)) hnz
    | Out =>
      have hrecv : b₁.state = ⟨d, .receiving (seenCbw b.tag call.cdb.bytes call.direction call.data) []
          (call.response D d b.tag)⟩ := by
        rw [hb₁]
        simp only [Drive.start, seenCbw, Direction.seen, hnz, if_false, Call.response, CommandBlockWrapper.new, hdir,
          reduceCtorEq]
      refine ⟨fun _ hin => ?_, fun _ => conforms_out D hfrom hdir hpos ?_ rfl hrecv⟩
      · cases hin
      simp only [seenCbw, CommandBlockWrapper.new]
      rw [UInt32.toNat_ofNat', Nat.mod_eq_of_lt hlen]
    | In =>
      have hsend : b₁.state = ⟨D.finish d (seenCbw b.tag call.cdb.bytes call.direction call.data) [],
          .sending b.tag (call.response D d b.tag).data (call.response D d b.tag)⟩ := by
        rw [hb₁]
        simp only [Drive.start, seenCbw, Direction.seen, hnz, if_false, if_true, Call.response, CommandBlockWrapper.new,
          hdir]
      cases hend : (call.response D d b.tag).ending with
      | complete =>
        rw [conforms_complete D hfrom hdir hpos hend (hfollows.complete.mp hend) hfollows.residue_le hsend]
        simp [Response.Served, hend, hpos]
      | stall =>
        have hlt : (call.response D d b.tag).data.length < call.data.length :=
          lt_of_le_of_ne hfollows.sends fun heq => by
            have := hfollows.complete.mpr heq
            rw [hend] at this
            cases this
        refine ⟨fun _ _ _ => .inl hend, fun _ => conforms_stall D hfrom hdir hend hlt hsend⟩
      | short =>
        have hlt : (call.response D d b.tag).data.length < call.data.length :=
          lt_of_le_of_ne hfollows.sends fun heq => by
            have := hfollows.complete.mpr heq
            rw [hend] at this
            cases this
        by_cases hdvd : D.chunk ∣ (call.response D d b.tag).data.length
        · rw [conforms_short D hfrom hdir hend hlt hfollows.residue_le hdvd hsend]
          simp [Response.Served, hend, hpos, hdvd]
        · rw [conforms_cut D hfrom hdir hend hlt hdvd hsend]
          simp [Response.Served, hend, hpos, hdvd]

/-! ## Two drives -/

/-- A drive that answers every command in the same way. -/
def always (r : Response) : Drive Unit := ⟨fun _ _ => r, fun _ _ _ => (), 4096, 4096, by decide⟩

/-- MODE SENSE(6) for the caching page, with room for 255 bytes. -/
def modeSense : Call :=
  .inner ⟨[0x1A, 0, 0x08, 0, 0xFF, 0], by decide, by decide⟩ .In (List.replicate 255 0) true

/-- The page has 24 bytes: the drive sends them and reports the rest as residue. -/
def shortPage : Response := ⟨List.replicate 24 1, .short, 0, false, .Passed, 231⟩

/-- All 255 bytes. -/
def fullPage : Response := ⟨List.replicate 255 1, .complete, 0, true, .Passed, 0⟩

/-- A stall before the status is cleared, and everything is there. -/
theorem modeSense_conforms_full :
    modeSense.Conforms (always fullPage).transport (Bus.fresh ⟨(), .idle⟩) fullPage :=
  (command_conforms_iff (always fullPage) modeSense rfl (by decide +kernel) (by decide +kernel)
    ⟨by decide +kernel, by decide +kernel, by decide +kernel, by decide +kernel, by decide +kernel⟩).mpr fun _ _ =>
      .inr (.inl ⟨rfl, fun _ => rfl⟩)

/-- The 13 bytes of the status end up in the buffer. -/
theorem modeSense_takes_status :
    shortPage.Follows .In 255 ∧
      modeSense.taken (always shortPage).transport (Bus.fresh ⟨(), .idle⟩) = shortPage.data ++ shortPage.csw 1 ∧
      ¬ modeSense.Conforms (always shortPage).transport (Bus.fresh ⟨(), .idle⟩) shortPage := by
  have htaken : modeSense.taken (always shortPage).transport (Bus.fresh ⟨(), .idle⟩) =
      shortPage.data ++ shortPage.csw 1 := by decide +kernel
  refine ⟨⟨by decide, by decide, by decide, by decide, by decide⟩, htaken, fun hconf => ?_⟩
  have hle := hconf.data.length_le
  rw [htaken, List.length_append, length_csw] at hle
  exact absurd hle (by decide)

end LuksAndroid.Usb

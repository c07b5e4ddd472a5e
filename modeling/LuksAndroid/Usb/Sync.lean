import LuksAndroid.Lib.Trace
import LuksAndroid.Usb.Scsi

/-!
# The bus between two commands

Which exits of a command leave the bus in step: the status was read whole, or the
transport was reset. Three exits do neither.
-/

namespace LuksAndroid.Usb

open Trace

/-! ## What a command leaves behind -/

/-- One exchange: the tag of its command, and what happened until the next command. -/
structure Segment where
  tag : UInt32
  events : List Event
deriving DecidableEq, Repr

def Event.isCommand : Event → Bool
  | .command _ _ _ _ => true
  | _ => false

/-- Cut the record at the commands. -/
def segments : List Event → List Segment
  | [] => []
  | .command _ tag _ _ :: rest => ⟨tag, rest.takeWhile fun e => ¬ e.isCommand⟩ :: segments rest
  | _ :: rest => segments rest

/-- The bytes that arrived in a phase. -/
def received (phase : Phase) : List Event → Bytes
  | [] => []
  | .read p _ got :: rest => if p = phase then got ++ received phase rest else received phase rest
  | _ :: rest => received phase rest

def Event.error? : Event → Option LuksError
  | .write_failed _ _ e | .read_failed _ _ e | .clear_failed e => some e
  | _ => none

/-- Some failure among them says that the drive is gone. -/
def Gone (l : List Event) : Prop := ∃ e ∈ l.filterMap Event.error?, e.is_disconnected = true

namespace Segment

/-- The transport reported that the drive is gone. -/
def Disconnected (s : Segment) : Prop := Gone s.events

/-- These bytes are a whole CSW with this tag. -/
def IsStatus (tag : UInt32) (b : Bytes) : Prop :=
  b.length = CSW_LEN ∧ ∃ csw, CommandStatusWrapper.decode b = .ok csw ∧ csw.tag = tag

/-- The bus is in step again: the whole status was read, or the transport was reset at the end. -/
def Settled (s : Segment) : Prop := IsStatus s.tag (received .Status s.events) ∨ ∃ before, s.events = before ++ [.reset]

/-- The drive takes the command whole, and a whole status is well formed and carries the tag. -/
def Orderly (s : Segment) : Prop :=
  (∀ data n, .wrote .Command data n ∈ s.events → n = data.length) ∧
  ((received .Status s.events).length = CSW_LEN → IsStatus s.tag (received .Status s.events))

end Segment

/-! ## Cutting the record -/

theorem received_append (phase : Phase) (a b : List Event) :
    received phase (a ++ b) = received phase a ++ received phase b := by
  induction a with
  | nil => rfl
  | cons e a ih =>
    cases e with
    | read p n got =>
      simp only [List.cons_append, received, ih]
      split
      · rw [List.append_assoc]
      · rfl
    | _ => simpa only [List.cons_append, received] using ih

/-- Nothing, or a command first. -/
def StartsAfresh (l : List Event) : Prop := ∀ e ∈ l.head?, e.isCommand = true

theorem takeWhile_append_of_afresh (a : List Event) {b : List Event} (hb : StartsAfresh b) :
    (a ++ b).takeWhile (fun e => ¬ e.isCommand) = a.takeWhile fun e => ¬ e.isCommand := by
  induction a with
  | nil =>
    cases b with
    | nil => rfl
    | cons e b =>
      have he : e.isCommand = true := hb e rfl
      simp [he]
  | cons e a ih =>
    simp only [List.cons_append, List.takeWhile_cons, ih]

theorem segments_append (a : List Event) {b : List Event} (hb : StartsAfresh b) :
    segments (a ++ b) = segments a ++ segments b := by
  induction a with
  | nil => rfl
  | cons e a ih =>
    cases e with
    | command op tag len dir =>
      simp only [List.cons_append, segments, takeWhile_append_of_afresh a hb, ih]
    | _ => simpa only [List.cons_append, segments] using ih

/-- No command among them. -/
def Plain (l : List Event) : Prop := ∀ e ∈ l, e.isCommand = false

theorem segments_plain {l : List Event} (h : Plain l) : segments l = [] := by
  induction l with
  | nil => rfl
  | cons e l ih =>
    have he : e.isCommand = false := h e List.mem_cons_self
    have hl := ih fun e he => h e (List.mem_cons_of_mem _ he)
    cases e with
    | command op tag len dir => cases he
    | _ => exact hl

theorem segments_command (op : UInt8) (tag : UInt32) (len : Nat) (dir : Direction) {l rest : List Event} (h : Plain l)
    (hrest : StartsAfresh rest) :
    segments (.command op tag len dir :: (l ++ rest)) = ⟨tag, l⟩ :: segments rest := by
  have hwhole : l.takeWhile (fun e => ¬ e.isCommand) = l := by
    rw [List.takeWhile_eq_self_iff]
    intro e he
    simp [h e he]
  rw [segments, segments_append l hrest, segments_plain h, takeWhile_append_of_afresh l hrest, hwhole]
  rfl

/-! ## The phases -/

variable {σ α : Type} (t : BulkTransport σ)

/-- No command, no reset and no CBW among them. -/
def Quiet (l : List Event) : Prop :=
  ∀ e ∈ l, e.isCommand = false ∧ e ≠ .reset ∧ ∀ data n, e ≠ .wrote .Command data n

theorem Quiet.nil : Quiet [] := fun _ he => absurd he List.not_mem_nil

theorem Quiet.append {a b : List Event} (ha : Quiet a) (hb : Quiet b) : Quiet (a ++ b) := by
  intro e he
  rcases List.mem_append.mp he with he | he
  · exact ha e he
  · exact hb e he

theorem Quiet.single {e : Event} (h : e.isCommand = false ∧ e ≠ .reset ∧ ∀ data n, e ≠ .wrote .Command data n) :
    Quiet [e] := by
  intro e' he
  rwa [List.mem_singleton.mp he]

theorem Gone.append_right {b : List Event} (h : Gone b) (a : List Event) : Gone (a ++ b) := by
  obtain ⟨e, he, hd⟩ := h
  refine ⟨e, ?_, hd⟩
  rw [List.filterMap_append]
  exact List.mem_append_right _ he

theorem call_records {x : EStateM LuksError σ α} {ok : α → Event} {failed : LuksError → Event} :
    Records Bus.log (BusM.call x ok failed) fun r new =>
      (∃ a, r = .ok a ∧ new = [ok a]) ∨ ∃ e, r = .error e ∧ new = [failed e] := by
  intro b
  unfold BusM.call
  cases x b.state with
  | ok a s => exact ⟨_, rfl, .inl ⟨a, rfl, rfl⟩⟩
  | error e s => exact ⟨_, rfl, .inr ⟨e, rfl, rfl⟩⟩

theorem send_records (phase : Phase) (data : Bytes) :
    Records Bus.log (t.send phase data) fun r new =>
      (∃ n, r = .ok n ∧ n ≤ data.length ∧ new = [.wrote phase data n]) ∨
        ∃ e, r = .error e ∧ new = [.write_failed phase data e] := by
  refine call_records.bind ?_ ?_
  · rintro e new (⟨a, ha, -⟩ | ⟨e', he, rfl⟩)
    · cases ha
    · cases he
      exact .inr ⟨e, rfl, rfl⟩
  · rintro a new (⟨a', ha, rfl⟩ | ⟨e', he, -⟩)
    · cases ha
      exact .pure (.inl ⟨a.1, rfl, a.2, rfl⟩)
    · cases he

theorem receive_records (phase : Phase) (n : Nat) :
    Records Bus.log (t.receive phase n) fun r new =>
      (∃ b, r = .ok b ∧ b.length ≤ n ∧ new = [.read phase n b]) ∨
        ∃ e, r = .error e ∧ new = [.read_failed phase n e] := by
  refine call_records.bind ?_ ?_
  · rintro e new (⟨a, ha, -⟩ | ⟨e', he, rfl⟩)
    · cases ha
    · cases he
      exact .inr ⟨e, rfl, rfl⟩
  · rintro a new (⟨a', ha, rfl⟩ | ⟨e', he, -⟩)
    · cases ha
      exact .pure (.inl ⟨a.1, rfl, a.2, rfl⟩)
    · cases he

theorem try_reset_records : Records Bus.log t.try_reset fun r new => r = .ok () ∧ new = [.reset] :=
  fun _ => ⟨_, rfl, rfl, rfl⟩

theorem reset_throw_records (e : LuksError) :
    Records Bus.log (t.try_reset >>= fun _ => throw e : BusM σ α) fun r new => r = .error e ∧ new = [.reset] := by
  refine (try_reset_records t).bind ?_ ?_
  · rintro e new ⟨h, -⟩
    cases h
  · rintro u new ⟨-, rfl⟩
    exact .throw ⟨rfl, rfl⟩

theorem recover_records {x : BusM σ α} {Q : Except LuksError α → List Event → Prop} (hx : Records Bus.log x Q) :
    Records Bus.log (t.recover x) fun r new =>
      (∃ a, r = .ok a ∧ Q (.ok a) new) ∨ ∃ e q, r = .error e ∧ Q (.error e) q ∧ new = q ++ [.reset] := by
  refine (hx.attempt (R := fun r new => ∃ r', r = .ok r' ∧ Q r' new) fun r new h => ⟨r, rfl, h⟩).bind ?_ ?_
  · rintro e new ⟨r', h, -⟩
    cases h
  · rintro r new ⟨r', h, hq⟩
    cases h
    cases r with
    | ok a =>
      refine .pure (.inl ⟨a, rfl, ?_⟩)
      rwa [List.append_nil]
    | error e =>
      refine (reset_throw_records t e).mono ?_
      rintro r more ⟨rfl, rfl⟩
      exact .inr ⟨e, new, rfl, hq, rfl⟩

/-- How a data phase ends: in silence, or with a reset. -/
def Ended (ok : Prop) (new : List Event) : Prop :=
  ∃ q, Quiet q ∧ received .Status q = [] ∧ (ok ∧ new = q ∨ ¬ ok ∧ new = q ++ [.reset])

theorem data_in_records (len rounds : Nat) (got : Bytes) :
    Records Bus.log (data_in t len rounds got) fun r new => Ended (∃ b, r = .ok b) new := by
  induction rounds generalizing got with
  | zero => exact .pure ⟨[], .nil, rfl, .inl ⟨⟨_, rfl⟩, rfl⟩⟩
  | succ rounds ih =>
    rw [data_in]
    refine .ite (fun _ => .pure ⟨[], .nil, rfl, .inl ⟨⟨_, rfl⟩, rfl⟩⟩) fun _ => ?_
    refine (recover_records t (receive_records t .Data _)).bind ?_ ?_
    · rintro e new (⟨b, hb, -⟩ | ⟨e', q, -, ⟨b, hb, -⟩ | ⟨e'', -, rfl⟩, rfl⟩)
      · cases hb
      · cases hb
      · refine ⟨_, .single ?_, rfl, .inr ⟨fun ⟨b, hb⟩ => ?_, rfl⟩⟩
        · simp [Event.isCommand]
        · cases hb
    · rintro b new (⟨b', hb, ⟨b'', hb', -, rfl⟩ | ⟨e', hb', -⟩⟩ | ⟨e', q, hb, -⟩)
      · cases hb
        cases hb'
        have hquiet : Quiet [Event.read .Data (len - got.length) b] := .single (by simp [Event.isCommand])
        refine .ite (fun _ => .pure ⟨_, hquiet, rfl, .inl ⟨⟨_, rfl⟩, rfl⟩⟩) fun _ => ?_
        refine (ih (got ++ b)).mono ?_
        rintro r more ⟨q, hq, hnone, h⟩
        refine ⟨_, hquiet.append hq, by rw [received_append, hnone]; rfl, ?_⟩
        rcases h with ⟨hok, rfl⟩ | ⟨hno, rfl⟩
        · exact .inl ⟨hok, rfl⟩
        · exact .inr ⟨hno, (List.append_assoc _ _ _).symm⟩
      · cases hb'
      · cases hb

theorem data_out_records (data : Bytes) (rounds transferred : Nat) :
    Records Bus.log (data_out t data rounds transferred) fun r new => Ended (∃ n, r = .ok n) new := by
  induction rounds generalizing transferred with
  | zero => exact .pure ⟨[], .nil, rfl, .inl ⟨⟨_, rfl⟩, rfl⟩⟩
  | succ rounds ih =>
    rw [data_out]
    refine .ite (fun _ => .pure ⟨[], .nil, rfl, .inl ⟨⟨_, rfl⟩, rfl⟩⟩) fun _ => ?_
    refine (recover_records t (send_records t .Data _)).bind ?_ ?_
    · rintro e new (⟨n, hn, -⟩ | ⟨e', q, -, ⟨n, hn, -⟩ | ⟨e'', -, rfl⟩, rfl⟩)
      · cases hn
      · cases hn
      · refine ⟨_, .single ?_, rfl, .inr ⟨fun ⟨n, hn⟩ => ?_, rfl⟩⟩
        · simp [Event.isCommand]
        · cases hn
    · rintro n new (⟨n', hn, ⟨n'', hn', -, rfl⟩ | ⟨e', hn', -⟩⟩ | ⟨e', q, hn, -⟩)
      · cases hn
        cases hn'
        have hquiet : Quiet [Event.wrote .Data (data.drop transferred) n] := .single (by simp [Event.isCommand])
        refine .ite (fun _ => .pure ⟨_, hquiet, rfl, .inl ⟨⟨_, rfl⟩, rfl⟩⟩) fun _ => ?_
        refine (ih (transferred + n)).mono ?_
        rintro r more ⟨q, hq, hnone, h⟩
        refine ⟨_, hquiet.append hq, by rw [received_append, hnone]; rfl, ?_⟩
        rcases h with ⟨hok, rfl⟩ | ⟨hno, rfl⟩
        · exact .inl ⟨hok, rfl⟩
        · exact .inr ⟨hno, (List.append_assoc _ _ _).symm⟩
      · cases hn'
      · cases hn

/-- What follows a loop does not change how the phase ended. -/
theorem Ended.bind_pure {β : Type} {x : BusM σ α} (f : α → β)
    (hx : Records Bus.log x fun r new => Ended (∃ a, r = .ok a) new) :
    Records Bus.log (x >>= fun a => pure (f a)) fun r new => Ended (∃ b, r = .ok b) new := by
  refine hx.bind ?_ ?_
  · rintro e new ⟨q, hq, hnone, ⟨⟨a, ha⟩, -⟩ | ⟨-, rfl⟩⟩
    · cases ha
    · refine ⟨q, hq, hnone, .inr ⟨fun ⟨b, hb⟩ => ?_, rfl⟩⟩
      cases hb
  · rintro a new ⟨q, hq, hnone, ⟨-, rfl⟩ | ⟨hno, -⟩⟩
    · refine .pure ⟨new, hq, hnone, .inl ⟨⟨_, rfl⟩, ?_⟩⟩
      rw [List.append_nil]
    · exact absurd ⟨a, rfl⟩ hno

theorem data_phase_records (direction : Direction) (data : Bytes) :
    Records Bus.log (data_phase t direction data) fun r new => Ended (∃ b, r = .ok b) new := by
  cases direction with
  | In => exact Ended.bind_pure (fun got => (got.length, Bytes.put data 0 got)) (data_in_records t _ _ _)
  | Out => exact Ended.bind_pure (fun n => (n, data)) (data_out_records t _ _ _)
  | None => exact .pure ⟨[], .nil, rfl, .inl ⟨⟨_, rfl⟩, rfl⟩⟩

theorem clear_stall_records :
    Records Bus.log (clear_stall t) fun r new =>
      (r = .ok () ∧ new = [.cleared]) ∨
        ∃ e, r = .error e ∧ (new = [.clear_failed e] ++ [.reset] ∨ new = [.clear_failed e] ∧
          e.is_disconnected = true) := by
  refine ((call_records (σ := σ)).attempt (R := fun r new =>
    (r = .ok (.ok ()) ∧ new = [.cleared]) ∨ ∃ e, r = .ok (.error e) ∧ new = [.clear_failed e]) ?_).bind ?_ ?_
  · rintro r new (⟨a, rfl, rfl⟩ | ⟨e, rfl, rfl⟩)
    · exact .inl ⟨rfl, rfl⟩
    · exact .inr ⟨e, rfl, rfl⟩
  · rintro e new (⟨h, -⟩ | ⟨e', h, -⟩)
    · cases h
    · cases h
  · rintro r new (⟨h, rfl⟩ | ⟨e, h, rfl⟩)
    · cases h
      exact .pure (.inl ⟨rfl, rfl⟩)
    · cases h
      refine .ite (fun _ => ?_) fun hgone => ?_
      · refine (reset_throw_records t e).mono ?_
        rintro r more ⟨rfl, rfl⟩
        exact .inr ⟨e, rfl, .inl rfl⟩
      · exact .throw (.inr ⟨e, rfl, .inr ⟨rfl, by simpa using hgone⟩⟩)

/-- How the status loop ends: with the whole status, or short of it with a reset or without a drive. -/
def StatusRead (got : Bytes) (r : Except LuksError Bytes) (new : List Event) : Prop :=
  (∃ b, r = .ok b ∧ Quiet new ∧ b = got ++ received .Status new ∧ b.length = CSW_LEN) ∨
    ∃ e q, r = .error e ∧ Quiet q ∧ (got ++ received .Status q).length < CSW_LEN ∧
      (new = q ++ [.reset] ∨ new = q ∧ Gone q)

theorem StatusRead.after_idle {got : Bytes} {idle more : List Event} {r : Except LuksError Bytes} (hquiet : Quiet idle)
    (hnone : received .Status idle = []) (h : StatusRead got r more) : StatusRead got r (idle ++ more) := by
  rcases h with ⟨b, rfl, hq, hb, hlen⟩ | ⟨e, q, rfl, hq, hlen, h⟩
  · refine .inl ⟨b, rfl, hquiet.append hq, ?_, hlen⟩
    rw [received_append, hnone]
    exact hb
  · refine .inr ⟨e, idle ++ q, rfl, hquiet.append hq, ?_, ?_⟩
    · rw [received_append, hnone]
      exact hlen
    · rcases h with rfl | ⟨rfl, hgone⟩
      · exact .inl (List.append_assoc _ _ _).symm
      · exact .inr ⟨rfl, hgone.append_right _⟩

theorem clear_then_records {got : Bytes} {idle : List Event} {next : BusM σ Bytes} (hgot : got.length < CSW_LEN)
    (hquiet : Quiet idle) (hnone : received .Status idle = []) (hnext : Records Bus.log next (StatusRead got)) :
    Records Bus.log (clear_stall t >>= fun _ => next) fun r new => StatusRead got r (idle ++ new) := by
  refine (clear_stall_records t).bind ?_ ?_
  · rintro e new (⟨h, -⟩ | ⟨e', -, h⟩)
    · cases h
    · have hq : Quiet [Event.clear_failed e'] := .single (by simp [Event.isCommand])
      refine StatusRead.after_idle hquiet hnone (.inr ⟨_, _, rfl, hq, ?_, ?_⟩)
      · simpa [received] using hgot
      · rcases h with rfl | ⟨rfl, hgone⟩
        · exact .inl rfl
        · exact .inr ⟨rfl, e', by simp [Event.error?], hgone⟩
  · rintro u new (⟨-, rfl⟩ | ⟨e', h, -⟩)
    · have hq : Quiet [Event.cleared] := .single (by simp [Event.isCommand])
      refine hnext.mono fun r more h => ?_
      exact StatusRead.after_idle hquiet hnone (StatusRead.after_idle hq rfl h)
    · cases h

theorem read_csw_records (rounds : Nat) (cleared_halt : Bool) (got : Bytes) (hgot : got.length ≤ CSW_LEN)
    (hrounds : CSW_LEN - got.length + (if cleared_halt then 0 else 1) < rounds) :
    Records Bus.log (read_csw t rounds cleared_halt got) (StatusRead got) := by
  induction rounds generalizing cleared_halt got with
  | zero => omega
  | succ rounds ih =>
    rw [read_csw]
    refine .ite (fun hfull => .pure (.inl ⟨got, rfl, .nil, (List.append_nil _).symm, by omega⟩)) fun hmore => ?_
    rw [not_not] at hmore
    refine ((receive_records t .Status _).attempt (R := fun r new =>
      (∃ b : Bytes, r = .ok (.ok b) ∧ b.length ≤ CSW_LEN - got.length ∧
        new = [.read .Status (CSW_LEN - got.length) b]) ∨
        ∃ e, r = .ok (.error e) ∧ new = [.read_failed .Status (CSW_LEN - got.length) e]) ?_).bind ?_ ?_
    · rintro r new (⟨b, rfl, hb, rfl⟩ | ⟨e, rfl, rfl⟩)
      · exact .inl ⟨b, rfl, hb, rfl⟩
      · exact .inr ⟨e, rfl, rfl⟩
    · rintro e new (⟨b, h, -⟩ | ⟨e', h, -⟩)
      · cases h
      · cases h
    · rintro r new (⟨b, h, hb, rfl⟩ | ⟨e, h, rfl⟩)
      · cases h
        have hread : Quiet [Event.read .Status (CSW_LEN - got.length) b] := .single (by simp [Event.isCommand])
        refine .ite (fun hempty => ?_) fun hne => ?_
        · -- a read of nothing counts as a stall
          have hnil : b = [] := List.length_eq_zero_iff.mp hempty
          subst hnil
          refine .ite (fun hclear => ?_) fun hclear => ?_
          · refine clear_then_records t hmore hread rfl (ih true got hgot ?_)
            simp only [hclear, if_true, if_false, Bool.false_eq_true] at hrounds ⊢
            omega
          · refine (reset_throw_records t _).mono ?_
            rintro r more ⟨rfl, rfl⟩
            exact .inr ⟨_, _, rfl, hread, by simpa [received] using hmore, .inl rfl⟩
        · refine (ih cleared_halt (got ++ b) ?_ ?_).mono ?_
          · rw [List.length_append]
            omega
          · rw [List.length_append]
            omega
          · rintro r more (⟨b', rfl, hq, hb', hlen⟩ | ⟨e, q, rfl, hq, hlen, h⟩)
            · refine .inl ⟨b', rfl, hread.append hq, ?_, hlen⟩
              rw [received_append, hb', List.append_assoc]
              simp [received]
            · refine .inr ⟨e, _, rfl, hread.append hq, ?_, ?_⟩
              · rw [received_append]
                simpa [received] using hlen
              · rcases h with rfl | ⟨rfl, hgone⟩
                · exact .inl (List.append_assoc _ _ _).symm
                · exact .inr ⟨rfl, hgone.append_right _⟩
      · cases h
        have hfail : Quiet [Event.read_failed .Status (CSW_LEN - got.length) e] := .single (by simp [Event.isCommand])
        have hshort : (got ++ received .Status [Event.read_failed .Status (CSW_LEN - got.length) e]).length <
            CSW_LEN := by simpa [received] using hmore
        refine .ite (fun hgone => ?_) fun hstays => ?_
        · exact .throw (.inr ⟨e, _, rfl, hfail, hshort, .inr ⟨List.append_nil _, e, by simp [Event.error?], hgone⟩⟩)
        · refine .ite (fun hclear => ?_) fun hclear => ?_
          · refine clear_then_records t hmore hfail rfl (ih true got hgot ?_)
            simp only [hclear, if_true, if_false, Bool.false_eq_true] at hrounds ⊢
            omega
          · refine (reset_throw_records t _).mono ?_
            rintro r more ⟨rfl, rfl⟩
            exact .inr ⟨_, _, rfl, hfail, hshort, .inl rfl⟩

/-! ## One exchange -/

/-- Unless the drive is gone, the bus is in step exactly when the drive behaved. -/
def Segment.Fair (s : Segment) : Prop := ¬ s.Disconnected → (s.Settled ↔ s.Orderly)

/-- Whole exchanges, each of them fair. -/
structure Exchanges (l : List Event) : Prop where
  afresh : StartsAfresh l
  fair : ∀ s ∈ segments l, s.Fair

theorem Exchanges.nil : Exchanges [] := by
  refine ⟨fun e he => ?_, fun s hs => ?_⟩
  · cases he
  · cases hs

theorem StartsAfresh.append {a b : List Event} (ha : StartsAfresh a) (hb : StartsAfresh b) : StartsAfresh (a ++ b) := by
  cases a with
  | nil => exact hb
  | cons e a => exact ha

theorem Exchanges.append {a b : List Event} (ha : Exchanges a) (hb : Exchanges b) : Exchanges (a ++ b) := by
  refine ⟨ha.afresh.append hb.afresh, fun s hs => ?_⟩
  rw [segments_append a hb.afresh] at hs
  rcases List.mem_append.mp hs with hs | hs
  · exact ha.fair s hs
  · exact hb.fair s hs

/-- What a command did after it was announced, and the exchanges that it made after that. -/
def Body (tag : UInt32) (new : List Event) : Prop :=
  ∃ l rest, new = l ++ rest ∧ Plain l ∧ Segment.Fair ⟨tag, l⟩ ∧ Exchanges rest

theorem Body.exchanges {op : UInt8} {tag : UInt32} {len : Nat} {dir : Direction} {new : List Event} (h : Body tag new) :
    Exchanges (.command op tag len dir :: new) := by
  obtain ⟨l, rest, rfl, hl, hfair, hrest⟩ := h
  refine ⟨fun e he => ?_, fun s hs => ?_⟩
  · cases he
    rfl
  · rw [segments_command op tag len dir hl hrest.afresh] at hs
    rcases List.mem_cons.mp hs with rfl | hs
    · exact hfair
    · exact hrest.fair s hs

theorem Body.of_fair {tag : UInt32} {l : List Event} (hl : Plain l) (hfair : Segment.Fair ⟨tag, l⟩) : Body tag l :=
  ⟨l, [], (List.append_nil l).symm, hl, hfair, .nil⟩

theorem Quiet.plain {q : List Event} (h : Quiet q) : Plain q := fun e he => (h e he).1

theorem Plain.append {a b : List Event} (ha : Plain a) (hb : Plain b) : Plain (a ++ b) := by
  intro e he
  rcases List.mem_append.mp he with he | he
  · exact ha e he
  · exact hb e he

theorem Plain.reset : Plain [.reset] := by
  intro e he
  rw [List.mem_singleton.mp he]
  rfl

/-- The record of a command whose CBW went out whole. -/
def sentWhole (cbw : Bytes) (q : List Event) : List Event := .wrote .Command cbw cbw.length :: q

theorem sentWhole_plain (cbw : Bytes) {q : List Event} (hq : Plain q) : Plain (sentWhole cbw q) := by
  intro e he
  rcases List.mem_cons.mp he with rfl | he
  · rfl
  · exact hq e he

theorem received_sentWhole (cbw : Bytes) (q : List Event) :
    received .Status (sentWhole cbw q) = received .Status q := rfl

theorem sentWhole_whole (cbw : Bytes) {q l : List Event} (hq : Quiet q) (hl : l = q ∨ l = q ++ [.reset]) {data : Bytes}
    {n : Nat} (h : .wrote .Command data n ∈ sentWhole cbw l) : n = data.length := by
  rcases List.mem_cons.mp h with h | h
  · cases h
    rfl
  · rcases hl with rfl | rfl
    · exact absurd rfl ((hq _ h).2.2 data n)
    · rcases List.mem_append.mp h with h | h
      · exact absurd rfl ((hq _ h).2.2 data n)
      · cases List.mem_singleton.mp h

/-- A reset short of the status. -/
theorem fair_reset {tag : UInt32} (cbw : Bytes) {q : List Event} (hq : Quiet q)
    (hshort : (received .Status q).length < CSW_LEN) : Segment.Fair ⟨tag, sentWhole cbw (q ++ [.reset])⟩ := by
  intro _
  refine ⟨fun _ => ⟨fun data n h => sentWhole_whole cbw hq (.inr rfl) h, fun hlen => ?_⟩, fun _ =>
    .inr ⟨sentWhole cbw q, rfl⟩⟩
  simp only [received_sentWhole, received_append, received, List.append_nil] at hlen
  omega

theorem fair_gone {tag : UInt32} (cbw : Bytes) {q : List Event} (hgone : Gone q) :
    Segment.Fair ⟨tag, sentWhole cbw q⟩ := by
  intro hstays
  exact absurd (hgone.append_right [.wrote .Command cbw cbw.length]) hstays

theorem fair_status {tag : UInt32} (cbw : Bytes) {q : List Event} (hq : Quiet q)
    (hlen : (received .Status q).length = CSW_LEN) : Segment.Fair ⟨tag, sentWhole cbw q⟩ := by
  intro _
  constructor
  · rintro (hstatus | ⟨before, h⟩)
    · exact ⟨fun data n h => sentWhole_whole cbw hq (.inl rfl) h, fun _ => hstatus⟩
    · -- the last event is not a reset
      have hmem : Event.reset ∈ sentWhole cbw q := by
        simp only at h
        rw [h]
        exact List.mem_append_right _ List.mem_cons_self
      rcases List.mem_cons.mp hmem with hmem | hmem
      · cases hmem
      · exact absurd rfl (hq _ hmem).2.1
  · rintro ⟨-, hstatus⟩
    exact .inl (hstatus hlen)

theorem fair_status_reset {tag : UInt32} (cbw : Bytes) {q : List Event} (hq : Quiet q)
    (hstatus : Segment.IsStatus tag (received .Status q)) : Segment.Fair ⟨tag, sentWhole cbw (q ++ [.reset])⟩ := by
  intro _
  have hsame : received .Status (sentWhole cbw (q ++ [.reset])) = received .Status q := by
    simp only [received_sentWhole, received_append, received, List.append_nil]
  refine ⟨fun _ => ⟨fun data n h => sentWhole_whole cbw hq (.inr rfl) h, fun _ => ?_⟩, fun _ =>
    .inr ⟨sentWhole cbw q, rfl⟩⟩
  simp only
  rwa [hsame]

theorem send_cbw_records {cbw : CommandBlockWrapper} {enc : Bytes} (henc : cbw.encode = .ok enc) :
    Records Bus.log (send_cbw t cbw) fun r new =>
      (r = .ok () ∧ new = [.wrote .Command enc enc.length]) ∨
      (∃ e, r = .error e ∧ new = [.write_failed .Command enc e] ++ [.reset]) ∨
      ∃ e n, r = .error e ∧ n ≠ enc.length ∧ new = [.wrote .Command enc n] := by
  unfold send_cbw
  rw [henc]
  refine Records.bind (Q := fun r new => r = .ok enc ∧ new = []) (.pure ⟨rfl, rfl⟩) ?_ ?_
  · rintro e new ⟨h, -⟩
    cases h
  · rintro a new ⟨h, rfl⟩
    cases h
    refine (recover_records t (send_records t .Command enc)).bind ?_ ?_
    · rintro e new (⟨n, hn, -⟩ | ⟨e', q, he, ⟨n, hn, -⟩ | ⟨e'', he', rfl⟩, rfl⟩)
      · cases hn
      · cases hn
      · cases he
        cases he'
        exact .inr (.inl ⟨_, rfl, rfl⟩)
    · rintro n new (⟨n', hn, ⟨n'', hn', -, rfl⟩ | ⟨e', hn', -⟩⟩ | ⟨e', q, hn, -⟩)
      · cases hn
        cases hn'
        refine .ite (fun hshort => .throw (.inr (.inr ⟨_, n, rfl, hshort, rfl⟩))) fun hwhole => ?_
        rw [not_not] at hwhole
        subst hwhole
        exact .pure (.inl ⟨rfl, rfl⟩)
      · cases hn'
      · cases hn

theorem body_unsent {tag : UInt32} {enc : Bytes} {e : LuksError} :
    Body tag ([.write_failed .Command enc e] ++ [.reset]) := by
  refine .of_fair ?_ fun _ => ⟨fun _ => ⟨?_, ?_⟩, fun _ => .inr ⟨_, rfl⟩⟩
  · simp [Plain, Event.isCommand]
  · simp
  · simp [received, CSW_LEN]

theorem body_cut {tag : UInt32} {enc : Bytes} {n : Nat} (h : n ≠ enc.length) : Body tag [.wrote .Command enc n] := by
  refine .of_fair ?_ fun _ => ⟨?_, ?_⟩
  · simp [Plain, Event.isCommand]
  · rintro (⟨hlen, -⟩ | ⟨before, hreset⟩)
    · simp [received, CSW_LEN] at hlen
    · have hmem : Event.reset ∈ [Event.wrote .Command enc n] := by
        simp only at hreset
        rw [hreset]
        exact List.mem_append_right _ List.mem_cons_self
      cases List.mem_singleton.mp hmem
  · rintro ⟨hwhole, -⟩
    exact absurd (hwhole enc n List.mem_cons_self) h

/-- The status phase, behind a data phase that ended in silence. -/
theorem status_phase_records {tag : UInt32} (cbw : Bytes) {q : List Event} (hq : Quiet q)
    (hnone : received .Status q = []) :
    Records Bus.log (status_phase t tag) fun r new =>
      (∃ csw, r = .ok csw ∧ Quiet (q ++ new) ∧ Segment.IsStatus tag (received .Status (q ++ new))) ∨
      (∃ e, r = .error e) ∧ Body tag (sentWhole cbw (q ++ new)) := by
  unfold status_phase
  refine (read_csw_records t _ false [] (by simp) (by simp)).bind ?_ ?_
  · rintro e new (⟨b, h, -⟩ | ⟨e', q', -, hq', hshort, h⟩)
    · cases h
    · refine .inr ⟨⟨e, rfl⟩, ?_⟩
      have hshort' : (received .Status (q ++ q')).length < CSW_LEN := by
        rw [received_append, hnone]
        exact hshort
      rcases h with rfl | ⟨rfl, hgone⟩
      · rw [← List.append_assoc]
        exact .of_fair (sentWhole_plain _ ((hq.append hq').plain.append .reset))
          (fair_reset cbw (hq.append hq') hshort')
      · exact .of_fair (sentWhole_plain _ (hq.append hq').plain) (fair_gone cbw (hgone.append_right q))
  · rintro b new (⟨b', h, hnew, hb, hlen⟩ | ⟨e', q', h, -⟩)
    · cases h
      rw [List.nil_append] at hb
      have hall : received .Status (q ++ new) = b := by rw [received_append, hnone, List.nil_append, hb]
      -- the thirteen bytes are here: whatever they are, nothing follows them
      have hbody : Body tag (sentWhole cbw (q ++ new)) :=
        .of_fair (sentWhole_plain _ (hq.append hnew).plain)
          (fair_status cbw (hq.append hnew) (by rw [hall, hlen]))
      cases hdec : CommandStatusWrapper.decode b with
      | error e =>
        refine .throw (.inr ⟨⟨e, rfl⟩, ?_⟩)
        rwa [List.append_nil]
      | ok csw =>
        refine Records.bind (Q := fun r more => r = .ok csw ∧ more = []) (.pure ⟨rfl, rfl⟩) ?_ ?_
        · rintro e new ⟨h, -⟩
          cases h
        · rintro csw' more ⟨h, rfl⟩
          cases h
          refine .ite (fun htag => .throw (.inr ⟨⟨_, rfl⟩, ?_⟩)) fun htag => .pure (.inl ⟨csw, rfl, ?_, ?_⟩)
          · simpa only [List.append_nil] using hbody
          · simpa only [List.append_nil] using hq.append hnew
          · rw [not_not] at htag
            simp only [List.append_nil, hall]
            exact ⟨hlen, csw, hdec, htag⟩
    · cases h

theorem exchange_records {cdb : Bytes} (hpos : 0 < cdb.length) (hmax : cdb.length ≤ MAX_CDB_LEN) (direction : Direction)
    (data : Bytes) (phase_error : String) {ask_why : BusM σ (Option Sense)}
    (hwhy : Records Bus.log ask_why fun _ new => Exchanges new) :
    Records Bus.log (exchange t cdb direction data phase_error ask_why) fun _ new => Exchanges new := by
  unfold exchange
  refine Records.bind (Q := fun r new => ∃ tag, r = .ok tag ∧ new = [.command (cdb.getD 0 0) tag data.length direction])
    (fun b => ⟨_, rfl, b.tag, rfl, rfl⟩) ?_ ?_
  · rintro e new ⟨tag, h, -⟩
    cases h
  · rintro tag new ⟨tag', h, rfl⟩
    cases h
    refine Records.mono (Q := fun _ more => Body tag more) ?_ fun _ _ h => h.exchanges
    obtain ⟨enc, henc⟩ : ∃ enc, (CommandBlockWrapper.new tag (UInt32.ofNat data.length) direction cdb).encode =
        .ok enc := by
      unfold CommandBlockWrapper.encode
      rw [if_neg]
      · exact ⟨_, rfl⟩
      · rw [not_or, List.isEmpty_iff, not_lt]
        exact ⟨List.length_pos_iff.mp hpos, hmax⟩
    refine (send_cbw_records t henc).bind ?_ ?_
    · rintro e new (⟨h, -⟩ | ⟨e', -, rfl⟩ | ⟨e', n, -, hn, rfl⟩)
      · cases h
      · exact body_unsent
      · exact body_cut hn
    · rintro u new (⟨-, rfl⟩ | ⟨e', h, -⟩ | ⟨e', n, h, -⟩)
      · refine (data_phase_records t direction data).bind ?_ ?_
        · rintro e new ⟨q, hq, hnone, ⟨⟨b, h⟩, -⟩ | ⟨-, rfl⟩⟩
          · cases h
          · refine .of_fair (sentWhole_plain enc (hq.plain.append .reset)) (fair_reset enc hq ?_)
            simp [hnone, CSW_LEN]
        · rintro ⟨transferred, buf⟩ new ⟨q, hq, hnone, ⟨-, rfl⟩ | ⟨h, -⟩⟩
          · refine (status_phase_records t enc hq hnone).bind ?_ ?_
            · rintro e more (⟨csw, h, -⟩ | ⟨-, hbody⟩)
              · cases h
              · exact hbody
            · rintro csw more (⟨csw', -, hquiet, hstatus⟩ | ⟨⟨e, h⟩, -⟩)
              · have hfair : Segment.Fair ⟨tag, sentWhole enc (new ++ more)⟩ := fair_status enc hquiet hstatus.1
                unfold judge
                cases csw.status with
                | Passed =>
                  refine .ite (fun _ => .throw ?_) fun _ => .pure ?_
                  · rw [List.append_nil]
                    exact .of_fair (sentWhole_plain enc hquiet.plain) hfair
                  · rw [List.append_nil]
                    exact .of_fair (sentWhole_plain enc hquiet.plain) hfair
                | Failed =>
                  refine hwhy.bind ?_ ?_
                  · intro e rest hrest
                    exact ⟨sentWhole enc (new ++ more), rest, by simp [sentWhole], sentWhole_plain enc hquiet.plain,
                      hfair, hrest⟩
                  · intro sense rest hrest
                    refine .throw ⟨sentWhole enc (new ++ more), rest, by simp [sentWhole],
                      sentWhole_plain enc hquiet.plain, hfair, hrest⟩
                | PhaseError =>
                  refine (reset_throw_records t _).mono ?_
                  rintro r rest ⟨-, rfl⟩
                  have hreset := fair_status_reset enc hquiet hstatus
                  have hplain := sentWhole_plain enc (hquiet.plain.append .reset)
                  simpa [sentWhole] using Body.of_fair hplain hreset
              · cases h
          · exact absurd ⟨_, rfl⟩ h
      · cases h
      · cases h

theorem request_sense_records : Records Bus.log (request_sense t) fun _ new => Exchanges new := by
  refine Records.bind (exchange_records t (by simp [Bytes.patch, Bytes.put])
    (by simp [Bytes.patch, Bytes.put, MAX_CDB_LEN])
    _ _ _ (.pure .nil)) ?_ ?_
  · exact fun _ _ h => h
  · rintro ⟨n, buf⟩ new h
    refine .pure ?_
    rwa [List.append_nil]

theorem sense_if_records (ask_why : Bool) : Records Bus.log (sense_if t ask_why) fun _ new => Exchanges new := by
  refine .ite (fun _ => .pure .nil) fun _ => ?_
  refine ((request_sense_records t).attempt (R := fun _ new => Exchanges new) fun _ _ h => h).bind (fun _ _ h => h) ?_
  intro r new h
  cases r with
  | ok b => exact .pure (by rwa [List.append_nil])
  | error e => exact .pure (by rwa [List.append_nil])

/-! ## Runs of commands -/

/-- A command block that a CBW can carry. -/
structure Cdb where
  bytes : Bytes
  pos : 0 < bytes.length
  fits : bytes.length ≤ MAX_CDB_LEN

/-- A command as the device issues it. -/
inductive Call where
  | inner (cdb : Cdb) (direction : Direction) (data : Bytes) (ask_why : Bool)
  | out (cdb : Cdb) (data : Bytes) (ask_why : Bool)

/-- Issue a command. Its caller may do with the result what it wants. -/
def Call.issue : Call → BusM σ Unit
  | .inner cdb direction data ask_why => do
    let _ ← Run.attempt (command_inner t cdb.bytes direction data ask_why)
    return
  | .out cdb data ask_why => do
    let _ ← Run.attempt (command_out_inner t cdb.bytes data ask_why)
    return

def Call.issueAll : List Call → BusM σ Unit
  | [] => return
  | call :: rest => do
    call.issue t
    issueAll rest

/-- The device before its first command. -/
def Bus.fresh (s : σ) : Bus σ := ⟨s, 1, false, []⟩

theorem Exchanges.attempt_pure {x : BusM σ α} (hx : Records Bus.log x fun _ new => Exchanges new) :
    Records Bus.log (Run.attempt x >>= fun _ => pure ()) fun _ new => Exchanges new := by
  refine (hx.attempt (R := fun _ new => Exchanges new) fun _ _ h => h).bind (fun _ _ h => h) fun r new h => .pure ?_
  rwa [List.append_nil]

theorem Call.issue_records (call : Call) : Records Bus.log (call.issue t) fun _ new => Exchanges new := by
  cases call with
  | inner cdb direction data ask_why =>
    exact Exchanges.attempt_pure (exchange_records t cdb.pos cdb.fits _ _ _ (sense_if_records t ask_why))
  | out cdb data ask_why =>
    refine Exchanges.attempt_pure ((exchange_records t cdb.pos cdb.fits _ _ _ (sense_if_records t ask_why)).bind
      (fun _ _ h => h) ?_)
    rintro ⟨n, buf⟩ new h
    refine .pure ?_
    rwa [List.append_nil]

theorem Call.issueAll_records (calls : List Call) :
    Records Bus.log (Call.issueAll t calls) fun _ new => Exchanges new := by
  induction calls with
  | nil => exact .pure .nil
  | cons call rest ih =>
    refine (call.issue_records t).bind (fun _ _ h => h) fun _ new h => ?_
    exact ih.mono fun _ more hmore => h.append hmore

/-- Whatever the transport answers to whatever commands: every exchange that was not cut off by a
disconnect leaves the bus in step, exactly when the transport takes every CBW whole and every whole
status is well formed and carries the tag of its command. -/
theorem bus_in_step_iff {σ : Type} (t : BulkTransport σ) (calls : List Call) (s : σ) :
    (∀ x ∈ segments (final (Call.issueAll t calls (Bus.fresh s))).log, ¬ x.Disconnected → x.Settled) ↔
      ∀ x ∈ segments (final (Call.issueAll t calls (Bus.fresh s))).log, ¬ x.Disconnected → x.Orderly := by
  obtain ⟨new, hlog, hnew⟩ := Call.issueAll_records t calls (Bus.fresh s)
  have hall : (final (Call.issueAll t calls (Bus.fresh s))).log = new := hlog
  rw [hall]
  constructor
  · intro h x hx hstays
    exact (hnew.fair x hx hstays).mp (h x hx hstays)
  · intro h x hx hstays
    exact (hnew.fair x hx hstays).mpr (h x hx hstays)

/-- The status of another command, with tag 7. -/
def otherStatus : Bytes :=
  Bytes.patch (List.replicate CSW_LEN 0) [(0, Bytes.le 4 CSW_SIGNATURE), (4, Bytes.le 4 7)]

theorem takes_all (data : Bytes) : data.length ≤ data.length := le_rfl

/-- A drive that still has that status to send. -/
def leftover : BulkTransport Unit where
  write data := pure ⟨data.length, takes_all data⟩
  read n := pure ⟨otherStatus.take n, List.length_take_le _ _⟩
  max_transfer _ := 4096
  clear_halt _ := pure ()
  reset := pure ()

def testUnitReady : Call := .inner ⟨[OP_TEST_UNIT_READY, 0, 0, 0, 0, 0], by decide, by decide⟩ .None [] true

/-- What the command does: the tag does not match, and it returns without a reset. -/
def leftoverSegment : Segment where
  tag := 1
  events := [.wrote .Command (Bytes.patch (List.replicate CBW_LEN 0) (CommandBlockWrapper.new 1 0 .None
      [OP_TEST_UNIT_READY, 0, 0, 0, 0, 0]).fields) CBW_LEN,
    .read .Status CSW_LEN otherStatus]

theorem leftover_out_of_step :
    ∃ x ∈ segments (final (Call.issueAll leftover [testUnitReady] (Bus.fresh ()))).log,
      ¬ x.Disconnected ∧ ¬ x.Settled := by
  have hlog : segments (final (Call.issueAll leftover [testUnitReady] (Bus.fresh ()))).log = [leftoverSegment] := by
    decide
  have hdec : CommandStatusWrapper.decode (received .Status leftoverSegment.events) = .ok ⟨7, 0, .Passed⟩ := by
    decide
  refine ⟨leftoverSegment, by rw [hlog]; exact List.mem_cons_self, ?_, ?_⟩
  · rintro ⟨e, he, -⟩
    cases he
  · rintro (⟨-, csw, hcsw, htag⟩ | ⟨before, h⟩)
    · rw [hdec] at hcsw
      cases hcsw
      cases htag
    · have hlast := congrArg List.getLast? h
      rw [List.getLast?_concat] at hlast
      cases hlast

end LuksAndroid.Usb

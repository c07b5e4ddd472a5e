import LuksAndroid.Lib.Registry
import LuksAndroid.Lib.Word

/-!
# Handles and cancel tokens

The two tables of `jni/src/bridge.rs` behind the numbers that Java holds. Both take an id from an atomic
counter before they lock their table, so calls of several threads interleave in between.
-/

namespace LuksAndroid.Bridge

/-- `as i64` -/
def as_i64 (n : Nat) : Int := if n < 2 ^ 63 then n else n - 2 ^ 64

theorem as_i64_of_lt {n : Nat} (h : n < 2 ^ 63) : as_i64 n = n := if_pos h

namespace Handles

inductive HandleKind where
  | Device
  | Volume
  | Writer
deriving DecidableEq, Repr

inductive Payload (δ ν ψ : Type) where
  | Device (d : δ)
  | Volume (v : ν)
  | Writer (w : ψ)
deriving DecidableEq, Repr

def MAGIC : Nat := 0x4C554B535F484E31

structure Handle (δ ν ψ : Type) where
  magic : Nat
  payload : Payload δ ν ψ
deriving DecidableEq, Repr

variable {ι δ ν ψ : Type}

def Payload.kind : Payload δ ν ψ → HandleKind
  | .Device _ => .Device
  | .Volume _ => .Volume
  | .Writer _ => .Writer

/-- What `drop_handle` leaves of an entry. -/
def close (want : HandleKind) (h : Handle δ ν ψ) : Option (Handle δ ν ψ) :=
  if h.payload.kind = want then none else some h

/-- The calls of a thread. `into_raw` has two steps. -/
inductive Call (ι δ ν ψ : Type) where
  | into_raw (t : ι) (payload : Payload δ ν ψ)
  | inserted (t : ι)
  | drop_handle (handle : Int) (want : HandleKind)

def Call.actions : Call ι δ ν ψ → List (Registry.Action ι (Handle δ ν ψ) HandleKind)
  | .into_raw t payload => [.take t ⟨MAGIC, payload⟩]
  | .inserted t => [.file t]
  | .drop_handle handle want => if handle ≤ 0 then [] else [.alter handle.toNat want]

abbrev Table (ι δ ν ψ : Type) := Registry ι (Handle δ ν ψ) HandleKind

def run [DecidableEq ι] (s : Table ι δ ν ψ) (calls : List (Call ι δ ν ψ)) : Option (Table ι δ ν ψ) :=
  Machine.run (Registry.step Word.size close) s (calls.flatMap Call.actions)

/-- How often `into_raw` is called. -/
def registrations (calls : List (Call ι δ ν ψ)) : Nat := Registry.takes (calls.flatMap Call.actions)

def CLOSED : String := "not a luks handle (already closed?)"

def handle_ref (s : Table ι δ ν ψ) (handle : Int) : Except String (Handle δ ν ψ) :=
  if handle ≤ 0 then .error CLOSED
  else
    match s.entries handle.toNat with
    | none => .error CLOSED
    | some entry => if entry.magic ≠ MAGIC then .error CLOSED else .ok entry

def device_ref (s : Table ι δ ν ψ) (handle : Int) : Except String δ := do
  let h ← handle_ref s handle
  match h.payload with
  | .Device d => return d
  | .Volume _ => throw "handle is a volume, not a device"
  | .Writer _ => throw "handle is a file writer, not a device"

def volume_ref (s : Table ι δ ν ψ) (handle : Int) : Except String ν := do
  let h ← handle_ref s handle
  match h.payload with
  | .Volume v => return v
  | .Device _ => throw "handle is a device, not a volume"
  | .Writer _ => throw "handle is a file writer, not a volume"

def writer_ref (s : Table ι δ ν ψ) (handle : Int) : Except String ψ := do
  let h ← handle_ref s handle
  match h.payload with
  | .Writer w => return w
  | .Device _ => throw "handle is not a file writer"
  | .Volume _ => throw "handle is not a file writer"

/-! ## What a handle stands for -/

/-- By the record, the handle was given out for the payload, and was not closed since. -/
def Open (record : List (Registry.Event (Handle δ ν ψ) HandleKind)) (handle : Int) (p : Payload δ ν ψ) : Prop :=
  ∃ n pre post, handle = as_i64 n ∧ record = pre ++ .filed n ⟨MAGIC, p⟩ :: post ∧ .altered n p.kind ∉ post

/-- The handles that were given out, in their order. -/
def given (record : List (Registry.Event (Handle δ ν ψ) HandleKind)) : List Int :=
  (Registry.filedNumbers record).map as_i64

variable {s s' : Table ι δ ν ψ}

theorem outcome_close {n : Nat} {e v : Handle δ ν ψ} {post : List (Registry.Event (Handle δ ν ψ) HandleKind)}
    (h : n ∉ Registry.filedNumbers post) :
    Registry.outcome close n (some e) post = some v ↔ e = v ∧ .altered n e.payload.kind ∉ post := by
  induction post with
  | nil => simp [Registry.outcome]
  | cons event rest ih =>
    cases event with
    | filed m a =>
      rw [Registry.filedNumbers, List.mem_cons, not_or] at h
      rw [Registry.outcome, if_neg (Ne.symm h.1), ih h.2]
      simp
    | altered m want =>
      rw [Registry.filedNumbers] at h
      rw [Registry.outcome]
      by_cases hm : m = n
      · subst hm
        rw [if_pos rfl, Option.bind_some, close]
        by_cases hwant : e.payload.kind = want
        · rw [if_pos hwant, Registry.outcome_none h]
          simp [hwant]
        · rw [if_neg hwant, ih h]
          simp [hwant]
      · rw [if_neg hm, ih h]
        simp [Ne.symm hm]

section

variable {k : Nat} (hinv : Registry.Inv close k s) (hk : k < 2 ^ 63)

include hinv in
theorem entry_iff {n : Nat} {e : Handle δ ν ψ} :
    s.entries n = some e ↔ ∃ pre post, s.record = pre ++ .filed n e :: post ∧ .altered n e.payload.kind ∉ post := by
  constructor
  · intro hentry
    obtain ⟨pre, a, post, hrecord⟩ := hinv.filed_of_entry hentry
    obtain ⟨hnew, hout⟩ := hinv.entry hrecord
    rw [hentry] at hout
    obtain ⟨rfl, hopen⟩ := (outcome_close hnew).mp hout.symm
    exact ⟨pre, post, hrecord, hopen⟩
  · rintro ⟨pre, post, hrecord, hopen⟩
    obtain ⟨hnew, hout⟩ := hinv.entry hrecord
    rw [hout]
    exact (outcome_close hnew).mpr ⟨rfl, hopen⟩

include hinv hk in
theorem handle_ref_iff {handle : Int} {p : Payload δ ν ψ} :
    handle_ref s handle = .ok ⟨MAGIC, p⟩ ↔ Open s.record handle p := by
  unfold handle_ref Open
  constructor
  · intro h
    split at h
    · cases h
    · rename_i hpos
      split at h
      · cases h
      · rename_i entry hentry
        split at h
        · cases h
        · cases h
          obtain ⟨pre, post, hrecord, hopen⟩ := (entry_iff hinv).mp hentry
          have hmem : handle.toNat ∈ Registry.filedNumbers s.record := by
            rw [hrecord]
            exact Registry.mem_filedNumbers.mpr ⟨_, List.mem_append_right _ List.mem_cons_self⟩
          have hrange := hinv.filed _ hmem
          refine ⟨handle.toNat, pre, post, ?_, hrecord, hopen⟩
          rw [as_i64_of_lt (by omega)]
          omega
  · rintro ⟨n, pre, post, rfl, hrecord, hopen⟩
    have hmem : n ∈ Registry.filedNumbers s.record := by
      rw [hrecord]
      exact Registry.mem_filedNumbers.mpr ⟨_, List.mem_append_right _ List.mem_cons_self⟩
    have hrange := hinv.filed _ hmem
    have hentry := (entry_iff hinv).mpr ⟨pre, post, hrecord, hopen⟩
    rw [as_i64_of_lt (by omega), if_neg (by omega), Int.toNat_natCast, hentry]
    exact if_neg (fun h => h rfl)

end

theorem handle_ref_magic {handle : Int} {h : Handle δ ν ψ} (href : handle_ref s handle = .ok h) :
    h = ⟨MAGIC, h.payload⟩ := by
  unfold handle_ref at href
  split at href
  · cases href
  · split at href
    · cases href
    · split at href
      · cases href
      · rename_i hmagic
        cases href
        rw [not_not] at hmagic
        cases h
        simp only at hmagic
        rw [hmagic]

theorem device_ref_iff {handle : Int} {d : δ} :
    device_ref s handle = .ok d ↔ handle_ref s handle = .ok ⟨MAGIC, .Device d⟩ := by
  unfold device_ref
  cases hs : handle_ref s handle with
  | error e => simp [bind, Except.bind]
  | ok h =>
    rw [handle_ref_magic hs]
    cases h.payload <;> simp [bind, Except.bind, pure, Except.pure, throw, throwThe, MonadExceptOf.throw]

theorem volume_ref_iff {handle : Int} {v : ν} :
    volume_ref s handle = .ok v ↔ handle_ref s handle = .ok ⟨MAGIC, .Volume v⟩ := by
  unfold volume_ref
  cases hs : handle_ref s handle with
  | error e => simp [bind, Except.bind]
  | ok h =>
    rw [handle_ref_magic hs]
    cases h.payload <;> simp [bind, Except.bind, pure, Except.pure, throw, throwThe, MonadExceptOf.throw]

theorem writer_ref_iff {handle : Int} {w : ψ} :
    writer_ref s handle = .ok w ↔ handle_ref s handle = .ok ⟨MAGIC, .Writer w⟩ := by
  unfold writer_ref
  cases hs : handle_ref s handle with
  | error e => simp [bind, Except.bind]
  | ok h =>
    rw [handle_ref_magic hs]
    cases h.payload <;> simp [bind, Except.bind, pure, Except.pure, throw, throwThe, MonadExceptOf.throw]

section

variable [DecidableEq ι]

theorem run_inv {calls : List (Call ι δ ν ψ)} (hfew : registrations calls < 2 ^ 63)
    (hrun : run Registry.empty calls = some s) : Registry.Inv close (registrations calls) s := by
  have hinv := Registry.Inv.run (calls.flatMap Call.actions) Registry.inv_empty
    (by unfold registrations at hfew; unfold Word.size; omega) hrun
  rwa [Nat.zero_add] at hinv

theorem run_append {calls more : List (Call ι δ ν ψ)} {start : Table ι δ ν ψ} (hrun : run start calls = some s)
    (hmore : run s more = some s') : run start (calls ++ more) = some s' := by
  unfold run at hrun hmore ⊢
  rw [List.flatMap_append, Machine.run_append]
  exact ⟨s, hrun, hmore⟩

omit [DecidableEq ι] in
theorem closed_stays {k : Nat} (hinv : Registry.Inv close k s') (hk : k < 2 ^ 63)
    {new : List (Registry.Event (Handle δ ν ψ) HandleKind)} (hrecord : s'.record = s.record ++ new) {handle : Int}
    (hgiven : handle ∈ given s.record) {p : Payload δ ν ψ} (hopen : Open s'.record handle p) :
    Open s.record handle p := by
  obtain ⟨n, hn, rfl⟩ := List.mem_map.mp hgiven
  obtain ⟨m, pre, post, heq, hsplit, hlive⟩ := hopen
  have hfiledn : n ∈ Registry.filedNumbers s'.record := by
    rw [hrecord, Registry.filedNumbers_append]
    exact List.mem_append_left _ hn
  have hfiledm : m ∈ Registry.filedNumbers s'.record := by
    rw [hsplit]
    exact Registry.mem_filedNumbers.mpr ⟨_, List.mem_append_right _ List.mem_cons_self⟩
  have hnrange := hinv.filed n hfiledn
  have hmrange := hinv.filed m hfiledm
  rw [as_i64_of_lt (by omega), as_i64_of_lt (by omega), Int.natCast_inj] at heq
  subst heq
  -- The number was filed before `new`, and only once, so the filing that opens the handle is that one.
  obtain ⟨a, ha⟩ := Registry.mem_filedNumbers.mp hn
  obtain ⟨front, back, hfront⟩ := List.append_of_mem ha
  have hwhole : s'.record = front ++ .filed n a :: (back ++ new) := by
    rw [hrecord, hfront, List.append_assoc, List.cons_append]
  obtain ⟨hnewback, hout⟩ := hinv.entry hwhole
  obtain ⟨hnewpost, hout'⟩ := hinv.entry hsplit
  have hentry := hout'.trans ((outcome_close hnewpost).mpr ⟨rfl, hlive⟩)
  rw [hout] at hentry
  obtain ⟨rfl, hkept⟩ := (outcome_close hnewback).mp hentry
  rw [List.mem_append, not_or] at hkept
  exact ⟨n, front, back, rfl, hfront, hkept.1⟩

/-- However the calls of the threads interleave: handles are positive and no two are alike, a handle gives
the very payload it was given out for, in the shape that is asked for, until it is closed as what it is, and
nothing ever after. -/
theorem handles_name_their_payload {calls more : List (Call ι δ ν ψ)}
    (hfew : registrations (calls ++ more) < 2 ^ 63) (hrun : run Registry.empty calls = some s)
    (hmore : run s more = some s') :
    ((given s'.record).Nodup ∧ ∀ h ∈ given s'.record, 0 < h) ∧
    (∀ h, (∀ d, device_ref s' h = .ok d ↔ Open s'.record h (.Device d)) ∧
      (∀ v, volume_ref s' h = .ok v ↔ Open s'.record h (.Volume v)) ∧
      ∀ w, writer_ref s' h = .ok w ↔ Open s'.record h (.Writer w)) ∧
    ∀ h ∈ given s.record, (∀ p, ¬ Open s.record h p) → handle_ref s' h = .error CLOSED := by
  have hinv := run_inv hfew (run_append hrun hmore)
  obtain ⟨new, hrecord⟩ := Registry.record_run _ hmore
  refine ⟨⟨?_, ?_⟩, fun h => ⟨fun d => ?_, fun v => ?_, fun w => ?_⟩, fun h hgiven hclosed => ?_⟩
  · refine hinv.once.map_on fun a ha b hb hab => ?_
    have harange := hinv.filed a ha
    have hbrange := hinv.filed b hb
    rwa [as_i64_of_lt (by omega), as_i64_of_lt (by omega), Int.natCast_inj] at hab
  · intro h hmem
    obtain ⟨n, hn, rfl⟩ := List.mem_map.mp hmem
    have hrange := hinv.filed n hn
    rw [as_i64_of_lt (by omega)]
    omega
  · rw [device_ref_iff, handle_ref_iff hinv hfew]
  · rw [volume_ref_iff, handle_ref_iff hinv hfew]
  · rw [writer_ref_iff, handle_ref_iff hinv hfew]
  · cases href : handle_ref s' h with
    | ok entry =>
      rw [handle_ref_magic href] at href
      exact absurd (closed_stays hinv hfew hrecord hgiven ((handle_ref_iff hinv hfew).mp href)) (hclosed _)
    | error e =>
      unfold handle_ref at href
      split at href
      · rw [← href]
      · split at href
        · rw [← href]
        · split at href
          · rw [← href]
          · cases href

end

/-- Two threads at once: the second id is filed first, and closing the volume as a device does nothing. -/
def twoThreads : List (Call Bool String Nat Unit) :=
  [.into_raw true (.Device "usb"), .into_raw false (.Volume 7), .inserted false, .drop_handle 2 .Device,
    .inserted true]

theorem handles_name_their_payload_twoThreads :
    ∃ s s', run Registry.empty twoThreads = some s ∧ run s [.drop_handle 1 .Device] = some s' ∧
      volume_ref s' 2 = .ok 7 := by
  have hrecord : (run Registry.empty (twoThreads ++ [.drop_handle 1 .Device])).map Registry.record =
      some [.filed 2 ⟨MAGIC, .Volume 7⟩, .altered 2 .Device, .filed 1 ⟨MAGIC, .Device "usb"⟩, .altered 1 .Device] := by
    decide +kernel
  obtain ⟨s', hboth, hrecord⟩ := Option.map_eq_some_iff.mp hrecord
  unfold run at hboth
  rw [List.flatMap_append, Machine.run_append] at hboth
  obtain ⟨s, hrun, hmore⟩ := hboth
  have hfew : registrations (twoThreads ++ [.drop_handle 1 .Device]) < 2 ^ 63 := by decide
  have hnamed := handles_name_their_payload hfew hrun hmore
  refine ⟨s, s', hrun, hmore, ((hnamed.2.1 2).2.1 7).mpr ?_⟩
  rw [hrecord]
  exact ⟨2, [], _, rfl, rfl, by decide⟩

end Handles

/-! ## Cancel tokens -/

namespace CancelTokens

variable {ι : Type}

inductive Op where
  | cancel
  | unregister
deriving DecidableEq, Repr

def Op.apply : Op → Bool → Option Bool
  | .cancel, _ => some true
  | .unregister, _ => none

/-- The calls of a thread. Token 0 is no token. -/
inductive Call (ι : Type) where
  | register_cancel_token (t : ι)
  | inserted (t : ι)
  | cancel_operation (token_id : Nat)
  | unregister_cancel_token (token_id : Nat)

def Call.actions : Call ι → List (Registry.Action ι Bool Op)
  | .register_cancel_token t => [.take t false]
  | .inserted t => [.file t]
  | .cancel_operation token_id => if token_id = 0 then [] else [.alter token_id .cancel]
  | .unregister_cancel_token token_id => if token_id = 0 then [] else [.alter token_id .unregister]

abbrev Table (ι : Type) := Registry ι Bool Op

def run [DecidableEq ι] (s : Table ι) (calls : List (Call ι)) : Option (Table ι) :=
  Machine.run (Registry.step Word.size Op.apply) s (calls.flatMap Call.actions)

def registrations (calls : List (Call ι)) : Nat := Registry.takes (calls.flatMap Call.actions)

def is_cancelled (s : Table ι) (token_id : Nat) : Bool :=
  if token_id = 0 then false
  else
    match s.entries token_id with
    | some flag => flag
    | none => false

variable {s : Table ι}

theorem outcome_flag {n : Nat} {b : Bool} {post : List (Registry.Event Bool Op)}
    (h : n ∉ Registry.filedNumbers post) :
    Registry.outcome Op.apply n (some b) post = some true ↔
      (b = true ∨ .altered n .cancel ∈ post) ∧ .altered n .unregister ∉ post := by
  induction post generalizing b with
  | nil => simp [Registry.outcome]
  | cons event rest ih =>
    cases event with
    | filed m a =>
      rw [Registry.filedNumbers, List.mem_cons, not_or] at h
      rw [Registry.outcome, if_neg (Ne.symm h.1), ih h.2]
      simp
    | altered m o =>
      rw [Registry.filedNumbers] at h
      rw [Registry.outcome]
      by_cases hm : m = n
      · subst hm
        rw [if_pos rfl, Option.bind_some]
        cases o with
        | cancel =>
          rw [Op.apply, ih h]
          simp
        | unregister =>
          rw [Op.apply, Registry.outcome_none h]
          simp
      · rw [if_neg hm, ih h]
        simp [Ne.symm hm]

theorem is_cancelled_iff {token_id : Nat} :
    is_cancelled s token_id = true ↔ token_id ≠ 0 ∧ s.entries token_id = some true := by
  unfold is_cancelled
  split
  · simp [*]
  · cases s.entries token_id <;> simp [*]

theorem take_false (calls : List (Call ι)) :
    ∀ t a, Registry.Action.take t a ∈ calls.flatMap Call.actions → a = false := by
  intro t a hmem
  obtain ⟨call, -, haction⟩ := List.mem_flatMap.mp hmem
  cases call with
  | register_cancel_token u =>
    simp only [Call.actions, List.mem_singleton, Registry.Action.take.injEq] at haction
    exact haction.2
  | inserted u => simp [Call.actions] at haction
  | cancel_operation id =>
    rw [Call.actions] at haction
    split at haction
    · exact absurd haction List.not_mem_nil
    · simp at haction
  | unregister_cancel_token id =>
    rw [Call.actions] at haction
    split at haction
    · exact absurd haction List.not_mem_nil
    · simp at haction

/-- However the calls of the threads interleave: a token reads as cancelled exactly when it was cancelled
after it was registered and was not unregistered since it was registered. -/
theorem cancelled_iff [DecidableEq ι] {calls : List (Call ι)} (hfew : registrations calls + 1 < Word.size)
    (hrun : run Registry.empty calls = some s) (token_id : Nat) :
    is_cancelled s token_id = true ↔
      ∃ pre mid post, s.record = pre ++ .filed token_id false :: (mid ++ .altered token_id .cancel :: post) ∧
        .altered token_id .unregister ∉ mid ++ post := by
  have hinv := Registry.Inv.run (calls.flatMap Call.actions) Registry.inv_empty
    (by rwa [Nat.zero_add]) hrun
  have hfalse := Registry.filed_run (calls.flatMap Call.actions) (take_false calls) (fun _ _ _ h => by cases h)
    (fun _ _ h => absurd h List.not_mem_nil) hrun
  constructor
  · intro hflag
    obtain ⟨-, hentry⟩ := is_cancelled_iff.mp hflag
    obtain ⟨pre, a, rest, hrecord⟩ := hinv.filed_of_entry hentry
    obtain ⟨hnew, hout⟩ := hinv.entry hrecord
    obtain rfl := hfalse token_id a (hrecord ▸ List.mem_append_right _ List.mem_cons_self)
    obtain ⟨hcancel, hkept⟩ := (outcome_flag hnew).mp (hout.symm.trans hentry)
    obtain ⟨mid, post, rfl⟩ := List.append_of_mem (hcancel.resolve_left Bool.false_ne_true)
    refine ⟨pre, mid, post, hrecord, ?_⟩
    rw [List.mem_append, List.mem_cons, not_or, not_or] at hkept
    rw [List.mem_append, not_or]
    exact ⟨hkept.1, hkept.2.2⟩
  · rintro ⟨pre, mid, post, hrecord, hkept⟩
    obtain ⟨hnew, hout⟩ := hinv.entry hrecord
    have hrange := hinv.filed token_id
      (hrecord ▸ Registry.mem_filedNumbers.mpr ⟨_, List.mem_append_right _ List.mem_cons_self⟩)
    refine is_cancelled_iff.mpr ⟨by omega, hout.trans ((outcome_flag hnew).mpr ⟨.inr ?_, ?_⟩)⟩
    · exact List.mem_append_right _ List.mem_cons_self
    · rw [List.mem_append, not_or] at hkept
      rw [List.mem_append, List.mem_cons, not_or, not_or]
      exact ⟨hkept.1, by simp, hkept.2⟩

/-- A thread registers two tokens. The second is cancelled, and the first cancelled before it is filed. -/
def twoTokens : List (Call Unit) :=
  [.register_cancel_token (), .cancel_operation 1, .inserted (), .register_cancel_token (), .inserted (),
    .cancel_operation 2, .unregister_cancel_token 1]

theorem cancelled_iff_twoTokens : ∃ s, run Registry.empty twoTokens = some s ∧ is_cancelled s 2 = true := by
  have hrecord : (run Registry.empty twoTokens).map Registry.record = some [.altered 1 .cancel, .filed 1 false,
      .filed 2 false, .altered 2 .cancel, .altered 1 .unregister] := by
    decide +kernel
  obtain ⟨s, hrun, hrecord⟩ := Option.map_eq_some_iff.mp hrecord
  refine ⟨s, hrun, (cancelled_iff (by decide +kernel) hrun 2).mpr ?_⟩
  rw [hrecord]
  exact ⟨[.altered 1 .cancel, .filed 1 false], [], [.altered 1 .unregister], rfl, by decide⟩

end CancelTokens

end LuksAndroid.Bridge

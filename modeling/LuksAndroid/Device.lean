import LuksAndroid.Error
import LuksAndroid.Lib.Bytes
import LuksAndroid.Lib.Run

/-!
# Devices

The traits of `core/src/device.rs`. A device has a state of its own and may fail at
any call. What is asked of it is recorded, whether or not it complies.
-/

namespace LuksAndroid

/-- A read fills its buffer, or it is an error. -/
structure ReadAt (σ : Type) where
  len : Option Nat
  read_at : (offset n : Nat) → EStateM LuksError σ { b : Bytes // b.length = n }

structure WriteAt (σ : Type) extends ReadAt σ where
  write_at : Nat → Bytes → EStateM LuksError σ Unit
  flush : EStateM LuksError σ Unit

inductive Access where
  | read (offset n : Nat)
  | write (offset : Nat) (data : Bytes)
  | flush
deriving DecidableEq, Repr

/-- The device, what was asked of it so far, and whether it ever failed. -/
structure Io (σ : Type) where
  state : σ
  accesses : List Access
  failed : Bool

abbrev IoM (σ : Type) := EStateM LuksError (Io σ)

variable {σ : Type}

def IoM.lift {α : Type} (x : Except LuksError α) : IoM σ α :=
  match x with
  | .ok a => pure a
  | .error e => throw e

/-- `result.ok()`. -/
def IoM.ok {α : Type} (x : IoM σ α) : IoM σ (Option α) := fun io =>
  match x io with
  | .ok a io => .ok (some a) io
  | .error _ io => .ok none io

theorem IoM.lift_ok {α : Type} {x : Except LuksError α} {a : α} {io io' : Io σ} :
    IoM.lift x io = .ok a io' ↔ x = .ok a ∧ io = io' := by
  cases x with
  | error e => simp [IoM.lift, Run.throw_ok]
  | ok b => simp [IoM.lift, Run.pure_ok]

theorem IoM.ok_some {α : Type} {x : IoM σ α} {a : α} {io io' : Io σ} :
    x.ok io = .ok (some a) io' ↔ x io = .ok a io' := by
  unfold IoM.ok
  cases x io with
  | ok b io => simp
  | error e io => simp

/-- Ask the device for something. -/
def IoM.ask {α : Type} (a : Access) (x : EStateM LuksError σ α) : IoM σ α := fun io =>
  match x io.state with
  | .ok r s => .ok r { io with state := s, accesses := io.accesses ++ [a] }
  | .error e s => .error e { state := s, accesses := io.accesses ++ [a], failed := true }

def ReadAt.read (d : ReadAt σ) (offset n : Nat) : IoM σ Bytes := do
  let b ← IoM.ask (.read offset n) (d.read_at offset n)
  return b.1

def WriteAt.write (d : WriteAt σ) (offset : Nat) (data : Bytes) : IoM σ Unit :=
  IoM.ask (.write offset data) (d.write_at offset data)

def WriteAt.sync (d : WriteAt σ) : IoM σ Unit := IoM.ask .flush d.flush

/-! ## A plain store -/

def load (m : Nat → UInt8) (offset n : Nat) : Bytes := (List.range n).map fun i => m (offset + i)

def store (m : Nat → UInt8) (offset : Nat) (data : Bytes) : Nat → UInt8 := fun i =>
  if offset ≤ i ∧ i < offset + data.length then data.getD (i - offset) 0 else m i

/-- A store of `cap` bytes that never fails within them. Its length may be unknown. -/
def memory (cap : Nat) (known : Bool) : WriteAt (Nat → UInt8) where
  len := if known then some cap else none
  read_at offset n := fun m =>
    if offset + n ≤ cap then .ok ⟨load m offset n, by simp [load]⟩ m else .error .OutOfBounds m
  write_at offset data := fun m =>
    if offset + data.length ≤ cap then .ok () (store m offset data) else .error .OutOfBounds m
  flush := pure ()

@[simp] theorem length_load (m : Nat → UInt8) (offset n : Nat) : (load m offset n).length = n := by
  simp [load]

theorem load_store_self (m : Nat → UInt8) (offset : Nat) (data : Bytes) :
    load (store m offset data) offset data.length = data := by
  apply List.ext_getElem
  · simp
  · intro i h1 h2
    rw [length_load] at h1
    simp [load, store, h1]

theorem load_store_of_apart (m : Nat → UInt8) {p offset n : Nat} {data : Bytes}
    (h : Bytes.Apart (p, data.length) (offset, n)) : load (store m p data) offset n = load m offset n := by
  apply List.map_congr_left
  intro i hi
  have hi' := List.mem_range.mp hi
  rw [store, if_neg]
  rcases h with h | h <;> simp only at h <;> omega

theorem memory_read_eq (cap : Nat) (known : Bool) (offset n : Nat) (io : Io (Nat → UInt8)) :
    (memory cap known).read offset n io =
      if offset + n ≤ cap
      then .ok (load io.state offset n) { io with accesses := io.accesses ++ [.read offset n] }
      else .error .OutOfBounds
        { io with accesses := io.accesses ++ [.read offset n], failed := true } := by
  simp only [ReadAt.read, IoM.ask, memory, bind, EStateM.bind]
  by_cases h : offset + n ≤ cap
  · simp only [if_pos h]
    rfl
  · simp only [if_neg h]

theorem memory_write_ok {cap : Nat} {known : Bool} {offset : Nat} {data : Bytes} {u : Unit}
    {io io' : Io (Nat → UInt8)} (h : (memory cap known).write offset data io = .ok u io') :
    offset + data.length ≤ cap ∧ io'.state = store io.state offset data := by
  simp only [WriteAt.write, IoM.ask, memory] at h
  by_cases hcap : offset + data.length ≤ cap
  · rw [if_pos hcap] at h
    cases h
    exact ⟨hcap, rfl⟩
  · rw [if_neg hcap] at h
    cases h

theorem memory_sync_ok {cap : Nat} {known : Bool} {u : Unit} {io io' : Io (Nat → UInt8)}
    (h : (memory cap known).sync io = .ok u io') : io'.state = io.state := by
  simp only [WriteAt.sync, IoM.ask, memory] at h
  cases h
  rfl

theorem memory_write_run {cap : Nat} (known : Bool) {offset : Nat} {data : Bytes}
    (h : offset + data.length ≤ cap) (io : Io (Nat → UInt8)) :
    ∃ io', (memory cap known).write offset data io = .ok () io' := by
  simp only [WriteAt.write, IoM.ask, memory, if_pos h]
  exact ⟨_, rfl⟩

theorem memory_sync_run (cap : Nat) (known : Bool) (io : Io (Nat → UInt8)) :
    ∃ io', (memory cap known).sync io = .ok () io' := ⟨_, rfl⟩

/-! ## What a computation asks for -/

/-- The bytes an access touches lie in `[lo, hi)`. -/
def Access.Inside (lo hi : Nat) : Access → Prop
  | .read offset n => lo ≤ offset ∧ offset + n ≤ hi
  | .write offset data => lo ≤ offset ∧ offset + data.length ≤ hi
  | .flush => True

def Access.isWrite : Access → Bool
  | .write _ _ => true
  | _ => false

/-- What is left of a computation, whether it ended well or not. -/
def after {ε α : Type} {τ : Type} : EStateM.Result ε τ α → τ
  | .ok _ s => s
  | .error _ s => s

/-- Whatever the computation asks for satisfies `P`. -/
def Asks {α : Type} (P : Access → Prop) (x : IoM σ α) : Prop :=
  ∀ io, ∃ new, (after (x io)).accesses = io.accesses ++ new ∧ ∀ a ∈ new, P a

variable {α β : Type} {P : Access → Prop}

theorem Asks.mono {Q : Access → Prop} {x : IoM σ α} (h : Asks P x) (hPQ : ∀ a, P a → Q a) :
    Asks Q x := by
  intro io
  obtain ⟨new, heq, hnew⟩ := h io
  exact ⟨new, heq, fun a ha => hPQ a (hnew a ha)⟩

theorem Asks.pure (a : α) : Asks P (pure a : IoM σ α) := fun io => ⟨[], by simp [after, Pure.pure, EStateM.pure]⟩

theorem Asks.throw (e : LuksError) : Asks P (throw e : IoM σ α) :=
  fun io => ⟨[], by simp [after, MonadExcept.throw, throwThe, MonadExceptOf.throw, EStateM.throw]⟩

theorem Asks.lift (x : Except LuksError α) : Asks P (IoM.lift x : IoM σ α) := by
  cases x with
  | ok a => exact .pure a
  | error e => exact .throw e

/-- The rest only has to behave for what the first part can return. -/
theorem Asks.bind {x : IoM σ α} {f : α → IoM σ β} (hx : Asks P x)
    (hf : ∀ a io io', x io = .ok a io' → Asks P (f a)) : Asks P (x >>= f) := by
  intro io
  obtain ⟨new, heq, hnew⟩ := hx io
  simp only [Bind.bind, EStateM.bind]
  cases hr : x io with
  | error e io' =>
    rw [hr] at heq
    exact ⟨new, heq, hnew⟩
  | ok a io' =>
    rw [hr] at heq
    obtain ⟨new', heq', hnew'⟩ := hf a io io' hr io'
    refine ⟨new ++ new', ?_, ?_⟩
    · rw [heq', ← List.append_assoc]
      exact congrArg (· ++ new') heq
    · intro b hb
      rcases List.mem_append.mp hb with hb | hb
      · exact hnew b hb
      · exact hnew' b hb

theorem Asks.lift_bind {x : Except LuksError α} {f : α → IoM σ β}
    (hf : ∀ a, x = .ok a → Asks P (f a)) : Asks P (IoM.lift x >>= f) :=
  (Asks.lift x).bind fun a _ _ h => hf a (IoM.lift_ok.mp h).1

theorem Asks.ask {a : Access} (h : P a) (x : EStateM LuksError σ α) : Asks P (IoM.ask a x) := by
  intro io
  refine ⟨[a], ?_, by simpa using h⟩
  unfold IoM.ask
  cases x io.state with
  | ok r s => rfl
  | error e s => rfl

theorem mem_after_ask (a : Access) (x : EStateM LuksError σ α) (io : Io σ) :
    a ∈ (after (IoM.ask a x io)).accesses := by
  unfold IoM.ask
  cases hx : x io.state with
  | ok r s => simp [after]
  | error e s => simp [after]

theorem mem_after_bind {x : IoM σ α} {f : α → IoM σ β} {a : Access} {io : Io σ}
    (h : a ∈ (after (x io)).accesses) (hf : ∀ b, Asks (fun _ => True) (f b)) :
    a ∈ (after ((x >>= f) io)).accesses := by
  simp only [Bind.bind, EStateM.bind]
  cases hr : x io with
  | error e io' =>
    rw [hr] at h
    exact h
  | ok b io' =>
    rw [hr] at h
    obtain ⟨new, heq, -⟩ := hf b io'
    simp only [heq]
    exact List.mem_append_left _ h

theorem Asks.read {d : ReadAt σ} {offset n : Nat} (h : P (.read offset n)) : Asks P (d.read offset n) :=
  (Asks.ask h _).bind fun _ _ _ _ => .pure _

theorem Asks.write {d : WriteAt σ} {offset : Nat} {data : Bytes} (h : P (.write offset data)) :
    Asks P (d.write offset data) := .ask h _

theorem Asks.ite {c : Prop} [Decidable c] {x y : IoM σ α} (hx : c → Asks P x) (hy : ¬ c → Asks P y) :
    Asks P (if c then x else y) := by
  split
  · exact hx ‹_›
  · exact hy ‹_›

theorem ReadAt.length_read {d : ReadAt σ} {offset n : Nat} {b : Bytes} {io io' : Io σ}
    (h : d.read offset n io = .ok b io') : b.length = n := by
  obtain ⟨c, io₁, -, h⟩ := Run.bind_ok.mp h
  obtain ⟨rfl, -⟩ := Run.pure_ok.mp h
  exact c.2

/-- A property of computations that sequencing keeps. -/
structure Sequential (G : {α : Type} → IoM σ α → Prop) : Prop where
  pure : ∀ {α : Type} (a : α), G (pure a : IoM σ α)
  bind : ∀ {α β : Type} {x : IoM σ α} {f : α → IoM σ β}, G x →
    (∀ a io io', x io = .ok a io' → G (f a)) → G (x >>= f)

theorem Asks.sequential : Sequential (σ := σ) (Asks P) := ⟨.pure, .bind⟩

/-! ## Refusals -/

/-- An error that is not the device's own comes before any write. -/
def Clean (x : IoM σ α) : Prop :=
  ∀ io e io', x io = .error e io' → io'.failed = false →
    ∃ new, io'.accesses = io.accesses ++ new ∧ ∀ a ∈ new, a.isWrite = false

/-- Every error is the device's own. -/
def Steady (x : IoM σ α) : Prop := ∀ io e io', x io = .error e io' → io'.failed = true

theorem Steady.clean {x : IoM σ α} (h : Steady x) : Clean x := by
  intro io e io' hrun hfailed
  rw [h io e io' hrun] at hfailed
  cases hfailed

theorem Asks.clean {x : IoM σ α} (h : Asks (fun a => a.isWrite = false) x) : Clean x := by
  intro io e io' hrun _
  have := h io
  rwa [hrun] at this

theorem Steady.pure (a : α) : Steady (pure a : IoM σ α) := by
  intro io e io' h
  cases h

theorem Steady.ask (a : Access) (x : EStateM LuksError σ α) : Steady (IoM.ask a x) := by
  intro io e io' h
  unfold IoM.ask at h
  cases hx : x io.state with
  | ok r s => rw [hx] at h; cases h
  | error e s => rw [hx] at h; cases h; rfl

theorem Steady.bind {x : IoM σ α} {f : α → IoM σ β} (hx : Steady x)
    (hf : ∀ a io io', x io = .ok a io' → Steady (f a)) : Steady (x >>= f) := by
  intro io e io' h
  simp only [Bind.bind, EStateM.bind] at h
  cases hr : x io with
  | error e io₁ =>
    rw [hr] at h
    cases h
    exact hx io _ _ hr
  | ok a io₁ =>
    rw [hr] at h
    exact hf a io io₁ hr io₁ e io' h

theorem Steady.sequential : Sequential (σ := σ) Steady := ⟨.pure, .bind⟩

theorem Steady.lift_bind {x : Except LuksError α} {f : α → IoM σ β} {a : α} (hx : x = .ok a)
    (hf : Steady (f a)) : Steady (IoM.lift x >>= f) := by
  rw [hx]
  exact hf

theorem Steady.read (d : ReadAt σ) (offset n : Nat) : Steady (d.read offset n) :=
  (Steady.ask _ _).bind fun _ _ _ _ => .pure _

theorem Clean.bind {x : IoM σ α} {f : α → IoM σ β} (hx : Asks (fun a => a.isWrite = false) x)
    (hf : ∀ a io io', x io = .ok a io' → Clean (f a)) : Clean (x >>= f) := by
  intro io e io' h hfailed
  obtain ⟨new, heq, hnew⟩ := hx io
  simp only [Bind.bind, EStateM.bind] at h
  cases hr : x io with
  | error e io₁ =>
    rw [hr] at h heq
    cases h
    exact ⟨new, heq, hnew⟩
  | ok a io₁ =>
    rw [hr] at h heq
    obtain ⟨new', heq', hnew'⟩ := hf a io io₁ hr io₁ e io' h hfailed
    refine ⟨new ++ new', ?_, ?_⟩
    · rw [heq', ← List.append_assoc]
      exact congrArg (· ++ new') heq
    · intro b hb
      rcases List.mem_append.mp hb with hb | hb
      · exact hnew b hb
      · exact hnew' b hb

theorem Clean.lift_bind {x : Except LuksError α} {f : α → IoM σ β}
    (hf : ∀ a, x = .ok a → Clean (f a)) : Clean (IoM.lift x >>= f) :=
  Clean.bind (Asks.lift x) fun a _ _ h => hf a (IoM.lift_ok.mp h).1

end LuksAndroid

import LuksAndroid.Device

/-!
# Reading a store that never fails

What a computation that only reads makes of a device that answers every request within its bounds.
-/

namespace LuksAndroid

section

variable {α β : Type} {m : Nat → UInt8}

/-- From a store that holds `m` the computation leaves it so and gives `v`, where `none` is an error. -/
def Yields (m : Nat → UInt8) (x : IoM (Nat → UInt8) α) (v : Option α) : Prop :=
  ∀ io, io.state = m → ∃ io', io'.state = m ∧
    ((∃ a, v = some a ∧ x io = .ok a io') ∨ v = none ∧ ∃ e, x io = .error e io')

theorem Yields.pure (a : α) : Yields m (pure a) (some a) :=
  fun io hio => ⟨io, hio, .inl ⟨a, rfl, rfl⟩⟩

theorem Yields.throw (e : LuksError) : Yields m (throw e : IoM (Nat → UInt8) α) none :=
  fun io hio => ⟨io, hio, .inr ⟨rfl, e, rfl⟩⟩

theorem Yields.bind {x : IoM (Nat → UInt8) α} {f : α → IoM (Nat → UInt8) β} {v : Option α} {g : α → Option β}
    (hx : Yields m x v) (hf : ∀ a, v = some a → Yields m (f a) (g a)) : Yields m (x >>= f) (v.bind g) := by
  intro io hio
  obtain ⟨io₁, hio₁, ⟨a, hv, hrun⟩ | ⟨hv, e, hrun⟩⟩ := hx io hio
  · obtain ⟨io₂, hio₂, hf⟩ := hf a hv io₁ hio₁
    rw [Run.bind_eq_of_ok hrun, hv]
    exact ⟨io₂, hio₂, hf⟩
  · refine ⟨io₁, hio₁, .inr ⟨by rw [hv]; rfl, e, ?_⟩⟩
    simp only [Bind.bind, EStateM.bind, hrun]

theorem Yields.ok {x : IoM (Nat → UInt8) α} {v : Option α} (hx : Yields m x v) : Yields m x.ok (some v) := by
  intro io hio
  unfold IoM.ok
  obtain ⟨io₁, hio₁, ⟨a, rfl, hrun⟩ | ⟨rfl, e, hrun⟩⟩ := hx io hio
  · exact ⟨io₁, hio₁, .inl ⟨some a, rfl, by rw [hrun]⟩⟩
  · exact ⟨io₁, hio₁, .inl ⟨none, rfl, by rw [hrun]⟩⟩

theorem Yields.lift (x : Except LuksError α) : Yields m (IoM.lift x) x.toOption := by
  cases x with
  | ok a => exact .pure a
  | error e => exact .throw e

theorem Yields.run {x : IoM (Nat → UInt8) α} {a : α} (h : Yields m x (some a)) (io : Io (Nat → UInt8))
    (hio : io.state = m) : ∃ io', x io = .ok a io' := by
  obtain ⟨io', -, ⟨b, hb, hrun⟩ | ⟨hnone, -⟩⟩ := h io hio
  · cases hb
    exact ⟨io', hrun⟩
  · cases hnone

theorem Yields.returns {x : IoM (Nat → UInt8) α} {a b : α} (h : Yields m x (some a)) {io io' : Io (Nat → UInt8)}
    (hio : io.state = m) (hrun : x io = .ok b io') : b = a := by
  obtain ⟨io₁, h⟩ := h.run io hio
  rw [h] at hrun
  cases hrun
  rfl

/-- The bytes of a range within the device. -/
def seek (cap : Nat) (m : Nat → UInt8) (offset n : Nat) : Option Bytes :=
  if offset + n ≤ cap then some (load m offset n) else none

theorem Yields.read (cap offset n : Nat) :
    Yields m ((memory cap true).toReadAt.read offset n) (seek cap m offset n) := by
  intro io hio
  rw [memory_read_eq]
  unfold seek
  split
  · refine ⟨{ io with accesses := io.accesses ++ [.read offset n] }, hio, .inl ⟨_, rfl, ?_⟩⟩
    rw [hio]
  · exact ⟨{ io with accesses := io.accesses ++ [.read offset n], failed := true }, hio, .inr ⟨rfl, _, rfl⟩⟩

/-! ## The value of a computation -/

/-- The result from a store that holds `m`, where `none` is an error. -/
def value (m : Nat → UInt8) (x : IoM (Nat → UInt8) α) : Option α :=
  match x ⟨m, [], false⟩ with
  | .ok a _ => some a
  | .error _ _ => none

theorem Yields.value_eq {x : IoM (Nat → UInt8) α} {v : Option α} (h : Yields m x v) : value m x = v := by
  unfold value
  obtain ⟨io', -, ⟨a, rfl, hrun⟩ | ⟨rfl, e, hrun⟩⟩ := h ⟨m, [], false⟩ rfl
  · rw [hrun]
  · rw [hrun]

/-- The result depends on what the store holds, and on nothing else of its state. -/
def ReadsOnly (x : IoM (Nat → UInt8) α) : Prop := ∀ m, ∃ v, Yields m x v

theorem ReadsOnly.yields {x : IoM (Nat → UInt8) α} (h : ReadsOnly x) : Yields m x (value m x) := by
  obtain ⟨v, hv⟩ := h m
  rw [hv.value_eq]
  exact hv

theorem ReadsOnly.lift (x : Except LuksError α) : ReadsOnly (IoM.lift x) := fun _ => ⟨_, .lift x⟩

theorem ReadsOnly.read (cap offset n : Nat) : ReadsOnly ((memory cap true).toReadAt.read offset n) :=
  fun _ => ⟨_, .read cap offset n⟩

theorem ReadsOnly.bind {x : IoM (Nat → UInt8) α} {f : α → IoM (Nat → UInt8) β} (hx : ReadsOnly x)
    (hf : ∀ a, ReadsOnly (f a)) : ReadsOnly (x >>= f) :=
  fun _ => ⟨_, hx.yields.bind fun a _ => (hf a).yields⟩

end

end LuksAndroid

import LuksAndroid.Ext4.Dir

/-!
# Calls that keep to rules

A call on a plain store is tame when whatever it asks of the device is allowed, when it halts
only as it may, and when an invariant holds once it returned or failed in an orderly way.
What it returns satisfies a postcondition. Sequencing keeps this.
-/

namespace LuksAndroid.Ext4

open Word

abbrev Disk := Nat → UInt8

/-! ## The record and the device -/

/-- What an access leaves on the device, if the device is long enough for it. -/
def applied (cap : Nat) (m : Disk) : Access → Disk
  | .write offset data => if offset + data.length ≤ cap then store m offset data else m
  | _ => m

def persist (cap : Nat) (m : Disk) (log : List Access) : Disk := log.foldl (applied cap) m

theorem persist_append (cap : Nat) (m : Disk) (l l' : List Access) :
    persist cap m (l ++ l') = persist cap (persist cap m l) l' := List.foldl_append

/-- The mount after a read or a flush. -/
def Mount.logged (fs : Mount Disk) (a : Access) : Mount Disk :=
  { fs with io := { fs.io with accesses := fs.io.accesses ++ [a] } }

/-- The mount after a write. -/
def Mount.stored (fs : Mount Disk) (offset : Nat) (data : Bytes) : Mount Disk :=
  { fs with io := { fs.io with
      state := store fs.io.state offset data, accesses := fs.io.accesses ++ [.write offset data] } }

/-- Two mounts that differ at most in their records. -/
structure Mount.Same (fs fs' : Mount Disk) : Prop where
  sb : fs'.sb = fs.sb
  groups : fs'.groups = fs.groups
  state : fs'.io.state = fs.io.state

section

variable {cap : Nat} (known : Bool) (fs : Mount Disk)

theorem read_at_of_le {offset n : Nat} (h : offset + n ≤ cap) :
    read_at (memory cap known) offset n fs = .ok (load fs.io.state offset n) (fs.logged (.read offset n)) := by
  simp only [read_at, device]
  rw [memory_read_eq, if_pos h]
  rfl

theorem read_at_of_lt {offset n : Nat} (h : ¬ offset + n ≤ cap) :
    ∃ fs', read_at (memory cap known) offset n fs = .error (.err .OutOfBounds) fs' ∧ fs.Same fs' ∧
      fs'.io.accesses = fs.io.accesses ++ [.read offset n] := by
  simp only [read_at, device]
  rw [memory_read_eq, if_neg h]
  exact ⟨_, rfl, ⟨rfl, rfl, rfl⟩, rfl⟩

theorem write_at_of_le {offset : Nat} {data : Bytes} (h : offset + data.length ≤ cap) :
    write_at (memory cap known) offset data fs = .ok () (fs.stored offset data) := by
  simp only [write_at, device, WriteAt.write, IoM.ask, memory, if_pos h]
  rfl

theorem write_at_of_lt {offset : Nat} {data : Bytes} (h : ¬ offset + data.length ≤ cap) :
    ∃ fs', write_at (memory cap known) offset data fs = .error (.err .OutOfBounds) fs' ∧ fs.Same fs' ∧
      fs'.io.accesses = fs.io.accesses ++ [.write offset data] := by
  simp only [write_at, device, WriteAt.write, IoM.ask, memory, if_neg h]
  exact ⟨_, rfl, ⟨rfl, rfl, rfl⟩, rfl⟩

theorem flush_eq : flush (memory cap known) fs = .ok () (fs.logged .flush) := rfl

end

/-! ## Steps that may fail -/

section

variable {σ α : Type} {x : FsM σ α} {s t : Mount σ}

theorem attempt_of_ok {a : α} (h : x s = .ok a t) : attempt x s = .ok (.ok a) t := by
  simp only [attempt, h]

theorem attempt_of_err {e : LuksError} (h : x s = .error (.err e) t) : attempt x s = .ok (.error e) t := by
  simp only [attempt, h]

theorem ignore_of_ok {a : α} (h : x s = .ok a t) : ignore x s = .ok () t := by
  rw [ignore, Run.bind_eq_of_ok (attempt_of_ok h)]
  rfl

theorem ignore_of_err {e : LuksError} (h : x s = .error (.err e) t) : ignore x s = .ok () t := by
  rw [ignore, Run.bind_eq_of_ok (attempt_of_err h)]
  rfl

theorem or_undo_of_ok {a : α} (h : x s = .ok a t) (undo : FsM σ Unit) : or_undo x undo s = .ok a t := by
  rw [or_undo, Run.bind_eq_of_ok (attempt_of_ok h)]
  rfl

theorem or_undo_of_err {e : LuksError} {u : Mount σ} {undo : FsM σ Unit} (h : x s = .error (.err e) t)
    (hundo : undo t = .ok () u) : or_undo x undo s = .error (.err e) u := by
  rw [or_undo, Run.bind_eq_of_ok (attempt_of_err h)]
  dsimp only
  rw [Run.bind_eq_of_ok hundo]
  rfl

end

/-! ## Rules -/

/-- The call returned, or failed in an orderly way. -/
def Survives {τ α : Type} : EStateM.Result Halt τ α → Prop
  | .ok _ _ => True
  | .error (.err _) _ => True
  | .error _ _ => False

/-- What calls may ask for, how they may halt, and what they keep. Reading, flushing and an orderly
error are never against the rules. -/
structure Rules where
  cap : Nat
  asks : Access → Prop
  halts : Halt → Prop
  inv : Mount Disk → Prop
  read : ∀ offset n, asks (.read offset n)
  flush : asks .flush
  orderly : ∀ e, halts (.err e)
  quiet : ∀ fs fs', inv fs → fs.Same fs' → inv fs'

structure Tame (R : Rules) {α : Type} (x : FsM Disk α) (fs : Mount Disk) (Q : α → Mount Disk → Prop) :
    Prop where
  log : ∃ new, (after (x fs)).io.accesses = fs.io.accesses ++ new ∧
    (after (x fs)).io.state = persist R.cap fs.io.state new ∧ ∀ a ∈ new, R.asks a
  halts : ∀ e s, x fs = .error e s → R.halts e
  inv : Survives (x fs) → R.inv (after (x fs))
  post : ∀ a s, x fs = .ok a s → Q a s

namespace Tame

variable {R : Rules} {α β : Type} {x : FsM Disk α} {fs : Mount Disk} {Q : α → Mount Disk → Prop}

theorem pure {a : α} (h : R.inv fs) (hq : Q a fs) : Tame R (pure a) fs Q where
  log := ⟨[], by simp [after, Pure.pure, EStateM.pure, persist]⟩
  halts e s hr := by cases hr
  inv _ := h
  post b s hr := by
    obtain ⟨rfl, rfl⟩ := Run.pure_ok.mp hr
    exact hq

theorem throw {e : Halt} (h : R.inv fs) (he : R.halts e) : Tame R (throw e) fs Q where
  log := ⟨[], by simp [after, MonadExcept.throw, throwThe, MonadExceptOf.throw, EStateM.throw, persist]⟩
  halts e' s hr := by
    cases hr
    exact he
  inv _ := h
  post a s hr := absurd hr Run.throw_ok

theorem fail (h : R.inv fs) (e : LuksError) : Tame R (fail e) fs Q := throw h (R.orderly e)

theorem weaken {Q' : α → Mount Disk → Prop} (h : Tame R x fs Q) (hq : ∀ a s, R.inv s → Q a s → Q' a s) :
    Tame R x fs Q' where
  log := h.log
  halts := h.halts
  inv := h.inv
  post a s hr := by
    have hinv := h.inv
    rw [hr] at hinv
    exact hq a s (hinv trivial) (h.post a s hr)

theorem mono {R' : Rules} (h : Tame R x fs Q) (hcap : R.cap = R'.cap) (hasks : ∀ a, R.asks a → R'.asks a)
    (hhalts : ∀ e, R.halts e → R'.halts e) (hinv : ∀ s, R.inv s → R'.inv s) : Tame R' x fs Q where
  log := by
    obtain ⟨new, hacc, hst, hnew⟩ := h.log
    exact ⟨new, hacc, hcap ▸ hst, fun a ha => hasks a (hnew a ha)⟩
  halts e s hr := hhalts e (h.halts e s hr)
  inv hs := hinv _ (h.inv hs)
  post := h.post

theorem congr {y : FsM Disk α} (h : Tame R y fs Q) (heq : x fs = y fs) : Tame R x fs Q := by
  obtain ⟨hlog, hhalts, hinv, hpost⟩ := h
  rw [← heq] at hlog hhalts hinv hpost
  exact ⟨hlog, hhalts, hinv, hpost⟩

theorem bind {f : α → FsM Disk β} {Q' : β → Mount Disk → Prop} (hx : Tame R x fs Q)
    (hf : ∀ a s, Q a s → R.inv s → Tame R (f a) s Q') : Tame R (x >>= f) fs Q' := by
  obtain ⟨new, hacc, hst, hnew⟩ := hx.log
  cases hr : x fs with
  | error e s =>
    have hrun : (x >>= f) fs = .error e s := by simp only [Bind.bind, EStateM.bind, hr]
    have hinv := hx.inv
    rw [hr] at hacc hst hinv
    refine ⟨⟨new, ?_, ?_, hnew⟩, ?_, ?_, ?_⟩
    · rw [hrun]
      exact hacc
    · rw [hrun]
      exact hst
    · intro e' s' hr'
      rw [hrun] at hr'
      cases hr'
      exact hx.halts e s hr
    · rw [hrun]
      intro hs
      apply hinv
      cases e with
      | err e => trivial
      | panic | spin => exact hs.elim
    · intro b s' hr'
      rw [hrun] at hr'
      cases hr'
  | ok a s =>
    have hrun : (x >>= f) fs = f a s := by simp only [Bind.bind, EStateM.bind, hr]
    have hinv := hx.inv
    rw [hr] at hacc hst hinv
    have hrest := hf a s (hx.post a s hr) (hinv trivial)
    obtain ⟨new', hacc', hst', hnew'⟩ := hrest.log
    refine ⟨⟨new ++ new', ?_, ?_, ?_⟩, ?_, ?_, ?_⟩
    · rw [hrun, hacc', ← List.append_assoc]
      exact congrArg (· ++ new') hacc
    · rw [hrun, hst', persist_append]
      exact congrArg (persist R.cap · new') hst
    · intro b hb
      rcases List.mem_append.mp hb with hb | hb
      · exact hnew b hb
      · exact hnew' b hb
    · intro e s' hr'
      rw [hrun] at hr'
      exact hrest.halts e s' hr'
    · rw [hrun]
      exact hrest.inv
    · intro b s' hr'
      rw [hrun] at hr'
      exact hrest.post b s' hr'

theorem check_bind {y : Except LuksError α} {f : α → FsM Disk β} {Q' : β → Mount Disk → Prop}
    (h : R.inv fs) (hf : ∀ a, y = .ok a → Tame R (f a) fs Q') : Tame R (Ext4.check y >>= f) fs Q' := by
  cases y with
  | ok a => exact hf a rfl
  | error e => exact (fail (Q := fun _ _ => False) h e).bind fun _ _ hq => hq.elim

theorem check (h : R.inv fs) {y : Except LuksError α} (hq : ∀ a, y = .ok a → Q a fs) :
    Tame R (Ext4.check y) fs Q := by
  cases y with
  | ok a => exact pure h (hq a rfl)
  | error e => exact fail h e

theorem get_bind {f : Mount Disk → FsM Disk β} {Q' : β → Mount Disk → Prop} (h : Tame R (f fs) fs Q') :
    Tame R (get >>= f) fs Q' := h.congr rfl

theorem ite {c : Prop} [Decidable c] {y : FsM Disk α} (hx : c → Tame R x fs Q) (hy : ¬ c → Tame R y fs Q) :
    Tame R (if c then x else y) fs Q := by
  split
  · exact hx ‹_›
  · exact hy ‹_›

theorem guard {c : Prop} [Decidable c] {y : FsM Disk PUnit} {f : PUnit → FsM Disk β} {z : FsM Disk β}
    {Q' : β → Mount Disk → Prop} (hy : c → Tame R y fs fun _ _ => False) (hz : ¬ c → Tame R z fs Q') :
    Tame R (if c then y >>= f else z) fs Q' :=
  ite (fun hc => (hy hc).bind fun _ _ hq => hq.elim) hz

/-- A step of a `do` block that is taken only sometimes. -/
theorem step {c : Prop} [Decidable c] {y : FsM Disk PUnit} {f : PUnit → FsM Disk β}
    {Q' : β → Mount Disk → Prop} (hy : c → Tame R (y >>= f) fs Q') (hz : ¬ c → Tame R (f ⟨⟩) fs Q') :
    Tame R ((if c then y else Pure.pure ⟨⟩) >>= f) fs Q' := by
  split
  · exact hy ‹_›
  · exact hz ‹_›

theorem update {f : Mount Disk → Mount Disk} (hio : (f fs).io = fs.io) (h : R.inv (f fs)) :
    Tame R (modify f) fs fun _ s => s = f fs where
  log := ⟨[], congrArg Io.accesses hio |>.trans (List.append_nil _).symm, congrArg Io.state hio, by simp⟩
  halts e s hr := by cases hr
  inv _ := h
  post a s hr := Run.modify_ok.mp hr

/-! ## Errors as values -/

theorem after_attempt (x : FsM Disk α) (fs : Mount Disk) : after (Ext4.attempt x fs) = after (x fs) := by
  unfold Ext4.attempt
  cases x fs with
  | ok a s => rfl
  | error e s => cases e <;> rfl

theorem attempt (h : Tame R x fs Q) : Tame R (attempt x) fs fun r s => ∀ a, r = .ok a → Q a s := by
  obtain ⟨hlog, hhalts, hinv, hpost⟩ := h
  rw [← after_attempt] at hlog hinv
  cases hr : x fs with
  | ok a s =>
    have hrun : Ext4.attempt x fs = .ok (.ok a) s := by simp only [Ext4.attempt, hr]
    rw [hr] at hinv
    refine ⟨hlog, ?_, fun _ => hinv trivial, ?_⟩
    · rw [hrun]
      rintro e s' ⟨⟩
    · rw [hrun]
      rintro r s' ⟨⟩ b ⟨⟩
      exact hpost _ _ hr
  | error e s =>
    rw [hr] at hinv
    cases e with
    | err e =>
      have hrun : Ext4.attempt x fs = .ok (.error e) s := by simp only [Ext4.attempt, hr]
      refine ⟨hlog, ?_, fun _ => hinv trivial, ?_⟩
      · rw [hrun]
        rintro e s' ⟨⟩
      · rw [hrun]
        rintro r s' ⟨⟩ b ⟨⟩
    | panic | spin =>
      refine ⟨hlog, ?_, ?_, ?_⟩
      · intro e s' hs
        simp only [Ext4.attempt, hr] at hs
        cases hs
        exact hhalts _ _ hr
      · intro hs
        simp only [Ext4.attempt, hr] at hs
        exact hs.elim
      · intro r s' hs
        simp only [Ext4.attempt, hr] at hs
        cases hs

theorem ignore (h : Tame R x fs Q) : Tame R (ignore x) fs fun _ _ => True :=
  h.attempt.bind fun _ _ _ hi => pure hi trivial

/-- A step that is undone when it fails. -/
theorem or_undo {undo : FsM Disk Unit} (hx : Tame R x fs Q)
    (hundo : ∀ s, R.inv s → Tame R undo s fun _ _ => True) : Tame R (or_undo x undo) fs Q := by
  refine hx.attempt.bind fun r s hq hi => ?_
  cases r with
  | ok a => exact pure hi (hq a rfl)
  | error e => exact (hundo s hi).bind fun _ _ _ hi' => fail hi' e

/-! ## The device -/

theorem read (known : Bool) (h : R.inv fs) (offset n : Nat) :
    Tame R (read_at (memory R.cap known) offset n) fs
      fun b s => b = load fs.io.state offset n ∧ s = fs.logged (.read offset n) := by
  by_cases hcap : offset + n ≤ R.cap
  · refine congr (y := fun fs => .ok (load fs.io.state offset n) (fs.logged (.read offset n))) ?_
      (read_at_of_le known fs hcap)
    refine ⟨⟨[.read offset n], rfl, rfl, by simp [R.read]⟩, ?_, ?_, ?_⟩
    · intro e s hr
      cases hr
    · exact fun _ => R.quiet _ _ h ⟨rfl, rfl, rfl⟩
    · intro a s hr
      cases hr
      exact ⟨rfl, rfl⟩
  · obtain ⟨s, hrun, hsame, hacc⟩ := read_at_of_lt known fs hcap
    refine congr (y := fun _ => .error (.err .OutOfBounds) s) ?_ hrun
    refine ⟨⟨[.read offset n], hacc, hsame.state, by simp [R.read]⟩, ?_, ?_, ?_⟩
    · intro e s' hr
      cases hr
      exact R.orderly _
    · exact fun _ => R.quiet _ _ h hsame
    · intro a s' hr
      cases hr

theorem flush (known : Bool) (h : R.inv fs) :
    Tame R (flush (memory R.cap known)) fs fun _ s => s = fs.logged .flush := by
  refine congr (y := fun fs => .ok () (fs.logged .flush)) ?_ (flush_eq known fs)
  refine ⟨⟨[.flush], rfl, rfl, by simp [R.flush]⟩, ?_, ?_, ?_⟩
  · intro e s hr
    cases hr
  · exact fun _ => R.quiet _ _ h ⟨rfl, rfl, rfl⟩
  · intro a s hr
    cases hr
    rfl

theorem write (known : Bool) (h : R.inv fs) {offset : Nat} {data : Bytes} (hask : R.asks (.write offset data))
    (hinv : offset + data.length ≤ R.cap → R.inv (fs.stored offset data)) :
    Tame R (write_at (memory R.cap known) offset data) fs fun _ s => s = fs.stored offset data := by
  by_cases hcap : offset + data.length ≤ R.cap
  · refine congr (y := fun fs => .ok () (fs.stored offset data)) ?_ (write_at_of_le known fs hcap)
    refine ⟨⟨[.write offset data], rfl, ?_, by simpa using hask⟩, ?_, ?_, ?_⟩
    · have happ : applied R.cap fs.io.state (.write offset data) =
          if offset + data.length ≤ R.cap then store fs.io.state offset data else fs.io.state := rfl
      rw [persist, List.foldl_cons, List.foldl_nil, happ, if_pos hcap]
      rfl
    · intro e s hr
      cases hr
    · exact fun _ => hinv hcap
    · intro a s hr
      cases hr
      rfl
  · obtain ⟨s, hrun, hsame, hacc⟩ := write_at_of_lt known fs hcap
    refine congr (y := fun _ => .error (.err .OutOfBounds) s) ?_ hrun
    refine ⟨⟨[.write offset data], hacc, ?_, by simpa using hask⟩, ?_, ?_, ?_⟩
    · have happ : applied R.cap fs.io.state (.write offset data) =
          if offset + data.length ≤ R.cap then store fs.io.state offset data else fs.io.state := rfl
      rw [persist, List.foldl_cons, List.foldl_nil, happ, if_neg hcap]
      exact hsame.state
    · intro e s' hr
      cases hr
      exact R.orderly _
    · exact fun _ => R.quiet _ _ h hsame
    · intro a s' hr
      cases hr

end Tame

end LuksAndroid.Ext4

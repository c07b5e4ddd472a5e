import LuksAndroid.Lib.Machine
import LuksAndroid.Usbfs.Arena

/-!
# Threads that share the transport

The state is looked at before the lock is taken and not again. What is safe about the
slots is safe as long as nobody is past that look when the transport dies.
-/

namespace LuksAndroid.Usbfs

/-! ## URBs that are with the kernel -/

/-- What an event does to a URB's being with the kernel. -/
def Event.moves (i : Slot) (out : Bool) : Event → Bool
  | .submitted j _ _ => out || i = j
  | .reaped j => out && i ≠ j
  | .allocated _ | .discarded _ => out

/-- The URB of this slot was submitted and not reaped. -/
def outstanding (log : List Event) (i : Slot) : Bool := log.foldl (Event.moves i) false

theorem outstanding_append (log : List Event) (e : Event) (i : Slot) :
    outstanding (log ++ [e]) i = e.moves i (outstanding log i) := by
  rw [outstanding, List.foldl_append]
  rfl

/-- The slot that an event takes for a new URB. -/
def Event.takes : Event → Option Slot
  | .allocated i => some i
  | .submitted i _ _ => some i
  | .discarded _ | .reaped _ => none

/-- No slot was taken while its URB was with the kernel. -/
def Careful (log : List Event) : Prop :=
  ∀ pre e post, log = pre ++ e :: post → ∀ i, e.takes = some i → outstanding pre i = false

theorem Careful.nil : Careful [] := by
  intro pre e post h
  cases pre with
  | nil => cases h
  | cons _ _ => cases h

theorem Careful.snoc {log : List Event} {e : Event} (h : Careful log)
    (he : ∀ i, e.takes = some i → outstanding log i = false) : Careful (log ++ [e]) := by
  intro pre e' post heq i hi
  rcases List.eq_nil_or_concat post with rfl | ⟨post, last, rfl⟩
  · obtain ⟨rfl, hlast⟩ := List.append_inj' heq rfl
    cases hlast
    exact he i hi
  · rw [List.concat_eq_append, ← List.cons_append, ← List.append_assoc] at heq
    exact h pre e' post (List.append_inj' heq rfl).1 i hi

theorem outstanding_idle (log : List Event) {new : List Event} (hnew : ∀ e ∈ new, ∀ i out, e.moves i out = out)
    (i : Slot) :
    outstanding (log ++ new) i = outstanding log i := by
  induction new generalizing log with
  | nil => rw [List.append_nil]
  | cons e rest ih =>
    rw [← List.singleton_append, ← List.append_assoc, ih _ fun e he => hnew e (List.mem_cons_of_mem _ he),
      outstanding_append, hnew e List.mem_cons_self]

theorem Careful.append {log new : List Event} (h : Careful log) (hnew : ∀ e ∈ new, ∀ i out, e.moves i out = out)
    (hfree : ∀ e ∈ new, ∀ i, e.takes = some i → outstanding log i = false) : Careful (log ++ new) := by
  induction new generalizing log with
  | nil => rwa [List.append_nil]
  | cons e rest ih =>
    rw [← List.singleton_append, ← List.append_assoc]
    refine ih (h.snoc (hfree e List.mem_cons_self)) (fun e he => hnew e (List.mem_cons_of_mem _ he)) ?_
    intro e' he' i hi
    rw [outstanding_append, hnew e List.mem_cons_self]
    exact hfree e' (List.mem_cons_of_mem _ he') i hi

/-! ## The invariant -/

/-- Nothing is in use and nothing is with the kernel. -/
def Clean (t : UsbFsTransport) : Prop :=
  ∀ i, (t.arena.slots i).in_use = false ∧ ((t.arena.slots i).submitted = true → (t.arena.slots i).reaped = true) ∧
    outstanding t.log i = false

/-- Between two rounds. -/
structure Sound (t : UsbFsTransport) : Prop where
  careful : Careful t.log
  clean : t.state ≠ .Dead → Clean t

/-- During a round: with the kernel is what is pending, and nothing else is in use. -/
structure Held (gen : Nat) (t : UsbFsTransport) : Prop where
  careful : Careful t.log
  out : ∀ i ∈ pending gen t.arena, outstanding t.log i = true
  rest : ∀ i ∉ pending gen t.arena, (t.arena.slots i).in_use = false ∧
    ((t.arena.slots i).submitted = true → (t.arena.slots i).reaped = true) ∧ outstanding t.log i = false

theorem Held.clean {gen : Nat} {t : UsbFsTransport} (h : Held gen t) (hnone : pending gen t.arena = ∅) : Clean t :=
  fun i => h.rest i (by rw [hnone]; exact Finset.notMem_empty i)

theorem Held.discard {gen : Nat} {t : UsbFsTransport} (h : Held gen t) (l : List Slot) : Held gen (t.discard l) := by
  have hidle : ∀ e ∈ (l.filter fun i => (t.arena.slots i).submitted ∧ ¬ (t.arena.slots i).reaped).map Event.discarded,
      (∀ i out, e.moves i out = out) ∧ e.takes = none := by
    intro e he
    obtain ⟨i, -, rfl⟩ := List.mem_map.mp he
    exact ⟨fun _ _ => rfl, rfl⟩
  have hsame := fun i => outstanding_idle t.log (fun e he => (hidle e he).1) i
  refine ⟨h.careful.append (fun e he => (hidle e he).1) ?_, ?_, ?_⟩
  · intro e he i hi
    rw [(hidle e he).2] at hi
    cases hi
  · intro i hi
    exact (hsame i).trans (h.out i hi)
  · intro i hi
    obtain ⟨huse, hsub, hout⟩ := h.rest i hi
    exact ⟨huse, hsub, (hsame i).trans hout⟩

theorem Held.back {gen : Nat} {t : UsbFsTransport} (h : Held gen t) (i : Slot) : Held gen (t.take_back gen i).2 := by
  have hback := take_back_spec t gen i
  have hout : ∀ j, outstanding (t.take_back gen i).2.log j = (outstanding t.log j && j ≠ i) := by
    intro j
    rw [hback.log, outstanding_append]
    rfl
  refine ⟨?_, ?_, ?_⟩
  · rw [hback.log]
    exact h.careful.snoc fun j hj => nomatch hj
  · intro j hj
    rw [hback.pending, Finset.mem_erase] at hj
    rw [hout, h.out j hj.2]
    simp [hj.1]
  · intro j hj
    rw [hback.pending, Finset.mem_erase, not_and] at hj
    by_cases hji : j = i
    · subst hji
      refine ⟨?_, ?_, by rw [hout]; simp⟩
      · by_contra huse
        obtain ⟨huse, hmem⟩ := hback.in_use (by simpa using huse)
        rw [(h.rest j hmem).1] at huse
        cases huse
      · intro hsub
        by_contra hreaped
        have hmem : j ∉ pending gen (t.take_back gen j).2.arena := by
          rw [hback.pending]
          exact Finset.notMem_erase j _
        rw [(hback.same j).2.2.2.1] at hsub
        by_cases hp : j ∈ pending gen t.arena
        · refine hmem (mem_pending.mpr ⟨?_, ?_, by simpa using hreaped⟩)
          · rw [(hback.same j).1]
            exact (mem_pending.mp hp).1
          · rw [(hback.same j).2.2.2.1]
            exact hsub
        · exact hreaped ((hback.same j).2.2.2.2 ((h.rest j hp).2.1 hsub))
    · obtain ⟨huse, hsub, houtj⟩ := h.rest j (hj hji)
      rw [hback.others j hji]
      refine ⟨huse, hsub, ?_⟩
      rw [hout, houtj]
      rfl

theorem Held.reaps {gen c c' : Nat} {t t' : UsbFsTransport} (h : Held gen t) (hreaps : Reaps gen c t c' t') :
    Held gen t' := by
  induction hreaps with
  | refl => exact h
  | back _ i ih => exact ih.back i
  | discard _ l ih => exact ih.discard l

/-! ## A round -/

theorem careful_submitted (f g : Nat → Nat) (l : List Slot) (hl : l.Nodup) (n : Nat) (log : List Event)
    (h : Careful log)
    (hfree : ∀ i ∈ l, outstanding log i = false) :
    Careful (log ++ (l.zipIdx n).map fun x => .submitted x.1 (f x.2) (g x.2)) ∧
      ∀ i, outstanding (log ++ (l.zipIdx n).map fun x => .submitted x.1 (f x.2) (g x.2)) i =
        (outstanding log i || decide (i ∈ l)) := by
  induction l generalizing n log with
  | nil => simpa using h
  | cons j rest ih =>
    obtain ⟨hj, hrest⟩ := List.nodup_cons.mp hl
    have hout : ∀ i, outstanding (log ++ [.submitted j (f n) (g n)]) i = (outstanding log i || decide (i = j)) :=
      fun i => outstanding_append _ _ i
    have hstep := ih hrest (n + 1) (log ++ [.submitted j (f n) (g n)]) (h.snoc ?_) ?_
    · rw [List.zipIdx_cons, List.map_cons, ← List.singleton_append, ← List.append_assoc]
      refine ⟨hstep.1, fun i => ?_⟩
      rw [hstep.2, hout, Bool.or_assoc, ← Bool.decide_or]
      simp only [List.mem_cons]
    · intro i hi
      cases hi
      exact hfree j List.mem_cons_self
    · intro i hi
      rw [hout, hfree i (List.mem_cons_of_mem _ hi), Bool.false_or, decide_eq_false_iff_not]
      rintro rfl
      exact hj hi

theorem Clean.started {attempted : Nat} {k : Kernel} {t t' : UsbFsTransport} {b : Batch} (h : Clean t)
    (hcareful : Careful t.log) (hs : Started attempted k t b t') :
    Held b.generation t' ∧ pending b.generation t'.arena = b.submitted.toFinset := by
  have hpending := hs.pending_eq fun i _ hmem => by
    obtain ⟨-, hsub, hreaped⟩ := mem_pending.mp hmem
    rw [(h i).2.1 hsub] at hreaped
    cases hreaped
  have hidle : ∀ e ∈ b.indices.map Event.allocated, ∀ i out, e.moves i out = out := by
    intro e he
    obtain ⟨i, -, rfl⟩ := List.mem_map.mp he
    exact fun _ _ => rfl
  have hsame := outstanding_idle t.log hidle
  have hsub := careful_submitted (fun n => n * CHUNK_SIZE)
    (fun n => k.actual_length n (chunk_len attempted n)) b.submitted
    (hs.nodup.sublist (List.take_sublist _ _)) 0 _
    (hcareful.append hidle fun _ _ i _ => (h i).2.2) fun i _ => (hsame i).trans (h i).2.2
  rw [← hs.log] at hsub
  refine ⟨⟨hsub.1, ?_, ?_⟩, hpending⟩
  · intro i hi
    rw [hpending, List.mem_toFinset] at hi
    rw [hsub.2]
    simp [hi]
  · intro i hi
    rw [hpending, List.mem_toFinset] at hi
    rw [hsub.2, hsame, (h i).2.2]
    refine ⟨?_, ?_, by simp [hi]⟩
    · by_cases hin : i ∈ b.indices
      · exact (hs.unused i hin hi).1
      · rw [hs.others i hin]
        exact (h i).1
    · by_cases hin : i ∈ b.indices
      · rw [(hs.unused i hin hi).2]
        exact fun h => nomatch h
      · rw [hs.others i hin]
        exact (h i).2.1

theorem Clean.freed {t : UsbFsTransport} (h : Clean t) (l : List Slot) :
    Clean { t with arena := t.arena.each l fun _ slot => { slot with in_use := false } } := by
  intro i
  obtain ⟨huse, hsub, hout⟩ := h i
  simp only [UrbArena.slots_each]
  split
  · exact ⟨rfl, hsub, hout⟩
  · exact ⟨huse, hsub, hout⟩

theorem drain_unreaped_sound {gen completed : Nat} {indices submitted : List Slot} {t : UsbFsTransport} (k : Kernel)
    (h : Held gen t) (hcount : completed + (pending gen t.arena).card = submitted.length) :
    Sound (drain_unreaped gen indices submitted k completed t) := by
  unfold drain_unreaped
  split
  · refine ⟨h.careful, fun _ => h.clean (Finset.card_eq_zero.mp ?_)⟩
    omega
  · have hheld : Held gen { t with state := .Draining } := ⟨h.careful, h.out, h.rest⟩
    have hreaps := (Reaps.refl.discard submitted).trans
      (drain_loop_reaps gen indices submitted.length k.drains completed
      (({ t with state := .Draining } : UsbFsTransport).discard submitted))
    have hend := hheld.reaps hreaps
    refine ⟨hend.careful, fun halive => ?_⟩
    -- the transport lives, so the drain got everything back
    have hall : (drain_loop gen submitted.length indices k.drains completed
        (({ t with state := .Draining } : UsbFsTransport).discard submitted)).1 = submitted.length := by
      by_contra hne
      exact halive (if_neg hne)
    have hpending := hreaps.count
    rw [hall] at hpending
    exact hend.clean (Finset.card_eq_zero.mp (by simp only at hpending; omega))

theorem close_round_sound {b : Batch} {p : Progress} (err : Option Int) (k : Kernel) (h : Held b.generation p.transport)
    (hlen : b.submitted.length = b.submitted_count)
    (hcount : p.completed + (pending b.generation p.transport.arena).card = b.submitted_count) :
    Sound (close_round b k err p) := by
  unfold close_round
  split
  · exact drain_unreaped_sound k h (hcount.trans hlen.symm)
  · rename_i hnodrain
    have hnone : pending b.generation p.transport.arena = ∅ := by
      apply Finset.card_eq_zero.mp
      by_contra hpos
      exact hnodrain ⟨by omega, .inr (by omega)⟩
    split
    · exact ⟨h.careful, fun _ => (h.clean hnone).freed _⟩
    · exact ⟨h.careful, fun _ => h.clean hnone⟩

theorem locked_round_sound {strerror : Int → String} {inward : Bool} {len limit : Nat} {k : Kernel}
    {t t' : UsbFsTransport}
    {o : Outcome} (h : Sound t) (halive : t.state ≠ .Dead)
    (hround : locked_round strerror inward len limit k t = some (o, t')) : Sound t' := by
  have hclean := h.clean halive
  unfold locked_round at hround
  cases hstart : start_round (min limit len) k t with
  | mk r t₁ =>
    cases r with
    | error e =>
      simp only [hstart] at hround
      cases hround
      obtain ⟨hstate, hlog, hslots⟩ := start_round_error hstart
      have hidle : ∀ e ∈ (t.arena.free (num_urbs (min limit len))).map Event.allocated, ∀ i out, e.moves i out =
          out := by
        intro e he
        obtain ⟨i, -, rfl⟩ := List.mem_map.mp he
        exact fun _ _ => rfl
      refine ⟨?_, fun _ i => ?_⟩
      · rw [hlog]
        exact h.careful.append hidle fun _ _ i _ => (hclean i).2.2
      · rw [hlog, outstanding_idle t.log hidle]
        by_cases hi : i ∈ t.arena.free (num_urbs (min limit len))
        · obtain ⟨huse, hsub⟩ := (hslots i).1 hi
          refine ⟨huse, ?_, (hclean i).2.2⟩
          rw [hsub]
          exact fun h => nomatch h
        · rw [(hslots i).2 hi]
          exact hclean i
    | ok b =>
      have hs := start_round_ok hstart
      obtain ⟨hheld, hpending⟩ := hclean.started h.careful hs
      have hcard := hs.card_pending fun i _ hmem => by
        obtain ⟨-, hsub, hreaped⟩ := mem_pending.mp hmem
        rw [(hclean i).2.1 hsub] at hreaped
        cases hreaped
      simp only [hstart] at hround
      cases hreap : reap_urbs inward (min limit len) b k t₁ with
      | none =>
        simp only [hreap] at hround
        cases hround
      | some x =>
        obtain ⟨reap_err, p⟩ := x
        simp only [hreap] at hround
        cases hround
        have hreaps := reap_urbs_reaps hreap
        have hcount := hreaps.count
        rw [hcard, Nat.zero_add] at hcount
        have hsound := close_round_sound (b.submit_err <|> p.completion_err <|> reap_err) k (hheld.reaps hreaps)
          hs.length_submitted hcount
        exact ⟨hsound.careful, hsound.clean⟩

/-! ## Threads -/

/-- A thread begins a call, which looks at the state, or takes the lock for a round. The limit was
loaded before the lock was there. -/
inductive Action where
  | check (thread : Nat) (inward : Bool) (len : Nat)
  | round (thread : Nat) (limit : Nat) (k : Kernel)

def Action.thread : Action → Nat
  | .check thread _ _ | .round thread _ _ => thread

/-- The transport, and the calls that are past their check. -/
structure Threads where
  transport : UsbFsTransport
  calls : Nat → Option (Bool × Nat)

namespace Threads

variable (strerror : Int → String)

def init (max_transfer : Nat) : Threads := ⟨⟨.new, .Healthy, max_transfer, []⟩, fun _ => none⟩

/-- The lock is free before and after each step. -/
def step (s : Threads) : Action → Option Threads
  | .check thread inward len =>
    match s.calls thread with
    | some _ => none
    | none =>
      if len = 0 ∨ s.transport.state = .Dead then some s
      else some { s with calls := Function.update s.calls thread (some (inward, len)) }
  | .round thread limit k =>
    match s.calls thread with
    | none => none
    | some (inward, len) =>
      match locked_round strerror inward len limit k s.transport with
      | none => none
      | some (.done _, transport) => some ⟨transport, Function.update s.calls thread none⟩
      | some (.again, transport) => some { s with transport }

/-- When a round kills the transport, no call is past its check, and its own call is over. -/
def Latches (s : Threads) (a : Action) : Prop :=
  ∀ s', s.step strerror a = some s' → s.transport.state ≠ .Dead → s'.transport.state = .Dead →
    ∀ thread, s'.calls thread = none

/-- Slots are never taken while their URB is with the kernel, and unless the transport is dead, none is. -/
def Safe (s : Threads) : Prop :=
  Careful s.transport.log ∧
    (s.transport.state ≠ .Dead → ∀ i, outstanding s.transport.log i = false ∧ (s.transport.arena.slots i).in_use =
      false)

/-- Dead for good, and nothing more is submitted. -/
def Buried (s s' : Threads) : Prop :=
  s.transport.state = .Dead → s'.transport.state = .Dead ∧
    ∃ new, s'.transport.log = s.transport.log ++ new ∧ ∀ i buffer moved, .submitted i buffer moved ∉ new

variable {strerror} {s s' s'' : Threads}

/-- The invariant. What keeps a dead transport dead is the check of the state. -/
structure Kept (s : Threads) : Prop where
  sound : Sound s.transport
  refused : s.transport.state = .Dead → ∀ thread, s.calls thread = none

/-- A call is refused or passes its check, or a round is made. -/
theorem step_cases {a : Action} (h : s.step strerror a = some s') :
    s' = s ∨ (s.transport.state ≠ .Dead ∧ s'.transport = s.transport) ∨
      ∃ thread limit k inward len o, s.calls thread = some (inward, len) ∧
        locked_round strerror inward len limit k s.transport = some (o, s'.transport) := by
  cases a with
  | check thread inward len =>
    simp only [step] at h
    cases hcall : s.calls thread with
    | some _ => simp [hcall] at h
    | none =>
      simp only [hcall] at h
      split at h
      · cases h
        exact .inl rfl
      · rename_i hpass
        cases h
        exact .inr (.inl ⟨(not_or.mp hpass).2, rfl⟩)
  | round thread limit k =>
    simp only [step] at h
    cases hcall : s.calls thread with
    | none => simp [hcall] at h
    | some call =>
      obtain ⟨inward, len⟩ := call
      simp only [hcall] at h
      refine .inr (.inr ⟨thread, limit, k, inward, len, ?_⟩)
      cases hround : locked_round strerror inward len limit k s.transport with
      | none => simp [hround] at h
      | some x =>
        obtain ⟨o, transport⟩ := x
        rw [hround] at h
        cases o with
        | done r =>
          cases h
          exact ⟨_, hcall, rfl⟩
        | again =>
          cases h
          exact ⟨_, hcall, rfl⟩

theorem step_calls {a : Action} {thread : Nat} (h : s.step strerror a = some s') (hother : thread ≠ a.thread) :
    s'.calls thread = s.calls thread := by
  cases a with
  | check own inward len =>
    simp only [step] at h
    cases hcall : s.calls own with
    | some _ => simp [hcall] at h
    | none =>
      simp only [hcall] at h
      split at h
      · cases h
        rfl
      · cases h
        exact Function.update_of_ne hother _ _
  | round own limit k =>
    simp only [step] at h
    cases hcall : s.calls own with
    | none => simp [hcall] at h
    | some call =>
      simp only [hcall] at h
      cases hround : locked_round strerror call.1 call.2 limit k s.transport with
      | none => simp [hround] at h
      | some x =>
        obtain ⟨o, transport⟩ := x
        rw [hround] at h
        cases o with
        | done r =>
          cases h
          exact Function.update_of_ne hother _ _
        | again =>
          cases h
          rfl

theorem latches_check (s : Threads) (thread : Nat) (inward : Bool) (len : Nat) :
    Latches strerror s (.check thread inward len) := by
  intro s' hstep hlive hdead
  have hsame : s'.transport = s.transport := by
    simp only [step] at hstep
    cases hcall : s.calls thread with
    | some _ => simp [hcall] at hstep
    | none =>
      simp only [hcall] at hstep
      split at hstep <;> cases hstep <;> rfl
  rw [hsame] at hdead
  exact absurd hdead hlive

theorem Kept.step {a : Action} (h : s.Kept) (hlatches : Latches strerror s a) (hstep : s.step strerror a = some s') :
    s'.Kept := by
  rcases step_cases hstep with rfl | ⟨hlive, hsame⟩ | ⟨thread, limit, k, inward, len, o, hcall, hround⟩
  · exact h
  · refine ⟨hsame ▸ h.sound, fun hdead => ?_⟩
    rw [hsame] at hdead
    exact absurd hdead hlive
  · -- A call that is past its check found the transport alive, and it is still.
    have hlive : s.transport.state ≠ .Dead := by
      intro hdead
      rw [h.refused hdead thread] at hcall
      cases hcall
    exact ⟨locked_round_sound h.sound hlive hround, hlatches s' hstep hlive⟩

theorem Kept.dead_step {a : Action} (h : s.Kept) (hdead : s.transport.state = .Dead)
    (hstep : s.step strerror a = some s') : s' = s := by
  rcases step_cases hstep with hsame | ⟨hlive, -⟩ | ⟨thread, limit, k, inward, len, o, hcall, -⟩
  · exact hsame
  · exact absurd hdead hlive
  · rw [h.refused hdead thread] at hcall
    cases hcall

theorem init_sound (max_transfer : Nat) : Sound (init max_transfer).transport where
  careful := Careful.nil
  clean := fun _ _ => ⟨rfl, (fun h => nomatch h), rfl⟩

theorem init_kept (max_transfer : Nat) : (init max_transfer).Kept :=
  ⟨init_sound max_transfer, fun hdead => nomatch hdead⟩

/-- In every run in which the transport dies, if it does, while nobody else is past the check. -/
theorem arena_safe_of_latches (max_transfer : Nat) (acts acts' : List Action)
    (hlatches : Machine.Meets (step strerror) (Latches strerror) (init max_transfer) (acts ++ acts'))
    (hrun : Machine.run (step strerror) (init max_transfer) acts = some s)
    (hrun' : Machine.run (step strerror) s acts' = some s') : s'.Safe ∧ s.Buried s' := by
  obtain ⟨hbefore, hafter⟩ := hlatches.append hrun
  have hkept : s.Kept :=
    Machine.run_keeps Kept (fun _ _ _ h hcond hstep => h.step hcond hstep) acts (init_kept max_transfer) hbefore hrun
  have hkept' : s'.Kept :=
    Machine.run_keeps Kept (fun _ _ _ h hcond hstep => h.step hcond hstep) acts' hkept hafter hrun'
  refine ⟨⟨hkept'.sound.careful, fun hlive i => ⟨(hkept'.sound.clean hlive i).2.2, (hkept'.sound.clean hlive i).1⟩⟩, ?_⟩
  intro hdead
  have hsame : s' = s := by
    refine Machine.run_keeps (fun t => t = s) ?_ acts' rfl hafter hrun'
    rintro t a t' rfl - hstep
    exact hkept.dead_step hdead hstep
  rw [hsame]
  exact ⟨hdead, [], (List.append_nil _).symm, fun _ _ _ => List.not_mem_nil⟩

end Threads

/-- A kernel that takes every URB, gives none back in time, and hands back these in the drain. -/
def slow (drains : List Wait) : Kernel := ⟨fun _ => none, fun _ => 0, fun _ => 0, [.poll_failed ETIMEDOUT], drains⟩

/-- One transfer after the other: the first is drained, and the second kills the transport. -/
def killed : List Action :=
  [.check 0 false 1, .round 0 4096 (slow [.reap (.ours 0)]), .check 1 true 1, .round 1 4096 (slow [])]

/-- Two threads are past their check when the first of them kills the transport. -/
def raced : List Action := [.check 0 false 1, .check 1 false 1, .round 0 4096 (slow [])]

/-- A third transfer is refused. -/
theorem arena_safe_killed :
    ∃ s s', Machine.run (Threads.step toString) (Threads.init 4096) killed = some s ∧
      Machine.run (Threads.step toString) s [.check 0 false 1] = some s' ∧ s.transport.state = .Dead ∧ s'.Safe ∧
      s.Buried s' := by
  have hfirst : (Machine.run (Threads.step toString) (Threads.init 4096) (killed.take 2)).map
      (fun s => s.transport.state) = some .Healthy := by
    decide
  have hdead : (Machine.run (Threads.step toString) (Threads.init 4096) killed).map
      (fun s => (s.transport.state, s.calls 0, s.calls 1)) = some (.Dead, none, none) := by
    decide
  have hmore : (Machine.run (Threads.step toString) (Threads.init 4096) (killed ++ [.check 0 false 1])).isSome := by
    decide
  obtain ⟨s', hs'⟩ := Option.isSome_iff_exists.mp hmore
  obtain ⟨s, hs, hrest⟩ := (Machine.run_append _ _).mp hs'
  rw [hs] at hdead
  have hlatches : Machine.Meets (Threads.step toString) (Threads.Latches toString) (Threads.init 4096)
      (killed ++ [.check 0 false 1]) := by
    refine ⟨Threads.latches_check _ _ _ _, fun s₁ h₁ => ⟨?_, fun s₂ h₂ =>
      ⟨Threads.latches_check _ _ _ _, fun s₃ h₃ => ⟨?_, fun s₄ h₄ =>
        ⟨Threads.latches_check _ _ _ _, fun _ _ => trivial⟩⟩⟩⟩⟩
    · rintro s₂ h₂ - hdead₂
      rw [show Machine.run (Threads.step toString) (Threads.init 4096) (killed.take 2) = some s₂ from
        Machine.run_cons.mpr ⟨s₁, h₁, Machine.run_cons.mpr ⟨s₂, h₂, rfl⟩⟩] at hfirst
      cases hdead₂.symm.trans (Option.some.inj hfirst)
    · rintro s₄ h₄ - - thread
      have hrun : Machine.run (Threads.step toString) (Threads.init 4096) killed = some s₄ :=
        Machine.run_cons.mpr ⟨s₁, h₁, Machine.run_cons.mpr ⟨s₂, h₂, Machine.run_cons.mpr ⟨s₃, h₃,
          Machine.run_cons.mpr ⟨s₄, h₄, rfl⟩⟩⟩⟩
      cases hs.symm.trans hrun
      obtain ⟨-, hcalls⟩ := Prod.mk.inj (Option.some.inj hdead)
      obtain ⟨h0, h1⟩ := Prod.mk.inj hcalls
      rcases thread with _ | _ | n
      · exact h0
      · exact h1
      · rw [Threads.step_calls h₄ (by simp [Action.thread]), Threads.step_calls h₃ (by simp [Action.thread]),
          Threads.step_calls h₂ (by simp [Action.thread]), Threads.step_calls h₁ (by simp [Action.thread])]
        rfl
  have hsafe := Threads.arena_safe_of_latches 4096 killed [.check 0 false 1] hlatches hs hrest
  exact ⟨s, s', hs, hrest, (Prod.mk.inj (Option.some.inj hdead)).1, hsafe.1, hsafe.2⟩

/-- The second thread submits on the dead transport, and its drain brings it back to life. -/
theorem raced_arena_unsafe :
    ¬ ∀ (acts acts' : List Action) (s s' : Threads),
      Machine.run (Threads.step toString) (Threads.init 4096) acts = some s →
      Machine.run (Threads.step toString) s acts' = some s' → s'.Safe ∧ s.Buried s' := by
  intro h
  have hdead : (Machine.run (Threads.step toString) (Threads.init 4096) raced).map (fun s => s.transport.state) =
      some .Dead := by
    decide
  have hback : (Machine.run (Threads.step toString) (Threads.init 4096)
      (raced ++ [.round 1 4096 (slow [.reap (.ours 0)])])).map (fun s => s.transport.state) = some .Healthy := by
    decide +kernel
  obtain ⟨s, hs, hsdead⟩ := Option.map_eq_some_iff.mp hdead
  obtain ⟨s', hs', hlive⟩ := Option.map_eq_some_iff.mp hback
  have hrest : Machine.run (Threads.step toString) s [.round 1 4096 (slow [.reap (.ours 0)])] = some s' := by
    obtain ⟨t, ht, hrest⟩ := (Machine.run_append _ _).mp hs'
    rw [hs] at ht
    cases ht
    exact hrest
  have hburied := ((h _ _ s s' hs hrest).2 hsdead).1
  rw [hlive] at hburied
  cases hburied

end LuksAndroid.Usbfs

import LuksAndroid.Usbfs.Code

/-!
# Slots

What taking slots, submitting and reaping do to the arena.
-/

namespace LuksAndroid.Usbfs

open Word

namespace UrbArena

variable {a : UrbArena} {l : List Slot} {i : Slot}

theorem slots_each (a : UrbArena) (l : List Slot) (f : Nat → UrbSlot → UrbSlot) (i : Slot) :
    (a.each l f).slots i = if i ∈ l then f (l.idxOf i) (a.slots i) else a.slots i := rfl

theorem slots_update (a : UrbArena) (i j : Slot) (f : UrbSlot → UrbSlot) :
    (a.update i f).slots j = if j = i then f (a.slots i) else a.slots j := Function.update_apply _ _ _ _

theorem nodup_free (a : UrbArena) (count : Nat) : (a.free count).Nodup := by
  have hall := (List.nodup_finRange MAX_URB_SLOTS).filter fun i => decide (¬ (a.slots i).in_use)
  unfold free
  split
  · exact hall
  · exact hall.sublist (List.take_sublist _ _)

/-- A slot that was just taken. -/
def taken (gen index : Nat) (slot : UrbSlot) : UrbSlot :=
  { slot with in_use := true, generation := gen, index, submitted := false, reaped := false }

theorem allocate_ok {count gen : Nat} {a' : UrbArena} (h : a.allocate count = (.ok (gen, l), a')) :
    gen = a.next_generation ∧ l = a.free count ∧ l.length = count ∧ l.Nodup ∧
      a'.next_generation = max (wrapping_add gen 1) 1 ∧
      ∀ i, a'.slots i = if i ∈ l then taken gen (l.idxOf i) (a.slots i) else a.slots i := by
  dsimp only [allocate] at h
  split at h
  · rename_i hcount
    cases h
    exact ⟨rfl, rfl, hcount.2, a.nodup_free count, rfl, fun i => rfl⟩
  · cases h

theorem allocate_error {count : Nat} {e : LuksError} {a' : UrbArena} (h : a.allocate count = (.error e, a'))
    (i : Slot) :
    (i ∈ a.free count → (a'.slots i).in_use = false ∧ (a'.slots i).submitted = false) ∧
      (i ∉ a.free count → a'.slots i = a.slots i) := by
  dsimp only [allocate] at h
  split at h
  · cases h
  · cases h
    constructor
    · intro hi
      simp only [slots_each, if_pos hi]
      exact ⟨trivial, trivial⟩
    · intro hi
      simp only [slots_each, if_neg hi]

end UrbArena

/-! ## Submitting -/

/-- The record of a submission. -/
def submission (k : Kernel) (a : UrbArena) (i : Slot) (n : Nat) : Event :=
  .submitted i (a.slots i).buffer (k.actual_length n (a.slots i).buffer_length)

/-- How many are accepted. -/
def Kernel.accepts (k : Kernel) : Nat → Nat → Nat
  | 0, n => n
  | count + 1, n => if k.refuses n = none then k.accepts count (n + 1) else n

/-- What submitting these slots, as chunks from `n` on, leaves behind when it gets to `m`. -/
structure Submits (k : Kernel) (l : List Slot) (n : Nat) (t : UsbFsTransport) (err : Option Int) (m : Nat)
    (t' : UsbFsTransport) : Prop where
  le : n ≤ m
  max : m ≤ n + l.length
  count : m = k.accepts l.length n
  all : err = none ↔ m = n + l.length
  state : t'.state = t.state
  limit : t'.max_transfer = t.max_transfer
  gen : t'.arena.next_generation = t.arena.next_generation
  slots : ∀ i, t'.arena.slots i =
    if i ∈ l.take (m - n) then { t.arena.slots i with submitted := true } else t.arena.slots i
  log : t'.log = t.log ++ ((l.take (m - n)).zipIdx n).map fun x => submission k t.arena x.1 x.2

theorem submit_urbs_spec (k : Kernel) (l : List Slot) (hl : l.Nodup) (n : Nat) (t : UsbFsTransport) :
    ∃ err m t', submit_urbs k l n t = (err, m, t') ∧ Submits k l n t err m t' := by
  induction l generalizing n t with
  | nil =>
    refine ⟨none, n, t, rfl, ?_⟩
    constructor <;> simp [Kernel.accepts]
  | cons i rest ih =>
    cases hk : k.refuses n with
    | some e =>
      refine ⟨some e, n, t, by simp only [submit_urbs, hk], ?_⟩
      constructor <;> simp [Kernel.accepts, hk]
    | none =>
      obtain ⟨hi, hrest⟩ := List.nodup_cons.mp hl
      obtain ⟨err, m, t', heq, h⟩ := ih hrest (n + 1)
        { t with
          arena := t.arena.update i fun slot => { slot with submitted := true }
          log := t.log ++ [submission k t.arena i n] }
      refine ⟨err, m, t', by simp only [submit_urbs, hk]; exact heq, ?_⟩
      have hle := h.le
      have hmax := h.max
      have hd : m - n = m - (n + 1) + 1 := by omega
      have hother : ∀ j ∈ rest.take (m - (n + 1)), j ≠ i := fun j hj hji => hi (hji ▸ List.mem_of_mem_take hj)
      refine ⟨by omega, by rw [List.length_cons]; omega, ?_, ?_, h.state, h.limit, h.gen, ?_, ?_⟩
      · rw [h.count, List.length_cons, Kernel.accepts, if_pos hk]
      · rw [h.all, List.length_cons]
        omega
      · intro j
        rw [hd, List.take_succ_cons, h.slots j, UrbArena.slots_update]
        by_cases hji : j = i
        · subst hji
          rw [if_neg fun hj => hother j hj rfl, if_pos rfl, if_pos List.mem_cons_self]
        · simp only [hji, if_false, List.mem_cons, false_or]
      · rw [hd, List.take_succ_cons, h.log, List.zipIdx_cons, List.map_cons, List.append_assoc, List.singleton_append]
        congr 2
        apply List.map_congr_left
        intro x hx
        have hne : x.1 ≠ i := hother x.1 (List.fst_mem_of_mem_zipIdx hx)
        simp only [submission, UrbArena.slots_update, if_neg hne]

/-- The slot of a chunk that is with the kernel. -/
def waiting (attempted gen i : Nat) : UrbSlot := ⟨i * CHUNK_SIZE, chunk_len attempted i, gen, i, true, true, false⟩

/-- How a round starts. -/
structure Started (attempted : Nat) (k : Kernel) (t : UsbFsTransport) (b : Batch) (t' : UsbFsTransport) : Prop where
  gen : b.generation = t.arena.next_generation
  next : t'.arena.next_generation = max (wrapping_add b.generation 1) 1
  free : b.indices = t.arena.free (num_urbs attempted)
  length : b.indices.length = num_urbs attempted
  count : b.submitted_count = k.accepts (num_urbs attempted) 0
  count_le : b.submitted_count ≤ num_urbs attempted
  all : b.submit_err = none ↔ b.submitted_count = num_urbs attempted
  state : t'.state = t.state
  limit : t'.max_transfer = t.max_transfer
  ours : ∀ i ∈ b.submitted, t'.arena.slots i = waiting attempted b.generation (b.indices.idxOf i)
  unused : ∀ i ∈ b.indices, i ∉ b.submitted → (t'.arena.slots i).in_use = false ∧ (t'.arena.slots i).submitted = false
  others : ∀ i ∉ b.indices, t'.arena.slots i = t.arena.slots i
  log : t'.log = t.log ++ b.indices.map .allocated ++ b.submitted.zipIdx.map fun x =>
    .submitted x.1 (x.2 * CHUNK_SIZE) (k.actual_length x.2 (chunk_len attempted x.2))

theorem Started.nodup {attempted : Nat} {k : Kernel} {t t' : UsbFsTransport} {b : Batch}
    (h : Started attempted k t b t') :
    b.indices.Nodup := h.free ▸ t.arena.nodup_free _

theorem Started.length_submitted {attempted : Nat} {k : Kernel} {t t' : UsbFsTransport} {b : Batch}
    (h : Started attempted k t b t') : b.submitted.length = b.submitted_count := by
  rw [Batch.submitted, List.length_take, h.length]
  exact Nat.min_eq_left h.count_le

theorem start_round_ok {attempted : Nat} {k : Kernel} {t t' : UsbFsTransport} {b : Batch}
    (h : start_round attempted k t = (.ok b, t')) : Started attempted k t b t' := by
  unfold start_round at h
  cases halloc : t.arena.allocate (num_urbs attempted) with
  | mk r arena =>
    cases r with
    | error e =>
      simp only [halloc] at h
      cases h
    | ok x =>
      obtain ⟨gen, indices⟩ := x
      obtain ⟨hgen, hfree, hlen, hnodup, hnext, hslots⟩ := UrbArena.allocate_ok halloc
      obtain ⟨err, m, t₁, hsub, hs⟩ := submit_urbs_spec k indices hnodup 0
        { t with
          arena := prepare attempted indices arena
          log := t.log ++ (t.arena.free (num_urbs attempted)).map .allocated }
      simp only [halloc, hsub] at h
      cases h
      have htake := hs.slots
      have hprep : ∀ i, (prepare attempted indices arena).slots i =
          if i ∈ indices then { waiting attempted gen (indices.idxOf i) with submitted := false }
          else t.arena.slots i := by
        intro i
        rw [prepare, UrbArena.slots_each, hslots]
        by_cases hi : i ∈ indices
        · simp only [if_pos hi, UrbArena.taken, waiting]
        · simp only [if_neg hi]
      simp only [Nat.sub_zero] at htake
      have hmax := hs.max
      refine ⟨hgen, ?_, hfree, hlen, ?_, ?_, ?_, hs.state, hs.limit, ?_, ?_, ?_, ?_⟩
      · exact hs.gen.trans hnext
      · exact hlen ▸ hs.count
      · exact (Nat.zero_add _ ▸ hmax).trans hlen.le
      · rw [← hlen, ← Nat.zero_add indices.length]
        exact hs.all
      · intro i hi
        replace hi : i ∈ indices.take m := hi
        have hin : i ∈ indices := List.mem_of_mem_take hi
        have hnot : i ∉ indices.drop m := fun hdrop =>
          List.disjoint_take_drop hnodup le_rfl hi hdrop
        simp only [UrbArena.slots_each, if_neg hnot, htake, hprep, if_pos hin]
        rw [if_pos hi]
        rfl
      · intro i hin hi
        have hdrop : i ∈ indices.drop m := by
          rw [← List.take_append_drop m indices] at hin
          exact (List.mem_append.mp hin).resolve_left hi
        simp only [UrbArena.slots_each, if_pos hdrop]
        exact ⟨trivial, trivial⟩
      · intro i hi
        have hdrop : i ∉ indices.drop m := fun hdrop => hi (List.mem_of_mem_drop hdrop)
        have htk : i ∉ indices.take m := fun htk => hi (List.mem_of_mem_take htk)
        simp only [UrbArena.slots_each, if_neg hdrop, htake, if_neg htk, hprep, if_neg hi]
      · have hlog := hs.log
        simp only [Nat.sub_zero, ← hfree] at hlog
        rw [hlog]
        congr 1
        apply List.map_congr_left
        intro x hx
        have hx1 : x.1 ∈ indices.take m := List.fst_mem_of_mem_zipIdx hx
        have hidx : indices.idxOf x.1 = x.2 := by
          have hget := List.mk_mem_zipIdx_iff_getElem?.mp hx
          rw [List.getElem?_take] at hget
          split at hget
          · obtain ⟨hlt, hx⟩ := List.getElem?_eq_some_iff.mp hget
            exact hx ▸ hnodup.idxOf_getElem x.2 hlt
          · cases hget
        simp only [submission, hprep, if_pos (List.mem_of_mem_take hx1), waiting, hidx]

theorem start_round_error {attempted : Nat} {k : Kernel} {t t' : UsbFsTransport} {e : LuksError}
    (h : start_round attempted k t = (.error e, t')) :
    t'.state = t.state ∧ t'.log = t.log ++ (t.arena.free (num_urbs attempted)).map .allocated ∧
      ∀ i, (i ∈ t.arena.free (num_urbs attempted) →
          (t'.arena.slots i).in_use = false ∧ (t'.arena.slots i).submitted = false) ∧
        (i ∉ t.arena.free (num_urbs attempted) → t'.arena.slots i = t.arena.slots i) := by
  unfold start_round at h
  cases halloc : t.arena.allocate (num_urbs attempted) with
  | mk r arena =>
    cases r with
    | error e' =>
      simp only [halloc] at h
      cases h
      exact ⟨rfl, rfl, UrbArena.allocate_error halloc⟩
    | ok x =>
      simp only [halloc] at h
      cases h

/-! ## Reaping -/

/-- The slots of this generation that are not back. -/
def pending (gen : Nat) (a : UrbArena) : Finset Slot :=
  Finset.univ.filter fun i => (a.slots i).generation = gen ∧ (a.slots i).submitted = true ∧ (a.slots i).reaped = false

theorem mem_pending {gen : Nat} {a : UrbArena} {i : Slot} :
    i ∈ pending gen a ↔ (a.slots i).generation = gen ∧ (a.slots i).submitted = true ∧ (a.slots i).reaped = false := by
  simp [pending]

/-- What taking one slot back changes. -/
structure TookBack (gen : Nat) (i : Slot) (t : UsbFsTransport) (counts : Bool) (t' : UsbFsTransport) : Prop where
  counts : counts = true ↔ i ∈ pending gen t.arena
  pending : pending gen t'.arena = (pending gen t.arena).erase i
  others : ∀ j, j ≠ i → t'.arena.slots j = t.arena.slots j
  in_use : (t'.arena.slots i).in_use = true → (t.arena.slots i).in_use = true ∧ i ∉ Usbfs.pending gen t.arena
  same : ∀ j, (t'.arena.slots j).generation = (t.arena.slots j).generation ∧
    (t'.arena.slots j).index = (t.arena.slots j).index ∧
    (t'.arena.slots j).buffer_length = (t.arena.slots j).buffer_length ∧
    (t'.arena.slots j).submitted = (t.arena.slots j).submitted ∧
    ((t.arena.slots j).reaped = true → (t'.arena.slots j).reaped = true)
  next : t'.arena.next_generation = t.arena.next_generation
  state : t'.state = t.state
  limit : t'.max_transfer = t.max_transfer
  log : t'.log = t.log ++ [.reaped i]

theorem take_back_spec (t : UsbFsTransport) (gen : Nat) (i : Slot) :
    TookBack gen i t (t.take_back gen i).1 (t.take_back gen i).2 := by
  have hupdate := fun f => t.arena.slots_update i (f := f)
  by_cases hmem : i ∈ pending gen t.arena
  · obtain ⟨hgen, hsub, hreaped⟩ := mem_pending.mp hmem
    have heq : t.take_back gen i = (true, { t with
        arena := t.arena.update i fun slot => { slot with reaped := true, in_use := false }
        log := t.log ++ [.reaped i] }) := by
      simp [UsbFsTransport.take_back, hgen, hsub, hreaped]
    rw [heq]
    refine ⟨by simp [hmem], ?_, ?_, ?_, ?_, rfl, rfl, rfl, rfl⟩
    · ext j
      rw [Finset.mem_erase, mem_pending, mem_pending, t.arena.slots_update]
      by_cases hji : j = i
      · simp [hji]
      · simp [hji]
    · intro j hji
      rw [t.arena.slots_update, if_neg hji]
    · rw [t.arena.slots_update, if_pos rfl]
      intro h
      cases h
    · intro j
      rw [t.arena.slots_update]
      by_cases hji : j = i
      · subst hji
        simp
      · simp [hji]
  · have hnot : ¬ ((t.arena.slots i).generation = gen ∧ (t.arena.slots i).submitted = true ∧
        ¬ (t.arena.slots i).reaped = true) := fun h => hmem (mem_pending.mpr ⟨h.1, h.2.1, by simpa using h.2.2⟩)
    by_cases hstale : (t.arena.slots i).in_use = true ∧ (t.arena.slots i).generation < gen
    · have heq : t.take_back gen i = (false, { t with
          arena := t.arena.update i fun slot => { slot with in_use := false }
          log := t.log ++ [.reaped i] }) := by
        unfold UsbFsTransport.take_back
        simp only [if_neg hnot, if_pos hstale]
      rw [heq]
      refine ⟨by simp [hmem], ?_, ?_, ?_, ?_, rfl, rfl, rfl, rfl⟩
      · rw [Finset.erase_eq_of_notMem hmem]
        ext j
        rw [mem_pending, mem_pending, t.arena.slots_update]
        by_cases hji : j = i
        · simp [hji]
        · simp [hji]
      · intro j hji
        rw [t.arena.slots_update, if_neg hji]
      · rw [t.arena.slots_update, if_pos rfl]
        intro h
        cases h
      · intro j
        rw [t.arena.slots_update]
        by_cases hji : j = i
        · subst hji
          simp
        · simp [hji]
    · have heq : t.take_back gen i = (false, { t with log := t.log ++ [.reaped i] }) := by
        unfold UsbFsTransport.take_back
        simp only [if_neg hnot, if_neg hstale]
      rw [heq]
      exact ⟨by simp [hmem], (Finset.erase_eq_of_notMem hmem).symm, fun _ _ => rfl, fun h => ⟨h, hmem⟩,
        fun _ => ⟨rfl, rfl, rfl, rfl, id⟩, rfl, rfl, rfl, rfl⟩

/-- Slots are taken back, one after the other, and discards are asked for in between. -/
inductive Reaps (gen : Nat) (completed : Nat) (t : UsbFsTransport) : Nat → UsbFsTransport → Prop where
  | refl : Reaps gen completed t completed t
  | back {c : Nat} {t' : UsbFsTransport} (h : Reaps gen completed t c t') (i : Slot) :
    Reaps gen completed t (if (t'.take_back gen i).1 then c + 1 else c) (t'.take_back gen i).2
  | discard {c : Nat} {t' : UsbFsTransport} (h : Reaps gen completed t c t') (l : List Slot) :
    Reaps gen completed t c (t'.discard l)

section

variable {gen completed c c' : Nat} {t t' t'' : UsbFsTransport} {k : Kernel} {inward : Bool}
    {indices submitted : List Slot}

theorem Reaps.trans (h : Reaps gen completed t c t') (h' : Reaps gen c t' c' t'') : Reaps gen completed t c' t'' := by
  induction h' with
  | refl => exact h
  | back _ i ih => exact ih.back i
  | discard _ l ih => exact ih.discard l

theorem Reaps.count (h : Reaps gen completed t c t') :
    c + (pending gen t'.arena).card = completed + (pending gen t.arena).card := by
  induction h with
  | refl => rfl
  | discard _ _ ih => exact ih
  | @back c t' _ i ih =>
    have hback := take_back_spec t' gen i
    rw [hback.pending]
    by_cases hmem : i ∈ pending gen t'.arena
    · have hpos : 0 < (pending gen t'.arena).card := Finset.card_pos.mpr ⟨i, hmem⟩
      rw [if_pos (hback.counts.mpr hmem), Finset.card_erase_of_mem hmem]
      omega
    · rw [if_neg (mt hback.counts.mp hmem), Finset.erase_eq_of_notMem hmem]
      exact ih

theorem Reaps.state (h : Reaps gen completed t c t') : t'.state = t.state := by
  induction h with
  | refl => rfl
  | discard _ _ ih => exact ih
  | back _ i ih => exact (take_back_spec _ gen i).state.trans ih

theorem score_reaps (i : Slot) (p : Progress) :
    Reaps gen p.completed p.transport (score inward submitted k i p).completed
    (score inward submitted k i p).transport := by
  dsimp only [score]
  split
  · split
    · exact .discard .refl _
    · exact .refl
  · split
    · exact .discard .refl _
    · exact .refl

theorem reap_one_reaps (inward : Bool) (gen : Nat) (indices submitted : List Slot) (k : Kernel) (r : Returned)
    (p : Progress) :
    Reaps gen p.completed p.transport (reap_one inward gen indices submitted k r p).completed
      (reap_one inward gen indices submitted k r p).transport := by
  unfold reap_one
  split
  · exact .refl
  · rename_i i _
    have hback := (Reaps.refl : Reaps gen p.completed p.transport _ _).back i
    dsimp only
    split
    · rename_i hcounts
      rw [if_pos hcounts] at hback
      exact hback.trans (score_reaps i
        { p with transport := (p.transport.take_back gen i).2, completed := p.completed + 1 })
    · rename_i hcounts
      rw [if_neg hcounts] at hback
      exact hback

theorem reap_loop_reaps (waits : List Wait) {p p' : Progress} {e : Option Int}
    (h : reap_loop inward gen indices submitted k waits p = some (e, p')) :
    Reaps gen p.completed p.transport p'.completed p'.transport ∧ (e = none → submitted.length ≤ p'.completed) := by
  induction waits generalizing p with
  | nil =>
    unfold reap_loop at h
    split at h
    · cases h
    · cases h
      exact ⟨.refl, fun _ => by omega⟩
  | cons w rest ih =>
    unfold reap_loop at h
    split at h
    · cases h
      exact ⟨.refl, fun _ => by omega⟩
    · cases w with
      | poll_failed e =>
        cases h
        exact ⟨.refl, fun h => nomatch h⟩
      | reap_failed e =>
        simp only at h
        split at h
        · exact ih h
        · cases h
          exact ⟨.refl, fun h => nomatch h⟩
      | reap r =>
        obtain ⟨hreaps, hend⟩ := ih h
        exact ⟨(reap_one_reaps inward gen indices submitted k r p).trans hreaps, hend⟩

theorem drain_loop_reaps (gen : Nat) (indices : List Slot) (count : Nat) (waits : List Wait) (completed : Nat)
    (t : UsbFsTransport) :
    Reaps gen completed t (drain_loop gen count indices waits completed t).1
      (drain_loop gen count indices waits completed t).2 := by
  induction waits generalizing completed t with
  | nil => exact .refl
  | cons w rest ih =>
    unfold drain_loop
    split
    · exact .refl
    · cases w with
      | poll_failed e =>
        simp only
        split
        · exact .refl
        · exact ih _ _
      | reap_failed e =>
        simp only
        split
        · exact .refl
        · exact ih _ _
      | reap r =>
        simp only
        split
        · exact ih _ _
        · exact (Reaps.refl.back _).trans (ih _ _)

end

theorem reap_urbs_reaps {inward : Bool} {attempted : Nat} {b : Batch} {k : Kernel} {t : UsbFsTransport} {e : Option Int}
    {p : Progress} (h : reap_urbs inward attempted b k t = some (e, p)) :
    Reaps b.generation 0 t p.completed p.transport := by
  unfold reap_urbs at h
  dsimp only at h
  split at h
  · exact (reap_loop_reaps _ h).1
  · cases h
    exact .refl

theorem Started.pending_eq {attempted : Nat} {k : Kernel} {t t' : UsbFsTransport} {b : Batch}
    (h : Started attempted k t b t')
    (hothers : ∀ i ∉ b.indices, i ∉ pending b.generation t.arena) :
    pending b.generation t'.arena = b.submitted.toFinset := by
  ext i
  rw [List.mem_toFinset]
  constructor
  · intro hi
    by_contra hsub
    obtain ⟨hgen, hsubmitted, hreaped⟩ := mem_pending.mp hi
    by_cases hin : i ∈ b.indices
    · rw [(h.unused i hin hsub).2] at hsubmitted
      cases hsubmitted
    · rw [h.others i hin] at hgen hsubmitted hreaped
      exact hothers i hin (mem_pending.mpr ⟨hgen, hsubmitted, hreaped⟩)
  · intro hi
    rw [mem_pending, h.ours i hi]
    exact ⟨rfl, rfl, rfl⟩

theorem Started.card_pending {attempted : Nat} {k : Kernel} {t t' : UsbFsTransport} {b : Batch}
    (h : Started attempted k t b t')
    (hothers : ∀ i ∉ b.indices, i ∉ pending b.generation t.arena) :
    (pending b.generation t'.arena).card = b.submitted_count := by
  have hnodup : b.submitted.Nodup := h.nodup.sublist (List.take_sublist _ _)
  rw [h.pending_eq hothers, List.toFinset_card_of_nodup hnodup, h.length_submitted]

end LuksAndroid.Usbfs

import LuksAndroid.Usbfs.Arena

/-!
# Which bytes a call moves

The places of the bytes that the URBs of a call move, in the order of the wire, against
the number of bytes that the call reports.
-/

namespace LuksAndroid.Usbfs

open Word

/-! ## Pieces of a buffer -/

/-- Of each piece of `size` places the first few, piece after piece. -/
def pieces (size : Nat) (moved : Nat → Nat) (n : Nat) : List Nat :=
  (List.range n).flatMap fun i => List.range' (i * size) (moved i)

section

variable {size : Nat} {moved : Nat → Nat} {n : Nat}

theorem pieces_succ (size : Nat) (moved : Nat → Nat) (n : Nat) :
    pieces size moved (n + 1) = pieces size moved n ++ List.range' (n * size) (moved n) := by
  simp [pieces, List.range_succ]

theorem length_pieces (size : Nat) (moved : Nat → Nat) (n : Nat) :
    (pieces size moved n).length = ((List.range n).map moved).sum := by
  simp [pieces, List.length_flatMap]

theorem mem_pieces {x : Nat} : x ∈ pieces size moved n ↔ ∃ i < n, i * size ≤ x ∧ x < i * size + moved i := by
  simp only [pieces, List.mem_flatMap, List.mem_range, List.mem_range'_1]

theorem pieces_eq_nil : pieces size moved n = [] ↔ ∀ i < n, moved i = 0 := by
  rw [← List.length_eq_zero_iff, length_pieces, List.sum_eq_zero_iff]
  simp

/-- There are no gaps when nothing moves behind a short piece, and only then. -/
theorem pieces_eq_range (hle : ∀ i < n, moved i ≤ size) :
    pieces size moved n = List.range ((List.range n).map moved).sum ↔
      ∀ i j, i < j → j < n → moved i < size → moved j = 0 := by
  constructor
  · intro heq i j hij hj hshort
    by_contra hpos
    have hstep : (i + 1) * size ≤ j * size := Nat.mul_le_mul_right _ hij
    rw [Nat.succ_mul] at hstep
    have hlast : j * size ∈ pieces size moved n := mem_pieces.mpr ⟨j, hj, le_rfl, by omega⟩
    have hgap : i * size + moved i ∈ pieces size moved n := by
      rw [heq, List.mem_range] at hlast ⊢
      omega
    obtain ⟨l, hl, hlow, hhigh⟩ := mem_pieces.mp hgap
    have hlen := hle l hl
    rcases Nat.lt_trichotomy l i with hli | rfl | hli
    · have hmul : (l + 1) * size ≤ i * size := Nat.mul_le_mul_right _ hli
      rw [Nat.succ_mul] at hmul
      omega
    · omega
    · have hmul : (i + 1) * size ≤ l * size := Nat.mul_le_mul_right _ hli
      rw [Nat.succ_mul] at hmul
      omega
  · intro h
    induction n with
    | zero => rfl
    | succ n ih =>
      have hih := ih (fun i hi => hle i (by omega)) fun i j hij hj => h i j hij (by omega)
      rw [pieces_succ, hih, List.range_succ, List.map_append, List.sum_append, List.map_singleton, List.sum_singleton]
      rcases Nat.eq_zero_or_pos (moved n) with hzero | hpos
      · rw [hzero, Nat.add_zero]
        exact List.append_nil _
      · -- everything before was moved whole
        have hfull : ∀ i ∈ List.range n, moved i = size := by
          intro i hi
          have hi := List.mem_range.mp hi
          have hshort := mt (h i n hi (Nat.lt_succ_self n)) hpos.ne'
          have := hle i (by omega)
          omega
        have hsum : ((List.range n).map moved).sum = n * size := by
          rw [List.map_congr_left hfull, List.map_const', List.sum_replicate, List.length_range, smul_eq_mul]
        rw [hsum, List.range_eq_range', List.range_eq_range', ← List.range'_append]
        simp
end

theorem contiguous_prefix_append (l : List (Option Nat)) (x : Option Nat) :
    contiguous_prefix (l ++ [x]) = contiguous_prefix l + if none ∈ l then 0 else x.getD 0 := by
  induction l with
  | nil => cases x <;> simp [ contiguous_prefix]
  | cons y rest ih =>
    cases y with
    | none => simp [ contiguous_prefix]
    | some n => simp [ contiguous_prefix, ih, Nat.add_assoc]

theorem contiguous_prefix_range (f : Nat → Option Nat) (n : Nat) :
    ∃ q ≤ n, (∀ j, j < q ↔ j < n ∧ ∀ l ≤ j, (f l).isSome = true) ∧
      contiguous_prefix ((List.range n).map f) = ((List.range q).map fun j => (f j).getD 0).sum := by
  induction n with
  | zero => exact ⟨0, le_rfl, by simp, rfl⟩
  | succ n ih =>
    obtain ⟨q, hq, hiff, hsum⟩ := ih
    rw [List.range_succ, List.map_append, List.map_singleton, contiguous_prefix_append, hsum]
    by_cases hnone : none ∈ (List.range n).map f
    · obtain ⟨l, hl, hfl⟩ := List.mem_map.mp hnone
      have hl := List.mem_range.mp hl
      refine ⟨q, by omega, fun j => ?_, by rw [if_pos hnone]; rfl⟩
      rw [hiff]
      refine ⟨fun h => ⟨by omega, h.2⟩, fun h => ⟨?_, h.2⟩⟩
      by_contra hj
      have := h.2 l (by omega)
      rw [hfl] at this
      cases this
    · have hall : ∀ l < n, (f l).isSome = true := by
        intro l hl
        by_contra hfl
        exact hnone (List.mem_map.mpr ⟨l, List.mem_range.mpr hl, Option.not_isSome_iff_eq_none.mp hfl⟩)
      have hqn : q = n := by
        by_contra hne
        exact absurd ((hiff q).mpr ⟨by omega, fun l hl => hall l (by omega)⟩) (lt_irrefl q)
      subst hqn
      rw [if_neg hnone]
      cases hfq : f q with
      | none =>
        refine ⟨q, by omega, fun j => ?_, rfl⟩
        refine ⟨fun h => ⟨by omega, fun l hl => hall l (by omega)⟩, fun h => ?_⟩
        by_contra hj
        have := h.2 q (by omega)
        rw [hfq] at this
        cases this
      | some x =>
        refine ⟨q + 1, le_rfl, fun j => ?_, ?_⟩
        · refine ⟨fun h => ⟨h, fun l hl => ?_⟩, fun h => h.1⟩
          rcases Nat.lt_or_ge l q with hlt | hge
          · exact hall l hlt
          · rw [show l = q by omega, hfq]
            rfl
        · rw [List.range_succ, List.map_append, List.sum_append, List.map_singleton, List.sum_singleton, hfq]

/-- What was moved is what was counted, place by place: `f` is the score of each piece, and there is no score unless
all `num` pieces were taken. -/
theorem counted_iff {size : Nat} {moved : Nat → Nat} {f : Nat → Option Nat} {s num : Nat}
    (hle : ∀ i < s, moved i ≤ size)
    (hf : ∀ j x, f j = some x → x = moved j ∧ s = num) (front : List (Option Nat)) :
    front ++ (pieces size moved s).map some =
        (List.range ( contiguous_prefix ((List.range num).map f))).map some ↔
      front = [] ∧ (∀ i < s, 0 < moved i → i < num ∧ ∀ l ≤ i, (f l).isSome = true) ∧
        ∀ i j, i < j → j < s → moved i < size → moved j = 0 := by
  obtain ⟨q, hq, hiff, hsum⟩ := contiguous_prefix_range f num
  have hqs : q ≤ s := by
    rcases Nat.eq_zero_or_pos q with hzero | hpos
    · omega
    · obtain ⟨x, hx⟩ := Option.isSome_iff_exists.mp (((hiff 0).mp hpos).2 0 le_rfl)
      have := (hf 0 x hx).2
      omega
  have hscore : ∀ j ∈ List.range q, (f j).getD 0 = moved j := by
    intro j hj
    obtain ⟨x, hx⟩ := Option.isSome_iff_exists.mp (((hiff j).mp (List.mem_range.mp hj)).2 j le_rfl)
    rw [hx, Option.getD_some, (hf j x hx).1]
  rw [List.map_congr_left hscore] at hsum
  rw [hsum]
  obtain ⟨d, rfl⟩ : ∃ d, s = q + d := ⟨s - q, by omega⟩
  have htotal : ((List.range (q + d)).map moved).sum =
      ((List.range q).map moved).sum + (((List.range d).map (q + ·)).map moved).sum := by
    rw [List.range_add, List.map_append, List.sum_append]
  have hcounted : (∀ i < q + d, 0 < moved i → i < num ∧ ∀ l ≤ i, (f l).isSome = true) ↔
      (((List.range d).map (q + ·)).map moved).sum = 0 := by
    rw [List.sum_eq_zero_iff]
    simp only [List.mem_map, List.mem_range, forall_exists_index, and_imp, forall_apply_eq_imp_iff₂]
    constructor
    · intro h i hi
      by_contra hpos
      have := (hiff (q + i)).mpr (h (q + i) (by omega) (by omega))
      omega
    · intro h i hi hpos
      refine (hiff i).mp ?_
      by_contra hge
      have hzero := h (i - q) (by omega)
      rw [show q + (i - q) = i by omega] at hzero
      omega
  constructor
  · intro heq
    have hlen := congrArg List.length heq
    rw [List.length_append, List.length_map, length_pieces, htotal, List.length_map, List.length_range] at hlen
    have hfront : front = [] := List.length_eq_zero_iff.mp (by omega)
    have hrest : (((List.range d).map (q + ·)).map moved).sum = 0 := by omega
    refine ⟨hfront, hcounted.mpr hrest, ?_⟩
    rw [← pieces_eq_range hle, htotal, hrest, Nat.add_zero]
    rw [hfront, List.nil_append] at heq
    exact List.map_injective_iff.mpr (Option.some_injective _) heq
  · rintro ⟨rfl, hall, hgap⟩
    have hpieces := (pieces_eq_range hle).mpr hgap
    rw [htotal, hcounted.mp hall, Nat.add_zero] at hpieces
    rw [List.nil_append, hpieces]

/-! ## The record -/

/-- The places that an event moves. -/
def Event.places : Event → List Nat
  | .submitted _ buffer moved => List.range' buffer moved
  | .allocated _ | .discarded _ | .reaped _ => []

def placed (log : List Event) : List Nat := log.flatMap Event.places

/-- The record grew by events that move these places. -/
def Moved (t : UsbFsTransport) (l : List Nat) (t' : UsbFsTransport) : Prop :=
  ∃ new, t'.log = t.log ++ new ∧ placed new = l

theorem placed_eq_nil {log : List Event} (h : ∀ e ∈ log, e.places = []) : placed log = [] :=
  List.flatMap_eq_nil_iff.mpr h

theorem Moved.trans {t t' t'' : UsbFsTransport} {l l' : List Nat} (h : Moved t l t') (h' : Moved t' l' t'') :
    Moved t (l ++ l') t'' := by
  obtain ⟨new, hlog, rfl⟩ := h
  obtain ⟨new', hlog', rfl⟩ := h'
  exact ⟨new ++ new', by rw [hlog', hlog, List.append_assoc], List.flatMap_append⟩

/-- The slots that are still with the kernel are of the past, and the counter does not wrap around soon. -/
structure Fresh (n : Nat) (a : UrbArena) : Prop where
  older : ∀ i, (a.slots i).submitted = true → (a.slots i).reaped = false → (a.slots i).generation < a.next_generation
  far : a.next_generation + n < size

theorem Fresh.mono {n n' : Nat} {a : UrbArena} (h : Fresh n a) (hn : n' ≤ n) : Fresh n' a :=
  ⟨h.older, by have := h.far; omega⟩

section

variable {gen n completed c : Nat} {t t' : UsbFsTransport} {k : Kernel} {inward : Bool}

theorem Reaps.moved (h : Reaps gen completed t c t') : Moved t [] t' := by
  induction h with
  | refl => exact ⟨[], (List.append_nil _).symm, rfl⟩
  | back _ i ih => exact ih.trans ⟨[.reaped i], (take_back_spec _ gen i).log, rfl⟩
  | discard _ l ih =>
    refine ih.trans ⟨_, rfl, placed_eq_nil fun e he => ?_⟩
    obtain ⟨i, -, rfl⟩ := List.mem_map.mp he
    rfl

theorem Reaps.fresh (h : Reaps gen completed t c t') (hfresh : Fresh n t.arena) : Fresh n t'.arena := by
  induction h with
  | refl => exact hfresh
  | discard _ _ ih => exact ih
  | @back c t' _ i ih =>
    have hback := take_back_spec t' gen i
    refine ⟨fun j hsub hreaped => ?_, by rw [hback.next]; exact ih.far⟩
    obtain ⟨hgen, -, -, hsubmitted, hmono⟩ := hback.same j
    rw [hgen, hback.next]
    refine ih.older j (hsubmitted ▸ hsub) ?_
    by_contra hre
    rw [hmono (by simpa using hre)] at hreaped
    cases hreaped

theorem Reaps.limit (h : Reaps gen completed t c t') : t'.max_transfer = t.max_transfer := by
  induction h with
  | refl => rfl
  | discard _ _ ih => exact ih
  | back _ i ih => exact (take_back_spec _ gen i).limit.trans ih

/-- What the URB of a chunk moves. -/
def Kernel.moved (k : Kernel) (attempted i : Nat) : Nat := k.actual_length i (chunk_len attempted i)

theorem Started.moved {attempted : Nat} {b : Batch} (h : Started attempted k t b t') :
    Moved t (pieces CHUNK_SIZE (k.moved attempted) b.submitted_count) t' := by
  refine ⟨_, by rw [h.log, List.append_assoc], ?_⟩
  have hallocated : placed (b.indices.map Event.allocated) = [] := by
    refine placed_eq_nil fun e he => ?_
    obtain ⟨i, -, rfl⟩ := List.mem_map.mp he
    rfl
  have hmap : (b.submitted.zipIdx).map Prod.snd = List.range b.submitted_count := by
    rw [List.zipIdx_map_snd, h.length_submitted, List.range_eq_range']
  unfold placed at hallocated ⊢
  rw [List.flatMap_append, hallocated, List.nil_append, pieces, ← hmap, List.flatMap_map, List.flatMap_map]
  rfl

theorem Started.fresh {attempted : Nat} {b : Batch} (h : Started attempted k t b t') (hfresh : Fresh (n + 1) t.arena) :
    Fresh n t'.arena := by
  have hfar := hfresh.far
  have hnext : t'.arena.next_generation = t.arena.next_generation + 1 := by
    rw [h.next, h.gen, wrapping_add_of_lt (by omega)]
    omega
  refine ⟨fun i hsub hreaped => ?_, by omega⟩
  by_cases hin : i ∈ b.indices
  · by_cases hours : i ∈ b.submitted
    · rw [h.ours i hours, hnext]
      exact h.gen ▸ Nat.lt_succ_self _
    · rw [(h.unused i hin hours).2] at hsub
      cases hsub
  · rw [h.others i hin] at hsub hreaped ⊢
    rw [hnext]
    exact Nat.lt_succ_of_lt (hfresh.older i hsub hreaped)

theorem Started.others_older {attempted : Nat} {b : Batch} (h : Started attempted k t b t')
    (hfresh : Fresh n t.arena) (i : Slot)
    (_ : i ∉ b.indices) : i ∉ pending b.generation t.arena := by
  intro hi
  obtain ⟨hgen, hsub, hreaped⟩ := mem_pending.mp hi
  have := hfresh.older i hsub hreaped
  rw [hgen, h.gen] at this
  exact lt_irrefl _ this

theorem close_round_moved (b : Batch) (k : Kernel) (err : Option Int) (p : Progress)
    (hfresh : Fresh n p.transport.arena) :
    Moved p.transport [] (close_round b k err p) ∧ (close_round b k err p).max_transfer = p.transport.max_transfer ∧
      Fresh n (close_round b k err p).arena := by
  have hstay : Moved p.transport [] p.transport := ⟨[], (List.append_nil _).symm, rfl⟩
  unfold close_round
  split
  · unfold drain_unreaped
    split
    · exact ⟨hstay, rfl, hfresh⟩
    · have hreaps := (Reaps.refl.discard b.submitted).trans (drain_loop_reaps b.generation b.indices b.submitted.length
        k.drains p.completed (({ p.transport with state := .Draining } : UsbFsTransport).discard b.submitted))
      exact ⟨hreaps.moved, hreaps.limit, hreaps.fresh hfresh⟩
  · split
    · refine ⟨hstay, rfl, fun i hsub hreaped => ?_, hfresh.far⟩
      simp only [UrbArena.slots_each] at hsub hreaped ⊢
      split at hsub
      · rename_i hi
        rw [if_pos hi] at hreaped ⊢
        exact hfresh.older i hsub hreaped
      · rename_i hi
        rw [if_neg hi] at hreaped ⊢
        exact hfresh.older i hsub hreaped
    · exact ⟨hstay, rfl, hfresh⟩

end

/-! ## Scores -/

/-- The score of a URB that is back. -/
def Kernel.scores (k : Kernel) (attempted i : Nat) : Option Nat :=
  if k.status i < 0 then none else some (k.moved attempted i)

/-- During the reaping loop of a round whose URBs were all submitted. -/
structure Scoring (attempted : Nat) (k : Kernel) (b : Batch) (p : Progress) : Prop where
  ours : ∀ i ∈ pending b.generation p.transport.arena, i ∈ b.indices
  slot : ∀ i ∈ b.indices, (p.transport.arena.slots i).index = b.indices.idxOf i ∧
    (p.transport.arena.slots i).buffer_length = chunk_len attempted (b.indices.idxOf i)
  length : p.outcomes.length = b.indices.length
  outcome : ∀ i ∈ b.indices, p.outcomes[b.indices.idxOf i]? =
    some (if i ∈ pending b.generation p.transport.arena then none else k.scores attempted (b.indices.idxOf i))
  count : p.completed + (pending b.generation p.transport.arena).card = b.indices.length

section

variable {attempted : Nat} {k : Kernel} {b : Batch} {p p' : Progress} {inward : Bool}

theorem score_eq (inward : Bool) (submitted : List Slot) (k : Kernel) (i : Slot) (p : Progress) :
    (score inward submitted k i p).transport.arena = p.transport.arena ∧
      (score inward submitted k i p).completed = p.completed ∧
      (score inward submitted k i p).outcomes =
        if k.status (p.transport.arena.slots i).index < 0 then p.outcomes
        else p.outcomes.set (p.transport.arena.slots i).index
          (some (k.actual_length (p.transport.arena.slots i).index (p.transport.arena.slots i).buffer_length)) := by
  dsimp only [score]
  split
  · split
    · exact ⟨rfl, rfl, rfl⟩
    · exact ⟨rfl, rfl, rfl⟩
  · split
    · exact ⟨rfl, rfl, rfl⟩
    · exact ⟨rfl, rfl, rfl⟩

theorem Scoring.reap_one (h : Scoring attempted k b p) (inward : Bool) (r : Returned) :
    Scoring attempted k b (reap_one inward b.generation b.indices b.indices k r p) ∧
      ∀ i, i ∈ pending b.generation (reap_one inward b.generation b.indices b.indices k r p).transport.arena ↔
        i ∈ pending b.generation p.transport.arena ∧ find_slot_idx (r.pointer b.indices) ≠ some i := by
  have hcount := (reap_one_reaps inward b.generation b.indices b.indices k r p).count
  unfold Usbfs.reap_one at hcount ⊢
  cases hfind : find_slot_idx (r.pointer b.indices) with
  | none =>
    exact ⟨h, fun i => by simp⟩
  | some s =>
    simp only [hfind] at hcount ⊢
    have hback := take_back_spec p.transport b.generation s
    by_cases hmem : s ∈ pending b.generation p.transport.arena
    · rw [if_pos (hback.counts.mpr hmem)] at hcount ⊢
      obtain ⟨harena, hcompleted, houtcomes⟩ := score_eq inward b.indices k s
        { p with transport := (p.transport.take_back b.generation s).2, completed := p.completed + 1 }
      have hours := h.ours s hmem
      obtain ⟨-, hindex, hblen, -, -⟩ := hback.same s
      rw [hindex, hblen, (h.slot s hours).1, (h.slot s hours).2] at houtcomes
      refine ⟨⟨?_, ?_, ?_, ?_, hcount.trans h.count⟩, ?_⟩
      · intro i hi
        rw [harena, hback.pending, Finset.mem_erase] at hi
        exact h.ours i hi.2
      · intro i hi
        rw [harena, (hback.same i).2.1, (hback.same i).2.2.1]
        exact h.slot i hi
      · rw [houtcomes]
        split
        · exact h.length
        · rw [List.length_set]
          exact h.length
      · intro i hi
        rw [harena, hback.pending, houtcomes]
        by_cases his : i = s
        · subst his
          rw [if_neg (Finset.notMem_erase i _)]
          by_cases hstatus : k.status (b.indices.idxOf i) < 0
          · rw [if_pos hstatus, Kernel.scores, if_pos hstatus]
            have hout := h.outcome i hi
            rwa [if_pos hmem] at hout
          · rw [if_neg hstatus, Kernel.scores, if_neg hstatus, List.getElem?_set_self (by
              rw [h.length]
              exact List.idxOf_lt_length_of_mem hi)]
            rfl
        · have hne : b.indices.idxOf s ≠ b.indices.idxOf i := fun heq => his ((List.idxOf_inj hours).mp heq).symm
          have hout := h.outcome i hi
          have herase : i ∈ (pending b.generation p.transport.arena).erase s ↔
              i ∈ pending b.generation p.transport.arena := by
            rw [Finset.mem_erase]
            exact ⟨fun h => h.2, fun h => ⟨his, h⟩⟩
          rw [if_congr herase rfl rfl, ← hout]
          split
          · rfl
          · exact List.getElem?_set_ne hne
      · intro i
        rw [harena, hback.pending, Finset.mem_erase, and_comm, ne_eq, ne_eq, Option.some.injEq, eq_comm]
    · rw [if_neg (mt hback.counts.mp hmem)] at hcount ⊢
      have hsame : pending b.generation (p.transport.take_back b.generation s).2.arena =
          pending b.generation p.transport.arena := by
        rw [hback.pending, Finset.erase_eq_of_notMem hmem]
      refine ⟨⟨?_, ?_, h.length, ?_, hcount.trans h.count⟩, ?_⟩
      · intro i hi
        rw [hsame] at hi
        exact h.ours i hi
      · intro i hi
        rw [(hback.same i).2.1, (hback.same i).2.2.1]
        exact h.slot i hi
      · intro i hi
        rw [hsame]
        exact h.outcome i hi
      · intro i
        rw [hsame]
        refine ⟨fun hi => ⟨hi, fun heq => hmem ?_⟩, fun hi => hi.1⟩
        cases heq
        exact hi

/-- Waiting is over. -/
def Wait.ends : Wait → Bool
  | .poll_failed _ => true
  | .reap_failed e => e ≠ EINTR
  | .reap _ => false

/-- The kernel hands back the URB of this chunk before the wait is over. -/
def Kernel.returns (k : Kernel) (i : Nat) : Prop := .reap (.ours i) ∈ k.waits.takeWhile fun w => !w.ends

instance (k : Kernel) (i : Nat) : Decidable (k.returns i) := inferInstanceAs (Decidable (_ ∈ _))

theorem find_pointer_iff {indices : List Slot} (hnodup : indices.Nodup) (r : Returned) {i : Slot} (hi : i ∈ indices) :
    find_slot_idx (r.pointer indices) = some i ↔ r = .ours (indices.idxOf i) := by
  cases r with
  | unknown => simp [Returned.pointer, find_slot_idx]
  | stale s =>
    by_cases hs : s ∈ indices
    · simp [Returned.pointer, find_slot_idx, hs]
    · have hne : s ≠ i := fun heq => hs (heq ▸ hi)
      simp [Returned.pointer, find_slot_idx, hs, hne]
  | ours j =>
    rw [Returned.ours.injEq]
    by_cases hj : j < indices.length
    · rw [Returned.pointer, List.getElem?_eq_getElem hj]
      simp only [Option.map_some, Option.getD_some, find_slot_idx, Option.some.injEq]
      constructor
      · rintro rfl
        exact (hnodup.idxOf_getElem j hj).symm
      · rintro rfl
        exact List.getElem_idxOf hj
    · have hlt := List.idxOf_lt_length_of_mem hi
      rw [Returned.pointer, List.getElem?_eq_none (by omega)]
      simp [find_slot_idx]
      omega

theorem Scoring.all_back (h : Scoring attempted k b p) (hall : ¬ p.completed < b.indices.length) (i : Slot) :
    i ∉ pending b.generation p.transport.arena := by
  have hcount := h.count
  have hnone : pending b.generation p.transport.arena = ∅ := Finset.card_eq_zero.mp (by omega)
  rw [hnone]
  exact Finset.notMem_empty i

/-- After the loop, back is what the kernel handed back in time. -/
theorem Scoring.reap_loop (hnodup : b.indices.Nodup) (waits : List Wait) {e : Option Int} (h : Scoring attempted k b p)
    (hrun : reap_loop inward b.generation b.indices b.indices k waits p = some (e, p')) :
    Scoring attempted k b p' ∧ ∀ i ∈ b.indices, i ∉ pending b.generation p'.transport.arena ↔
      i ∉ pending b.generation p.transport.arena ∨
        .reap (.ours (b.indices.idxOf i)) ∈ waits.takeWhile fun w => !w.ends := by
  induction waits generalizing p with
  | nil =>
    unfold Usbfs.reap_loop at hrun
    split at hrun
    · cases hrun
    · rename_i hall
      cases hrun
      exact ⟨h, fun i _ => iff_of_true (h.all_back hall i) (.inl (h.all_back hall i))⟩
  | cons w rest ih =>
    unfold Usbfs.reap_loop at hrun
    split at hrun
    · rename_i hall
      cases hrun
      exact ⟨h, fun i _ => iff_of_true (h.all_back hall i) (.inl (h.all_back hall i))⟩
    · cases w with
      | poll_failed e =>
        cases hrun
        exact ⟨h, fun i _ => by simp [Wait.ends]⟩
      | reap_failed e =>
        simp only at hrun
        split at hrun
        · rename_i hintr
          obtain ⟨hscoring, hiff⟩ := ih h hrun
          refine ⟨hscoring, fun i hi => ?_⟩
          rw [hiff i hi, List.takeWhile_cons_of_pos (by simp [Wait.ends, hintr])]
          simp
        · rename_i hintr
          cases hrun
          exact ⟨h, fun i _ => by simp [Wait.ends, hintr]⟩
      | reap r =>
        obtain ⟨hone, hpending⟩ := h.reap_one inward r
        obtain ⟨hscoring, hiff⟩ := ih hone hrun
        refine ⟨hscoring, fun i hi => ?_⟩
        rw [hiff i hi, hpending i, List.takeWhile_cons_of_pos (by simp [Wait.ends]), List.mem_cons, Wait.reap.injEq,
          not_and_or, not_not, find_pointer_iff hnodup r hi, or_assoc, eq_comm]

/-- What the loop leaves in the place of a chunk. -/
def Kernel.final (k : Kernel) (attempted i : Nat) : Option Nat :=
  if k.accepts (num_urbs attempted) 0 = num_urbs attempted ∧ k.returns i then k.scores attempted i else none

theorem Started.scoring {t t' : UsbFsTransport} {n : Nat} (h : Started attempted k t b t') (hfresh : Fresh n t.arena)
    (hall : b.submit_err = none) :
    b.submitted = b.indices ∧
      Scoring attempted k b ⟨t', List.replicate (num_urbs attempted) none, 0, none, false⟩ := by
  have hsub : b.submitted = b.indices := by
    rw [Batch.submitted, h.all.mp hall, ← h.length, List.take_length]
  have hpending := h.pending_eq (h.others_older hfresh)
  rw [hsub] at hpending
  refine ⟨hsub, ?_, ?_, ?_, ?_, ?_⟩
  · intro i hi
    rwa [hpending, List.mem_toFinset] at hi
  · intro i hi
    rw [h.ours i (hsub ▸ hi)]
    exact ⟨rfl, rfl⟩
  · rw [List.length_replicate, h.length]
  · intro i hi
    rw [if_pos (by rwa [hpending, List.mem_toFinset]), List.getElem?_replicate, if_pos]
    rw [← h.length]
    exact List.idxOf_lt_length_of_mem hi
  · rw [Nat.zero_add, h.card_pending (h.others_older hfresh), h.all.mp hall, h.length]

theorem Started.outcomes {t t' : UsbFsTransport} {n : Nat} {e : Option Int} (h : Started attempted k t b t')
    (hfresh : Fresh n t.arena) (hreap : reap_urbs inward attempted b k t' = some (e, p)) :
    p.outcomes = (List.range (num_urbs attempted)).map (k.final attempted) := by
  unfold reap_urbs at hreap
  dsimp only at hreap
  split at hreap
  · rename_i hall
    obtain ⟨hsub, hstart⟩ := h.scoring hfresh hall
    rw [hsub] at hreap
    obtain ⟨hscoring, hiff⟩ := hstart.reap_loop h.nodup _ hreap
    have hcount : k.accepts (num_urbs attempted) 0 = num_urbs attempted := h.count.symm.trans (h.all.mp hall)
    have hpending := h.pending_eq (h.others_older hfresh)
    rw [hsub] at hpending
    apply List.ext_getElem?
    intro j
    rw [List.getElem?_map]
    by_cases hj : j < num_urbs attempted
    · have hjlen : j < b.indices.length := h.length.symm ▸ hj
      have hmem : b.indices[j] ∈ b.indices := List.getElem_mem hjlen
      have hout := hscoring.outcome _ hmem
      have hback := hiff _ hmem
      rw [h.nodup.idxOf_getElem j hjlen] at hout hback
      rw [hout, List.getElem?_range hj, Option.map_some, Kernel.final]
      congr 1
      by_cases hret : k.returns j
      · rw [if_neg (hback.mpr (.inr hret)), if_pos ⟨hcount, hret⟩]
      · have hout : b.indices[j] ∈ pending b.generation p.transport.arena := by
          by_contra hnot
          rcases hback.mp hnot with hnew | hold
          · exact hnew (by rw [hpending]; exact List.mem_toFinset.mpr hmem)
          · exact hret hold
        rw [if_pos hout, if_neg fun hh => hret hh.2]
    · rw [List.getElem?_eq_none (by rw [hscoring.length, h.length]; omega),
        List.getElem?_eq_none (by rw [List.length_range]; omega)]
      rfl
  · rename_i hsome
    cases hreap
    have hcount : ¬ k.accepts (num_urbs attempted) 0 = num_urbs attempted :=
      fun heq => hsome (h.all.mpr (h.count.trans heq))
    have hnone : k.final attempted = fun _ => none := by
      funext i
      exact if_neg fun hh => hcount hh.1
    rw [hnone, List.map_const', List.length_range]

end

/-! ## A call -/

/-- The limit of the next round, when the kernel found this one too large. -/
def shrunk (limit : Nat) : Nat := min limit (max (limit / 2) MIN_MAX_TRANSFER)

/-- This URB and all before it were accepted, and completed in time. -/
def Kernel.Counted (k : Kernel) (attempted i : Nat) : Prop :=
  k.accepts (num_urbs attempted) 0 = num_urbs attempted ∧ ∀ l ≤ i, k.returns l ∧ 0 ≤ k.status l

/-- Whatever moved was counted, and nothing moved behind a URB that did not fill its chunk. -/
structure Kernel.Contiguous (k : Kernel) (attempted : Nat) : Prop where
  counted : ∀ i < k.accepts (num_urbs attempted) 0, 0 < k.moved attempted i → k.Counted attempted i
  gapless : ∀ i j, i < j → j < k.accepts (num_urbs attempted) 0 → k.moved attempted i < CHUNK_SIZE →
    k.moved attempted j = 0

/-- Rounds that are tried again move nothing, and the last one is contiguous. -/
def InStep (len : Nat) : Nat → List Kernel → Prop
  | _, [] => True
  | limit, [k] => k.Contiguous (min limit len)
  | limit, k :: rest =>
    (∀ i < k.accepts (num_urbs (min limit len)) 0, k.moved (min limit len) i = 0) ∧ InStep len (shrunk limit) rest

section

variable {strerror : Int → String} {inward : Bool} {len limit n : Nat} {k : Kernel} {t t' : UsbFsTransport}

theorem conclude_ok (strerror : Int → String) (attempted limit count : Nat) (err : Option Int) (max_transfer : Nat) :
    (∀ m, (conclude strerror attempted limit count err max_transfer).1 = .done (.ok m) → m = count) ∧
      ((conclude strerror attempted limit count err max_transfer).1 = .again →
        (conclude strerror attempted limit count err max_transfer).2 =
          min max_transfer (max (limit / 2) MIN_MAX_TRANSFER)) := by
  cases err with
  | none =>
    refine ⟨fun m hm => ?_, fun hagain => nomatch hagain⟩
    cases hm
    rfl
  | some e =>
    dsimp only [conclude]
    split
    · rename_i hshrinks
      exact ⟨fun m hm => (nomatch hm), fun _ => if_pos hshrinks.1⟩
    · split
      · refine ⟨fun m hm => ?_, fun hagain => nomatch hagain⟩
        cases hm
        rfl
      · exact ⟨fun m hm => (nomatch hm), fun hagain => nomatch hagain⟩

theorem locked_round_moved {o : Outcome} (hfresh : Fresh (n + 1) t.arena)
    (hround : locked_round strerror inward len limit k t = some (o, t')) (hok : ∀ e, o ≠ .done (.error e)) :
    Fresh n t'.arena ∧
      Moved t (pieces CHUNK_SIZE (k.moved (min limit len)) (k.accepts (num_urbs (min limit len)) 0)) t' ∧
      (∀ m, o = .done (.ok m) →
        m = contiguous_prefix ((List.range (num_urbs (min limit len))).map (k.final (min limit len)))) ∧
      (o = .again → t'.max_transfer = min t.max_transfer (max (limit / 2) MIN_MAX_TRANSFER)) := by
  unfold locked_round at hround
  cases hstart : start_round (min limit len) k t with
  | mk r t₁ =>
    cases r with
    | error e =>
      simp only [hstart] at hround
      cases hround
      exact absurd rfl (hok e)
    | ok b =>
      have hs := start_round_ok hstart
      simp only [hstart] at hround
      cases hreap : reap_urbs inward (min limit len) b k t₁ with
      | none =>
        simp only [hreap] at hround
        cases hround
      | some x =>
        obtain ⟨reap_err, p⟩ := x
        simp only [hreap] at hround
        have hreaps : Reaps b.generation 0 t₁ p.completed p.transport := reap_urbs_reaps hreap
        obtain ⟨hmoved, hlimit, hfresh'⟩ := close_round_moved b k (b.submit_err <|> p.completion_err <|> reap_err) p
          (hreaps.fresh (hs.fresh hfresh))
        obtain ⟨hcount, hagain⟩ := conclude_ok strerror (min limit len) limit ( contiguous_prefix p.outcomes)
          (b.submit_err <|> p.completion_err <|> reap_err)
          (close_round b k (b.submit_err <|> p.completion_err <|> reap_err) p).max_transfer
        rw [hs.outcomes hfresh hreap] at hcount
        rw [hlimit, hreaps.limit, hs.limit, hs.outcomes hfresh hreap] at hagain
        rw [hs.outcomes hfresh hreap, hlimit, hreaps.limit, hs.limit] at hround
        cases hround
        have hall := (hs.moved.trans hreaps.moved).trans hmoved
        rw [List.append_nil, List.append_nil, hs.count] at hall
        exact ⟨hfresh', hall, by rwa [hlimit, hreaps.limit, hs.limit] at hcount, hagain⟩

theorem contiguous_iff (k : Kernel) (attempted : Nat) (front : List (Option Nat)) :
    front ++ (pieces CHUNK_SIZE (k.moved attempted) (k.accepts (num_urbs attempted) 0)).map some =
        (List.range ( contiguous_prefix ((List.range (num_urbs attempted)).map (k.final attempted)))).map some ↔
      front = [] ∧ k.Contiguous attempted := by
  have hsome : ∀ l, (k.final attempted l).isSome = true ↔
      k.accepts (num_urbs attempted) 0 = num_urbs attempted ∧ k.returns l ∧ 0 ≤ k.status l := by
    intro l
    unfold Kernel.final Kernel.scores
    split
    · rename_i hret
      split
      · rename_i hneg
        simp only [Option.isSome_none, Bool.false_eq_true, false_iff]
        exact fun h => absurd h.2.2 (not_le.mpr hneg)
      · rename_i hpos
        simp only [Option.isSome_some, true_iff]
        exact ⟨hret.1, hret.2, not_lt.mp hpos⟩
    · rename_i hret
      simp only [Option.isSome_none, Bool.false_eq_true, false_iff]
      exact fun h => hret ⟨h.1, h.2.1⟩
  have hf : ∀ j x, k.final attempted j = some x →
      x = k.moved attempted j ∧ k.accepts (num_urbs attempted) 0 = num_urbs attempted := by
    intro j x hx
    have hall := ((hsome j).mp (by rw [hx]; rfl)).1
    unfold Kernel.final Kernel.scores at hx
    split at hx
    · split at hx
      · cases hx
      · cases hx
        exact ⟨rfl, hall⟩
    · cases hx
  have hle : ∀ i < k.accepts (num_urbs attempted) 0, k.moved attempted i ≤ CHUNK_SIZE := fun i _ =>
    (min_le_right _ _).trans (min_le_right _ _)
  rw [counted_iff hle hf front]
  refine and_congr_right fun _ => ⟨fun h => ⟨fun i hi hpos => ?_, h.2⟩, fun h => ⟨fun i hi hpos => ?_, h.gapless⟩⟩
  · obtain ⟨-, hbefore⟩ := h.1 i hi hpos
    exact ⟨((hsome i).mp (hbefore i le_rfl)).1, fun l hl => ((hsome l).mp (hbefore l hl)).2⟩
  · obtain ⟨hall, hbefore⟩ := h.counted i hi hpos
    exact ⟨hall ▸ hi, fun l hl => (hsome l).mpr ⟨hall, hbefore l hl⟩⟩

theorem rounds_iff (kernels : List Kernel) (hfresh : Fresh kernels.length t.arena) (front : List (Option Nat))
    (hrun : rounds strerror inward len kernels t = some (.ok n, t')) :
    ∃ l, Moved t l t' ∧
      (front ++ l.map some = (List.range n).map some ↔ front = [] ∧ InStep len t.max_transfer kernels) := by
  induction kernels generalizing t front with
  | nil => cases hrun
  | cons k rest ih =>
    unfold rounds at hrun
    cases hround : locked_round strerror inward len t.max_transfer k t with
    | none =>
      simp only [hround] at hrun
      cases hrun
    | some x =>
      obtain ⟨o, t₁⟩ := x
      cases o with
      | done r =>
        simp only [hround] at hrun
        split at hrun
        · rename_i hlast
          cases hrun
          obtain ⟨-, hmoved, hcount, -⟩ := locked_round_moved hfresh hround fun e h => nomatch h
          refine ⟨_, hmoved, ?_⟩
          rw [hcount n rfl, contiguous_iff, hlast]
          rfl
        · cases hrun
      | again =>
        simp only [hround] at hrun
        obtain ⟨hnext, hmoved, -, hlimit⟩ := locked_round_moved hfresh hround fun e h => nomatch h
        obtain ⟨l, hl, hiff⟩ := ih hnext (front ++ (pieces CHUNK_SIZE (k.moved (min t.max_transfer len))
          (k.accepts (num_urbs (min t.max_transfer len)) 0)).map some) hrun
        refine ⟨_, hmoved.trans hl, ?_⟩
        rw [List.map_append, ← List.append_assoc, hiff, hlimit rfl, List.append_eq_nil_iff, List.map_eq_nil_iff,
          pieces_eq_nil,
          and_assoc]
        cases rest with
        | nil => cases hrun
        | cons k' rest => rfl

end

/-! ## What the device saw -/

/-- The bytes that pass the endpoint during a call, in order, by their place in the buffer. Those of URBs
that earlier calls left over come first and have none. -/
def wire (leftover : Nat) (t t' : UsbFsTransport) : List (Option Nat) :=
  List.replicate leftover none ++ (placed (t'.log.drop t.log.length)).map some

/-- The device accepted the first `n` bytes of the buffer, once each and in order. -/
def Sent (leftover n : Nat) (t t' : UsbFsTransport) : Prop := wire leftover t t' = (List.range n).map some

/-- The byte of the stream that a place of the buffer holds in the end. -/
def held (w : List (Option Nat)) (x : Nat) : Option Nat :=
  ((List.range w.length).filter fun i => w[i]? = some (some x)).getLast?

/-- The first `n` places hold the stream that the device delivered, all of it and in order. -/
def Received (leftover n : Nat) (t t' : UsbFsTransport) : Prop :=
  (List.range n).map (held (wire leftover t t')) = (List.range (wire leftover t t').length).map some

theorem held_iff (w : List (Option Nat)) (n : Nat) :
    (List.range n).map (held w) = (List.range w.length).map some ↔ w = (List.range n).map some := by
  constructor
  · intro h
    have hlen := congrArg List.length h
    simp only [List.length_map, List.length_range] at hlen
    apply List.ext_getElem?
    intro x
    by_cases hx : x < n
    · have hheld := congrArg (fun l : List (Option Nat) => l[x]?) h
      simp only [List.getElem?_map, List.getElem?_range hx, List.getElem?_range (hlen ▸ hx : x < w.length),
        Option.map_some,
        Option.some.injEq] at hheld
      have hmem := List.mem_of_getLast? hheld
      rw [List.mem_filter] at hmem
      rw [List.getElem?_map, List.getElem?_range hx]
      simpa using hmem.2
    · rw [List.getElem?_eq_none (by omega), List.getElem?_eq_none (by simp; omega)]
  · rintro rfl
    have hlen : ((List.range n).map some).length = n := by simp
    rw [hlen]
    apply List.map_congr_left
    intro x hx
    have hfilter : (List.range n).filter (fun i => decide (((List.range n).map some)[i]? = some (some x))) = [x] := by
      have hsame : (List.range n).filter (fun i => decide (((List.range n).map some)[i]? = some (some x))) =
          (List.range n).filter fun i => i == x := by
        apply List.filter_congr
        intro i hi
        rw [List.getElem?_map, List.getElem?_range (List.mem_range.mp hi), beq_eq_decide]
        simp
      rw [hsame, List.filter_beq, List.count_eq_one_of_mem List.nodup_range hx]
      rfl
    rw [held, hlen, hfilter]
    rfl

section

variable {strerror : Int → String} {inward : Bool} {len n leftover : Nat} {kernels : List Kernel}
    {t t' : UsbFsTransport}

theorem inStep_zero (limit : Nat) (kernels : List Kernel) : InStep 0 limit kernels := by
  have hnone : ∀ k : Kernel, k.accepts (num_urbs (min limit 0)) 0 = 0 := by
    intro k
    rw [Nat.min_zero]
    rfl
  induction kernels generalizing limit with
  | nil => trivial
  | cons k rest ih =>
    cases rest with
    | nil => exact ⟨fun i hi => absurd hi (by rw [hnone]; omega), fun i j _ hj => absurd hj (by rw [hnone]; omega)⟩
    | cons k' rest =>
      refine ⟨fun i hi => absurd hi (by rw [hnone]; omega), ih (shrunk limit) fun k => ?_⟩
      rw [Nat.min_zero]
      rfl

theorem wire_of_moved {l : List Nat} (h : Moved t l t') :
    wire leftover t t' = List.replicate leftover none ++ l.map some := by
  obtain ⟨new, hlog, rfl⟩ := h
  rw [wire, hlog, List.drop_left]

theorem bulk_iff (hfresh : Fresh kernels.length t.arena)
    (hrun : bulk strerror inward len kernels t = some (.ok n, t')) :
    wire leftover t t' = (List.range n).map some ↔ leftover = 0 ∧ InStep len t.max_transfer kernels := by
  unfold bulk at hrun
  split at hrun
  · rename_i hzero
    cases hrun
    have hsame : Moved t [] t := ⟨[], (List.append_nil _).symm, rfl⟩
    have hin := inStep_zero t.max_transfer kernels
    rw [wire_of_moved hsame, hzero]
    simp [hin]
  · split at hrun
    · cases hrun
    · obtain ⟨l, hmoved, hiff⟩ := rounds_iff kernels hfresh (List.replicate leftover none) hrun
      rw [wire_of_moved hmoved, hiff, List.replicate_eq_nil_iff]

/-- When a call that reports `n` bytes moved exactly these: nothing moved but what was counted, in one piece. -/
theorem bulk_exact_iff (hfresh : Fresh kernels.length t.arena) :
    (bulk_out strerror len kernels t = some (.ok n, t') →
      (Sent leftover n t t' ↔ leftover = 0 ∧ InStep len t.max_transfer kernels)) ∧
    (bulk_in strerror len kernels t = some (.ok n, t') →
      (Received leftover n t t' ↔ leftover = 0 ∧ InStep len t.max_transfer kernels)) := by
  refine ⟨fun hrun => bulk_iff hfresh hrun, fun hrun => ?_⟩
  rw [Received, held_iff]
  exact bulk_iff hfresh hrun

end

/-- A transport that has done nothing yet. -/
def idle : UsbFsTransport := ⟨.new, .Healthy, 1024 * 1024, []⟩

theorem fresh_idle : Fresh 2 idle.arena := ⟨fun _ h => (nomatch h), by norm_num [idle, UrbArena.new, size]⟩

/-- Everything is accepted, moved and handed back. -/
def smooth (count : Nat) : Kernel :=
  ⟨fun _ => none, fun _ => 0, fun _ => CHUNK_SIZE, (List.range count).map fun i => .reap (.ours i), []⟩

/-- The second URB is refused, when the first has moved this much. -/
def stalled (moved : Nat) : Kernel :=
  ⟨fun i => if i = 1 then some ENOMEM else none, fun _ => 0, fun _ => moved, [], [.reap (.ours 0)]⟩

/-- A round that stalls, then all URBs are sent. -/
def again (moved count : Nat) : List Kernel := [stalled moved, smooth count]

/-- Nothing moves in the first round, and three URBs do in the second. -/
theorem bulk_exact_smooth :
    ∃ t', bulk_out toString (2 * CHUNK_SIZE + 1024) (again 0 3) idle = some (.ok (2 * CHUNK_SIZE + 1024), t') ∧
      Sent 0 (2 * CHUNK_SIZE + 1024) idle t' := by
  have hok : (bulk_out toString (2 * CHUNK_SIZE + 1024) (again 0 3) idle).map (fun r => r.1.toOption) =
      some (some (2 * CHUNK_SIZE + 1024)) := by decide +kernel
  obtain ⟨⟨r, t'⟩, hrun, hr⟩ := Option.map_eq_some_iff.mp hok
  cases r with
  | error e => cases hr
  | ok n =>
    cases hr
    have hurbs : (smooth 3).accepts (num_urbs (2 * CHUNK_SIZE + 1024)) 0 = 3 := by decide
    have hfirst : ∀ i < (stalled 0).accepts 3 0, (stalled 0).moved (2 * CHUNK_SIZE + 1024) i = 0 := by decide
    have hfull : ∀ i < 2, (smooth 3).moved (2 * CHUNK_SIZE + 1024) i = CHUNK_SIZE := by decide
    have hcounted : ∀ i < 3, (smooth 3).Counted (2 * CHUNK_SIZE + 1024) i := by
      intro i hi
      refine ⟨by decide, fun l hl => ?_⟩
      have hall : ∀ l < 3, (smooth 3).returns l ∧ 0 ≤ (smooth 3).status l := by decide
      exact hall l (by omega)
    have hlimit : min (shrunk idle.max_transfer) (2 * CHUNK_SIZE + 1024) = 2 * CHUNK_SIZE + 1024 := by decide
    have hfresh : Fresh (again 0 3).length idle.arena := fresh_idle
    refine ⟨t', hrun, ((bulk_exact_iff hfresh).1 hrun).mpr ⟨rfl, hfirst, ?_⟩⟩
    change (smooth 3).Contiguous (min (shrunk idle.max_transfer) (2 * CHUNK_SIZE + 1024))
    rw [hlimit]
    constructor
    · intro i hi _
      exact hcounted i (hurbs ▸ hi)
    · intro i j hij hj hshort
      have hj : j < 3 := hurbs ▸ hj
      rw [hfull i (by omega)] at hshort
      omega

/-- The first chunk reaches the device twice. -/
theorem repeated_sends_twice :
    ∃ n t', bulk_out toString (CHUNK_SIZE + 1024) (again CHUNK_SIZE 2) idle = some (.ok n, t') ∧
    ¬ Sent 0 n idle t' := by
  have hok : (bulk_out toString (CHUNK_SIZE + 1024) (again CHUNK_SIZE 2) idle).map (fun r => r.1.toOption) =
      some (some (CHUNK_SIZE + 1024)) := by decide +kernel
  obtain ⟨⟨r, t'⟩, hrun, hr⟩ := Option.map_eq_some_iff.mp hok
  cases r with
  | error e => cases hr
  | ok n =>
    refine ⟨n, t', hrun, fun hsent => ?_⟩
    have hfresh : Fresh (again CHUNK_SIZE 2).length idle.arena := fresh_idle
    obtain ⟨-, hstep, -⟩ := (bulk_iff hfresh hrun).mp hsent
    have hfirst := hstep 0 (by decide)
    exact absurd hfirst (by decide)

end LuksAndroid.Usbfs

import LuksAndroid.Luks.Refine
import LuksAndroid.Partition
import LuksAndroid.Usb.Block

/-!
# The write benchmark

`benchmark_write_json` of `jni/src/bridge.rs` on a device that was opened and scanned: where it
starts, how much it writes, and the loop. The timings are left out. The sums and products of a
release build wrap.
-/

namespace LuksAndroid.Benchmark

open Word Usb
open Bytes (unbe)

variable {σ τ : Type}

/-! ## The code -/

def BACKUP_GPT_GUARD : Nat := 1024 * 1024

section

variable (cap : Capacity) (table : PartitionTable) (bytes chunk_bytes : Nat)

/-- `chunk_bytes.clamp(4096, 8 MiB)`. -/
def clamped : Nat := min (max chunk_bytes 4096) (8 * 1024 * 1024)

def chunk : Nat := clamped chunk_bytes / cap.block_size * cap.block_size

/-- The largest of some numbers, or zero. -/
def largest (ns : List Nat) : Nat := ns.foldr max 0

def past_partitions : Nat := largest (table.partitions.map fun p => wrapping_add p.offset_bytes p.size_bytes)

def start : Nat := wrapping_mul (div_ceil (past_partitions table) cap.block_size) cap.block_size

-- Both subtractions saturate.
def room : Nat := wrapping_mul cap.blocks cap.block_size - start cap table - BACKUP_GPT_GUARD

def total : Nat := max (min bytes (room cap table)) (chunk cap chunk_bytes) / cap.block_size * cap.block_size

def pattern (n : Nat) : Bytes := (List.range n).map fun i => UInt8.ofNat (i % 251)

/-- The loop, for so many rounds: none when it is still running then. -/
def rounds (d : WriteAt σ) (start chunk total : Nat) : Nat → Nat → IoM σ (Option Nat)
  | 0, _ => return none
  | fuel + 1, done =>
    if done < total then do
      let want := min chunk (total - done)
      d.write (wrapping_add start done) ((pattern chunk).take want)
      rounds d start chunk total fuel (done + want)
    else return some done

/-- What is reported. -/
structure Report where
  bytes : Nat
  chunkBytes : Nat
  offsetBytes : Nat

def benchmark_write (d : WriteAt σ) (fuel : Nat) : IoM σ (Option Report) := do
  if room cap table < chunk cap chunk_bytes then throw .OutOfBounds
  let ended ← rounds d (start cap table) (chunk cap chunk_bytes) (total cap table bytes chunk_bytes) fuel 0
  return ended.map fun done => ⟨done, chunk cap chunk_bytes, start cap table⟩

end

/-! ## What opening admits -/

/-- A drive whose capacity was believed. -/
structure Admitted (cap : Capacity) : Prop where
  power : cap.block_size.isPowerOfTwo
  size_lt : cap.block_size < 2 ^ 32
  bytes_lt : cap.blocks * cap.block_size < size

theorem read_capacity_16_lt {t : BulkTransport τ} {b b' : Bus τ} {cap : Capacity}
    (h : read_capacity_16 t b = .ok cap b') : cap.block_size < 2 ^ 32 ∧ cap.blocks * cap.block_size < size := by
  obtain ⟨⟨n, buf⟩, b₁, -, h⟩ := Run.bind_ok.mp h
  simp only at h
  rcases hadd : checked_add (unbe (buf.slice 0 8)) 1 with _ | blocks
  · rw [hadd] at h
    exact absurd h Run.throw_ok
  · rw [hadd] at h
    simp only at h
    rcases hmul : checked_mul blocks (unbe (buf.slice 8 4)) with _ | product
    · rw [hmul] at h
      exact absurd h Run.throw_ok
    · rw [hmul] at h
      obtain ⟨rfl, -⟩ := Run.pure_ok.mp h
      exact ⟨Bytes.unbe_slice_lt buf 8 4, (checked_mul_eq_some hmul).2⟩

theorem read_capacity_lt {t : BulkTransport τ} {b b' : Bus τ} {cap : Capacity}
    (h : read_capacity t b = .ok cap b') : cap.block_size < 2 ^ 32 ∧ cap.blocks * cap.block_size < size := by
  obtain ⟨⟨n, buf⟩, b₁, -, h⟩ := Run.bind_ok.mp h
  simp only at h
  split at h
  · exact read_capacity_16_lt h
  · obtain ⟨rfl, -⟩ := Run.pure_ok.mp h
    have hlba : unbe (buf.slice 0 4) < 2 ^ 32 := Bytes.unbe_slice_lt buf 0 4
    have hblock : unbe (buf.slice 4 4) < 2 ^ 32 := Bytes.unbe_slice_lt buf 4 4
    refine ⟨hblock, ?_⟩
    have hmul : (unbe (buf.slice 0 4) + 1) * unbe (buf.slice 4 4) ≤ 2 ^ 32 * (2 ^ 32 - 1) :=
      Nat.mul_le_mul (by omega) (by omega)
    unfold size
    simp only
    omega

theorem admitted_of_open {t : BulkTransport τ} {b b' : Bus τ} {cap : Capacity}
    (h : open_device t b = .ok cap b') : Admitted cap := by
  obtain ⟨data, b₁, -, h⟩ := Run.bind_ok.mp h
  split at h
  · exact absurd h Run.throw_bind_ok
  · obtain ⟨u, b₂, -, h⟩ := Run.bind_ok.mp h
    obtain ⟨cap', b₃, hcap, h⟩ := Run.bind_ok.mp h
    split at h
    · exact absurd h Run.throw_bind_ok
    · rename_i hsize
      obtain ⟨rfl, -⟩ := Run.pure_ok.mp h
      obtain ⟨hlt, hbytes⟩ := read_capacity_lt hcap
      simp only [not_or, not_not, is_power_of_two, decide_eq_true_eq] at hsize
      exact ⟨(Nat.and_sub_one_eq_zero_iff_isPowerOfTwo hsize.1).mp hsize.2.2, hlt, hbytes⟩

/-! ## Where it starts -/

section

variable {cap : Capacity} {table : PartitionTable} {bytes chunk_bytes : Nat}

theorem Admitted.pos (h : Admitted cap) : 0 < cap.block_size := Nat.pos_of_isPowerOfTwo h.power

theorem Admitted.dvd_size (h : Admitted cap) : cap.block_size ∣ size := by
  obtain ⟨k, hk⟩ := h.power
  have hlt := h.size_lt
  rw [hk] at hlt ⊢
  have := (Nat.pow_lt_pow_iff_right (show 1 < 2 by omega)).mp hlt
  unfold size
  exact pow_dvd_pow 2 (by omega)

/-- The table is one that a scan of the drive lists. -/
def Listed (cap : Capacity) (table : PartitionTable) : Prop :=
  ∀ p ∈ table.partitions, p.Ordered ∧ p.sector_size = cap.block_size

theorem wrapped_end {p : Partition} (h : p.Ordered) :
    wrapping_add p.offset_bytes p.size_bytes = (p.end_lba + 1) * p.sector_size % size := by
  have hle := h.le
  have hlt := h.lt
  have hcount : wrapping_sub (wrapping_add p.end_lba 1) p.start_lba % size = (p.end_lba + 1 - p.start_lba) % size := by
    unfold wrapping_sub wrapping_add
    rw [Nat.mod_mod]
    unfold size at hlt ⊢
    omega
  unfold Partition.offset_bytes Partition.size_bytes wrapping_mul
  unfold wrapping_add at hcount ⊢
  rw [Nat.mod_add_mod, Nat.add_mod_mod, Nat.add_mod, Nat.mul_mod (wrapping_sub _ _), hcount, ← Nat.mul_mod,
    ← Nat.add_mod, ← Nat.add_mul]
  congr 2
  omega

theorem largest_le {ns : List Nat} {n : Nat} (h : ∀ m ∈ ns, m ≤ n) : largest ns ≤ n := by
  induction ns with
  | nil => exact Nat.zero_le n
  | cons m ns ih => exact Nat.max_le.mpr ⟨h m (by simp), ih fun x hx => h x (by simp [hx])⟩

theorem le_largest {ns : List Nat} {n : Nat} (h : n ∈ ns) : n ≤ largest ns := by
  induction ns with
  | nil => cases h
  | cons m ns ih =>
    rcases List.mem_cons.mp h with rfl | h
    · exact Nat.le_max_left _ _
    · exact (ih h).trans (Nat.le_max_right _ _)

theorem dvd_largest {ns : List Nat} {k : Nat} (h : ∀ m ∈ ns, k ∣ m) : k ∣ largest ns := by
  induction ns with
  | nil => exact Nat.dvd_zero k
  | cons m ns ih =>
    have hrest := ih fun x hx => h x (by simp [hx])
    rcases Nat.le_total m (largest ns) with hle | hle
    · show k ∣ max m (largest ns)
      rwa [Nat.max_eq_right hle]
    · show k ∣ max m (largest ns)
      rw [Nat.max_eq_left hle]
      exact h m (by simp)

/-- The ends of the listed partitions as a word holds them, and the bytes behind the largest of them that
the last mebibyte leaves. -/
def wrappedEnds (cap : Capacity) (table : PartitionTable) : List Nat :=
  table.partitions.map fun p => (p.end_lba + 1) * cap.block_size % size

def roomBehind (cap : Capacity) (table : PartitionTable) : Nat :=
  cap.blocks * cap.block_size - largest (wrappedEnds cap table) - 2 ^ 20

theorem start_eq (h : Admitted cap) (hlisted : Listed cap table) :
    start cap table = largest (wrappedEnds cap table) := by
  have hpast : past_partitions table = largest (wrappedEnds cap table) := by
    unfold past_partitions wrappedEnds
    congr 1
    apply List.map_congr_left
    intro p hp
    rw [wrapped_end (hlisted p hp).1, (hlisted p hp).2]
  have hlt : largest (wrappedEnds cap table) < size := by
    have hle : largest (wrappedEnds cap table) ≤ size - 1 := by
      apply largest_le
      intro m hm
      obtain ⟨p, -, rfl⟩ := List.mem_map.mp hm
      have := Nat.mod_lt ((p.end_lba + 1) * cap.block_size) (show 0 < size by unfold size; omega)
      omega
    unfold size at hle ⊢
    omega
  have hdvd : cap.block_size ∣ largest (wrappedEnds cap table) := by
    apply dvd_largest
    intro m hm
    obtain ⟨p, -, rfl⟩ := List.mem_map.mp hm
    exact (Nat.dvd_mod_iff h.dvd_size).mpr (Nat.dvd_mul_left _ _)
  unfold start
  rw [hpast]
  obtain ⟨q, hq⟩ := hdvd
  have hceil : div_ceil (largest (wrappedEnds cap table)) cap.block_size = q := by
    unfold div_ceil
    rw [hq, Nat.mul_mod_right, Nat.mul_div_cancel_left _ h.pos]
    simp
  rw [hceil, wrapping_mul_of_lt, Nat.mul_comm, ← hq]
  rw [Nat.mul_comm, ← hq]
  exact hlt

theorem room_eq (h : Admitted cap) (hlisted : Listed cap table) : room cap table = roomBehind cap table := by
  unfold room roomBehind
  rw [wrapping_mul_of_lt h.bytes_lt, start_eq h hlisted]
  rfl

/-! ## The loop -/

theorem length_pattern (n : Nat) : (pattern n).length = n := by simp [pattern]

theorem rounds_succ {d : WriteAt σ} {start chunk total fuel done : Nat} (h : done < total) :
    rounds d start chunk total (fuel + 1) done = (do
      d.write (wrapping_add start done) ((pattern chunk).take (min chunk (total - done)))
      rounds d start chunk total fuel (done + min chunk (total - done))) := by
  rw [rounds, if_pos h]

/-- A round writes a byte at least, so the loop ends. -/
theorem rounds_end {d : WriteAt σ} {start chunk total : Nat} (hchunk : 0 < chunk) (fuel done : Nat)
    (hfuel : total - done < fuel) (io io' : Io σ) : rounds d start chunk total fuel done io ≠ .ok none io' := by
  induction fuel generalizing done io with
  | zero => omega
  | succ fuel ih =>
    by_cases hmore : done < total
    · rw [rounds_succ hmore]
      intro h
      obtain ⟨u, io₁, -, h⟩ := Run.bind_ok.mp h
      exact ih _ (by omega) io₁ h
    · rw [rounds, if_neg hmore]
      intro h
      obtain ⟨hsome, -⟩ := Run.pure_ok.mp h
      cases hsome

theorem rounds_forever {d : WriteAt σ} {start total : Nat} (htotal : 0 < total)
    (hempty : ∀ s, ∃ s', d.write_at (wrapping_add start 0) [] s = .ok () s') (fuel : Nat) (io : Io σ) :
    ∃ io', rounds d start 0 total fuel 0 io = .ok none io' := by
  induction fuel generalizing io with
  | zero => exact ⟨io, rfl⟩
  | succ fuel ih =>
    rw [rounds_succ htotal]
    obtain ⟨s', hs'⟩ := hempty io.state
    have hwrite : ∃ io₁, d.write (wrapping_add start 0) ((pattern 0).take (min 0 (total - 0))) io = .ok () io₁ := by
      unfold WriteAt.write IoM.ask
      rw [show (pattern 0).take (min 0 (total - 0)) = [] from rfl, hs']
      exact ⟨_, rfl⟩
    obtain ⟨io₁, hio₁⟩ := hwrite
    rw [Run.bind_eq_of_ok hio₁, Nat.zero_min, Nat.add_zero]
    exact ih io₁

theorem rounds_asks {d : WriteAt σ} {start chunk total : Nat} (hsize : start + total < size) (fuel done : Nat) :
    Asks (Access.Inside start (start + total)) (rounds d start chunk total fuel done) := by
  induction fuel generalizing done with
  | zero => exact .pure _
  | succ fuel ih =>
    by_cases hmore : done < total
    · rw [rounds_succ hmore]
      refine .bind (.write ?_) fun _ _ _ _ => ih _
      rw [wrapping_add_of_lt (by omega)]
      refine ⟨by omega, ?_⟩
      rw [List.length_take, length_pattern]
      omega
    · rw [rounds, if_neg hmore]
      exact .pure _

/-! ## The benchmark -/

/-- No byte of a write lies in a listed partition or in the last mebibyte. -/
def Spares (cap : Capacity) (table : PartitionTable) : Access → Prop
  | .write offset data => ∀ x, offset ≤ x → x < offset + data.length →
      (∀ p ∈ table.partitions, (p.end_lba + 1) * p.sector_size ≤ x) ∧ x + 2 ^ 20 < cap.blocks * cap.block_size
  | _ => True

/-- It ends, and all that it asks the device for spares the data. -/
structure Right (cap : Capacity) (table : PartitionTable) (bytes chunk_bytes : Nat) (d : WriteAt σ) (io : Io σ) :
    Prop where
  ends : ∃ fuel, ∀ io', benchmark_write cap table bytes chunk_bytes d fuel io ≠ .ok none io'
  spares : ∀ fuel, ∃ new,
    (after (benchmark_write cap table bytes chunk_bytes d fuel io)).accesses = io.accesses ++ new ∧
    ∀ a ∈ new, Spares cap table a

/-- Blocks larger than the chunk leave room for no block or are asked for none. Otherwise there is no room
for a chunk, or no end of a partition is beyond a word. -/
def Fine (cap : Capacity) (table : PartitionTable) (bytes chunk_bytes : Nat) : Prop :=
  if clamped chunk_bytes < cap.block_size then bytes < cap.block_size ∨ roomBehind cap table < cap.block_size
  else roomBehind cap table < chunk cap chunk_bytes ∨
    ∀ p ∈ table.partitions, (p.end_lba + 1) * cap.block_size < size

theorem benchmark_write_eq {d : WriteAt σ} (h : ¬ room cap table < chunk cap chunk_bytes) (fuel : Nat) :
    benchmark_write cap table bytes chunk_bytes d fuel = (do
      let ended ← rounds d (start cap table) (chunk cap chunk_bytes) (total cap table bytes chunk_bytes) fuel 0
      return ended.map fun done => ⟨done, chunk cap chunk_bytes, start cap table⟩) := by
  unfold benchmark_write
  rw [if_neg h]

theorem total_le_room (h : ¬ room cap table < chunk cap chunk_bytes) :
    total cap table bytes chunk_bytes ≤ room cap table := by
  unfold total
  refine (Nat.div_mul_le_self _ _).trans ?_
  omega

/-- With a chunk that is no block at all the loop stands still, unless there is nothing to write. -/
theorem standing_right_iff (h : Admitted cap) (hlisted : Listed cap table) {d : WriteAt σ} {io : Io σ}
    (hempty : ∀ offset, offset ≤ cap.blocks * cap.block_size → ∀ s, ∃ s', d.write_at offset [] s = .ok () s')
    (hsmall : clamped chunk_bytes < cap.block_size) :
    Right cap table bytes chunk_bytes d io ↔ bytes < cap.block_size ∨ roomBehind cap table < cap.block_size := by
  have hpos := h.pos
  have hchunk : chunk cap chunk_bytes = 0 := by
    unfold chunk
    rw [Nat.div_eq_of_lt hsmall, Nat.zero_mul]
  have hroom : ¬ room cap table < chunk cap chunk_bytes := by
    rw [hchunk]
    exact Nat.not_lt_zero _
  have htotal : total cap table bytes chunk_bytes = 0 ↔ bytes < cap.block_size ∨
      roomBehind cap table < cap.block_size := by
    unfold total
    rw [hchunk, Nat.max_zero, Nat.mul_eq_zero, or_iff_left hpos.ne', Nat.div_eq_zero_iff, or_iff_right hpos.ne',
      room_eq h hlisted]
    omega
  rw [← htotal]
  constructor
  · intro hright
    obtain ⟨fuel, hfuel⟩ := hright.ends
    by_contra hzero
    have hle : total cap table bytes chunk_bytes ≤ room cap table := total_le_room hroom
    have hstart : start cap table ≤ cap.blocks * cap.block_size := by
      unfold room at hle
      rw [wrapping_mul_of_lt h.bytes_lt] at hle
      omega
    have hbytes := h.bytes_lt
    obtain ⟨io', hio'⟩ := @rounds_forever σ d (start cap table) (total cap table bytes chunk_bytes)
      (Nat.pos_of_ne_zero hzero) (by
        rw [wrapping_add_of_lt (by omega), Nat.add_zero]
        exact hempty _ hstart) fuel io
    apply hfuel io'
    rw [benchmark_write_eq hroom, hchunk, Run.bind_eq_of_ok hio']
    rfl
  · intro hzero
    have hrun : ∀ fuel, ∃ r, benchmark_write cap table bytes chunk_bytes d fuel io = .ok r io ∧
        (fuel = 1 → r ≠ none) := by
      intro fuel
      rw [benchmark_write_eq hroom, hzero]
      cases fuel with
      | zero => exact ⟨none, rfl, by simp⟩
      | succ fuel => exact ⟨_, rfl, fun _ => Option.some_ne_none _⟩
    refine ⟨⟨1, ?_⟩, ?_⟩
    · intro io' hnone
      obtain ⟨r, hr, hsome⟩ := hrun 1
      rw [hr] at hnone
      cases hnone
      exact hsome rfl rfl
    · intro fuel
      obtain ⟨r, hr, -⟩ := hrun fuel
      rw [hr]
      exact ⟨[], (List.append_nil _).symm, by simp⟩

theorem write_accesses (d : WriteAt σ) (offset : Nat) (data : Bytes) (io : Io σ) :
    (after (d.write offset data io)).accesses = io.accesses ++ [.write offset data] := by
  unfold WriteAt.write IoM.ask
  rcases d.write_at offset data io.state with ⟨u, s⟩ | ⟨e, s⟩ <;> rfl

theorem first_write {d : WriteAt σ} {io : Io σ} (h : ¬ room cap table < chunk cap chunk_bytes)
    (htotal : 0 < total cap table bytes chunk_bytes) (hstart : start cap table < size) :
    (after (benchmark_write cap table bytes chunk_bytes d 1 io)).accesses = io.accesses ++
      [.write (start cap table) ((pattern (chunk cap chunk_bytes)).take
        (min (chunk cap chunk_bytes) (total cap table bytes chunk_bytes)))] := by
  have hwrite := write_accesses d (start cap table) ((pattern (chunk cap chunk_bytes)).take
    (min (chunk cap chunk_bytes) (total cap table bytes chunk_bytes))) io
  rw [benchmark_write_eq h, rounds_succ htotal, wrapping_add_of_lt (by omega), Nat.add_zero, Nat.sub_zero]
  simp only [bind, EStateM.bind]
  rcases hr : d.write (start cap table) ((pattern (chunk cap chunk_bytes)).take
    (min (chunk cap chunk_bytes) (total cap table bytes chunk_bytes))) io with ⟨u, io₁⟩ | ⟨e, io₁⟩
  · rw [hr] at hwrite
    exact hwrite
  · rw [hr] at hwrite
    exact hwrite

/-- With a chunk of blocks it ends, and it spares the data unless a partition ends beyond a word. -/
theorem moving_right_iff (h : Admitted cap) (hlisted : Listed cap table) {d : WriteAt σ} {io : Io σ}
    (hlarge : ¬ clamped chunk_bytes < cap.block_size) :
    Right cap table bytes chunk_bytes d io ↔
      roomBehind cap table < chunk cap chunk_bytes ∨
        ∀ p ∈ table.partitions, (p.end_lba + 1) * cap.block_size < size := by
  have hpos := h.pos
  have hbytes := h.bytes_lt
  rw [← room_eq h hlisted]
  by_cases hroom : room cap table < chunk cap chunk_bytes
  · refine ⟨fun _ => .inl hroom, fun _ => ?_⟩
    have hrefused : ∀ fuel, benchmark_write cap table bytes chunk_bytes d fuel io = .error .OutOfBounds io := by
      intro fuel
      unfold benchmark_write
      rw [if_pos hroom]
      rfl
    refine ⟨⟨0, fun io' => by rw [hrefused]; simp⟩, fun fuel => ?_⟩
    rw [hrefused]
    exact ⟨[], (List.append_nil _).symm, by simp⟩
  have hchunk : 0 < chunk cap chunk_bytes :=
    Nat.mul_pos (Nat.div_pos (Nat.le_of_not_lt hlarge) hpos) hpos
  have htotal : 0 < total cap table bytes chunk_bytes := by
    have hle : chunk cap chunk_bytes ≤ max (min bytes (room cap table)) (chunk cap chunk_bytes) := Nat.le_max_right _ _
    have hblock : cap.block_size ≤ chunk cap chunk_bytes := Nat.le_of_dvd hchunk (Nat.dvd_mul_left _ _)
    exact Nat.mul_pos (Nat.div_pos (hblock.trans hle) hpos) hpos
  have hle : total cap table bytes chunk_bytes ≤ room cap table := total_le_room hroom
  have hend : start cap table + total cap table bytes chunk_bytes + 2 ^ 20 ≤ cap.blocks * cap.block_size := by
    unfold room BACKUP_GPT_GUARD at hle
    rw [wrapping_mul_of_lt hbytes] at hle
    omega
  rw [or_iff_right hroom]
  constructor
  · intro hright p hp
    by_contra hfar
    obtain ⟨new, hnew, hspares⟩ := hright.spares 1
    rw [first_write hroom htotal (by omega)] at hnew
    have hwrite := hspares _ (by rw [← List.append_cancel_left hnew]; exact List.mem_singleton.mpr rfl)
    have hfirst := (hwrite (start cap table) le_rfl (by rw [List.length_take, length_pattern]; omega)).1 p hp
    rw [(hlisted p hp).2] at hfirst
    omega
  · intro hends
    refine ⟨⟨total cap table bytes chunk_bytes + 1, ?_⟩, ?_⟩
    · intro io' hnone
      rw [benchmark_write_eq hroom] at hnone
      obtain ⟨ended, io₁, hended, hnone⟩ := Run.bind_ok.mp hnone
      cases ended with
      | none => exact rounds_end hchunk _ _ (by omega) io io₁ hended
      | some done =>
        obtain ⟨hsome, -⟩ := Run.pure_ok.mp hnone
        cases hsome
    · intro fuel
      have hasks : Asks (Spares cap table) (benchmark_write cap table bytes chunk_bytes d fuel) := by
        rw [benchmark_write_eq hroom]
        refine .bind ?_ fun _ _ _ _ => .pure _
        refine (rounds_asks (by omega) fuel 0).mono ?_
        intro a ha
        cases a with
        | read offset n => trivial
        | flush => trivial
        | write offset data =>
          intro x hlow hhigh
          obtain ⟨hfrom, hto⟩ := ha
          refine ⟨fun p hp => ?_, by omega⟩
          have hword := hends p hp
          have hlargest : (p.end_lba + 1) * cap.block_size % size ≤ start cap table := by
            rw [start_eq h hlisted]
            exact le_largest (List.mem_map.mpr ⟨p, hp, rfl⟩)
          rw [Nat.mod_eq_of_lt hword] at hlargest
          rw [(hlisted p hp).2]
          omega
      exact hasks io

end

/-- On a drive that was opened and scanned, the benchmark ends and spares the data in exactly these cases. -/
theorem benchmark_write_right_iff {t : BulkTransport τ} {b b' : Bus τ} {cap : Capacity}
    (hopen : open_device t b = .ok cap b') {hash : Bytes → Nat} {d : WriteAt σ} {io₀ io₁ : Io σ}
    {table : PartitionTable}
    (hscan : scan hash d.toReadAt cap.block_size io₀ = .ok table io₁)
    (hempty : ∀ offset, offset ≤ cap.blocks * cap.block_size → ∀ s, ∃ s', d.write_at offset [] s = .ok () s')
    (bytes chunk_bytes : Nat) (io : Io σ) :
    Right cap table bytes chunk_bytes d io ↔ Fine cap table bytes chunk_bytes := by
  have h := admitted_of_open hopen
  have hlisted : Listed cap table := scan_ordered hscan
  unfold Fine
  split
  · rename_i hsmall
    exact standing_right_iff h hlisted hempty hsmall
  · rename_i hlarge
    exact moving_right_iff h hlisted hlarge

instance (cap : Capacity) (table : PartitionTable) (bytes chunk_bytes : Nat) :
    Decidable (Fine cap table bytes chunk_bytes) :=
  inferInstanceAs (Decidable (if clamped chunk_bytes < cap.block_size then
      bytes < cap.block_size ∨ roomBehind cap table < cap.block_size
    else roomBehind cap table < chunk cap chunk_bytes ∨
      ∀ p ∈ table.partitions, (p.end_lba + 1) * cap.block_size < size))

/-- A boot record with one partition in blocks 1 to 7, and zeros. -/
def onePartition : Nat → UInt8 := fun i =>
  if i = 450 then 0x83 else if i = 454 then 1 else if i = 458 then 7
  else if i = 510 then 0x55 else if i = 511 then 0xAA else 0

def oneTable (block_size : Nat) : PartitionTable := ⟨.Mbr, [⟨1, 1, 7, block_size, none, some 0x83, [], false, none⟩]⟩

theorem cbw_len_le : CBW_LEN ≤ 31 := by decide

/-- A drive of 8192 blocks of 512 bytes. -/
def fourMiB : Model := ⟨8192, 512, 4096, 31, true, by decide, by decide, by decide, cbw_len_le⟩

/-- A write of nothing is over before its range is checked. -/
theorem scsi_empty_write (t : BulkTransport τ) (cap : Capacity) (offset : Nat) (b : Bus τ) :
    ∃ b', (scsi_block_device t cap).write_at offset [] b = .ok () b' :=
  ⟨b, rfl⟩

/-- The bus of a drive with one partition. -/
def onBus : Bus (Link (Nat → UInt8)) := ⟨⟨onePartition, .idle⟩, 1, false, []⟩

/-- The table is read and the benchmark is run through the drive that was opened. -/
theorem benchmark_write_right_four_MiB :
    Right ⟨8192, 512⟩ (oneTable 512) 65536 4096 (scsi_block_device fourMiB.drive.transport ⟨8192, 512⟩)
      ⟨onBus, [], false⟩ := by
  have hopen : returned (open_device fourMiB.drive.transport onBus) = some ⟨8192, 512⟩ := by decide +kernel
  have hscan : returned (scan (fun _ => 0) (scsi_block_device fourMiB.drive.transport ⟨8192, 512⟩).toReadAt 512
      ⟨onBus, [], false⟩) = some (oneTable 512) := by decide +kernel
  obtain ⟨b', hopened⟩ := returned_eq_some hopen
  obtain ⟨io₁, hscanned⟩ := returned_eq_some hscan
  refine (benchmark_write_right_iff hopened hscanned ?_ 65536 4096 ⟨onBus, [], false⟩).mpr (by decide +kernel)
  exact fun offset _ => scsi_empty_write _ _ offset

theorem memory_empty_write (n : Nat) (offset : Nat) (h : offset ≤ n) (s : Nat → UInt8) :
    ∃ s', (memory n true).write_at offset [] s = .ok () s' :=
  ⟨_, if_pos h⟩

/-- A drive of 1024 blocks of 8192 bytes. -/
def largeBlocks : Model := ⟨1024, 8192, 8192, 31, true, by decide, by decide, by decide, cbw_len_le⟩

/-- With blocks of 8 KiB a chunk of 4 KiB is no block at all, and the loop writes nothing for ever. -/
theorem large_blocks_never_end :
    returned (open_device largeBlocks.drive.transport ⟨⟨fun _ => 0, .idle⟩, 1, false, []⟩) = some ⟨1024, 8192⟩ ∧
    returned (scan (fun _ => 0) (memory (1024 * 8192) true).toReadAt 8192 ⟨onePartition, [], false⟩) =
      some (oneTable 8192) ∧
    ¬ Right ⟨1024, 8192⟩ (oneTable 8192) 65536 4096 (memory (1024 * 8192) true) ⟨onePartition, [], false⟩ := by
  have hopen : returned (open_device largeBlocks.drive.transport ⟨⟨fun _ => 0, .idle⟩, 1, false, []⟩) =
      some ⟨1024, 8192⟩ := by decide +kernel
  have hscan : returned (scan (fun _ => 0) (memory (1024 * 8192) true).toReadAt 8192 ⟨onePartition, [], false⟩) =
      some (oneTable 8192) := by decide +kernel
  obtain ⟨b', hopened⟩ := returned_eq_some hopen
  obtain ⟨io₁, hscanned⟩ := returned_eq_some hscan
  refine ⟨hopen, hscan, ?_⟩
  rw [standing_right_iff (admitted_of_open hopened) (scan_ordered hscanned) (memory_empty_write (1024 * 8192))
    (by decide +kernel)]
  decide +kernel

end LuksAndroid.Benchmark

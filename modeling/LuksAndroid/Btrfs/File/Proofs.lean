import LuksAndroid.Btrfs.Alloc.Proofs
import LuksAndroid.Btrfs.File.Layout

/-!
# Every way of cutting a file gives the same file

The runs of a known size are there from the start. A streamed file gets its runs from
the allocator, which hands out whole sectors that nothing else has. Either way every call
that comes back has added its piece to the content.
-/

namespace LuksAndroid.Btrfs

open Word Spans

/-! ## What the allocator hands out -/

/-- Some whole sectors, and no more than asked for. -/
def WholeSectors (sector limit n : Nat) : Prop := 0 < n ∧ n % sector = 0 ∧ n ≤ limit

theorem scan_ranges_whole {sector limit bg_idx : Nat} (hlimit : limit % sector = 0) (hpos : 0 < limit)
    (l : List FreeRange) (i : Nat) (best : Option ChunkChoice)
    (hbest : ∀ c ∈ best, WholeSectors sector limit c.alloc_len) :
    ∀ c ∈ scan_ranges sector limit bg_idx i l best, WholeSectors sector limit c.alloc_len := by
  induction l generalizing i best with
  | nil => exact hbest
  | cons r l ih =>
    rw [scan_ranges]
    simp only
    generalize (saturating_add r.start r.length - align_up r.start sector) / sector = n
    have hnew : n * sector ≠ 0 → WholeSectors sector limit (min (n * sector) limit) := by
      intro hne
      refine ⟨by omega, ?_, min_le_right _ _⟩
      rcases min_choice (n * sector) limit with h | h
      · rw [h, Nat.mul_mod_left]
      · rw [h, hlimit]
    split
    · exact ih _ _ hbest
    split
    · exact ih _ _ hbest
    rename_i hne
    split
    · split
      · simpa using hnew hne
      · exact ih _ _ (by simpa using hnew hne)
    · exact ih _ _ hbest

theorem scan_groups_whole {sector limit : Nat} (hlimit : limit % sector = 0) (hpos : 0 < limit)
    (gs : List BlockGroupFreeSpace) (i : Nat) (best : Option ChunkChoice)
    (hbest : ∀ c ∈ best, WholeSectors sector limit c.alloc_len) :
    ∀ c ∈ scan_groups sector limit i gs best, WholeSectors sector limit c.alloc_len := by
  induction gs generalizing i best with
  | nil => exact hbest
  | cons bg gs ih =>
    rw [scan_groups]
    split
    · exact ih _ _ hbest
    have hin := @scan_ranges_whole _ _ i hlimit hpos bg.free_ranges 0 best hbest
    split
    · exact ih _ _ (by simp)
    · rename_i c hc
      rw [hc] at hin
      split
      · exact hin
      · exact ih _ _ hin

theorem allocate_data_chunk_whole {max_size sector b n : Nat} {m m' : FreeSpaceMap}
    (h : allocate_data_chunk max_size sector m = .ok (b, n) m') : WholeSectors sector max_size n := by
  unfold allocate_data_chunk at h
  by_cases h0 : max_size = 0
  · simp only [h0, if_true] at h
    exact absurd h Run.throw_bind_ok
  by_cases h1 : max_size / sector * sector = 0
  · simp only [h0, h1, if_true, if_false] at h
    exact absurd h Run.throw_bind_ok
  simp only [h0, h1, if_false] at h
  obtain ⟨m₁, m₂, hget, h⟩ := Run.bind_ok.mp h
  have hscan := @scan_groups_whole sector (max_size / sector * sector) (Nat.mul_mod_left _ _)
    (by omega) m₁.block_groups 0 none (by simp)
  cases hc : scan_groups sector (max_size / sector * sector) 0 m₁.block_groups none with
  | none =>
    rw [hc] at h
    exact absurd h Run.throw_ok
  | some c =>
    rw [hc] at h
    obtain ⟨_, m₃, -, h⟩ := Run.bind_ok.mp h
    obtain ⟨heq, -⟩ := Run.pure_ok.mp h
    cases heq
    obtain ⟨hpos, hmod, hle⟩ := hscan c hc
    exact ⟨hpos, hmod, hle.trans (Nat.div_mul_le_self _ _)⟩

/-! ## Writers that are ready -/

/-- The runs of a writer: whole sectors at 64-bit addresses, and no address twice. -/
structure RunsFit (sector : Nat) (runs : List (Nat × Nat)) : Prop where
  whole : ∀ r ∈ runs, r.2 % sector = 0
  addresses : ∀ r ∈ runs, r.1 + r.2 < size
  once : (runAddrs runs).Nodup

/-- A free-space map that keeps its accounts and counts the runs as in use. Its groups end on a sector boundary. -/
def Supplies (sector : Nat) (m : FreeSpaceMap) (runs : List (Nat × Nat)) : Prop :=
  ∃ live freed, AllocState.Accounts ⟨m, live, freed⟩ ∧ (∀ a ∈ runAddrs runs, a ∈ live) ∧
    ∀ bg ∈ m.block_groups, bg.block_group.stop % sector = 0

/-- As `begin_file` and `begin_file_streaming` leave a writer: a known size has room from the start. -/
structure BtrfsFileWriter.Ready (sector : Nat) (w : BtrfsFileWriter) : Prop where
  runs : RunsFit sector w.data_runs
  known : w.is_streaming = false → w.size ≤ (runAddrs w.data_runs).length
  streaming : w.is_streaming = true → Supplies sector w.allocator w.data_runs

theorem RunsFit.length_lt {sector : Nat} {runs : List (Nat × Nat)} (h : RunsFit sector runs) :
    (runAddrs runs).length < size := by
  have hlt : ∀ a ∈ runAddrs runs, a < size - 1 := by
    intro a ha
    obtain ⟨r, hr, har⟩ := List.mem_flatMap.mp ha
    have hword := h.addresses r hr
    rw [List.mem_range'_1] at har
    omega
  have hsub : (runAddrs runs).toFinset ⊆ Finset.range (size - 1) := by
    intro a ha
    exact Finset.mem_range.mpr (hlt a (List.mem_toFinset.mp ha))
  have hcard := Finset.card_le_card hsub
  rw [List.toFinset_card_of_nodup h.once, Finset.card_range] at hcard
  have hsize : 0 < size := by simp [size]
  omega

theorem total_allocated_eq (runs : List (Nat × Nat)) (a : Nat) (ha : a + (runAddrs runs).length < size) :
    (runs.map Prod.snd).foldl wrapping_add a = a + (runAddrs runs).length := by
  induction runs generalizing a with
  | nil => rfl
  | cons r runs ih =>
    rw [runAddrs_cons, List.length_append, List.length_range'] at ha ⊢
    rw [List.map_cons, List.foldl_cons, wrapping_add_of_lt (by omega), ih _ (by omega)]
    omega

namespace FileM

variable {σ α : Type} {s s' : FileState σ}

theorem allocate_ok {x : AllocM α} {a : α} :
    FileM.allocate x s = .ok a s' ↔
      ∃ allocator, x s.writer.allocator = .ok a allocator ∧ s' = { s with writer := { s.writer with allocator } } := by
  unfold FileM.allocate
  cases x s.writer.allocator with
  | ok b m => simp [eq_comm]
  | error e m => simp

theorem record_allocation_ok {start length : Nat} {u : Unit}
    (h : FileM.record_allocation start length s = .ok u s') : s'.io = s.io ∧ s'.writer = s.writer := by
  unfold FileM.record_allocation at h
  split at h
  · cases h
    exact ⟨rfl, rfl⟩
  split at h
  · cases h
  · cases h
    exact ⟨rfl, rfl⟩

end FileM

/-! ## Making room -/

theorem BlockSize.pos {sector : Nat} (h : AllocState.BlockSize sector) : 0 < sector := by
  obtain ⟨k, -, rfl⟩ := h
  exact Nat.two_pow_pos k

theorem BlockSize.lt_two_pow {sector : Nat} (h : AllocState.BlockSize sector) : sector < 2 ^ 32 := by
  obtain ⟨k, hk, rfl⟩ := h
  exact Nat.pow_lt_pow_right (by omega) hk

theorem BlockSize.dvd_size {sector : Nat} (h : AllocState.BlockSize sector) : sector ∣ size := by
  obtain ⟨k, hk, rfl⟩ := h
  unfold size
  exact Nat.pow_dvd_pow 2 (by omega)

theorem Supplies.allocate {sector n b rem : Nat} {m m' : FreeSpaceMap} {runs : List (Nat × Nat)}
    (hsector : AllocState.BlockSize sector) (hruns : RunsFit sector runs) (hm : Supplies sector m runs)
    (h : allocate_data_chunk rem sector m = .ok (b, n) m') :
    RunsFit sector (runs ++ [(b, n)]) ∧ Supplies sector m' (runs ++ [(b, n)]) := by
  obtain ⟨-, hwhole, -⟩ := allocate_data_chunk_whole h
  obtain ⟨live, freed, hacc, hlive, hends⟩ := hm
  have hfit : ∀ bg ∈ m.block_groups, ∀ r ∈ bg.free_ranges, r.start + sector - 1 < size := by
    intro bg hbg r hr
    have hin := (hacc.each bg hbg).free_in r hr
    have hstop : bg.block_group.stop < size := hacc.fits hbg
    -- The group ends at least one sector below the top of the address space.
    have hdvd : sector ∣ size - bg.block_group.stop :=
      Nat.dvd_sub (BlockSize.dvd_size hsector) (Nat.dvd_of_mod_eq_zero (hends bg hbg))
    have hle := Nat.le_of_dvd (by omega) hdvd
    have hr' : r.stop = r.start + r.length := rfl
    omega
  obtain ⟨k, hk, rfl⟩ := hsector
  have hcarved : Carved m m' b n := by
    rcases allocate_data_chunk_spec hacc rem (by omega : k < 64) hfit with ⟨b', n', m'', hrun, hc, -⟩ | hrun
    · rw [hrun] at h
      cases h
      exact hc
    · rw [hrun] at h
      cases h
  have hnew := hcarved.accounts hacc
  have hapart := hcarved.disjoint hacc
  obtain ⟨pre, bg, post, free, hm, rfl, htaken⟩ := hcarved
  have hbg : bg ∈ m.block_groups := by simp [hm]
  have hword : b + n < size := by
    rcases Nat.eq_zero_or_pos n with rfl | hpos
    · have := (allocate_data_chunk_whole h).1
      omega
    · obtain ⟨r, hr, hmem⟩ := htaken.window (show b + (n - 1) ∈ Set.Ico b (b + n) from ⟨by omega, by omega⟩)
      have hin := (hacc.each bg hbg).free_in r hr
      have hstop : bg.block_group.stop < size := hacc.fits hbg
      simp only [Span.mem_cells] at hmem
      omega
  refine ⟨⟨?_, ?_, ?_⟩, ⟨_, freed, hnew, ?_, ?_⟩⟩
  · intro r hr
    rcases List.mem_append.mp hr with hr | hr
    · exact hruns.whole r hr
    · rw [List.mem_singleton.mp hr]
      exact hwhole
  · intro r hr
    rcases List.mem_append.mp hr with hr | hr
    · exact hruns.addresses r hr
    · rw [List.mem_singleton.mp hr]
      exact hword
  · rw [runAddrs_append, List.nodup_append]
    refine ⟨hruns.once, by simpa using List.nodup_range', ?_⟩
    rintro a ha _ hx rfl
    rw [runAddrs_cons, runAddrs_nil, List.append_nil, List.mem_range'_1] at hx
    exact Set.disjoint_left.mp hapart hx (Or.inl (Or.inl (hlive a ha)))
  · intro a ha
    rw [runAddrs_append] at ha
    rcases List.mem_append.mp ha with ha | ha
    · exact Or.inl (hlive a ha)
    · rw [runAddrs_cons, runAddrs_nil, List.append_nil, List.mem_range'_1] at ha
      exact Or.inr ha
  · intro o ho
    rcases List.mem_append.mp ho with ho | ho
    · exact hends o (by simp [hm, ho])
    · rcases List.mem_cons.mp ho with rfl | ho
      · exact hends bg hbg
      · exact hends o (by simp [hm, ho])

/-- The writer with more runs, and the allocator that gave them. -/
def Extended (w w' : BtrfsFileWriter) (new : List (Nat × Nat)) : Prop :=
  ∃ allocator, w' = { w with data_runs := w.data_runs ++ new, allocator }

theorem allocate_more_ok {σ : Type} {sector disk_num_bytes : Nat} (hsector : AllocState.BlockSize sector)
    (hdisk : disk_num_bytes < size) {fuel allocated_new : Nat} (hfuel : disk_num_bytes ≤ allocated_new + fuel)
    {u : Unit} {s s' : FileState σ} (hready : s.writer.Ready sector) (hstream : s.writer.is_streaming = true)
    (h : allocate_more sector disk_num_bytes fuel allocated_new s = .ok u s') :
    ∃ new, Extended s.writer s'.writer new ∧ s'.io = s.io ∧ s'.writer.Ready sector ∧
      disk_num_bytes ≤ allocated_new + (runAddrs new).length := by
  have hnone : disk_num_bytes ≤ allocated_new → s = s' → ∃ new, Extended s.writer s'.writer new ∧ s'.io = s.io ∧
      s'.writer.Ready sector ∧ disk_num_bytes ≤ allocated_new + (runAddrs new).length := by
    rintro hle rfl
    exact ⟨[], ⟨s.writer.allocator, by simp⟩, rfl, hready, by simpa using hle⟩
  induction fuel generalizing allocated_new s with
  | zero => exact hnone (by omega) (Run.pure_ok.mp h).2
  | succ fuel ih =>
    rw [allocate_more] at h
    split at h
    · obtain ⟨⟨b, n⟩, s₁, hallocate, h⟩ := Run.bind_ok.mp h
      obtain ⟨allocator, hrun, rfl⟩ := FileM.allocate_ok.mp hallocate
      obtain ⟨_, s₂, hrecord, h⟩ := Run.bind_ok.mp h
      obtain ⟨hio, hwriter⟩ := FileM.record_allocation_ok hrecord
      obtain ⟨_, s₃, hupdate, h⟩ := Run.bind_ok.mp h
      rw [FileM.update_ok] at hupdate
      obtain ⟨hpos, -, hle⟩ := allocate_data_chunk_whole hrun
      obtain ⟨hruns, hsupply⟩ := Supplies.allocate hsector hready.runs (hready.streaming hstream) hrun
      have hw₃ : s₃.writer = { s.writer with data_runs := s.writer.data_runs ++ [(b, n)], allocator } := by
        rw [hupdate]
        simp only [hwriter]
      have hready₃ : s₃.writer.Ready sector := by
        rw [hw₃]
        exact ⟨hruns, fun hk => absurd hk (by simp [hstream]), fun _ => hsupply⟩
      have hstream₃ : s₃.writer.is_streaming = true := by rw [hw₃]; exact hstream
      rw [wrapping_add_of_lt (by omega)] at h
      obtain ⟨new, ⟨allocator', hw'⟩, hio', hready', henough⟩ := ih (by omega) hready₃ hstream₃ h (by
        rintro hle rfl
        exact ⟨[], ⟨s₃.writer.allocator, by simp⟩, rfl, hready₃, by simpa using hle⟩)
      refine ⟨(b, n) :: new, ⟨allocator', ?_⟩, ?_, hready', ?_⟩
      · rw [hw', hw₃]
        simp
      · rw [hio', hupdate]
        exact hio
      · rw [runAddrs_cons, List.length_append, List.length_range']
        omega
    · exact hnone (by omega) (Run.pure_ok.mp h).2

theorem ceil_bounds (n : Nat) {sector : Nat} (hs : 0 < sector) :
    n ≤ div_ceil n sector * sector ∧ div_ceil n sector * sector < n + sector := by
  have hmod := Nat.div_add_mod n sector
  have hlt := Nat.mod_lt n hs
  rw [Nat.mul_comm] at hmod
  unfold div_ceil
  split
  · rw [Nat.add_mul]
    omega
  · rw [Nat.add_zero]
    omega

theorem make_room_ok {σ : Type} {sector stop : Nat} (hsector : AllocState.BlockSize sector) {u : Unit}
    {s s' : FileState σ} (hready : s.writer.Ready sector)
    (hstop : stop < (runAddrs s.writer.data_runs).length + 2 ^ 63)
    (h : make_room sector s.writer stop s = .ok u s') :
    ∃ new, Extended s.writer s'.writer new ∧ s'.io = s.io ∧ s'.writer.Ready sector ∧
      stop ≤ (runAddrs s'.writer.data_runs).length ∧ (s.writer.is_streaming = false → new = []) := by
  have hself : Extended s.writer s.writer [] := ⟨s.writer.allocator, by simp⟩
  have htotal := hready.runs.length_lt
  unfold make_room at h
  split at h
  · rename_i hstream
    simp only [total_allocated_eq s.writer.data_runs 0 (by omega), Nat.zero_add] at h
    split at h
    · have hpos := BlockSize.pos hsector
      have hsmall := BlockSize.lt_two_pow hsector
      generalize hneed : stop - (runAddrs s.writer.data_runs).length = need at h
      have hceil := ceil_bounds need hpos
      have hdisk : div_ceil need sector * sector < size := by
        unfold size
        omega
      rw [wrapping_mul_of_lt hdisk] at h
      obtain ⟨new, hext, hio, hready', henough⟩ := allocate_more_ok hsector hdisk (by omega) hready hstream h
      refine ⟨new, hext, hio, hready', ?_, fun hk => absurd hk (by simp [hstream])⟩
      obtain ⟨allocator, hw'⟩ := hext
      rw [hw', runAddrs_append, List.length_append]
      omega
    · obtain ⟨-, rfl⟩ := Run.pure_ok.mp h
      exact ⟨[], hself, rfl, hready, by omega, fun _ => rfl⟩
  · rename_i hknown
    split at h
    · exact absurd h Run.throw_ok
    · obtain ⟨-, rfl⟩ := Run.pure_ok.mp h
      have := hready.known (by simpa using hknown)
      exact ⟨[], hself, rfl, hready, by omega, fun _ => rfl⟩

/-! ## One call -/

theorem Laid.extend {m : ChunkMap} {sector : Nat} {l : List Nat} {bytes : Nat → UInt8} {w w' : BtrfsFileWriter}
    {c : Bytes} (hs : 0 < sector) (h : Laid m sector l bytes w c) (htail : w'.tail_buf = w.tail_buf)
    (hsums : w'.checksums = w.checksums) (l' : List Nat) : Laid m sector (l ++ l') bytes w' c := by
  refine ⟨?_, htail.trans h.tail, ?_, ?_⟩
  · rw [List.length_append]
    exact h.fits.trans (Nat.le_add_right _ _)
  · rw [hsums, h.sums]
    apply List.map_congr_left
    intro i hi
    have hlt : i * sector < l.length := by
      refine lt_of_lt_of_le ?_ h.fits
      exact Nat.mul_lt_mul_of_pos_right (List.mem_range.mp hi) hs
    rw [List.getD_append _ _ _ _ hlt]
  · intro p hp a ha
    rw [List.getElem?_append_left (hp.trans_le h.fits)] at ha
    exact h.holds p hp a ha

/-- The state between two calls, with the content so far. -/
structure Progress (m : ChunkMap) (sector : Nat) (bytes : Nat → UInt8) (w : BtrfsFileWriter) (c : Bytes) : Prop where
  ready : w.Ready sector
  count : w.written_bytes = c.length
  laid : Laid m sector (runAddrs w.data_runs) bytes w c

section

variable {σ : Type} {d : WriteAt σ} {view : σ → Nat → UInt8} {m : ChunkMap} {sector : Nat}

theorem write_chunk_ok (hd : d.Keeps view) (hm : m.Placed) (hsector : AllocState.BlockSize sector) {c data : Bytes}
    (hdata : data.length < 2 ^ 63) {u : Unit} {s s' : FileState σ}
    (hp : Progress m sector (view s.io.state) s.writer c) (h : write_chunk d m sector data s = .ok u s') :
    Progress m sector (view s'.io.state) s'.writer (c ++ data) ∧
      s'.writer.is_streaming = s.writer.is_streaming ∧
      (s.writer.is_streaming = false → s'.writer.data_runs = s.writer.data_runs) := by
  have hs := BlockSize.pos hsector
  have hsmall := BlockSize.lt_two_pow hsector
  unfold write_chunk at h
  obtain ⟨w, s₁, hwriter, h⟩ := Run.bind_ok.mp h
  obtain ⟨rfl, rfl⟩ := FileM.writer_ok.mp hwriter
  cases hadd : checked_add s.writer.written_bytes data.length with
  | none =>
    rw [hadd] at h
    exact absurd h Run.throw_ok
  | some stop =>
    rw [hadd] at h
    obtain ⟨rfl, hstop⟩ := checked_add_eq_some hadd
    rw [hp.count] at h hstop
    obtain ⟨_, s₁, hmake, h⟩ := Run.bind_ok.mp h
    have hlen : c.length ≤ (runAddrs s.writer.data_runs).length := (ceil_bounds _ hs).1.trans hp.laid.fits
    obtain ⟨new, ⟨allocator, hw₁⟩, hio, hready₁, henough, hknown⟩ := make_room_ok hsector hp.ready (by omega) hmake
    obtain ⟨w, s₂, hwriter, h⟩ := Run.bind_ok.mp h
    obtain ⟨rfl, rfl⟩ := FileM.writer_ok.mp hwriter
    obtain ⟨_, s₂, hruns, h⟩ := Run.bind_ok.mp h
    rw [FileM.update_ok] at h
    have hlaid₁ : Laid m sector (runAddrs s₁.writer.data_runs) (view s₁.io.state) s₁.writer c := by
      rw [hio, hw₁, runAddrs_append]
      refine Laid.extend hs hp.laid ?_ ?_ _
      · rfl
      · rfl
    have hcount₁ : s₁.writer.written_bytes = c.length := by rw [hw₁]; exact hp.count
    rw [hcount₁] at hruns
    obtain ⟨hlaid₂, ⟨tail_buf, checksums, hw₂⟩⟩ := @write_runs_ok _ _ _ _ _ hd hm hs
      (by unfold size; omega) [] _ hready₁.runs.once hready₁.runs.whole hready₁.runs.addresses hready₁.runs.length_lt
        _ _ _ _ _ hlaid₁
      (by simp) henough hruns
    have hruns' : s₂.writer.data_runs = s₁.writer.data_runs := by rw [hw₂]
    have hstream : s₂.writer.is_streaming = s.writer.is_streaming := by rw [hw₂, hw₁]
    subst h
    refine ⟨⟨⟨?_, ?_, ?_⟩, by simp, ?_⟩, hstream, ?_⟩
    · simp only [hruns']
      exact hready₁.runs
    · intro hk
      simp only at hk
      simp only [hk, hruns']
      have := hready₁.known (by rw [hw₁]; exact hstream.symm.trans hk)
      rwa [hw₂]
    · intro hk
      simp only at hk
      simp only [hw₂]
      exact hready₁.streaming (by rw [hw₁]; exact hstream.symm.trans hk)
    · simp only [hruns']
      exact ⟨hlaid₂.fits, hlaid₂.tail, hlaid₂.sums, hlaid₂.holds⟩
    · intro hk
      simp only [hruns', hw₁, hknown hk, List.append_nil]

theorem write_chunks_ok (hd : d.Keeps view) (hm : m.Placed) (hsector : AllocState.BlockSize sector)
    {pieces : List Bytes}
    (hpieces : ∀ data ∈ pieces, data.length < 2 ^ 63) {c : Bytes} {u : Unit} {s s' : FileState σ}
    (hp : Progress m sector (view s.io.state) s.writer c) (h : write_chunks d m sector pieces s = .ok u s') :
    Progress m sector (view s'.io.state) s'.writer (c ++ pieces.flatten) ∧
      (s.writer.is_streaming = false → s'.writer.data_runs = s.writer.data_runs) := by
  induction pieces generalizing c s with
  | nil =>
    obtain ⟨-, rfl⟩ := Run.pure_ok.mp h
    exact ⟨by simpa using hp, fun _ => rfl⟩
  | cons data pieces ih =>
    obtain ⟨_, s₁, hcall, h⟩ := Run.bind_ok.mp h
    obtain ⟨hp₁, hstream, hknown₁⟩ := write_chunk_ok hd hm hsector (hpieces data (by simp)) hp hcall
    obtain ⟨hp₂, hknown₂⟩ := ih (fun x hx => hpieces x (by simp [hx])) hp₁ h
    rw [List.append_assoc] at hp₂
    exact ⟨hp₂, fun hk => (hknown₂ (hstream.trans hk)).trans (hknown₁ hk)⟩

end

/-! ## The whole file -/

/-- Nothing is written yet. -/
structure BtrfsFileWriter.Fresh (w : BtrfsFileWriter) : Prop where
  written_bytes : w.written_bytes = 0
  checksums : w.checksums = []
  tail_buf : w.tail_buf = []

/-- The file with the content `c`: whichever copy of its bytes is read, it is the content, and zeros to the end of the
last sector. One checksum per sector, in file order. -/
structure Stores (m : ChunkMap) (sector : Nat) (bytes : Nat → UInt8) (w : BtrfsFileWriter) (c : Bytes) : Prop where
  count : w.written_bytes = c.length
  mapped : ∀ a ∈ (runAddrs w.data_runs).take (div_ceil c.length sector * sector), (m.copies a).Nonempty
  content : ∀ copy : Nat → Nat, (∀ a, (m.copies a).Nonempty → copy a ∈ m.copies a) →
    ((runAddrs w.data_runs).take (div_ceil c.length sector * sector)).map (fun a => bytes (copy a)) =
      c ++ List.replicate (div_ceil c.length sector * sector - c.length) 0
  checksums : w.checksums = sectorSums sector (runAddrs w.data_runs) c

theorem Progress.stores {m : ChunkMap} {sector : Nat} {bytes : Nat → UInt8} {w : BtrfsFileWriter} {c : Bytes}
    (hs : 0 < sector) (h : Progress m sector bytes w c) : Stores m sector bytes w c := by
  have hlong := (ceil_bounds c.length hs).1
  have hfits := h.laid.fits
  refine ⟨h.count, ?_, ?_, h.laid.sums⟩
  · intro a ha
    obtain ⟨p, hp, rfl⟩ := List.getElem_of_mem ha
    rw [List.length_take] at hp
    exact (h.laid.holds p (by omega) _ (by rw [List.getElem_take, List.getElem?_eq_getElem])).1
  · intro copy hcopy
    apply List.ext_getElem
    · rw [List.length_map, List.length_take, List.length_append, List.length_replicate]
      omega
    · intro p hp hp'
      rw [List.length_map, List.length_take] at hp
      have hcell := h.laid.holds p (by omega) _ (List.getElem?_eq_getElem (by omega))
      rw [List.getElem_map, List.getElem_take, hcell.2 _ (hcopy _ hcell.1), List.getElem_append,
        List.getD_eq_getElem?_getD]
      split
      · rename_i hlt
        rw [List.getElem?_eq_getElem hlt]
        rfl
      · rename_i hge
        rw [List.getElem?_eq_none (by omega), List.getElem_replicate]
        rfl

/-- However a file is cut into calls, when all of them come back the runs hold its content and the checksums are those
of its sectors. The runs of a known size stay as they were. -/
theorem write_chunks_store_content {σ : Type} (d : WriteAt σ) (view : σ → Nat → UInt8) (hd : d.Keeps view)
    (chunk_map : ChunkMap) (hm : chunk_map.Placed) (sector_size : Nat) (hsector : AllocState.BlockSize sector_size)
    (s s' : FileState σ) (hready : s.writer.Ready sector_size) (hfresh : s.writer.Fresh) (pieces : List Bytes)
    (hpieces : ∀ data ∈ pieces, data.length < 2 ^ 63)
    (h : write_chunks d chunk_map sector_size pieces s = .ok () s') :
    Stores chunk_map sector_size (view s'.io.state) s'.writer pieces.flatten ∧
      (s.writer.is_streaming = false → s'.writer.data_runs = s.writer.data_runs) := by
  have hstart : Progress chunk_map sector_size (view s.io.state) s.writer [] := by
    have hzero : div_ceil ([] : Bytes).length sector_size = 0 := by simp [div_ceil]
    refine ⟨hready, hfresh.written_bytes, ⟨?_, ?_, ?_, ?_⟩⟩
    · rw [hzero]
      omega
    · rw [hfresh.tail_buf]
      simp
    · rw [hfresh.checksums, sectorSums, hzero]
      rfl
    · rw [hzero]
      intro p hp
      omega
  obtain ⟨hp, hknown⟩ := write_chunks_ok hd hm hsector hpieces hstart h
  exact ⟨hp.stores (BlockSize.pos hsector), hknown⟩

/-! ## Two runs of one sector each -/

/-- One chunk of 64 bytes with two copies. -/
def twoCopies : ChunkMap := ⟨[⟨4096, 64, BLOCK_GROUP_DATA, [⟨1, 0⟩, ⟨1, 64⟩]⟩]⟩

/-- A file of 20 bytes in sectors of 16, with a gap between its runs. -/
def twoRuns : FileState (Nat → UInt8) where
  io := ⟨fun _ => 255, [], false⟩
  active_batch := none
  writer :=
    { size := 20, written_bytes := 0, data_runs := [(4096, 16), (4128, 16)], checksums := [], allocator := ⟨[]⟩
      is_streaming := false, tail_buf := [] }

theorem twoCopies_placed : twoCopies.Placed :=
  ⟨⟨by decide, by decide +kernel, by decide +kernel⟩, by decide, by decide⟩

theorem twoRuns_ready : twoRuns.writer.Ready 16 where
  runs := ⟨by decide, by decide +kernel, by decide⟩
  known _ := by decide
  streaming h := by cases h

/-- A group with two free sectors of 16 bytes, a taken one behind each. -/
def gappedTree : ExtentTree :=
  ⟨[⟨4096, 64, 32, 256, BLOCK_GROUP_DATA⟩],
    [⟨4112, 16, 1, 1, true, false, 0, []⟩, ⟨4144, 16, 1, 1, true, false, 0, []⟩]⟩

def gappedSpace : FreeSpaceMap :=
  ⟨[⟨⟨4096, 64, 32, 256, BLOCK_GROUP_DATA⟩, gappedTree.extents, [⟨4096, 16⟩, ⟨4128, 16⟩], [], [], 32, 32⟩]⟩

/-- The same file, streamed: neither its size nor its runs are known. -/
def streamed : FileState (Nat → UInt8) :=
  { twoRuns with writer :=
    { size := 0, written_bytes := 0, data_runs := [], checksums := [], allocator := gappedSpace
      is_streaming := true, tail_buf := [] } }

theorem gappedTree_wellRead : gappedTree.WellRead where
  groups := ⟨by simp [gappedTree, BlockGroupItem.stop, size], by simp [gappedTree]⟩
  sorted := by simp [gappedTree]

theorem gappedTree_fit : gappedTree.ExtentsFit := by
  refine ⟨?_, ?_, ?_⟩ <;> simp [gappedTree, ExtentTree.startingIn, BlockGroupItem.stop, size]

theorem gappedSpace_supplies : Supplies 16 gappedSpace [] := by
  have hmap : from_extent_tree gappedTree = .ok gappedSpace := by decide +kernel
  refine ⟨gappedTree.live, ∅, from_extent_tree_accounts gappedTree_wellRead gappedTree_fit hmap, by simp, ?_⟩
  simp [gappedSpace, BlockGroupItem.stop]

theorem streamed_ready : streamed.writer.Ready 16 where
  runs := ⟨by decide, by decide, by decide⟩
  known h := by cases h
  streaming _ := gappedSpace_supplies

/-- Three bytes, an empty piece, and a piece over the end of the sector. -/
def cutFile : List Bytes := [[1, 2, 3], [], List.replicate 17 7]

/-- Into two runs that are there from the start, and into runs that come as they are needed. -/
theorem write_chunks_store_cut_file :
    (∃ s', write_chunks (memory 128 true) twoCopies 16 cutFile twoRuns = .ok () s' ∧
      Stores twoCopies 16 s'.io.state s'.writer cutFile.flatten ∧ s'.writer.data_runs = [(4096, 16), (4128, 16)]) ∧
    ∃ s', write_chunks (memory 128 true) twoCopies 16 cutFile streamed = .ok () s' ∧
      Stores twoCopies 16 s'.io.state s'.writer cutFile.flatten ∧
      s'.writer.data_runs = [(4096, 16), (4128, 16)] ∧ s'.writer.size = 20 := by
  constructor
  · have hok : (write_chunks (memory 128 true) twoCopies 16 cutFile).run' twoRuns = some () := by decide +kernel
    cases hrun : write_chunks (memory 128 true) twoCopies 16 cutFile twoRuns with
    | error e s' =>
      rw [EStateM.run', EStateM.run, hrun] at hok
      cases hok
    | ok u s' =>
      obtain ⟨hstores, hruns⟩ := write_chunks_store_content (memory 128 true) (fun bytes => bytes)
        (memory_keeps 128 true) twoCopies twoCopies_placed 16 ⟨4, by decide, by decide⟩ twoRuns s' twoRuns_ready
        ⟨rfl, rfl, rfl⟩ cutFile (by decide) hrun
      exact ⟨s', rfl, hstores, hruns rfl⟩
  · have hok : ((write_chunks (memory 128 true) twoCopies 16 cutFile >>= fun _ => FileM.writer).run' streamed).map
        (fun w => (w.data_runs, w.size)) = some ([(4096, 16), (4128, 16)], 20) := by decide +kernel
    cases hrun : write_chunks (memory 128 true) twoCopies 16 cutFile streamed with
    | error e s' =>
      simp only [EStateM.run', EStateM.run, bind, EStateM.bind, hrun] at hok
      cases hok
    | ok u s' =>
      simp only [EStateM.run', EStateM.run, bind, EStateM.bind, hrun, FileM.writer, Option.map_some,
        Option.some.injEq, Prod.mk.injEq] at hok
      obtain ⟨hstores, -⟩ := write_chunks_store_content (memory 128 true) (fun bytes => bytes)
        (memory_keeps 128 true) twoCopies twoCopies_placed 16 ⟨4, by decide, by decide⟩ streamed s' streamed_ready
        ⟨rfl, rfl, rfl⟩ cutFile (by decide) hrun
      exact ⟨s', rfl, hstores, hok⟩

end LuksAndroid.Btrfs

import LuksAndroid.Luks.Volume
import LuksAndroid.Partition

/-!
# A volume stays in its partition

Which bytes of the device a request can touch, and when a refused request has
already written. Both depend on how far the volume reaches, so both turn into one
condition on the partition and the segment.
-/

namespace LuksAndroid

open Word

/-- The longest slice there is. -/
def MAX_SLICE_LEN : Nat := 2 ^ 63 - 1

inductive Request where
  | read (offset n : Nat)
  | write (offset : Nat) (data : Bytes)

def Request.len : Request → Nat
  | .read _ n => n
  | .write _ data => data.length

namespace LuksVolume

variable {σ : Type} (cipher : SectorCipher) (v : LuksVolume)

def serve (d : WriteAt σ) : Request → IoM σ Unit
  | .read offset n => do
    let _ ← v.read_at cipher d.toReadAt offset n
  | .write offset data => v.write_at cipher d offset data

/-- The device address of the first byte of the volume. -/
def base : Nat := v.partition_offset + v.segment_offset

/-- No request that passes ends after this. -/
def extent : Nat := min (v.segment_len.getD (size - 1)) (size - 1)

/-- The end of the sector that holds the byte before `x`. -/
def sectorEnd (x : Nat) : Nat := div_ceil x v.sector_size * v.sector_size

/-- The bytes of the volume whose sector has a 64-bit address. -/
def addressable : Nat := ((size - 1 - v.base) / v.sector_size + 1) * v.sector_size

def Sized : Prop := v.sector_size ∈ [512, 1024, 2048, 4096]

variable {cipher v}

/-! ## Sectors -/

theorem Sized.cases (h : v.Sized) : v.sector_size = 512 ∨ v.sector_size = 1024 ∨ v.sector_size = 2048 ∨
    v.sector_size = 4096 := by
  simpa [Sized] using h

theorem Sized.pos (h : v.Sized) : 0 < v.sector_size := by
  rcases h.cases with h | h | h | h <;> omega

theorem Sized.dvd (h : v.Sized) : v.sector_size ∣ WRITE_CHUNK_BYTES := by
  rcases h.cases with h | h | h | h <;> rw [h] <;> decide

theorem le_sectorEnd (h : v.Sized) (x : Nat) : x ≤ v.sectorEnd x := by
  unfold sectorEnd div_ceil
  rcases h.cases with h | h | h | h <;> rw [h] <;> split <;> omega

theorem sectorEnd_mono (h : v.Sized) {x y : Nat} (hxy : x ≤ y) : v.sectorEnd x ≤ v.sectorEnd y := by
  unfold sectorEnd div_ceil
  rcases h.cases with h | h | h | h <;> rw [h] <;> split <;> split <;> omega

theorem sector_le (offset : Nat) : offset / v.sector_size * v.sector_size ≤ offset :=
  Nat.div_mul_le_self _ _

theorem span_eq (first stop : Nat) :
    (div_ceil stop v.sector_size - first) * v.sector_size = v.sectorEnd stop - first * v.sector_size :=
  Nat.sub_mul _ _ _

/-- The sector of an addressable byte has a 64-bit address, and no other sector has. -/
theorem lt_addressable_iff (h : v.Sized) (hbase : v.base < size) (offset : Nat) :
    offset < v.addressable ↔ v.base + offset / v.sector_size * v.sector_size < size := by
  unfold addressable
  generalize hb : v.base = b at *
  have hsize : size = 2 ^ 64 := by simp only [size]
  rcases h.cases with h | h | h | h <;> rw [h] <;> omega

/-! ## Checks -/

theorem add_or_out_of_bounds_eq (a b : Nat) :
    add_or_out_of_bounds a b = if a + b < size then .ok (a + b) else .error .OutOfBounds := by
  unfold add_or_out_of_bounds checked_add
  by_cases h : a + b < size
  · rw [if_pos h, if_pos h]
  · rw [if_neg h, if_neg h]

theorem add_ok {a b c : Nat} (h : add_or_out_of_bounds a b = .ok c) : c = a + b ∧ a + b < size := by
  rw [add_or_out_of_bounds_eq] at h
  split at h
  · cases h
    exact ⟨rfl, ‹_›⟩
  · cases h

theorem disk_offset_eq (first : Nat) :
    v.disk_offset first = if v.base + first * v.sector_size < size
      then .ok (v.base + first * v.sector_size) else .error .OutOfBounds := by
  unfold disk_offset
  rw [add_or_out_of_bounds_eq]
  by_cases hbase : v.partition_offset + v.segment_offset < size
  · rw [if_pos hbase]
    exact add_or_out_of_bounds_eq _ _
  · rw [if_neg hbase, if_neg (by unfold base; omega)]
    rfl

theorem disk_offset_ok {first o : Nat} (h : v.disk_offset first = .ok o) :
    o = v.base + first * v.sector_size ∧ v.base + first * v.sector_size < size := by
  rw [disk_offset_eq] at h
  split at h
  · cases h
    exact ⟨rfl, ‹_›⟩
  · cases h

theorem check_range_eq (offset len : Nat) :
    v.check_range offset len =
      if offset + len ≤ v.extent then .ok (offset + len) else .error .OutOfBounds := by
  have hsize : size = 2 ^ 64 := by simp only [size]
  unfold check_range extent
  rw [add_or_out_of_bounds_eq]
  by_cases hsum : offset + len < size
  · rw [if_pos hsum]
    cases hlen : v.segment_len with
    | none =>
      simp only [Option.getD_none, min_self]
      rw [if_pos (by omega)]
      rfl
    | some n =>
      simp only [Option.getD_some, bind, Except.bind]
      by_cases hn : offset + len > n
      · rw [if_pos hn, if_neg (by omega)]
        rfl
      · rw [if_neg hn, if_pos (by omega)]
        rfl
  · rw [if_neg hsum, if_neg (by omega)]
    rfl

theorem check_range_ok {offset len stop : Nat} (h : v.check_range offset len = .ok stop) :
    stop = offset + len ∧ offset + len ≤ v.extent := by
  rw [check_range_eq] at h
  split at h
  · cases h
    exact ⟨rfl, ‹_›⟩
  · cases h

theorem extent_lt : v.extent < size := by
  have hsize : size = 2 ^ 64 := by simp only [size]
  unfold extent
  omega

/-! ## Lengths -/

theorem length_xts_sectors {f : Nat → Bytes → Bytes} (hf : ∀ t b, (f t b).length = b.length)
    (ss step n tweak : Nat) {buf : Bytes} (hlen : buf.length = n * ss) :
    (xts_sectors f ss step n tweak buf).length = buf.length := by
  induction n generalizing tweak buf with
  | zero =>
    rw [hlen, Nat.zero_mul]
    rfl
  | succ n ih =>
    rw [Nat.succ_mul] at hlen
    have hdrop : (buf.drop ss).length = n * ss := by simp [hlen]
    rw [xts_sectors, List.length_append, hf, ih _ hdrop, hdrop, List.length_take, hlen]
    omega

theorem xts_eq (f : Nat → Bytes → Bytes) (key : Bytes) (h : v.Sized) {buf : Bytes} {k : Nat}
    (hlen : buf.length = k * v.sector_size) (tweak step : Nat) :
    xts f key buf v.sector_size tweak step =
      if key.length = 64 ∨ key.length = 32 then .ok (xts_sectors f v.sector_size step k tweak buf)
      else .error (.BadKeyLength key.length) := by
  have hpos := h.pos
  unfold xts
  rw [if_neg, hlen, Nat.mul_div_cancel _ hpos]
  rw [hlen, Nat.mul_mod_left]
  omega

theorem length_xts {f : Nat → Bytes → Bytes} (hf : ∀ t b, (f t b).length = b.length) {key buf b : Bytes}
    {ss tweak step : Nat} (h : xts f key buf ss tweak step = .ok b) : b.length = buf.length := by
  unfold xts at h
  split at h
  · cases h
  · split at h
    · cases h
      refine length_xts_sectors hf _ _ _ _ ?_
      have hdiv := Nat.div_add_mod buf.length ss
      rw [Nat.mul_comm] at hdiv
      omega
    · cases h

theorem length_patched {d : ReadAt σ} {first disk span skip : Nat} {buf b : Bytes} {io io' : Io σ}
    (hfit : skip + buf.length ≤ span)
    (h : v.patched cipher d first disk span skip buf io = .ok b io') : b.length = span := by
  unfold patched at h
  split at h
  · obtain ⟨rfl, -⟩ := Run.pure_ok.mp h
    omega
  · obtain ⟨raw, io₁, hraw, h⟩ := Run.bind_ok.mp h
    obtain ⟨plain, io₂, hplain, h⟩ := Run.bind_ok.mp h
    obtain ⟨rfl, -⟩ := Run.pure_ok.mp h
    have hlen : plain.length = span := by
      rw [length_xts (cipher.length_decrypt _) (IoM.lift_ok.mp hplain).1]
      exact ReadAt.length_read hraw
    rw [Bytes.length_put (by omega), hlen]

/-! ## What a request touches -/

variable (v) in
/-- An access within the sectors of some range of the volume that is `n` bytes long at most. -/
def Touches (max_len : Nat) (a : Access) : Prop :=
  ∃ offset n, 0 < n ∧ n ≤ max_len ∧ offset + n ≤ v.extent ∧
    v.base + offset / v.sector_size * v.sector_size < size ∧
    a.Inside (v.base + offset / v.sector_size * v.sector_size) (v.base + v.sectorEnd (offset + n))

theorem touches_span (h : v.Sized) {offset n max_len : Nat} (hn : 0 < n) (hmax : n ≤ max_len)
    (hext : offset + n ≤ v.extent) (haddr : v.base + offset / v.sector_size * v.sector_size < size) :
    v.Touches max_len (.read (v.base + offset / v.sector_size * v.sector_size)
      (v.sectorEnd (offset + n) - offset / v.sector_size * v.sector_size)) ∧
    ∀ data : Bytes, data.length = v.sectorEnd (offset + n) - offset / v.sector_size * v.sector_size →
      v.Touches max_len (.write (v.base + offset / v.sector_size * v.sector_size) data) := by
  have hend := le_sectorEnd h (offset + n)
  have hstart := sector_le (v := v) offset
  refine ⟨⟨offset, n, hn, hmax, hext, haddr, le_rfl, by omega⟩, ?_⟩
  intro data hdata
  exact ⟨offset, n, hn, hmax, hext, haddr, le_rfl, by omega⟩

theorem patched_asks {P : Access → Prop} {d : ReadAt σ} {first disk span skip : Nat} {buf : Bytes}
    (h : P (.read disk span)) : Asks P (v.patched cipher d first disk span skip buf) := by
  unfold patched
  refine Asks.ite (fun _ => .pure _) fun _ => ?_
  exact (Asks.read h).bind fun _ _ _ _ => .lift_bind fun _ _ => .pure _

theorem read_at_asks (h : v.Sized) (d : ReadAt σ) (offset n : Nat) :
    Asks (v.Touches n) (v.read_at cipher d offset n) := by
  unfold read_at
  refine Asks.ite (fun _ => .pure _) fun hn => .lift_bind fun stop hstop => .lift_bind fun disk hdisk => ?_
  obtain ⟨rfl, hext⟩ := check_range_ok hstop
  obtain ⟨rfl, haddr⟩ := disk_offset_ok hdisk
  rw [span_eq]
  refine (Asks.read (touches_span h (by omega) le_rfl hext haddr).1).bind fun _ _ _ _ => ?_
  exact .lift_bind fun _ _ => .pure _

theorem write_at_chunk_asks (h : v.Sized) (d : WriteAt σ) {offset max_len : Nat} {buf : Bytes}
    (hne : 0 < buf.length) (hmax : buf.length ≤ max_len) (hext : offset + buf.length ≤ v.extent) :
    Asks (v.Touches max_len) (v.write_at_chunk cipher d offset buf) := by
  unfold write_at_chunk
  refine .lift_bind fun stop hstop => .lift_bind fun disk hdisk => ?_
  obtain ⟨rfl, -⟩ := add_ok hstop
  obtain ⟨rfl, haddr⟩ := disk_offset_ok hdisk
  obtain ⟨hread, hwrite⟩ := touches_span h hne hmax hext haddr
  have hend := le_sectorEnd h (offset + buf.length)
  have hstart := sector_le (v := v) offset
  rw [span_eq]
  refine (patched_asks hread).bind fun plain io io' hplain => .lift_bind fun raw hraw => ?_
  refine .write (hwrite _ ?_)
  rw [length_xts (cipher.length_encrypt _) hraw]
  exact length_patched (by omega) hplain

/-! ## A long write is made of chunks -/

/-- What is left to write ends where the request ends. -/
def Remains (pos : Nat) (rest : Bytes) (r : Nat × Bytes) : Prop :=
  r.1 + r.2.length = pos + rest.length ∧ r.2.length ≤ rest.length

theorem write_head_remains {d : WriteAt σ} {pos : Nat} {rest : Bytes} {r : Nat × Bytes} {io io' : Io σ}
    (h : v.write_head cipher d pos rest io = .ok r io') : Remains pos rest r := by
  unfold write_head at h
  split at h
  · obtain ⟨rfl, -⟩ := Run.pure_ok.mp h
    exact ⟨rfl, le_rfl⟩
  · obtain ⟨-, io₁, -, h⟩ := Run.bind_ok.mp h
    obtain ⟨rfl, -⟩ := Run.pure_ok.mp h
    simp only [Remains, List.length_drop]
    omega

theorem take_le (rest : Bytes) : min (rest.length / v.sector_size * v.sector_size)
    (WRITE_CHUNK_BYTES / v.sector_size * v.sector_size) ≤ rest.length :=
  le_trans (Nat.min_le_left _ _) (Nat.div_mul_le_self _ _)

theorem take_pos (h : v.Sized) {rest : Bytes} (hrest : ¬ rest.length < v.sector_size) :
    0 < min (rest.length / v.sector_size * v.sector_size) (WRITE_CHUNK_BYTES / v.sector_size * v.sector_size) := by
  unfold WRITE_CHUNK_BYTES
  rcases h.cases with h | h | h | h <;> rw [h] at hrest ⊢ <;> omega

theorem write_whole_remains {d : WriteAt σ} (rounds : Nat) {pos : Nat} {rest : Bytes} {r : Nat × Bytes}
    {io io' : Io σ} (h : v.write_whole cipher d rounds pos rest io = .ok r io') : Remains pos rest r := by
  induction rounds generalizing pos rest io with
  | zero =>
    obtain ⟨rfl, -⟩ := Run.pure_ok.mp h
    exact ⟨rfl, le_rfl⟩
  | succ rounds ih =>
    unfold write_whole at h
    split at h
    · obtain ⟨rfl, -⟩ := Run.pure_ok.mp h
      exact ⟨rfl, le_rfl⟩
    · obtain ⟨-, io₁, -, h⟩ := Run.bind_ok.mp h
      obtain ⟨hsum, hle⟩ := ih h
      have htake := take_le (v := v) rest
      simp only [List.length_drop] at hsum hle
      exact ⟨by omega, by omega⟩

section Chunks

variable {G : {α : Type} → IoM σ α → Prop} {d : WriteAt σ} {max_len stop : Nat}

/-- Every chunk of at most `max_len` bytes that ends by `stop` behaves. -/
def GoodChunks (G : {α : Type} → IoM σ α → Prop) (cipher : SectorCipher) (v : LuksVolume)
    (d : WriteAt σ) (max_len stop : Nat) : Prop :=
  ∀ offset buf, 0 < buf.length → buf.length ≤ max_len → offset + buf.length ≤ stop →
    G (v.write_at_chunk cipher d offset buf)

theorem write_head_of (h : v.Sized) (hG : Sequential G) (hchunk : GoodChunks G cipher v d max_len stop)
    {pos : Nat} {rest : Bytes} (hne : 0 < rest.length) (hmax : rest.length ≤ max_len)
    (hstop : pos + rest.length ≤ stop) : G (v.write_head cipher d pos rest) := by
  have hpos := h.pos
  have hmod := Nat.mod_lt pos hpos
  unfold write_head
  split
  · exact hG.pure _
  · refine hG.bind (hchunk _ _ ?_ ?_ ?_) fun _ _ _ _ => hG.pure _
    all_goals rw [List.length_take]; omega

theorem write_whole_of (h : v.Sized) (hG : Sequential G) (hchunk : GoodChunks G cipher v d max_len stop)
    (rounds : Nat) {pos : Nat} {rest : Bytes} (hmax : rest.length ≤ max_len)
    (hstop : pos + rest.length ≤ stop) : G (v.write_whole cipher d rounds pos rest) := by
  induction rounds generalizing pos rest with
  | zero => exact hG.pure _
  | succ rounds ih =>
    unfold write_whole
    split
    · exact hG.pure _
    · rename_i hlen
      have htake := take_pos h hlen
      have hle := take_le (v := v) rest
      refine hG.bind (hchunk _ _ ?_ ?_ ?_) fun _ _ _ _ => ih ?_ ?_
      · rw [List.length_take]; omega
      · rw [List.length_take]; omega
      · rw [List.length_take]; omega
      · rw [List.length_drop]; omega
      · rw [List.length_drop]; omega

theorem write_chunks_of (h : v.Sized) (hG : Sequential G) {offset : Nat} {buf : Bytes}
    (hchunk : GoodChunks G cipher v d buf.length (offset + buf.length)) (hne : 0 < buf.length) :
    G (v.write_chunks cipher d offset buf) := by
  unfold write_chunks
  refine hG.bind (write_head_of h hG hchunk hne le_rfl le_rfl) fun ⟨p₁, r₁⟩ _ _ hhead => ?_
  obtain ⟨hsum₁, hle₁⟩ := write_head_remains hhead
  simp only at hsum₁ hle₁
  refine hG.bind (write_whole_of h hG hchunk _ hle₁ (by omega)) fun ⟨p₂, r₂⟩ _ _ hwhole => ?_
  obtain ⟨hsum₂, hle₂⟩ := write_whole_remains _ hwhole
  simp only at hsum₂ hle₂
  simp only
  split
  · rename_i hr
    rw [List.isEmpty_iff] at hr
    exact hchunk _ _ (List.length_pos_iff.mpr hr) (by omega) (by omega)
  · exact hG.pure _

end Chunks

theorem write_at_asks (h : v.Sized) (d : WriteAt σ) (offset : Nat) (buf : Bytes) :
    Asks (v.Touches buf.length) (v.write_at cipher d offset buf) := by
  unfold write_at
  refine Asks.ite (fun _ => .pure _) fun hne => .lift_bind fun stop hstop => ?_
  obtain ⟨-, hext⟩ := check_range_ok hstop
  rw [List.isEmpty_iff] at hne
  have hpos : 0 < buf.length := List.length_pos_iff.mpr hne
  refine Asks.ite (fun _ => write_at_chunk_asks h d hpos le_rfl hext) fun _ => ?_
  refine write_chunks_of h Asks.sequential (fun o b hb hmax hstop => ?_) hpos
  exact write_at_chunk_asks h d hb hmax (by omega)

/-! ## When a refused write has written -/

variable (v) in
/-- The lengths that `xts_encrypt` knows. -/
def Keyed : Prop := v.master_key.length = 64 ∨ v.master_key.length = 32

theorem write_at_chunk_clean (d : WriteAt σ) (offset : Nat) (buf : Bytes) :
    Clean (v.write_at_chunk cipher d offset buf) := by
  unfold write_at_chunk
  refine .lift_bind fun stop _ => .lift_bind fun disk _ => ?_
  refine Clean.bind (patched_asks rfl) fun plain _ _ _ => .lift_bind fun raw _ => ?_
  exact (Steady.ask _ _).clean

theorem write_at_chunk_no_write (h : v.Sized) (hkey : ¬ v.Keyed) (d : WriteAt σ) {offset : Nat}
    {buf : Bytes} : Asks (fun a => a.isWrite = false) (v.write_at_chunk cipher d offset buf) := by
  unfold write_at_chunk
  refine .lift_bind fun stop hstop => .lift_bind fun disk _ => ?_
  obtain ⟨rfl, -⟩ := add_ok hstop
  have hend := le_sectorEnd h (offset + buf.length)
  have hstart := sector_le (v := v) offset
  have hspan := span_eq (v := v) (offset / v.sector_size) (offset + buf.length)
  refine Asks.bind (patched_asks rfl) fun plain _ _ hplain => .lift_bind fun raw hraw => ?_
  have hlen := length_patched (by omega) hplain
  rw [xts_encrypt, xts_eq _ _ h hlen, if_neg (by exact hkey)] at hraw
  cases hraw

theorem patched_steady (h : v.Sized) (hkey : v.Keyed) (d : ReadAt σ) (first disk k skip : Nat)
    (buf : Bytes) : Steady (v.patched cipher d first disk (k * v.sector_size) skip buf) := by
  unfold patched
  split
  · exact .pure _
  · refine (Steady.read d _ _).bind fun raw _ _ hraw => ?_
    rw [xts_decrypt, xts_eq _ _ h (ReadAt.length_read hraw), if_pos (by exact hkey)]
    exact .pure _

theorem write_at_chunk_steady (h : v.Sized) (hkey : v.Keyed) (d : WriteAt σ) {offset : Nat} {buf : Bytes}
    (hsum : offset + buf.length < size)
    (haddr : v.base + offset / v.sector_size * v.sector_size < size) :
    Steady (v.write_at_chunk cipher d offset buf) := by
  unfold write_at_chunk
  have hadd : add_or_out_of_bounds offset buf.length = .ok (offset + buf.length) := by
    rw [add_or_out_of_bounds_eq, if_pos hsum]
  have hdisk : v.disk_offset (offset / v.sector_size) =
      .ok (v.base + offset / v.sector_size * v.sector_size) := by
    rw [disk_offset_eq, if_pos haddr]
  have hend := le_sectorEnd h (offset + buf.length)
  have hstart := sector_le (v := v) offset
  have hspan := span_eq (v := v) (offset / v.sector_size) (offset + buf.length)
  refine .lift_bind hadd (.lift_bind hdisk ?_)
  refine (patched_steady h hkey _ _ _ _ _ _).bind fun plain _ _ hplain => ?_
  have hlen := length_patched (by omega) hplain
  rw [xts_encrypt, xts_eq _ _ h hlen, if_pos (by exact hkey)]
  exact Steady.ask _ _

/-- A write that is refused has written nothing, as long as every sector of a long write has an
address. -/
theorem write_at_clean (h : v.Sized) (hbase : v.base < size)
    (hreach : v.Keyed → v.extent ≤ max v.addressable WRITE_CHUNK_BYTES) (d : WriteAt σ) (offset : Nat)
    (buf : Bytes) : Clean (v.write_at cipher d offset buf) := by
  unfold write_at
  split
  · exact (Steady.pure _).clean
  · rename_i hne
    rw [List.isEmpty_iff] at hne
    have hpos : 0 < buf.length := List.length_pos_iff.mpr hne
    refine .lift_bind fun stop hstop => ?_
    obtain ⟨-, hext⟩ := check_range_ok hstop
    have hlt := extent_lt (v := v)
    split
    · exact write_at_chunk_clean d offset buf
    · by_cases hkey : v.Keyed
      · have haddr := hreach hkey
        refine (write_chunks_of h Steady.sequential (fun o b hb _ hstop => ?_) hpos).clean
        refine write_at_chunk_steady h hkey d (by omega) ?_
        exact (lt_addressable_iff h hbase o).mp (by omega)
      · refine (write_chunks_of h Asks.sequential (fun o b _ _ _ => ?_) hpos).clean
        exact write_at_chunk_no_write h hkey d

/-! ## Requests that go to the limits -/

theorem read_at_reads (cipher : SectorCipher) (r : ReadAt σ) (offset n : Nat) (hn : 0 < n)
    (hext : offset + n ≤ v.extent)
    (haddr : v.base + offset / v.sector_size * v.sector_size < size) (io : Io σ) :
    .read (v.base + offset / v.sector_size * v.sector_size)
      (v.sectorEnd (offset + n) - offset / v.sector_size * v.sector_size) ∈
        (after (v.read_at cipher r offset n io)).accesses := by
  have hread : v.read_at cipher r offset n = do
      let scratch ← r.read (v.base + offset / v.sector_size * v.sector_size)
        ((div_ceil (offset + n) v.sector_size - offset / v.sector_size) * v.sector_size)
      let scratch ← IoM.lift (xts_decrypt cipher v.master_key scratch v.sector_size
        (v.first_tweak (offset / v.sector_size)) v.tweak_step)
      return Bytes.slice scratch (offset - offset / v.sector_size * v.sector_size) n := by
    unfold read_at
    rw [if_neg (by omega), check_range_eq, if_pos hext]
    simp only [IoM.lift, pure_bind]
    rw [disk_offset_eq, if_pos haddr]
    simp only [pure_bind]
  rw [hread, ← span_eq]
  refine mem_after_bind ?_ fun _ => .lift_bind fun _ _ => .pure _
  exact mem_after_bind (mem_after_ask _ _ _) fun _ => .pure _

/-- The same reader, with a writer that takes everything. -/
def sink (r : ReadAt σ) : WriteAt σ := { r with write_at := fun _ _ => pure (), flush := pure () }

theorem write_at_chunk_sink (cipher : SectorCipher) (h : v.Sized) (hkey : v.Keyed) (r : ReadAt σ)
    {k m : Nat} (buf : Bytes) (hlen : buf.length = m * v.sector_size) (hsum : k * v.sector_size + buf.length < size)
    (haddr : v.base + k * v.sector_size < size) (io : Io σ) :
    ∃ data, v.write_at_chunk cipher (sink r) (k * v.sector_size) buf io =
      .ok () { io with accesses := io.accesses ++ [.write (v.base + k * v.sector_size) data] } := by
  have hpos := h.pos
  have hdiv : k * v.sector_size / v.sector_size = k := Nat.mul_div_cancel _ hpos
  have hceil : div_ceil (k * v.sector_size + buf.length) v.sector_size = k + m := by
    rw [hlen, ← Nat.add_mul, div_ceil, Nat.mul_div_cancel _ hpos, Nat.mul_mod_left, if_neg (by omega),
      Nat.add_zero]
  unfold write_at_chunk
  rw [add_or_out_of_bounds_eq, if_pos hsum]
  simp only [IoM.lift, pure_bind, hdiv, hceil]
  rw [disk_offset_eq, if_pos haddr]
  simp only [pure_bind, patched, Nat.sub_self, Nat.add_sub_cancel_left, hlen, and_self, if_true]
  rw [xts_encrypt, xts_eq _ _ h hlen, if_pos (by exact hkey)]
  exact ⟨_, rfl⟩

theorem write_whole_short {d : WriteAt σ} (rounds : Nat) {pos : Nat} {rest : Bytes}
    (hlen : rest.length < v.sector_size) : v.write_whole cipher d rounds pos rest = pure (pos, rest) := by
  cases rounds with
  | zero => rfl
  | succ rounds =>
    unfold write_whole
    rw [if_pos hlen]

theorem write_chunks_two (h : v.Sized) (d : WriteAt σ) (k : Nat) {buf : Bytes}
    (hlen : buf.length = WRITE_CHUNK_BYTES + 1) :
    v.write_chunks cipher d (k * v.sector_size) buf =
      (v.write_at_chunk cipher d (k * v.sector_size) (buf.take WRITE_CHUNK_BYTES) >>= fun _ =>
        v.write_at_chunk cipher d (k * v.sector_size + WRITE_CHUNK_BYTES)
          (buf.drop WRITE_CHUNK_BYTES)) := by
  have hchunk := Nat.div_mul_cancel h.dvd
  have hwhole : (WRITE_CHUNK_BYTES + 1) / v.sector_size * v.sector_size = WRITE_CHUNK_BYTES := by
    unfold WRITE_CHUNK_BYTES
    rcases h.cases with h | h | h | h <;> rw [h]
  have hsmall : 1 < v.sector_size ∧ v.sector_size ≤ WRITE_CHUNK_BYTES := by
    unfold WRITE_CHUNK_BYTES
    rcases h.cases with h | h | h | h <;> omega
  have hdrop : (buf.drop WRITE_CHUNK_BYTES).length = 1 := by
    rw [List.length_drop]
    omega
  have hne : (buf.drop WRITE_CHUNK_BYTES).isEmpty = false := by
    cases hd : buf.drop WRITE_CHUNK_BYTES with
    | nil => rw [hd] at hdrop; cases hdrop
    | cons b rest => rfl
  simp only [write_chunks, write_head, Nat.mul_mod_left, if_true, pure_bind, hlen, write_whole]
  rw [if_neg (by omega)]
  simp only [hwhole, hchunk, Nat.min_self, bind_assoc, write_whole_short _ (lt_of_eq_of_lt hdrop hsmall.1),
    pure_bind, hne, Bool.false_eq_true, not_false_eq_true, if_true]

/-- The byte lies in a sector that has no address, but the chunk is written. -/
theorem write_at_refused_late (cipher : SectorCipher) (h : v.Sized) (hkey : v.Keyed) (r : ReadAt σ) {k : Nat}
    {buf : Bytes}
    (hlen : buf.length = WRITE_CHUNK_BYTES + 1) (hext : k * v.sector_size + buf.length ≤ v.extent)
    (haddr : v.base + k * v.sector_size < size)
    (hlate : size ≤ v.base + (k * v.sector_size + WRITE_CHUNK_BYTES)) (io : Io σ) :
    ∃ data, v.write_at cipher (sink r) (k * v.sector_size) buf io = .error .OutOfBounds
      { io with accesses := io.accesses ++ [.write (v.base + k * v.sector_size) data] } := by
  have hpos := h.pos
  have hlt := extent_lt (v := v)
  have hchunk := Nat.div_mul_cancel h.dvd
  have htail : (k * v.sector_size + WRITE_CHUNK_BYTES) / v.sector_size * v.sector_size =
      k * v.sector_size + WRITE_CHUNK_BYTES := by
    rw [← hchunk, ← Nat.add_mul, Nat.mul_div_cancel _ hpos]
  obtain ⟨data, hfirst⟩ := write_at_chunk_sink cipher (k := k) h hkey r
    (buf.take WRITE_CHUNK_BYTES) (by rw [List.length_take, hlen, hchunk]; omega)
    (by rw [List.length_take]; omega) haddr io
  have hlast : ∀ io, v.write_at_chunk cipher (sink r) (k * v.sector_size + WRITE_CHUNK_BYTES)
      (buf.drop WRITE_CHUNK_BYTES) io = .error .OutOfBounds io := by
    intro io
    unfold write_at_chunk
    rw [add_or_out_of_bounds_eq, if_pos (by rw [List.length_drop]; omega)]
    simp only [IoM.lift, pure_bind]
    rw [disk_offset_eq, if_neg (by rw [htail]; omega)]
    rfl
  have hempty : buf.isEmpty = false := by
    cases buf with
    | nil => simp [WRITE_CHUNK_BYTES] at hlen
    | cons b buf => rfl
  refine ⟨data, ?_⟩
  unfold write_at
  rw [if_neg (by simp [hempty]), check_range_eq, if_pos hext]
  simp only [IoM.lift, pure_bind]
  rw [if_neg (by omega), write_chunks_two h _ _ hlen, Run.bind_eq_of_ok hfirst]
  exact hlast _

/-! ## The condition -/

variable (cipher v) in
/-- Every access lies in `[lo, hi)`, and a request that is refused has written nothing. -/
def KeepsTo (d : WriteAt σ) (lo hi : Nat) : Prop :=
  ∀ s req, req.len ≤ MAX_SLICE_LEN →
    (∀ a ∈ (after (v.serve cipher d req ⟨s, [], false⟩)).accesses, a.Inside lo hi) ∧
    ∀ e io, v.serve cipher d req ⟨s, [], false⟩ = .error e io → io.failed = false →
      ∀ a ∈ io.accesses, a.isWrite = false

end LuksVolume

/-- The length of the volume that a segment describes in a partition, as far as 64 bits go. A segment
that starts after the partition has nothing to bound it. -/
def volumeLen (p : Partition) (seg : Segment) : Nat :=
  let room := if seg.offset ≤ p.size_bytes then p.size_bytes - seg.offset else size - 1
  match seg.size with
  | .Dynamic => min room (size - 1)
  | .Fixed n => min (min n room) (size - 1)

/-- Nothing of the volume can be reached, or: the partition starts below `2 ^ 64`, the last sector
that a request can reach ends in the partition, and a write that does not fit in one chunk finds an
address for every sector. -/
def FitsPartition (p : Partition) (seg : Segment) (key : Bytes) : Prop :=
  let base := p.offset_bytes + seg.offset
  let addressable := ((size - 1 - base) / seg.sector_size + 1) * seg.sector_size
  let reach := min (volumeLen p seg) (addressable - 1 + MAX_SLICE_LEN)
  volumeLen p seg = 0 ∨ size ≤ base ∨
    (p.start_lba * p.sector_size < size ∧
      base + div_ceil reach seg.sector_size * seg.sector_size ≤ (p.end_lba + 1) * p.sector_size ∧
      (key.length = 64 ∨ key.length = 32 →
        volumeLen p seg ≤ max addressable LuksVolume.WRITE_CHUNK_BYTES))

namespace LuksVolume

variable {σ : Type} {cipher : SectorCipher} {v : LuksVolume}

/-- How far a volume reaches, in its own terms. -/
def Fits (v : LuksVolume) (lo hi : Nat) : Prop :=
  v.extent = 0 ∨ size ≤ v.base ∨
    (lo < size ∧ v.base + v.sectorEnd (min v.extent (v.addressable - 1 + MAX_SLICE_LEN)) ≤ hi ∧
      (v.Keyed → v.extent ≤ max v.addressable WRITE_CHUNK_BYTES))

theorem touches_le (h : v.Sized) {a : Access} (ha : v.Touches MAX_SLICE_LEN a) :
    v.base < size ∧ 0 < v.extent ∧ a.Inside v.base
      (v.base + v.sectorEnd (min v.extent (v.addressable - 1 + MAX_SLICE_LEN))) := by
  obtain ⟨offset, n, hn, hmax, hext, haddr, hin⟩ := ha
  have hbase : v.base < size := by omega
  have hlt := (lt_addressable_iff h hbase offset).mpr haddr
  have hmono := sectorEnd_mono h (x := offset + n) (y := min v.extent (v.addressable - 1 + MAX_SLICE_LEN))
    (by omega)
  refine ⟨hbase, by omega, ?_⟩
  cases a with
  | read o k => exact ⟨le_trans (by omega) hin.1, le_trans hin.2 (by omega)⟩
  | write o data => exact ⟨le_trans (by omega) hin.1, le_trans hin.2 (by omega)⟩
  | flush => trivial

theorem serve_asks (cipher : SectorCipher) (h : v.Sized) (d : WriteAt σ) (req : Request) :
    Asks (v.Touches req.len) (v.serve cipher d req) := by
  cases req with
  | read offset n => exact (read_at_asks h _ _ _).bind fun _ _ _ _ => .pure _
  | write offset data => exact write_at_asks h d offset data

theorem serve_clean (h : v.Sized) (hbase : v.base < size)
    (hreach : v.Keyed → v.extent ≤ max v.addressable WRITE_CHUNK_BYTES) (d : WriteAt σ) (req : Request) :
    Clean (v.serve cipher d req) := by
  cases req with
  | write offset data => exact write_at_clean h hbase hreach d offset data
  | read offset n =>
    refine Asks.clean (Asks.bind ?_ fun _ _ _ _ => .pure _)
    unfold read_at
    refine Asks.ite (fun _ => .pure _) fun _ => .lift_bind fun _ _ => .lift_bind fun _ _ => ?_
    exact Asks.bind (.read rfl) fun _ _ _ _ => .lift_bind fun _ _ => .pure _

theorem Fits.keepsTo (h : v.Sized) {lo hi : Nat} (hlo : lo < size → lo ≤ v.base) (hfits : v.Fits lo hi)
    (d : WriteAt σ) : v.KeepsTo cipher d lo hi := by
  intro s req hlen
  obtain ⟨new, heq, hnew⟩ := serve_asks cipher h d req ⟨s, [], false⟩
  rw [List.nil_append] at heq
  have htouch : ∀ a ∈ new, v.Touches MAX_SLICE_LEN a := by
    intro a ha
    obtain ⟨o, n, hn, hmax, rest⟩ := hnew a ha
    exact ⟨o, n, hn, by omega, rest⟩
  rcases hfits with hzero | hbig | ⟨hstart, hend, hreach⟩
  · -- The volume is empty, so nothing is touched at all.
    have hnone : ∀ a ∈ new, False := fun a ha => by
      have := (touches_le h (htouch a ha)).2.1
      omega
    refine ⟨fun a ha => (hnone a (heq ▸ ha)).elim, fun e io hrun _ a ha => ?_⟩
    rw [hrun] at heq
    exact (hnone a (heq ▸ ha)).elim
  · have hnone : ∀ a ∈ new, False := fun a ha => by
      have := (touches_le h (htouch a ha)).1
      omega
    refine ⟨fun a ha => (hnone a (heq ▸ ha)).elim, fun e io hrun _ a ha => ?_⟩
    rw [hrun] at heq
    exact (hnone a (heq ▸ ha)).elim
  · constructor
    · intro a ha
      obtain ⟨-, -, hin⟩ := touches_le h (htouch a (heq ▸ ha))
      have hlow := hlo hstart
      cases a with
      | read o k => exact ⟨le_trans hlow hin.1, le_trans hin.2 hend⟩
      | write o data => exact ⟨le_trans hlow hin.1, le_trans hin.2 hend⟩
      | flush => trivial
    · intro e io hrun hfailed a ha
      by_cases hbase : v.base < size
      · obtain ⟨new', heq', hnew'⟩ := serve_clean h hbase hreach d req _ e io hrun hfailed
        rw [List.nil_append] at heq'
        exact hnew' a (heq' ▸ ha)
      · rw [hrun] at heq
        exact absurd (touches_le h (htouch a (heq ▸ ha))).1 hbase

theorem KeepsTo.reach (h : v.Sized) {r : ReadAt σ} (s : σ) {lo hi : Nat} (hbase : v.base < size)
    (hext : 0 < v.extent) (hkeeps : v.KeepsTo cipher (sink r) lo hi) :
    lo ≤ v.base ∧ v.base + v.sectorEnd (min v.extent (v.addressable - 1 + MAX_SLICE_LEN)) ≤ hi := by
  have hread : ∀ offset n, 0 < n → n ≤ MAX_SLICE_LEN → offset + n ≤ v.extent → offset < v.addressable →
      lo ≤ v.base + offset / v.sector_size * v.sector_size ∧ v.base + v.sectorEnd (offset + n) ≤ hi := by
    intro offset n hn hmax hle hlt
    have haddr := (lt_addressable_iff h hbase offset).mp hlt
    have hmem := read_at_reads cipher r offset n hn hle haddr ⟨s, [], false⟩
    have hin := (hkeeps s (.read offset n) hmax).1 _ (mem_after_bind hmem fun _ => .pure _)
    have hend := le_sectorEnd h (offset + n)
    have hstart := sector_le (v := v) offset
    exact ⟨hin.1, by have := hin.2; omega⟩
  have hpos : 0 < v.addressable := (lt_addressable_iff h hbase 0).mpr (by simpa using hbase)
  have hmax : 0 < MAX_SLICE_LEN := by simp [MAX_SLICE_LEN]
  constructor
  · have := (hread 0 1 (by omega) (by omega) (by omega) hpos).1
    simpa using this
  · -- The read that ends there starts in the last sector that has an address, or earlier.
    let stop := min v.extent (v.addressable - 1 + MAX_SLICE_LEN)
    let offset := min (stop - 1) (v.addressable - 1)
    have hstop : stop = min v.extent (v.addressable - 1 + MAX_SLICE_LEN) := rfl
    have hoffset : offset = min (stop - 1) (v.addressable - 1) := rfl
    have := (hread offset (stop - offset) (by omega) (by omega) (by omega) (by omega)).2
    rwa [show offset + (stop - offset) = stop by omega] at this

theorem KeepsTo.fits (h : v.Sized) {r : ReadAt σ} (s : σ) {lo hi : Nat}
    (hkeeps : v.KeepsTo cipher (sink r) lo hi) : v.Fits lo hi := by
  rcases Nat.eq_zero_or_pos v.extent with hzero | hext
  · exact Or.inl hzero
  rcases Nat.lt_or_ge v.base size with hbase | hbase
  swap
  · exact Or.inr (Or.inl hbase)
  obtain ⟨hlo, hhi⟩ := hkeeps.reach h s hbase hext
  refine Or.inr (Or.inr ⟨by omega, hhi, fun hkey => ?_⟩)
  by_contra hlong
  have hpos := h.pos
  -- A chunk up to the last address, and one byte more.
  obtain ⟨k, hk, hlate⟩ : ∃ k, k * v.sector_size + WRITE_CHUNK_BYTES = max v.addressable WRITE_CHUNK_BYTES ∧
      v.base + k * v.sector_size < size := by
    rcases Nat.lt_or_ge v.addressable WRITE_CHUNK_BYTES with hlt | hge
    · exact ⟨0, by omega, by omega⟩
    · have hdvd : v.sector_size ∣ v.addressable - WRITE_CHUNK_BYTES :=
        Nat.dvd_sub (Nat.dvd_mul_left _ _) h.dvd
      obtain ⟨k, hk⟩ := hdvd
      rw [Nat.mul_comm] at hk
      have hlt : k * v.sector_size < v.addressable := by
        have : 0 < WRITE_CHUNK_BYTES := by decide
        omega
      refine ⟨k, by omega, ?_⟩
      have := (lt_addressable_iff h hbase _).mp hlt
      rwa [Nat.mul_div_cancel _ hpos] at this
  have hend : size ≤ v.base + (k * v.sector_size + WRITE_CHUNK_BYTES) := by
    have hout : ¬ max v.addressable WRITE_CHUNK_BYTES < v.addressable := by omega
    rw [lt_addressable_iff h hbase, ← hk] at hout
    have := sector_le (v := v) (k * v.sector_size + WRITE_CHUNK_BYTES)
    omega
  obtain ⟨buf, hbuf⟩ : ∃ buf : Bytes, buf.length = WRITE_CHUNK_BYTES + 1 :=
    ⟨List.replicate _ 0, List.length_replicate⟩
  obtain ⟨data, hrun⟩ := write_at_refused_late cipher h hkey r hbuf (by omega) hlate hend
    ⟨s, [], false⟩
  have hlen : (Request.write (k * v.sector_size) buf).len ≤ MAX_SLICE_LEN := by
    rw [Request.len, hbuf]
    decide
  have hnone := (hkeeps s (.write (k * v.sector_size) buf) hlen).2 _ _ hrun rfl
  exact absurd (hnone (.write (v.base + k * v.sector_size) data) (by simp)) (by simp [Access.isWrite])

/-! ## The partition -/

theorem with_master_key_ok {r : ReadAt σ} {offset len : Nat} {header : Luks2Header} {key : Bytes}
    {seg : Segment} (hseg : header.primary_segment = .ok seg)
    (h : with_master_key r offset (some len) header key = .ok v) :
    v.Sized ∧ v = ⟨offset, seg.offset, segment_len_of seg.size (checked_sub len seg.offset),
      seg.sector_size, seg.iv_tweak, seg.tweak_step, key⟩ := by
  unfold with_master_key at h
  rw [hseg] at h
  simp only [bind, Except.bind] at h
  split at h
  · cases h
  · split at h
    · cases h
    · cases h
      refine ⟨?_, rfl⟩
      rename_i hss
      exact not_not.mp hss

end LuksVolume

theorem volumeLen_eq (p : Partition) (seg : Segment) :
    volumeLen p seg = min ((LuksVolume.segment_len_of seg.size (checked_sub p.size_bytes seg.offset)).getD
      (size - 1)) (size - 1) := by
  unfold volumeLen checked_sub LuksVolume.segment_len_of
  have hlt : p.size_bytes < size := Nat.mod_lt _ (by simp only [size]; omega)
  cases seg.size with
  | Dynamic =>
    by_cases h : seg.offset ≤ p.size_bytes
    · simp [h]
    · simp [h]
  | Fixed n =>
    by_cases h : seg.offset ≤ p.size_bytes
    · simp [h]
    · simp only [h, if_false, Option.getD_some]
      omega

theorem fitsPartition_iff (p : Partition) (seg : Segment) (key : Bytes) (lo : Nat)
    (hlo : lo = p.start_lba * p.sector_size) :
    FitsPartition p seg key ↔
      LuksVolume.Fits ⟨p.offset_bytes, seg.offset,
        LuksVolume.segment_len_of seg.size (checked_sub p.size_bytes seg.offset), seg.sector_size,
        seg.iv_tweak, seg.tweak_step, key⟩ lo ((p.end_lba + 1) * p.sector_size) := by
  unfold FitsPartition
  rw [volumeLen_eq, hlo]
  exact Iff.rfl

/-- Whatever the device does with its writes: the volume stays in the partition and a refused request
has written nothing, exactly when the segment fits. -/
theorem volume_keeps_to_partition {σ : Type} (s : σ) (cipher : SectorCipher) {r : ReadAt σ}
    {p : Partition} {header : Luks2Header} {key : Bytes} {seg : Segment} {v : LuksVolume}
    (hseg : header.primary_segment = .ok seg)
    (hopen : LuksVolume.with_master_key r p.offset_bytes (some p.size_bytes) header key = .ok v) :
    (∀ d : WriteAt σ, d.toReadAt = r →
      v.KeepsTo cipher d (p.start_lba * p.sector_size) ((p.end_lba + 1) * p.sector_size)) ↔
    FitsPartition p seg key := by
  obtain ⟨hsized, rfl⟩ := LuksVolume.with_master_key_ok hseg hopen
  rw [fitsPartition_iff p seg key _ rfl]
  constructor
  · intro hkeeps
    exact (hkeeps (LuksVolume.sink r) rfl).fits hsized s
  · intro hfits d _
    refine hfits.keepsTo hsized ?_ d
    intro hlt
    have hoff : p.offset_bytes = p.start_lba * p.sector_size := Nat.mod_eq_of_lt hlt
    simp only [LuksVolume.base, hoff]
    omega

/-! ## Two disks -/

namespace Disk

/-- The bytes of a disk whose MBR lists one partition from LBA 2048 on, with a LUKS2 header in it. -/
def byteAt (sectors i : Nat) : UInt8 :=
  if i = 450 then 0x83
  else if 454 ≤ i ∧ i < 458 then (Bytes.le 4 2048).getD (i - 454) 0
  else if 458 ≤ i ∧ i < 462 then (Bytes.le 4 sectors).getD (i - 458) 0
  else if i = 510 then 0x55
  else if i = 511 then 0xAA
  else (MAGIC_PRIMARY ++ [0, 2]).getD (i - 2048 * 512) 0 * if i < 2048 * 512 then 0 else 1

/-- A disk of 64 MiB that answers every read. -/
def reader (sectors : Nat) : ReadAt Unit where
  len := some (2 ^ 26)
  read_at offset n := pure ⟨(List.range n).map fun i => byteAt sectors (offset + i), by simp⟩

def partition (sectors : Nat) : Partition :=
  ⟨1, 2048, 2048 + sectors - 1, 512, none, some 0x83, [], true, some 2⟩

/-- The data starts 16 MiB into the partition and fills the rest of it, in sectors of 4096 bytes. -/
def segment : Segment := ⟨2 ^ 24, .Dynamic, 0, "aes-xts-plain64", 4096, []⟩

def key : Bytes := List.replicate 64 0

def volume (segment_len : Nat) : LuksVolume := ⟨2 ^ 20, 2 ^ 24, some segment_len, 4096, 0, 8, key⟩

def listed (sectors : Nat) : List Partition :=
  match scan (fun _ => 0) (reader sectors) 512 ⟨(), [], false⟩ with
  | .ok table _ => table.partitions
  | .error _ _ => []

end Disk

theorem Disk.opens (sectors len : Nat)
    (hoff : (Disk.partition sectors).offset_bytes = 2 ^ 20)
    (hsize : (Disk.partition sectors).size_bytes = 2 ^ 24 + len) :
    LuksVolume.with_master_key (Disk.reader sectors) (Disk.partition sectors).offset_bytes
      (some (Disk.partition sectors).size_bytes) ⟨[Disk.segment]⟩ Disk.key = .ok (Disk.volume len) := by
  have hroom : LuksVolume.room (Disk.reader sectors).len (2 ^ 20) (some (2 ^ 24 + len)) Disk.segment =
      some len := by
    simp [LuksVolume.room, checked_sub, Disk.segment]
  rw [hoff, hsize, LuksVolume.with_master_key]
  simp only [Luks2Header.primary_segment, bind, Except.bind, hroom]
  rfl

/-- 16 MiB and two whole cipher sectors: the volume keeps to its partition. -/
theorem volume_keeps_to_even_partition :
    Disk.listed 32784 = [Disk.partition 32784] ∧
    ∀ (cipher : SectorCipher) (d : WriteAt Unit), d.toReadAt = Disk.reader 32784 →
      (Disk.volume 8192).KeepsTo cipher d (2048 * 512) (34832 * 512) := by
  refine ⟨by decide +kernel, fun cipher => ?_⟩
  have hopen := Disk.opens 32784 8192 (by decide +kernel) (by decide +kernel)
  refine (volume_keeps_to_partition () cipher rfl hopen).mpr ?_
  refine Or.inr (Or.inr ⟨by decide +kernel, by decide +kernel, fun _ => by decide +kernel⟩)

/-- Nine sectors of 512 bytes after the header: the read of the last one takes a whole cipher sector,
and ends 3584 bytes after the partition. -/
theorem volume_reads_past_odd_partition :
    Disk.listed 32777 = [Disk.partition 32777] ∧
    LuksVolume.with_master_key (Disk.reader 32777) (Disk.partition 32777).offset_bytes
      (some (Disk.partition 32777).size_bytes) ⟨[Disk.segment]⟩ Disk.key = .ok (Disk.volume 4608) ∧
    ∀ cipher : SectorCipher, ¬ ∀ d : WriteAt Unit, d.toReadAt = Disk.reader 32777 →
      (Disk.volume 4608).KeepsTo cipher d (2048 * 512) (34825 * 512) := by
  refine ⟨by decide +kernel, Disk.opens 32777 4608 (by decide +kernel) (by decide +kernel), ?_⟩
  intro cipher hkeeps
  have hread := (hkeeps (LuksVolume.sink (Disk.reader 32777)) rfl () (.read 4096 512) (by decide)).1
  have hmem := LuksVolume.read_at_reads (v := Disk.volume 4608) cipher (Disk.reader 32777)
    4096 512 (by decide) (by decide +kernel) (by decide +kernel) ⟨(), [], false⟩
  have hin := (hread _ (mem_after_bind hmem fun _ => .pure _)).2
  exact absurd hin (by decide)

end LuksAndroid

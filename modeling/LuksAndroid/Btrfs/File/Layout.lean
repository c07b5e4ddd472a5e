import LuksAndroid.Btrfs.File.Code

/-!
# What a writer has laid out

`Laid` says what the device, the tail and the checksums are for the content so far, and
it names no piece. Each of the three parts of a run adds bytes to the content and keeps
it, so the pieces leave no trace.
-/

namespace LuksAndroid.Btrfs

open Word

/-! ## Addresses in file order -/

/-- The addresses of the runs, in the order of the file. -/
def runAddrs (runs : List (Nat × Nat)) : List Nat := runs.flatMap fun r => List.range' r.1 r.2

@[simp] theorem runAddrs_nil : runAddrs [] = [] := rfl

@[simp] theorem runAddrs_cons (r : Nat × Nat) (runs : List (Nat × Nat)) :
    runAddrs (r :: runs) = List.range' r.1 r.2 ++ runAddrs runs := rfl

theorem runAddrs_append (a b : List (Nat × Nat)) : runAddrs (a ++ b) = runAddrs a ++ runAddrs b :=
  List.flatMap_append

theorem length_runAddrs_mod {sector : Nat} {runs : List (Nat × Nat)} (h : ∀ r ∈ runs, r.2 % sector = 0) :
    (runAddrs runs).length % sector = 0 := by
  induction runs with
  | nil => simp
  | cons r runs ih =>
    rw [runAddrs_cons, List.length_append, List.length_range', Nat.add_mod, h r (by simp),
      ih fun x hx => h x (by simp [hx])]
    simp

/-- From `pos` on, the next `n` bytes of the file lie in one piece at `addr`. -/
def Consecutive (l : List Nat) (pos addr n : Nat) : Prop := ∀ j < n, l[pos + j]? = some (addr + j)

theorem Consecutive.shift {l : List Nat} {pos addr n : Nat} (h : Consecutive l pos addr n) (k : Nat) :
    Consecutive l (pos + k) (addr + k) (n - k) := by
  intro j hj
  rw [Nat.add_assoc, Nat.add_assoc]
  exact h (k + j) (by omega)

theorem Consecutive.mono {l : List Nat} {pos addr n n' : Nat} (h : Consecutive l pos addr n) (hn : n' ≤ n) :
    Consecutive l pos addr n' :=
  fun j hj => h j (by omega)

theorem Consecutive.le_length {l : List Nat} {pos addr n : Nat} (h : Consecutive l pos addr n) (hn : 0 < n) :
    pos + n ≤ l.length := by
  have := (List.getElem?_eq_some_iff.mp (h (n - 1) (by omega))).1
  omega

theorem consecutive_run (pre runs : List (Nat × Nat)) (bytenr run_len offset : Nat) :
    Consecutive (runAddrs (pre ++ (bytenr, run_len) :: runs)) ((runAddrs pre).length + offset) (bytenr + offset)
      (run_len - offset) := by
  intro j hj
  rw [runAddrs_append, List.getElem?_append_right (by omega), runAddrs_cons,
    List.getElem?_append_left (by simp only [List.length_range']; omega), List.getElem?_range' (by omega)]
  congr 1
  omega

/-! ## Sectors -/

theorem div_ceil_whole {sector : Nat} (hs : 0 < sector) (q : Nat) : div_ceil (q * sector) sector = q := by
  unfold div_ceil
  rw [Nat.mul_div_cancel _ hs, Nat.mul_mod_left]
  simp

theorem div_ceil_begun {sector q r : Nat} (hr : 0 < r) (hle : r ≤ sector) :
    div_ceil (q * sector + r) sector = q + 1 := by
  rcases Nat.lt_or_ge r sector with hlt | hge
  · unfold div_ceil
    rw [Nat.mul_comm, Nat.mul_add_div (by omega), Nat.div_eq_of_lt hlt, Nat.mul_add_mod, Nat.mod_eq_of_lt hlt,
      if_pos hr]
  · obtain rfl : r = sector := by omega
    rw [show q * r + r = (q + 1) * r by ring, div_ceil_whole (by omega)]

theorem sector_buf_append {sector i : Nat} {c : Bytes} (hi : (i + 1) * sector ≤ c.length) (x : Bytes) :
    sector_buf sector (c ++ x) i = sector_buf sector c i := by
  have hslice : (c ++ x).slice (i * sector) sector = c.slice (i * sector) sector := by
    have : (i + 1) * sector = i * sector + sector := by ring
    unfold Bytes.slice
    rw [List.drop_append_of_le_length (by omega), List.take_append_of_le_length (by rw [List.length_drop]; omega)]
  unfold sector_buf
  rw [hslice]

theorem sector_buf_last {sector q : Nat} {a t : Bytes} (ha : a.length = q * sector) (ht : t.length ≤ sector) :
    sector_buf sector (a ++ t) q = zero_padded sector t := by
  have hslice : (a ++ t).slice (q * sector) sector = t := by
    unfold Bytes.slice
    rw [← ha, List.drop_left, List.take_of_length_le ht]
  unfold sector_buf zero_padded
  rw [hslice]

/-- The checksum of every sector of the content, in file order, with the last sector padded. -/
def sectorSums (sector : Nat) (l : List Nat) (c : Bytes) : List (Nat × Nat) :=
  (List.range (div_ceil c.length sector)).map fun i => (l.getD (i * sector) 0, crc32c (sector_buf sector c i))

section

variable {sector : Nat} (l : List Nat)

theorem sectorSums_whole (hs : 0 < sector) {a b : Bytes} {q k : Nat} (ha : a.length = q * sector)
    (hb : b.length = k * sector) :
    sectorSums sector l (a ++ b) = sectorSums sector l a ++ (List.range k).map fun i =>
      (l.getD (a.length + i * sector) 0, crc32c (b.slice (i * sector) sector)) := by
  unfold sectorSums
  rw [List.length_append, ha, hb, show q * sector + k * sector = (q + k) * sector by ring, div_ceil_whole hs,
    div_ceil_whole hs, List.range_add, List.map_append, List.map_map]
  congr 1
  · apply List.map_congr_left
    intro i hi
    have hi' := List.mem_range.mp hi
    rw [sector_buf_append]
    rw [ha]
    exact Nat.mul_le_mul_right _ hi'
  · apply List.map_congr_left
    intro i hi
    have hi' := List.mem_range.mp hi
    have hroom : (i + 1) * sector ≤ k * sector := Nat.mul_le_mul_right _ hi'
    have hexp : (i + 1) * sector = i * sector + sector := by ring
    have hslice : (a ++ b).slice ((q + i) * sector) sector = b.slice (i * sector) sector := by
      unfold Bytes.slice
      rw [show (q + i) * sector = a.length + i * sector by rw [ha]; ring, List.drop_length_add_append]
    have hfull : (b.slice (i * sector) sector).length = sector := by
      simp only [Bytes.slice, List.length_take, List.length_drop]
      omega
    simp only [Function.comp_apply, sector_buf, hslice, hfull, Nat.sub_self, List.replicate_zero, List.append_nil]
    rw [Nat.add_mul]

theorem sectorSums_begun (hs : 0 < sector) {a t : Bytes} {q : Nat} (ha : a.length = q * sector) (ht : t ≠ [])
    (hle : t.length ≤ sector) :
    sectorSums sector l (a ++ t) =
      sectorSums sector l a ++ [(l.getD a.length 0, crc32c (zero_padded sector t))] := by
  have hpos : 0 < t.length := List.length_pos_of_ne_nil ht
  unfold sectorSums
  rw [List.length_append, ha, div_ceil_begun hpos hle, div_ceil_whole hs, List.range_succ, List.map_append]
  congr 1
  · apply List.map_congr_left
    intro i hi
    have hi' := List.mem_range.mp hi
    rw [sector_buf_append]
    rw [ha]
    exact Nat.mul_le_mul_right _ hi'
  · simp only [List.map_cons, List.map_nil, sector_buf_last ha hle]

end

/-! ## The content so far -/

/-- Every copy of the first `n` bytes of the file is that of the content, with zeros past its end. -/
def HoldsBytes (m : ChunkMap) (l : List Nat) (bytes : Nat → UInt8) (c : Bytes) (n : Nat) : Prop :=
  ∀ p < n, ∀ a, l[p]? = some a → (m.copies a).Nonempty ∧ ∀ phys ∈ m.copies a, bytes phys = c.getD p 0

structure Laid (m : ChunkMap) (sector : Nat) (l : List Nat) (bytes : Nat → UInt8) (w : BtrfsFileWriter) (c : Bytes) :
    Prop where
  fits : div_ceil c.length sector * sector ≤ l.length
  tail : w.tail_buf = c.drop (c.length / sector * sector)
  sums : w.checksums = sectorSums sector l c
  holds : HoldsBytes m l bytes c (div_ceil c.length sector * sector)

theorem drop_whole {sector q : Nat} {a t : Bytes} (ha : a.length = q * sector) (ht : t.length < sector) :
    (a ++ t).drop ((a ++ t).length / sector * sector) = t := by
  rw [List.length_append, ha, Nat.mul_comm q, Nat.mul_add_div (by omega), Nat.div_eq_of_lt ht, Nat.add_zero,
    ← ha, List.drop_left]

theorem Laid.split {m : ChunkMap} {sector : Nat} {l : List Nat} {bytes : Nat → UInt8} {w : BtrfsFileWriter} {c : Bytes}
    (h : Laid m sector l bytes w c) (hs : 0 < sector) :
    ∃ a q, a.length = q * sector ∧ c = a ++ w.tail_buf ∧ w.tail_buf.length < sector := by
  have hle : c.length / sector * sector ≤ c.length := Nat.div_mul_le_self _ _
  have hmod : c.length / sector * sector + c.length % sector = c.length := by
    rw [Nat.mul_comm]
    exact Nat.div_add_mod _ _
  have hlt := Nat.mod_lt c.length hs
  refine ⟨c.take (c.length / sector * sector), c.length / sector, by simp [hle], ?_, ?_⟩
  · rw [h.tail, List.take_append_drop]
  · rw [h.tail, List.length_drop]
    omega

/-- Nothing but the tail and the checksums is another. -/
def SameFile (w w' : BtrfsFileWriter) : Prop :=
  ∃ tail_buf checksums, w' = { w with tail_buf, checksums }

theorem SameFile.refl (w : BtrfsFileWriter) : SameFile w w := ⟨_, _, rfl⟩

theorem SameFile.trans {w w' w'' : BtrfsFileWriter} (h : SameFile w w') (h' : SameFile w' w'') : SameFile w w'' := by
  obtain ⟨_, _, rfl⟩ := h
  obtain ⟨_, _, rfl⟩ := h'
  exact ⟨_, _, rfl⟩

/-! ## The steps of a call -/

namespace FileM

variable {σ α : Type} {s s' : FileState σ}

theorem device_ok {x : IoM σ α} {a : α} :
    FileM.device x s = .ok a s' ↔ ∃ io, x s.io = .ok a io ∧ s' = { s with io } := by
  unfold FileM.device
  cases x s.io with
  | ok b io => simp [eq_comm]
  | error e io => simp

theorem writer_ok {w : BtrfsFileWriter} : FileM.writer s = .ok w s' ↔ w = s.writer ∧ s = s' := by
  simp [FileM.writer, eq_comm]

theorem update_ok {f : BtrfsFileWriter → BtrfsFileWriter} {u : Unit} :
    FileM.update f s = .ok u s' ↔ s' = { s with writer := f s.writer } := by
  simp [FileM.update, eq_comm]

end FileM

section

variable {σ : Type} {d : WriteAt σ} {view : σ → Nat → UInt8} {m : ChunkMap} {sector : Nat} {l : List Nat}

/-- A write of bytes that lie in one piece: inside it the new content counts, outside the old one. -/
theorem HoldsBytes.write (hd : d.Keeps view) (hm : m.Placed) (hl : l.Nodup) {c c' : Bytes} {n n' pos addr : Nat}
    {data : Bytes} (hroom : Consecutive l pos addr data.length) (hword : addr + data.length ≤ size) {u : Unit}
    {io io' : Io σ} (hw : write_logical d m addr data io = .ok u io') (h : HoldsBytes m l (view io.state) c n)
    (hin : ∀ j < data.length, c'.getD (pos + j) 0 = data.getD j 0)
    (hout : ∀ p < n', p < pos ∨ pos + data.length ≤ p → p < n ∧ c'.getD p 0 = c.getD p 0) :
    HoldsBytes m l (view io'.state) c' n' := by
  obtain ⟨hnew, hsame⟩ := write_logical_ok hd hm hword hw
  intro p hp a ha
  by_cases hwin : pos ≤ p ∧ p < pos + data.length
  · obtain ⟨j, rfl⟩ := Nat.exists_eq_add_of_le hwin.1
    have hj : j < data.length := by omega
    obtain rfl : addr + j = a := Option.some_inj.mp ((hroom j hj).symm.trans ha)
    rw [hin j hj]
    exact hnew j hj
  · obtain ⟨hpn, hc⟩ := hout p hp (by omega)
    obtain ⟨hne, hold⟩ := h p hpn a ha
    refine ⟨hne, fun phys hphys => ?_⟩
    rw [hc, ← hold phys hphys]
    apply hsame
    intro j hj hcopy
    -- Two places of the file do not have the same address.
    have haddr := hm.copies_inj hphys hcopy
    have hpos : p = pos + j := by
      obtain ⟨h1, h2⟩ := List.getElem?_eq_some_iff.mp ha
      obtain ⟨h3, h4⟩ := List.getElem?_eq_some_iff.mp (hroom j hj)
      exact (hl.getElem_inj_iff).mp (h2.trans (haddr.trans h4.symm))
    omega

variable (hd : d.Keeps view) (hm : m.Placed) (hl : l.Nodup) (hs : 0 < sector)

include hd hm hl hs

theorem write_tail_ok (hword : sector < size) {c chunk : Bytes} {addr space k : Nat} {s s' : FileState σ}
    (hlaid : Laid m sector l (view s.io.state) s.writer c) (hroom : Consecutive l c.length addr space)
    (haddr : addr + space ≤ size) (hchunk : chunk.length ≤ space)
    (h : write_tail d m sector addr chunk s = .ok k s') :
    k ≤ chunk.length ∧ (k = chunk.length ∨ (c.length + k) % sector = 0) ∧
      Laid m sector l (view s'.io.state) s'.writer (c ++ chunk.take k) ∧ SameFile s.writer s'.writer := by
  obtain ⟨a, q, ha, hc, htail⟩ := hlaid.split hs
  unfold write_tail at h
  obtain ⟨w, s₁, hwriter, h⟩ := Run.bind_ok.mp h
  obtain ⟨rfl, rfl⟩ := FileM.writer_ok.mp hwriter
  by_cases hempty : s.writer.tail_buf = []
  · simp only [hempty, List.isEmpty_nil, if_true] at h
    obtain ⟨rfl, rfl⟩ := Run.pure_ok.mp h
    refine ⟨Nat.zero_le _, Or.inr ?_, by simpa using hlaid, .refl _⟩
    rw [hc, hempty, List.append_nil, ha]
    simp
  · have hpos := List.length_pos_of_ne_nil hempty
    simp only [List.isEmpty_iff, hempty, if_false, wrapping_sub_of_le htail.le hword] at h
    generalize hk : min (sector - s.writer.tail_buf.length) chunk.length = take at h
    have hlen : (chunk.take take).length = take := by simp; omega
    obtain ⟨_, s₁, hupdate, h⟩ := Run.bind_ok.mp h
    rw [FileM.update_ok] at hupdate
    obtain ⟨_, s₂, hdevice, h⟩ := Run.bind_ok.mp h
    obtain ⟨io, hw, rfl⟩ := FileM.device_ok.mp hdevice
    subst hupdate
    have hclen : c.length = q * sector + s.writer.tail_buf.length := by rw [hc, List.length_append, ha]
    have hceil : div_ceil c.length sector = q + 1 := by rw [hclen]; exact div_ceil_begun hpos htail.le
    have hceil' : div_ceil (c ++ chunk.take take).length sector = q + 1 := by
      rw [List.length_append, hlen, hclen, Nat.add_assoc]
      exact div_ceil_begun (by omega) (by omega)
    have hholds : HoldsBytes m l (view io.state) (c ++ chunk.take take) ((q + 1) * sector) := by
      refine HoldsBytes.write hd hm hl (hroom.mono (by omega) : Consecutive l c.length _ _) (by omega) hw
        (hceil ▸ hlaid.holds) ?_ ?_
      · intro j hj
        simp only [List.getD_eq_getElem?_getD]
        rw [List.getElem?_append_right (by omega), Nat.add_sub_cancel_left]
      · intro p hp hout
        refine ⟨hp, ?_⟩
        simp only [List.getD_eq_getElem?_getD]
        rcases hout with hlow | hhigh
        · rw [List.getElem?_append_left hlow]
        · rw [List.getElem?_eq_none (by rw [List.length_append]; omega), List.getElem?_eq_none (by omega)]
    have hold : s.writer.checksums = sectorSums sector l a ++
        [(l.getD a.length 0, crc32c (zero_padded sector s.writer.tail_buf))] := by
      rw [hlaid.sums, hc, sectorSums_begun l hs ha hempty htail.le]
    have hnew : sectorSums sector l (c ++ chunk.take take) = sectorSums sector l a ++
        [(l.getD a.length 0, crc32c (zero_padded sector (s.writer.tail_buf ++ chunk.take take)))] := by
      rw [hc, List.append_assoc, sectorSums_begun l hs ha (by simp [hempty]) (by rw [List.length_append]; omega)]
    have hfits : div_ceil (c ++ chunk.take take).length sector * sector ≤ l.length := by
      rw [hceil', ← hceil]
      exact hlaid.fits
    simp only [hold, List.getLast?_append, List.getLast?_singleton, Option.some_or, Option.map_some, Option.getD_some,
      List.length_append, hlen] at h
    split at h
    · rename_i hfull
      obtain ⟨_, s₃, hupdate, h⟩ := Run.bind_ok.mp h
      rw [FileM.update_ok] at hupdate
      obtain ⟨rfl, rfl⟩ := Run.pure_ok.mp h
      subst hupdate
      refine ⟨by omega, Or.inr ?_, ⟨hfits, ?_, ?_, hceil'.symm ▸ hholds⟩, ⟨_, _, rfl⟩⟩
      · rw [hclen, Nat.add_assoc, hfull]
        simp
      · have hall : (c ++ chunk.take take).length / sector * sector = (c ++ chunk.take take).length := by
          rw [List.length_append, hlen, hclen, Nat.add_assoc, hfull, ← Nat.succ_mul, Nat.mul_div_cancel _ hs]
        rw [hall, List.drop_length]
      · rw [hnew]
        simp only [List.dropLast_concat, zero_padded, List.length_append, hlen, hfull, Nat.sub_self,
          List.replicate_zero, List.append_nil]
    · rename_i hpart
      obtain ⟨_, s₃, hupdate, h⟩ := Run.bind_ok.mp h
      rw [FileM.update_ok] at hupdate
      obtain ⟨rfl, rfl⟩ := Run.pure_ok.mp h
      subst hupdate
      refine ⟨by omega, Or.inl (by omega), ⟨hfits, ?_, ?_, hceil'.symm ▸ hholds⟩, ⟨_, _, rfl⟩⟩
      · rw [hc, List.append_assoc, drop_whole ha (by rw [List.length_append]; omega)]
      · rw [hnew]
        simp only [List.dropLast_concat]

theorem write_body_ok {c chunk : Bytes} {addr space k k' : Nat} {s s' : FileState σ}
    (hlaid : Laid m sector l (view s.io.state) s.writer c) (hroom : Consecutive l c.length (addr + k) (space - k))
    (haddr : addr + space < size) (hchunk : chunk.length ≤ space) (hk : k ≤ chunk.length)
    (halign : k = chunk.length ∨ c.length % sector = 0) (h : write_body d m sector addr chunk k s = .ok k' s') :
    k ≤ k' ∧ k' ≤ chunk.length ∧ chunk.length - k' < sector ∧
      (k' = chunk.length ∨ (c.length + (k' - k)) % sector = 0) ∧
      Laid m sector l (view s'.io.state) s'.writer (c ++ chunk.slice k (k' - k)) ∧ SameFile s.writer s'.writer := by
  have hle : (chunk.length - k) / sector * sector ≤ chunk.length - k := Nat.div_mul_le_self _ _
  have hrest : chunk.length - k - (chunk.length - k) / sector * sector < sector := by
    have hmod := Nat.div_add_mod (chunk.length - k) sector
    have hlt := Nat.mod_lt (chunk.length - k) hs
    rw [Nat.mul_comm] at hmod
    omega
  unfold write_body at h
  simp only at h
  split at h
  · rename_i hsome
    have hzero : c.length % sector = 0 := by
      rcases halign with rfl | hzero
      · simp at hsome
      · exact hzero
    obtain ⟨q, hq⟩ := Nat.dvd_of_mod_eq_zero hzero
    rw [Nat.mul_comm] at hq
    generalize hn : (chunk.length - k) / sector = n at *
    rw [wrapping_add_of_lt (by omega)] at h
    obtain ⟨_, s₁, hdevice, h⟩ := Run.bind_ok.mp h
    obtain ⟨io, hw, rfl⟩ := FileM.device_ok.mp hdevice
    obtain ⟨_, s₂, hupdate, h⟩ := Run.bind_ok.mp h
    rw [FileM.update_ok] at hupdate
    obtain ⟨rfl, rfl⟩ := Run.pure_ok.mp h
    subst hupdate
    rw [Nat.add_sub_cancel_left]
    generalize hb : chunk.slice k (n * sector) = b at *
    have hblen : b.length = n * sector := by rw [← hb]; simp [Bytes.slice]; omega
    have hlen : (c ++ b).length = (q + n) * sector := by rw [List.length_append, hq, hblen]; ring
    refine ⟨by omega, by omega, by omega, Or.inr (by rw [hq, ← Nat.add_mul]; simp), ⟨?_, ?_, ?_, ?_⟩, ⟨_, _, rfl⟩⟩
    · rw [hlen, div_ceil_whole hs, ← hlen, List.length_append]
      exact (hroom.mono (by omega)).le_length (by omega)
    · have hold : s.writer.tail_buf = [] := by
        rw [hlaid.tail, hq, Nat.mul_div_cancel _ hs, ← hq, List.drop_length]
      simp only [hold]
      rw [hlen, Nat.mul_div_cancel _ hs, ← hlen, List.drop_length]
    · rw [sectorSums_whole l hs hq hblen]
      simp only [hlaid.sums, Nat.mul_div_cancel _ hs]
      congr 1
      apply List.map_congr_left
      intro i hi
      have hi' : (i + 1) * sector ≤ n * sector := Nat.mul_le_mul_right _ (List.mem_range.mp hi)
      have hexp : (i + 1) * sector = i * sector + sector := by ring
      rw [wrapping_add_of_lt (by omega), List.getD_eq_getElem?_getD, hroom (i * sector) (by omega)]
      rfl
    · rw [hlen, div_ceil_whole hs]
      refine HoldsBytes.write hd hm hl (hroom.mono (by omega)) (by omega) hw hlaid.holds ?_ ?_
      · intro j hj
        simp only [List.getD_eq_getElem?_getD]
        rw [List.getElem?_append_right (by omega), Nat.add_sub_cancel_left]
      · intro p hp hout
        rw [← hlen, List.length_append] at hp
        have hlow : p < c.length := by omega
        refine ⟨by rw [hq, div_ceil_whole hs, ← hq]; exact hlow, ?_⟩
        simp only [List.getD_eq_getElem?_getD]
        rw [List.getElem?_append_left hlow]
  · obtain ⟨rfl, rfl⟩ := Run.pure_ok.mp h
    rw [Nat.sub_self]
    refine ⟨le_rfl, hk, by omega, halign, ?_, .refl _⟩
    simpa [Bytes.slice] using hlaid

theorem write_rest_ok {c chunk : Bytes} {addr space k : Nat} {u : Unit} {s s' : FileState σ}
    (hlaid : Laid m sector l (view s.io.state) s.writer c) (hroom : Consecutive l c.length (addr + k) (space - k))
    (haddr : addr + space < size) (hchunk : chunk.length ≤ space) (hk : chunk.length - k < sector)
    (hend : (c.length + (space - k)) % sector = 0) (halign : k = chunk.length ∨ c.length % sector = 0)
    (h : write_rest d m sector addr chunk k s = .ok u s') :
    Laid m sector l (view s'.io.state) s'.writer (c ++ chunk.drop k) ∧ SameFile s.writer s'.writer := by
  unfold write_rest at h
  split at h
  · rename_i hmore
    have hzero : c.length % sector = 0 := by
      rcases halign with rfl | hzero
      · omega
      · exact hzero
    have hsector : sector ≤ space - k := by
      have hdvd : sector ∣ space - k :=
        (Nat.dvd_add_right (Nat.dvd_of_mod_eq_zero hzero)).mp (Nat.dvd_of_mod_eq_zero hend)
      exact Nat.le_of_dvd (by omega) hdvd
    obtain ⟨q, hq⟩ := Nat.dvd_of_mod_eq_zero hzero
    rw [Nat.mul_comm] at hq
    generalize ht : chunk.drop k = t at *
    have htlen : t.length = chunk.length - k := by rw [← ht]; simp
    have hne : t ≠ [] := by
      intro hnil
      rw [hnil] at htlen
      simp at htlen
      omega
    have hpad : (zero_padded sector t).length = sector := by simp [zero_padded]; omega
    rw [wrapping_add_of_lt (by omega)] at h
    obtain ⟨_, s₁, hupdate, h⟩ := Run.bind_ok.mp h
    rw [FileM.update_ok] at hupdate
    obtain ⟨_, s₂, hdevice, h⟩ := Run.bind_ok.mp h
    obtain ⟨io, hw, rfl⟩ := FileM.device_ok.mp hdevice
    rw [FileM.update_ok] at h
    subst hupdate
    subst h
    have hceil : div_ceil (c ++ t).length sector = q + 1 := by
      rw [List.length_append, hq]
      exact div_ceil_begun (by omega) (by omega)
    have hsucc : (q + 1) * sector = c.length + sector := by rw [hq]; ring
    refine ⟨⟨?_, ?_, ?_, ?_⟩, ⟨_, _, rfl⟩⟩
    · rw [hceil, hsucc]
      exact (hroom.mono hsector).le_length hs
    · rw [drop_whole hq (by omega)]
    · rw [sectorSums_begun l hs hq hne (by omega)]
      have hfirst := hroom 0 (by omega)
      rw [Nat.add_zero] at hfirst
      simp only [hlaid.sums, List.getD_eq_getElem?_getD, hfirst]
      rfl
    · rw [hceil, hsucc]
      refine HoldsBytes.write hd hm hl (by rw [hpad]; exact hroom.mono hsector : Consecutive l c.length _ _)
        (by omega) hw hlaid.holds ?_ ?_
      · intro j hj
        simp only [List.getD_eq_getElem?_getD, zero_padded]
        rw [List.getElem?_append_right (by omega), Nat.add_sub_cancel_left, List.getElem?_append]
        split
        · rfl
        · rename_i hlast
          rw [List.getElem?_eq_none (by omega), List.getElem?_replicate]
          split <;> rfl
      · intro p hp hout
        have hlow : p < c.length := by omega
        refine ⟨by rw [hq, div_ceil_whole hs, ← hq]; exact hlow, ?_⟩
        simp only [List.getD_eq_getElem?_getD]
        rw [List.getElem?_append_left hlow]
  · obtain ⟨-, rfl⟩ := Run.pure_ok.mp h
    rw [List.drop_of_length_le (by omega), List.append_nil]
    exact ⟨hlaid, .refl _⟩

theorem write_run_ok {c chunk : Bytes} {addr space : Nat} {u : Unit} {s s' : FileState σ}
    (hlaid : Laid m sector l (view s.io.state) s.writer c) (hroom : Consecutive l c.length addr space)
    (haddr : addr + space < size) (hchunk : chunk.length ≤ space) (hend : (c.length + space) % sector = 0)
    (hsector : sector < size) (h : write_run d m sector addr chunk s = .ok u s') :
    Laid m sector l (view s'.io.state) s'.writer (c ++ chunk) ∧ SameFile s.writer s'.writer := by
  unfold write_run at h
  obtain ⟨k₁, s₁, htail, h⟩ := Run.bind_ok.mp h
  obtain ⟨k₂, s₂, hbody, hrest⟩ := Run.bind_ok.mp h
  obtain ⟨hk₁, halign₁, hlaid₁, hsame₁⟩ := write_tail_ok hd hm hl hs hsector hlaid hroom haddr.le hchunk htail
  have hlen₁ : (c ++ chunk.take k₁).length = c.length + k₁ := by simp [hk₁]
  have hroom₁ : Consecutive l (c ++ chunk.take k₁).length (addr + k₁) (space - k₁) := hlen₁ ▸ hroom.shift k₁
  rw [← hlen₁] at halign₁
  obtain ⟨hle, hk₂, hshort, halign₂, hlaid₂, hsame₂⟩ :=
    write_body_ok hd hm hl hs hlaid₁ hroom₁ haddr hchunk hk₁ halign₁ hbody
  have hjoin : c ++ chunk.take k₁ ++ chunk.slice k₁ (k₂ - k₁) = c ++ chunk.take k₂ := by
    have : chunk.take k₂ = chunk.take k₁ ++ (chunk.drop k₁).take (k₂ - k₁) := by
      rw [← List.take_add, Nat.add_sub_cancel' hle]
    rw [List.append_assoc, this, Bytes.slice]
  rw [hjoin] at hlaid₂
  have hlen₂ : (c ++ chunk.take k₂).length = c.length + k₂ := by simp [hk₂]
  have hroom₂ : Consecutive l (c ++ chunk.take k₂).length (addr + k₂) (space - k₂) := hlen₂ ▸ hroom.shift k₂
  rw [hlen₁, show c.length + k₁ + (k₂ - k₁) = c.length + k₂ by omega, ← hlen₂] at halign₂
  obtain ⟨hlaid₃, hsame₃⟩ := write_rest_ok hd hm hl hs hlaid₂ hroom₂ haddr hchunk hshort
    (by rw [hlen₂, show c.length + k₂ + (space - k₂) = c.length + space by omega]; exact hend) halign₂ hrest
  rw [List.append_assoc, List.take_append_drop] at hlaid₃
  exact ⟨hlaid₃, (hsame₁.trans hsame₂).trans hsame₃⟩

end

/-- The loop over the runs takes the whole piece, when the runs have room for it. -/
theorem write_runs_ok {σ : Type} {d : WriteAt σ} {view : σ → Nat → UInt8} {m : ChunkMap} {sector : Nat}
    (hd : d.Keeps view) (hm : m.Placed) (hs : 0 < sector) (hsector : sector < size) {pre runs : List (Nat × Nat)}
    (hl : (runAddrs (pre ++ runs)).Nodup) (hwhole : ∀ r ∈ pre ++ runs, r.2 % sector = 0)
    (hwords : ∀ r ∈ pre ++ runs, r.1 + r.2 < size) (htotal : (runAddrs (pre ++ runs)).length < size)
    {c remaining : Bytes} {u : Unit} {s s' : FileState σ}
    (hlaid : Laid m sector (runAddrs (pre ++ runs)) (view s.io.state) s.writer c)
    (hcursor : (runAddrs pre).length ≤ c.length)
    (hfit : c.length + remaining.length ≤ (runAddrs (pre ++ runs)).length)
    (h : write_runs d m sector runs remaining c.length (runAddrs pre).length s = .ok u s') :
    Laid m sector (runAddrs (pre ++ runs)) (view s'.io.state) s'.writer (c ++ remaining) ∧
      SameFile s.writer s'.writer := by
  induction runs generalizing pre c remaining s with
  | nil =>
    obtain ⟨-, rfl⟩ := Run.pure_ok.mp h
    have hnil : remaining = [] := by
      rw [List.append_nil] at hfit
      exact List.length_eq_zero_iff.mp (by omega)
    rw [hnil, List.append_nil c]
    exact ⟨hlaid, .refl _⟩
  | cons r runs ih =>
    obtain ⟨bytenr, run_len⟩ := r
    have hassoc : pre ++ (bytenr, run_len) :: runs = pre ++ [(bytenr, run_len)] ++ runs := by simp
    have hpre : (runAddrs (pre ++ [(bytenr, run_len)])).length = (runAddrs pre).length + run_len := by
      simp [runAddrs_append]
    have hlong : (runAddrs pre).length + run_len ≤ (runAddrs (pre ++ (bytenr, run_len) :: runs)).length := by
      rw [hassoc, runAddrs_append, List.length_append, hpre]
      omega
    have hrun := hwords (bytenr, run_len) (by simp)
    simp only at hrun
    rw [write_runs] at h
    simp only [wrapping_add_of_lt (show (runAddrs pre).length + run_len < size by omega)] at h
    rw [← hpre] at h
    split at h
    · rename_i hpast
      rw [hassoc] at hl hwhole hwords htotal hlaid hfit ⊢
      exact ih hl hwhole hwords htotal hlaid hpast hfit h
    · rename_i hhere
      rw [hpre, ge_iff_le, not_le] at hhere
      generalize hoffset : c.length - (runAddrs pre).length = offset at h
      have hclen : c.length = (runAddrs pre).length + offset := by omega
      simp only [wrapping_sub_of_le hcursor (by omega), hoffset,
        wrapping_sub_of_le (show offset ≤ run_len by omega) (by omega),
        wrapping_add_of_lt (show bytenr + offset < size by omega)] at h
      obtain ⟨_, s₁, hpart, h⟩ := Run.bind_ok.mp h
      generalize htake : min (run_len - offset) remaining.length = take at h hpart
      have hroom : Consecutive (runAddrs (pre ++ (bytenr, run_len) :: runs)) c.length (bytenr + offset)
          (run_len - offset) := by
        rw [hclen]
        exact consecutive_run pre runs bytenr run_len offset
      have hend : (c.length + (run_len - offset)) % sector = 0 := by
        rw [show c.length + (run_len - offset) = (runAddrs (pre ++ [(bytenr, run_len)])).length by rw [hpre]; omega]
        exact length_runAddrs_mod fun r hr => hwhole r (by rw [hassoc]; exact List.mem_append_left _ hr)
      obtain ⟨hlaid₁, hsame₁⟩ := write_run_ok hd hm hl hs hlaid hroom (by omega)
        (by rw [List.length_take]; omega) hend hsector hpart
      split at h
      · rename_i hdone
        obtain ⟨-, rfl⟩ := Run.pure_ok.mp h
        have hlen : remaining.length ≤ take := by simpa using hdone
        rw [List.take_of_length_le hlen] at hlaid₁
        exact ⟨hlaid₁, hsame₁⟩
      · rename_i hmore
        have hlen : take < remaining.length := by simpa using hmore
        have hclen₁ : (c ++ remaining.take take).length = c.length + take := by simp; omega
        rw [wrapping_add_of_lt (by omega), ← hclen₁] at h
        rw [hassoc] at hl hwhole hwords htotal hlaid₁ hfit ⊢
        obtain ⟨hlaid₂, hsame₂⟩ := ih hl hwhole hwords htotal hlaid₁ (by rw [hpre, hclen₁]; omega)
          (by rw [hclen₁, List.length_drop]; omega) h
        rw [List.append_assoc c, List.take_append_drop] at hlaid₂
        exact ⟨hlaid₂, hsame₁.trans hsame₂⟩

end LuksAndroid.Btrfs

import LuksAndroid.Luks.Contained
import LuksAndroid.Store

/-!
# A volume is a byte array

What a device holds, sector by sector decrypted, is a byte array. Reads of the volume are
reads of this array and writes are writes to it, whatever their alignment and however
they are cut into chunks. The cipher only has to be undone by its inverse.
-/

namespace LuksAndroid

open Word

/-! ## The array -/

/-- What requests do to a byte array: the bytes that the reads return, and the array afterwards. -/
def Request.onArray : List Request → (Nat → UInt8) → List Bytes × (Nat → UInt8)
  | [], a => ([], a)
  | .read offset n :: rest, a => (load a offset n :: (Request.onArray rest a).1, (Request.onArray rest a).2)
  | .write offset data :: rest, a => Request.onArray rest (store a offset data)

/-- On sectors of this size decryption and encryption undo each other. -/
structure SectorCipher.Inverse (cipher : SectorCipher) (sector_size : Nat) : Prop where
  decrypt_encrypt : ∀ key tweak b, b.length = sector_size →
    cipher.decrypt_sector key tweak (cipher.encrypt_sector key tweak b) = b
  encrypt_decrypt : ∀ key tweak b, b.length = sector_size →
    cipher.encrypt_sector key tweak (cipher.decrypt_sector key tweak b) = b

namespace LuksVolume

variable {σ : Type} (cipher : SectorCipher) (v : LuksVolume)

/-- Serve requests one after the other, and keep what the reads return. -/
def serveAll (d : WriteAt σ) : List Request → IoM σ (List Bytes)
  | [] => return []
  | .read offset n :: rest => do
    let b ← v.read_at cipher d.toReadAt offset n
    return b :: (← serveAll d rest)
  | .write offset data :: rest => do
    v.write_at cipher d offset data
    serveAll d rest

/-- The sector `i` of the volume as the device has it. -/
def sectorOf (m : Nat → UInt8) (i : Nat) : Bytes := load m (v.base + i * v.sector_size) v.sector_size

/-- The array that the device stands for. -/
def plaintext (m : Nat → UInt8) : Nat → UInt8 := fun i =>
  (cipher.decrypt_sector v.master_key (v.first_tweak (i / v.sector_size))
    (v.sectorOf m (i / v.sector_size))).getD (i % v.sector_size) 0

variable {cipher v} {m m' : Nat → UInt8}

/-! ## Sectors of the array -/

@[simp] theorem length_sectorOf (v : LuksVolume) (m : Nat → UInt8) (i : Nat) :
    (v.sectorOf m i).length = v.sector_size := length_load _ _ _

theorem load_plaintext (h : v.Sized) (i : Nat) :
    load (v.plaintext cipher m) (i * v.sector_size) v.sector_size =
      cipher.decrypt_sector v.master_key (v.first_tweak i) (v.sectorOf m i) := by
  have hpos := h.pos
  have hlen : (cipher.decrypt_sector v.master_key (v.first_tweak i) (v.sectorOf m i)).length =
      v.sector_size := by
    rw [cipher.length_decrypt, length_sectorOf]
  apply List.ext_getElem?
  intro k
  rw [getElem?_load]
  by_cases hk : k < v.sector_size
  · have hdiv : (i * v.sector_size + k) / v.sector_size = i := by
      rw [Nat.mul_comm, Nat.mul_add_div hpos, Nat.div_eq_of_lt hk, Nat.add_zero]
    have hmod : (i * v.sector_size + k) % v.sector_size = k := by
      rw [Nat.mul_comm, Nat.mul_add_mod, Nat.mod_eq_of_lt hk]
    rw [if_pos hk, plaintext, hdiv, hmod, List.getD_eq_getElem?_getD,
      List.getElem?_eq_getElem (by omega)]
    rfl
  · rw [if_neg hk, List.getElem?_eq_none (by omega)]

theorem sectorOf_eq (h : v.Sized) (hc : cipher.Inverse v.sector_size) (m : Nat → UInt8) (i : Nat) :
    v.sectorOf m i = cipher.encrypt_sector v.master_key (v.first_tweak i)
      (load (v.plaintext cipher m) (i * v.sector_size) v.sector_size) := by
  rw [load_plaintext h, hc.encrypt_decrypt _ _ _ (v.length_sectorOf m i)]

theorem byte_of_plaintext (h : v.Sized) (hc : cipher.Inverse v.sector_size) {j : Nat} (hj : v.base ≤ j)
    (hplain : ∀ i, i / v.sector_size = (j - v.base) / v.sector_size →
      v.plaintext cipher m i = v.plaintext cipher m' i) : m j = m' j := by
  have hpos := h.pos
  have hload : load (v.plaintext cipher m) ((j - v.base) / v.sector_size * v.sector_size) v.sector_size =
      load (v.plaintext cipher m') ((j - v.base) / v.sector_size * v.sector_size) v.sector_size := by
    refine load_congr fun k hk => hplain _ ?_
    rw [Nat.mul_comm, Nat.mul_add_div hpos, Nat.div_eq_of_lt hk, Nat.add_zero]
  have hsec : v.sectorOf m ((j - v.base) / v.sector_size) = v.sectorOf m' ((j - v.base) / v.sector_size) := by
    rw [sectorOf_eq h hc m, sectorOf_eq h hc m', hload]
  have hget := congrArg (fun b : Bytes => b[(j - v.base) % v.sector_size]?) hsec
  have hlt := Nat.mod_lt (j - v.base) hpos
  have hdiv := Nat.div_add_mod (j - v.base) v.sector_size
  rw [Nat.mul_comm] at hdiv
  have haddr : v.base + (j - v.base) / v.sector_size * v.sector_size + (j - v.base) % v.sector_size = j := by
    omega
  simp only [sectorOf, getElem?_load, if_pos hlt, haddr, Option.some.injEq] at hget
  exact hget

theorem eq_of_plaintext (h : v.Sized) (hc : cipher.Inverse v.sector_size)
    (hplain : v.plaintext cipher m = v.plaintext cipher m') (hbelow : ∀ j < v.base, m j = m' j) : m = m' := by
  funext j
  by_cases hj : j < v.base
  · exact hbelow j hj
  · exact byte_of_plaintext h hc (by omega) fun i _ => congrFun hplain i

theorem eq_beyond_of_plaintext (h : v.Sized) (hc : cipher.Inverse v.sector_size) {n : Nat}
    (hn : n % v.sector_size = 0) (hplain : ∀ i ≥ n, v.plaintext cipher m i = v.plaintext cipher m' i) {j : Nat}
    (hj : v.base + n ≤ j) : m j = m' j := by
  refine byte_of_plaintext h hc (by omega) fun i hi => hplain i ?_
  calc n = n / v.sector_size * v.sector_size := (Nat.div_mul_cancel (Nat.dvd_of_mod_eq_zero hn)).symm
    _ ≤ (j - v.base) / v.sector_size * v.sector_size :=
      Nat.mul_le_mul_right _ (Nat.div_le_div_right (by omega))
    _ = i / v.sector_size * v.sector_size := by rw [hi]
    _ ≤ i := Nat.div_mul_le_self _ _

/-! ## Runs of sectors -/

theorem first_tweak_succ (i : Nat) : v.first_tweak i + v.tweak_step = v.first_tweak (i + 1) := by
  unfold first_tweak
  ring

theorem decrypt_run (h : v.Sized) (m : Nat → UInt8) (k first : Nat) :
    xts_sectors (cipher.decrypt_sector v.master_key) v.sector_size v.tweak_step k (v.first_tweak first)
        (load m (v.base + first * v.sector_size) (k * v.sector_size)) =
      load (v.plaintext cipher m) (first * v.sector_size) (k * v.sector_size) := by
  induction k generalizing first with
  | zero => simp [xts_sectors, load]
  | succ k ih =>
    have hsplit : (k + 1) * v.sector_size = v.sector_size + k * v.sector_size := by ring
    have hnext : v.base + first * v.sector_size + v.sector_size = v.base + (first + 1) * v.sector_size := by ring
    have hplain : first * v.sector_size + v.sector_size = (first + 1) * v.sector_size := by ring
    rw [xts_sectors, hsplit, take_load, drop_load, hnext, first_tweak_succ, ih, load_add _ (first * v.sector_size),
      hplain, load_plaintext h]
    rfl

theorem slice_xts_sectors {f : Nat → Bytes → Bytes} (hf : ∀ t b, (f t b).length = b.length) {ss : Nat}
    (step k tweak : Nat) {p : Bytes} (hlen : p.length = k * ss) {j : Nat} (hj : j < k) :
    Bytes.slice (xts_sectors f ss step k tweak p) (j * ss) ss = f (tweak + j * step) (Bytes.slice p (j * ss) ss) := by
  induction k generalizing tweak p j with
  | zero => omega
  | succ k ih =>
    rw [Nat.succ_mul] at hlen
    have hfirst : (f tweak (p.take ss)).length = ss := by
      rw [hf, List.length_take]
      omega
    have hdrop : (p.drop ss).length = k * ss := by
      rw [List.length_drop]
      omega
    rw [xts_sectors]
    cases j with
    | zero =>
      simp only [Nat.zero_mul, Nat.add_zero, Bytes.slice, List.drop_zero]
      rw [List.take_left' hfirst]
    | succ j =>
      have hshift : (j + 1) * ss = ss + j * ss := by ring
      have htweak : tweak + (j + 1) * step = tweak + step + j * step := by ring
      have hslice := ih (tweak + step) hdrop (j := j) (by omega)
      rw [hshift, htweak]
      unfold Bytes.slice at hslice ⊢
      rw [List.drop_append, hfirst, List.drop_eq_nil_of_le (by omega), List.nil_append, Nat.add_sub_cancel_left,
        hslice, List.drop_drop]

/-- Writing an encrypted run of sectors writes its plaintext to the array. -/
theorem plaintext_store (h : v.Sized) (hc : cipher.Inverse v.sector_size) (m : Nat → UInt8) {k first : Nat} {p : Bytes}
    (hlen : p.length = k * v.sector_size) :
    v.plaintext cipher (store m (v.base + first * v.sector_size)
      (xts_sectors (cipher.encrypt_sector v.master_key) v.sector_size v.tweak_step k (v.first_tweak first) p)) =
        store (v.plaintext cipher m) (first * v.sector_size) p := by
  have hpos := h.pos
  have henc := length_xts_sectors (cipher.length_encrypt v.master_key) v.sector_size v.tweak_step k
    (v.first_tweak first) hlen
  funext i
  obtain ⟨s, hs⟩ : ∃ s, i / v.sector_size = s := ⟨_, rfl⟩
  obtain ⟨r, hr⟩ : ∃ r, i % v.sector_size = r := ⟨_, rfl⟩
  have hrlt : r < v.sector_size := hr ▸ Nat.mod_lt i hpos
  have hi : i = s * v.sector_size + r := by
    rw [← hs, ← hr, Nat.mul_comm]
    exact (Nat.div_add_mod _ _).symm
  by_cases hin : first ≤ s ∧ s < first + k
  · -- the sector is one of the run: what is decrypted is what was encrypted
    obtain ⟨j, rfl⟩ : ∃ j, s = first + j := ⟨s - first, by omega⟩
    have hj : j < k := by omega
    have hjle : (j + 1) * v.sector_size ≤ k * v.sector_size := Nat.mul_le_mul_right _ hj
    have hjs : (j + 1) * v.sector_size = j * v.sector_size + v.sector_size := by ring
    have haddr : v.base + (first + j) * v.sector_size = v.base + first * v.sector_size + j * v.sector_size := by ring
    have hsum : (first + j) * v.sector_size = first * v.sector_size + j * v.sector_size := by ring
    have htweak : v.first_tweak first + j * v.tweak_step = v.first_tweak (first + j) := by
      unfold first_tweak
      ring
    have hpiece : (Bytes.slice p (j * v.sector_size) v.sector_size).length = v.sector_size := by
      rw [Bytes.slice, List.length_take, List.length_drop]
      omega
    rw [plaintext, hs, hr, sectorOf, haddr, load_store_inside _ (by omega),
      slice_xts_sectors (cipher.length_encrypt v.master_key) _ _ _ hlen hj, htweak, hc.decrypt_encrypt _ _ _ hpiece,
      store, if_pos (by omega), List.getD_eq_getElem?_getD, List.getD_eq_getElem?_getD, Bytes.getElem?_slice,
      if_pos hrlt]
    congr 2
    omega
  · have hout : s < first ∨ first + k ≤ s := by omega
    have hmul : (s + 1) * v.sector_size ≤ first * v.sector_size ∨ (first + k) * v.sector_size ≤ s * v.sector_size :=
      hout.imp (Nat.mul_le_mul_right _) (Nat.mul_le_mul_right _)
    rw [Nat.succ_mul, Nat.add_mul] at hmul
    rw [store_of_not_mem _ (by omega), plaintext, plaintext, hs, hr]
    congr 2
    apply load_store_of_apart
    rw [henc, hlen]
    rcases hmul with hmul | hmul
    · right
      simp only
      omega
    · left
      simp only
      omega

/-! ## Requests -/

section

variable {cap : Nat} {known : Bool}

/-- When a write of one span goes through. -/
structure Goes (v : LuksVolume) (cap offset n : Nat) : Prop where
  keyed : v.Keyed
  stop : offset + n < size
  first : v.base + offset / v.sector_size * v.sector_size < size
  last : v.base + v.sectorEnd (offset + n) ≤ cap

theorem span_covers (h : v.Sized) (offset : Nat) {n : Nat} (hn : 0 < n) :
    ∃ k, (div_ceil (offset + n) v.sector_size - offset / v.sector_size) = k ∧
      offset - offset / v.sector_size * v.sector_size + n ≤ k * v.sector_size ∧
      offset / v.sector_size * v.sector_size + k * v.sector_size = v.sectorEnd (offset + n) := by
  refine ⟨_, rfl, ?_, ?_⟩
  · have := le_sectorEnd h (offset + n)
    have := v.sector_le offset
    rw [span_eq]
    omega
  · have hle : offset / v.sector_size * v.sector_size ≤ v.sectorEnd (offset + n) :=
      (v.sector_le offset).trans ((Nat.le_add_right _ _).trans (le_sectorEnd h _))
    rw [span_eq]
    omega

theorem patched_ok (h : v.Sized) {offset k : Nat} {buf b : Bytes} {io io' : Io (Nat → UInt8)}
    (hrun : v.patched cipher (memory cap known).toReadAt (offset / v.sector_size)
      (v.base + offset / v.sector_size * v.sector_size) (k * v.sector_size)
      (offset - offset / v.sector_size * v.sector_size) buf io = .ok b io') :
    io'.state = io.state ∧ b = Bytes.put (load (v.plaintext cipher io.state) (offset / v.sector_size * v.sector_size)
      (k * v.sector_size)) (offset - offset / v.sector_size * v.sector_size) buf := by
  unfold patched at hrun
  split at hrun
  · rename_i haligned
    obtain ⟨rfl, rfl⟩ := Run.pure_ok.mp hrun
    refine ⟨rfl, ?_⟩
    rw [haligned.1, haligned.2, Bytes.put, List.take_zero, List.nil_append, Nat.zero_add,
      List.drop_eq_nil_of_le (by rw [length_load]), List.append_nil]
  · obtain ⟨raw, io₁, hraw, hrun⟩ := Run.bind_ok.mp hrun
    obtain ⟨plain, io₂, hplain, hrun⟩ := Run.bind_ok.mp hrun
    obtain ⟨rfl, rfl⟩ := Run.pure_ok.mp hrun
    obtain ⟨hplain, rfl⟩ := IoM.lift_ok.mp hplain
    rw [memory_read_eq] at hraw
    split at hraw
    · cases hraw
      rw [xts_decrypt, xts_eq _ _ h (length_load _ _ _), decrypt_run h] at hplain
      split at hplain
      · cases hplain
        exact ⟨rfl, rfl⟩
      · cases hplain
    · cases hraw

/-- The device after a write of these bytes that went through. -/
structure Stored (cipher : SectorCipher) (v : LuksVolume) (cap offset : Nat) (data : Bytes)
    (m m' : Nat → UInt8) : Prop where
  goes : 0 < data.length → v.Goes cap offset data.length
  plain : v.plaintext cipher m' = store (v.plaintext cipher m) offset data
  below : ∀ j < v.base, m' j = m j

theorem Stored.nil (offset : Nat) (m : Nat → UInt8) : Stored cipher v cap offset [] m m where
  goes := fun h => absurd h (Nat.lt_irrefl 0)
  plain := (store_nil _ _).symm
  below := fun _ _ => rfl

theorem Stored.append {offset : Nat} {a b : Bytes} {m₀ m₁ m₂ : Nat → UInt8} (ha : Stored cipher v cap offset a m₀ m₁)
    (hb : Stored cipher v cap (offset + a.length) b m₁ m₂) : Stored cipher v cap offset (a ++ b) m₀ m₂ where
  goes := by
    intro hpos
    rw [List.length_append] at hpos ⊢
    by_cases hane : 0 < a.length
    · by_cases hbne : 0 < b.length
      · have hgoes := hb.goes hbne
        refine ⟨hgoes.keyed, ?_, (ha.goes hane).first, ?_⟩
        · rw [← Nat.add_assoc]
          exact hgoes.stop
        · rw [← Nat.add_assoc]
          exact hgoes.last
      · have hbz : b.length = 0 := by omega
        rw [hbz]
        exact ha.goes hane
    · have haz : a.length = 0 := by omega
      have hgoes := hb.goes (by omega)
      rw [haz] at hgoes ⊢
      rwa [Nat.zero_add]
  plain := by rw [hb.plain, ha.plain, store_append]
  below := fun j hj => (hb.below j hj).trans (ha.below j hj)

theorem write_at_chunk_ok (h : v.Sized) (hc : cipher.Inverse v.sector_size) {offset : Nat} {buf : Bytes}
    (hbuf : 0 < buf.length) {io io' : Io (Nat → UInt8)} {u : Unit}
    (hrun : v.write_at_chunk cipher (memory cap known) offset buf io = .ok u io') :
    Stored cipher v cap offset buf io.state io'.state := by
  obtain ⟨k, hk, hfit, hspan⟩ := span_covers h offset hbuf
  unfold write_at_chunk at hrun
  obtain ⟨stop, io₁, hstop, hrun⟩ := Run.bind_ok.mp hrun
  obtain ⟨hsum, rfl⟩ := IoM.lift_ok.mp hstop
  obtain ⟨rfl, hlt⟩ := add_ok hsum
  obtain ⟨disk, io₂, hdisk, hrun⟩ := Run.bind_ok.mp hrun
  obtain ⟨haddr, rfl⟩ := IoM.lift_ok.mp hdisk
  obtain ⟨rfl, hfirst⟩ := disk_offset_ok haddr
  obtain ⟨plain, io₃, hplain, hrun⟩ := Run.bind_ok.mp hrun
  rw [hk] at hplain
  obtain ⟨hstate, rfl⟩ := patched_ok h hplain
  obtain ⟨enc, io₄, henc, hrun⟩ := Run.bind_ok.mp hrun
  obtain ⟨hxts, rfl⟩ := IoM.lift_ok.mp henc
  have hlen : (Bytes.put (load (v.plaintext cipher io.state) (offset / v.sector_size * v.sector_size)
      (k * v.sector_size)) (offset - offset / v.sector_size * v.sector_size) buf).length = k * v.sector_size := by
    rw [Bytes.length_put (by rwa [length_load]), length_load]
  rw [xts_encrypt, xts_eq _ _ h hlen] at hxts
  split at hxts
  · rename_i hkey
    cases hxts
    obtain ⟨hcap, hnew⟩ := memory_write_ok hrun
    rw [length_xts_sectors (cipher.length_encrypt _) _ _ _ _ hlen, hlen] at hcap
    refine ⟨fun _ => ⟨hkey, hlt, hfirst, by omega⟩, ?_, ?_⟩
    · rw [hnew, hstate, plaintext_store h hc _ hlen, store_put_load _ hfit]
      congr 1
      have := v.sector_le offset
      omega
    · intro j hj
      rw [hnew, hstate, store_of_not_mem _ (by omega)]
  · cases hxts

theorem write_at_chunk_goes (h : v.Sized) {offset : Nat} {buf : Bytes} (hbuf : 0 < buf.length)
    (hgoes : v.Goes cap offset buf.length) (io : Io (Nat → UInt8)) :
    ∃ io', v.write_at_chunk cipher (memory cap known) offset buf io = .ok () io' := by
  obtain ⟨k, hk, hfit, hspan⟩ := span_covers h offset hbuf
  have hkey : v.master_key.length = 64 ∨ v.master_key.length = 32 := hgoes.keyed
  have hroom : v.base + offset / v.sector_size * v.sector_size + k * v.sector_size ≤ cap := by
    have := hgoes.last
    omega
  have hpatched : ∃ b io', v.patched cipher (memory cap known).toReadAt (offset / v.sector_size)
      (v.base + offset / v.sector_size * v.sector_size) (k * v.sector_size)
      (offset - offset / v.sector_size * v.sector_size) buf io = .ok b io' := by
    unfold patched
    split
    · exact ⟨_, _, rfl⟩
    · have hread := memory_read_eq cap known (v.base + offset / v.sector_size * v.sector_size) (k * v.sector_size) io
      rw [if_pos hroom] at hread
      rw [Run.bind_eq_of_ok hread, xts_decrypt, xts_eq _ _ h (length_load _ _ _), if_pos hkey]
      exact ⟨_, _, rfl⟩
  obtain ⟨plain, io₁, hplain⟩ := hpatched
  have hlen : plain.length = k * v.sector_size := length_patched hfit hplain
  have henc := length_xts_sectors (cipher.length_encrypt v.master_key) v.sector_size v.tweak_step k
    (v.first_tweak (offset / v.sector_size)) hlen
  have hend : v.base + offset / v.sector_size * v.sector_size + (xts_sectors (cipher.encrypt_sector v.master_key)
      v.sector_size v.tweak_step k (v.first_tweak (offset / v.sector_size)) plain).length ≤ cap := by
    rw [henc, hlen]
    exact hroom
  obtain ⟨io₂, hwrite⟩ := memory_write_run known hend io₁
  refine ⟨io₂, ?_⟩
  have hstop : add_or_out_of_bounds offset buf.length = .ok (offset + buf.length) := by
    rw [add_or_out_of_bounds_eq, if_pos hgoes.stop]
  have hdisk : v.disk_offset (offset / v.sector_size) =
      .ok (v.base + offset / v.sector_size * v.sector_size) := by
    rw [disk_offset_eq, if_pos hgoes.first]
  unfold write_at_chunk
  rw [Run.bind_eq_of_ok (IoM.lift_ok.mpr ⟨hstop, rfl⟩)]
  simp only [hk]
  rw [Run.bind_eq_of_ok (IoM.lift_ok.mpr ⟨hdisk, rfl⟩), Run.bind_eq_of_ok hplain, xts_encrypt,
    xts_eq _ _ h hlen, if_pos hkey]
  exact hwrite

theorem write_head_ok (h : v.Sized) (hc : cipher.Inverse v.sector_size) {pos : Nat} {rest : Bytes}
    (hrest : 0 < rest.length) {r : Nat × Bytes} {io io' : Io (Nat → UInt8)}
    (hrun : v.write_head cipher (memory cap known) pos rest io = .ok r io') :
    ∃ done, rest = done ++ r.2 ∧ r.1 = pos + done.length ∧ Stored cipher v cap pos done io.state io'.state := by
  have hpos := h.pos
  unfold write_head at hrun
  split at hrun
  · obtain ⟨rfl, rfl⟩ := Run.pure_ok.mp hrun
    exact ⟨[], rfl, rfl, .nil _ _⟩
  · have hmod := Nat.mod_lt pos hpos
    obtain ⟨u, io₁, hchunk, hrun⟩ := Run.bind_ok.mp hrun
    obtain ⟨rfl, rfl⟩ := Run.pure_ok.mp hrun
    have hlen : (rest.take (min (v.sector_size - pos % v.sector_size) rest.length)).length =
        min (v.sector_size - pos % v.sector_size) rest.length := by
      rw [List.length_take]
      omega
    refine ⟨rest.take (min (v.sector_size - pos % v.sector_size) rest.length),
      (List.take_append_drop _ _).symm, by rw [hlen], ?_⟩
    exact write_at_chunk_ok h hc (by rw [hlen]; omega) hchunk

theorem write_whole_ok (h : v.Sized) (hc : cipher.Inverse v.sector_size) (rounds : Nat) {pos : Nat} {rest : Bytes}
    {r : Nat × Bytes} {io io' : Io (Nat → UInt8)}
    (hrun : v.write_whole cipher (memory cap known) rounds pos rest io = .ok r io') :
    ∃ done, rest = done ++ r.2 ∧ r.1 = pos + done.length ∧ Stored cipher v cap pos done io.state io'.state := by
  induction rounds generalizing pos rest io with
  | zero =>
    obtain ⟨rfl, rfl⟩ := Run.pure_ok.mp hrun
    exact ⟨[], rfl, rfl, .nil _ _⟩
  | succ rounds ih =>
    rw [write_whole] at hrun
    split at hrun
    · obtain ⟨rfl, rfl⟩ := Run.pure_ok.mp hrun
      exact ⟨[], rfl, rfl, .nil _ _⟩
    · rename_i hwhole
      obtain ⟨u, io₁, hchunk, hrun⟩ := Run.bind_ok.mp hrun
      obtain ⟨done, hdone, hnext, hstored⟩ := ih hrun
      have hle := v.take_le rest
      have hone := take_pos h hwhole
      have hlen : (rest.take (min (rest.length / v.sector_size * v.sector_size)
          (WRITE_CHUNK_BYTES / v.sector_size * v.sector_size))).length =
          min (rest.length / v.sector_size * v.sector_size) (WRITE_CHUNK_BYTES / v.sector_size * v.sector_size) := by
        rw [List.length_take]
        omega
      refine ⟨_ ++ done, ?_, ?_, (write_at_chunk_ok h hc (by rw [hlen]; omega) hchunk).append ?_⟩
      · rw [List.append_assoc, ← hdone, List.take_append_drop]
      · rw [hnext, List.length_append, hlen, Nat.add_assoc]
      · rw [hlen]
        exact hstored

theorem write_chunks_ok (h : v.Sized) (hc : cipher.Inverse v.sector_size) {offset : Nat} {buf : Bytes}
    (hbuf : 0 < buf.length) {io io' : Io (Nat → UInt8)} {u : Unit}
    (hrun : v.write_chunks cipher (memory cap known) offset buf io = .ok u io') :
    Stored cipher v cap offset buf io.state io'.state := by
  unfold write_chunks at hrun
  obtain ⟨⟨p₁, r₁⟩, io₁, hhead, hrest⟩ := Run.bind_ok.mp hrun
  obtain ⟨head, hbuf₁, hp₁, hstored₁⟩ := write_head_ok h hc hbuf hhead
  obtain ⟨⟨p₂, r₂⟩, io₂, hwhole, htail⟩ := Run.bind_ok.mp hrest
  obtain ⟨whole, hr₁, hp₂, hstored₂⟩ := write_whole_ok h hc _ hwhole
  simp only at hbuf₁ hp₁ hr₁ hp₂ hstored₂ htail
  rw [hbuf₁, hr₁]
  rw [hp₁] at hstored₂ hp₂
  refine hstored₁.append (hstored₂.append ?_)
  rw [← hp₂]
  split at htail
  · rename_i hne
    rw [List.isEmpty_iff] at hne
    exact write_at_chunk_ok h hc (List.length_pos_iff.mpr hne) htail
  · rename_i hnil
    rw [not_not, List.isEmpty_iff] at hnil
    obtain ⟨-, rfl⟩ := Run.pure_ok.mp htail
    rw [hnil]
    exact .nil _ _

theorem write_at_ok (h : v.Sized) (hc : cipher.Inverse v.sector_size) {offset : Nat} {buf : Bytes}
    {io io' : Io (Nat → UInt8)} {u : Unit} (hrun : v.write_at cipher (memory cap known) offset buf io = .ok u io') :
    Stored cipher v cap offset buf io.state io'.state ∧ (0 < buf.length → offset + buf.length ≤ v.extent) := by
  unfold write_at at hrun
  split at hrun
  · rename_i hnil
    rw [List.isEmpty_iff] at hnil
    obtain ⟨-, rfl⟩ := Run.pure_ok.mp hrun
    rw [hnil]
    exact ⟨.nil _ _, fun hpos => absurd hpos (Nat.lt_irrefl 0)⟩
  · rename_i hne
    rw [List.isEmpty_iff] at hne
    have hpos := List.length_pos_iff.mpr hne
    obtain ⟨stop, io₁, hrange, hrun⟩ := Run.bind_ok.mp hrun
    obtain ⟨hcheck, rfl⟩ := IoM.lift_ok.mp hrange
    refine ⟨?_, fun _ => (check_range_ok hcheck).2⟩
    split at hrun
    · exact write_at_chunk_ok h hc hpos hrun
    · exact write_chunks_ok h hc hpos hrun

theorem read_at_ok (h : v.Sized) {offset n : Nat} {b : Bytes} {io io' : Io (Nat → UInt8)}
    (hrun : v.read_at cipher (memory cap known).toReadAt offset n io = .ok b io') :
    b = load (v.plaintext cipher io.state) offset n ∧ io'.state = io.state := by
  unfold read_at at hrun
  split at hrun
  · rename_i hzero
    obtain ⟨rfl, rfl⟩ := Run.pure_ok.mp hrun
    rw [hzero]
    exact ⟨rfl, rfl⟩
  · rename_i hne
    obtain ⟨k, hk, hfit, hspan⟩ := span_covers h offset (Nat.pos_of_ne_zero hne)
    obtain ⟨stop, io₁, hrange, hrun⟩ := Run.bind_ok.mp hrun
    obtain ⟨hcheck, rfl⟩ := IoM.lift_ok.mp hrange
    obtain ⟨rfl, -⟩ := check_range_ok hcheck
    obtain ⟨disk, io₂, hdisk, hrun⟩ := Run.bind_ok.mp hrun
    obtain ⟨haddr, rfl⟩ := IoM.lift_ok.mp hdisk
    obtain ⟨rfl, -⟩ := disk_offset_ok haddr
    obtain ⟨raw, io₃, hraw, hrun⟩ := Run.bind_ok.mp hrun
    obtain ⟨plain, io₄, hplain, hrun⟩ := Run.bind_ok.mp hrun
    obtain ⟨hxts, rfl⟩ := IoM.lift_ok.mp hplain
    obtain ⟨rfl, rfl⟩ := Run.pure_ok.mp hrun
    rw [hk, memory_read_eq] at hraw
    split at hraw
    · cases hraw
      rw [xts_decrypt, xts_eq _ _ h (length_load _ _ _), decrypt_run h] at hxts
      split at hxts
      · cases hxts
        refine ⟨?_, rfl⟩
        have hle := v.sector_le offset
        rw [slice_load _ hfit, Nat.add_sub_cancel' hle]
      · cases hxts
    · cases hraw

/-- The chunks of a long request leave the device as one span would. -/
theorem write_at_chunk_same (h : v.Sized) (hc : cipher.Inverse v.sector_size) {offset : Nat} {buf : Bytes}
    (hbuf : 0 < buf.length) {io io' : Io (Nat → UInt8)} {u : Unit}
    (hrun : v.write_at cipher (memory cap known) offset buf io = .ok u io') :
    ∃ io'', v.write_at_chunk cipher (memory cap known) offset buf io = .ok () io'' ∧ io''.state = io'.state := by
  obtain ⟨hstored, -⟩ := write_at_ok h hc hrun
  obtain ⟨io'', hchunk⟩ := write_at_chunk_goes h hbuf (hstored.goes hbuf) io
  have hone := write_at_chunk_ok h hc hbuf hchunk
  refine ⟨io'', hchunk, eq_of_plaintext h hc ?_ ?_⟩
  · rw [hone.plain, hstored.plain]
  · intro j hj
    rw [hone.below j hj, hstored.below j hj]

/-! ## Runs of requests -/

/-- What a run of requests comes to. -/
structure Served (cipher : SectorCipher) (v : LuksVolume) (reqs : List Request) (rs : List Bytes)
    (m m' : Nat → UInt8) : Prop where
  results : rs = (Request.onArray reqs (v.plaintext cipher m)).1
  plain : v.plaintext cipher m' = (Request.onArray reqs (v.plaintext cipher m)).2
  below : ∀ j < v.base, m' j = m j
  beyond : ∀ i ≥ v.extent, v.plaintext cipher m' i = v.plaintext cipher m i

theorem serveAll_ok (h : v.Sized) (hc : cipher.Inverse v.sector_size) (reqs : List Request) {rs : List Bytes}
    {io io' : Io (Nat → UInt8)} (hrun : v.serveAll cipher (memory cap known) reqs io = .ok rs io') :
    Served cipher v reqs rs io.state io'.state := by
  induction reqs generalizing rs io with
  | nil =>
    obtain ⟨rfl, rfl⟩ := Run.pure_ok.mp hrun
    exact ⟨rfl, rfl, fun _ _ => rfl, fun _ _ => rfl⟩
  | cons req rest ih =>
    cases req with
    | read offset n =>
      obtain ⟨b, io₁, hread, hrun⟩ := Run.bind_ok.mp hrun
      obtain ⟨rfl, hstate⟩ := read_at_ok h hread
      obtain ⟨bs, io₂, hrest, hrun⟩ := Run.bind_ok.mp hrun
      obtain ⟨rfl, rfl⟩ := Run.pure_ok.mp hrun
      have hserved := ih hrest
      rw [hstate] at hserved
      exact ⟨congrArg _ hserved.results, hserved.plain, hserved.below, hserved.beyond⟩
    | write offset data =>
      obtain ⟨u, io₁, hwrite, hrun⟩ := Run.bind_ok.mp hrun
      obtain ⟨hstored, hext⟩ := write_at_ok h hc hwrite
      obtain ⟨hresults, hplain, hbelow, hbeyond⟩ := ih hrun
      rw [hstored.plain] at hresults hplain
      refine ⟨hresults, hplain, fun j hj => (hbelow j hj).trans (hstored.below j hj), fun i hi => ?_⟩
      rw [hbeyond i hi, hstored.plain]
      apply store_of_not_mem
      by_cases hdata : 0 < data.length
      · have := hext hdata
        omega
      · omega

theorem with_master_key_sized {r : ReadAt σ} {offset : Nat} {len : Option Nat} {header : Luks2Header} {key : Bytes}
    (hopen : with_master_key r offset len header key = .ok v) : v.Sized := by
  unfold with_master_key at hopen
  obtain ⟨seg, -, hopen⟩ := Run.except_bind_ok.mp hopen
  rw [Run.guard_bind_ok, Run.guard_bind_ok] at hopen
  obtain ⟨-, hss, hopen⟩ := hopen
  cases hopen
  exact not_not.mp hss

end

end LuksVolume

/-- A volume of whole sectors is a byte array: reads return its bytes, writes change these bytes and no
other, the device holds its encryption, and a request of many chunks leaves what one span would. -/
theorem volume_refines_array {cipher : SectorCipher} {cap : Nat} {known : Bool} {partition_offset : Nat}
    {partition_len : Option Nat} {header : Luks2Header} {key : Bytes} {v : LuksVolume} {n : Nat}
    (hopen : LuksVolume.with_master_key (memory cap known).toReadAt partition_offset partition_len header key = .ok v)
    (hlen : v.segment_len = some n) (hwhole : n % v.sector_size = 0) (hc : cipher.Inverse v.sector_size)
    (reqs : List Request) {rs : List Bytes} {io io' : Io (Nat → UInt8)}
    (hrun : v.serveAll cipher (memory cap known) reqs io = .ok rs io') :
    (rs, v.plaintext cipher io'.state) = Request.onArray reqs (v.plaintext cipher io.state) ∧
    (∀ i, v.sectorOf io'.state i = cipher.encrypt_sector v.master_key (v.iv_tweak + i * v.tweak_step)
      (load (v.plaintext cipher io'.state) (i * v.sector_size) v.sector_size)) ∧
    (∀ j, j < v.base ∨ v.base + n ≤ j → io'.state j = io.state j) ∧
    (∀ offset data io₁ io₂, data ≠ [] → v.write_at cipher (memory cap known) offset data io₁ = .ok () io₂ →
      ∃ io₃, v.write_at_chunk cipher (memory cap known) offset data io₁ = .ok () io₃ ∧ io₃.state = io₂.state) := by
  have h := LuksVolume.with_master_key_sized hopen
  have hserved := LuksVolume.serveAll_ok h hc reqs hrun
  have hextent : v.extent ≤ n := by
    simp only [LuksVolume.extent, hlen, Option.getD_some]
    exact Nat.min_le_left _ _
  refine ⟨?_, fun i => LuksVolume.sectorOf_eq h hc _ i, ?_, ?_⟩
  · rw [hserved.results, hserved.plain]
  · rintro j (hj | hj)
    · exact hserved.below j hj
    · exact LuksVolume.eq_beyond_of_plaintext h hc hwhole (fun i hi => hserved.beyond i (by omega)) hj
  · intro offset data io₁ io₂ hdata hwrite
    exact LuksVolume.write_at_chunk_same h hc (List.length_pos_iff.mpr hdata) hwrite

namespace Disk

/-- A cipher that adds the tweak to every byte. -/
def shift : SectorCipher where
  encrypt_sector _ tweak b := b.map (· + UInt8.ofNat tweak)
  decrypt_sector _ tweak b := b.map (· - UInt8.ofNat tweak)
  length_encrypt := fun _ _ _ => List.length_map _
  length_decrypt := fun _ _ _ => List.length_map _

theorem shift_inverse (sector_size : Nat) : shift.Inverse sector_size where
  decrypt_encrypt key tweak b _ := by simp [shift, Function.comp_def]
  encrypt_decrypt key tweak b _ := by simp [shift, Function.comp_def]

/-- Two sectors of 512 bytes, a sector into a partition that starts at the second sector. -/
def twoSectors : Segment := ⟨512, .Fixed 1024, 7, "aes-xts-plain64", 512, []⟩

def small : LuksVolume := ⟨512, 512, some 1024, 512, 7, 1, key⟩

/-- A write across the boundary of the two sectors, and a read around it. -/
def across : List Request := [.write 510 [1, 2, 3, 4], .read 509 6]

end Disk

/-- What a computation returns. -/
def returned {ε τ α : Type} : EStateM.Result ε τ α → Option α
  | .ok a _ => some a
  | .error _ _ => none

theorem returned_eq_some {ε τ α : Type} {r : EStateM.Result ε τ α} {a : α} (h : returned r = some a) :
    ∃ s, r = .ok a s := by
  cases r with
  | ok b s =>
    cases h
    exact ⟨s, rfl⟩
  | error e s => cases h

/-- On the two sectors, of a device full of zeros. -/
theorem volume_refines_array_across :
    ∃ io', Disk.small.serveAll Disk.shift (memory 2048 true) Disk.across ⟨fun _ => 0, [], false⟩ =
        .ok [[249, 1, 2, 3, 4, 248]] io' ∧
      ([[249, 1, 2, 3, 4, 248]], Disk.small.plaintext Disk.shift io'.state) =
        Request.onArray Disk.across (Disk.small.plaintext Disk.shift fun _ => 0) := by
  have hopen : LuksVolume.with_master_key (memory 2048 true).toReadAt 512 (some 1536) ⟨[Disk.twoSectors]⟩ Disk.key =
      .ok Disk.small := by decide
  have hrun : returned (Disk.small.serveAll Disk.shift (memory 2048 true) Disk.across ⟨fun _ => 0, [], false⟩) =
      some [[249, 1, 2, 3, 4, 248]] := by decide +kernel
  obtain ⟨io', hok⟩ := returned_eq_some hrun
  exact ⟨io', hok, (volume_refines_array hopen rfl (by decide) (Disk.shift_inverse _) _ hok).1⟩

end LuksAndroid

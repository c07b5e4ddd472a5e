import LuksAndroid.Luks.Refine

/-!
# Plain and encrypted volumes on one device

`core/src/volume.rs`. A device may have several volumes open at once. Requests to them interleave,
and each volume is an array of its own as long as their ranges of the device do not meet.
-/

namespace LuksAndroid

open Word

/-- An unencrypted partition. -/
structure PlainVolume where
  partition_offset : Nat
  len : Nat
deriving DecidableEq, Repr

namespace PlainVolume

variable {σ : Type}

def new (device : ReadAt σ) (partition_offset len : Nat) : Except LuksError PlainVolume := do
  if len = 0 then throw .OutOfBounds
  let partition_end ← LuksVolume.add_or_out_of_bounds partition_offset len
  match device.len with
  | some dev_len => if partition_end > dev_len then throw .OutOfBounds
  | none => pure ()
  return ⟨partition_offset, len⟩

def read_at (v : PlainVolume) (d : ReadAt σ) (offset n : Nat) : IoM σ Bytes := do
  let stop ← IoM.lift (LuksVolume.add_or_out_of_bounds offset n)
  if stop > v.len then throw .OutOfBounds
  if n = 0 then return []
  let dev_offset ← IoM.lift (LuksVolume.add_or_out_of_bounds v.partition_offset offset)
  d.read dev_offset n

def write_at (v : PlainVolume) (d : WriteAt σ) (offset : Nat) (buf : Bytes) : IoM σ Unit := do
  if buf.isEmpty then return
  let stop ← IoM.lift (LuksVolume.add_or_out_of_bounds offset buf.length)
  if stop > v.len then throw .OutOfBounds
  let dev_offset ← IoM.lift (LuksVolume.add_or_out_of_bounds v.partition_offset offset)
  d.write dev_offset buf

end PlainVolume

inductive VolumeSource where
  | Luks (v : LuksVolume)
  | Plain (v : PlainVolume)
deriving DecidableEq, Repr

namespace VolumeSource

variable {σ : Type}

def read_at (cipher : SectorCipher) (s : VolumeSource) (d : ReadAt σ) (offset n : Nat) : IoM σ Bytes :=
  match s with
  | .Luks v => v.read_at cipher d offset n
  | .Plain v => v.read_at d offset n

def write_at (cipher : SectorCipher) (s : VolumeSource) (d : WriteAt σ) (offset : Nat) (buf : Bytes) : IoM σ Unit :=
  match s with
  | .Luks v => v.write_at cipher d offset buf
  | .Plain v => v.write_at d offset buf

def len : VolumeSource → Option Nat
  | .Luks v => v.segment_len
  | .Plain v => some v.len

end VolumeSource

/-! ## Requests to several arrays -/

/-- The bytes of an array below `n`. -/
def clip (n : Nat) (a : Nat → UInt8) : Nat → UInt8 := fun i => if i < n then a i else 0

theorem clip_eq_iff {n : Nat} {a b : Nat → UInt8} : clip n a = clip n b ↔ ∀ i < n, a i = b i := by
  constructor
  · intro h i hi
    have hget := congrFun h i
    unfold clip at hget
    rwa [if_pos hi, if_pos hi] at hget
  · intro h
    funext i
    unfold clip
    split
    · exact h i ‹_›
    · rfl

theorem load_clip {n : Nat} {a : Nat → UInt8} {offset k : Nat} (h : offset + k ≤ n) :
    load (clip n a) offset k = load a offset k := by
  refine load_congr fun i hi => ?_
  unfold clip
  rw [if_pos (by omega)]

theorem clip_store {n : Nat} {a : Nat → UInt8} {offset : Nat} {data : Bytes} (h : offset + data.length ≤ n) :
    clip n (store a offset data) = store (clip n a) offset data := by
  funext i
  unfold clip store
  by_cases hin : offset ≤ i ∧ i < offset + data.length
  · rw [if_pos (by omega), if_pos hin, if_pos hin]
  · simp only [if_neg hin]

section

variable {ι : Type} [DecidableEq ι]

/-- The requests to one of the volumes, in their order. -/
def Request.own (i : ι) (reqs : List (ι × Request)) : List Request :=
  (reqs.filter fun q => q.1 = i).map Prod.snd

/-- What the reads of one of the volumes returned. -/
def answers (i : ι) (rs : List (ι × Bytes)) : List Bytes := (rs.filter fun r => r.1 = i).map Prod.snd

/-- Serve requests to several volumes of a device one after the other, and keep what the reads return. -/
def VolumeSource.serveAll {σ : Type} (cipher : SectorCipher) (volumes : ι → VolumeSource) (d : WriteAt σ) :
    List (ι × Request) → IoM σ (List (ι × Bytes))
  | [] => return []
  | (i, .read offset n) :: rest => do
    let b ← (volumes i).read_at cipher d.toReadAt offset n
    return (i, b) :: (← serveAll cipher volumes d rest)
  | (i, .write offset data) :: rest => do
    (volumes i).write_at cipher d offset data
    serveAll cipher volumes d rest

theorem Request.own_cons_self (i : ι) (req : Request) (reqs : List (ι × Request)) :
    Request.own i ((i, req) :: reqs) = req :: Request.own i reqs := by
  simp [Request.own]

theorem Request.own_cons_of_ne {i j : ι} (h : j ≠ i) (req : Request) (reqs : List (ι × Request)) :
    Request.own i ((j, req) :: reqs) = Request.own i reqs := by
  simp [Request.own, h]

theorem answers_cons_self (i : ι) (b : Bytes) (rs : List (ι × Bytes)) :
    answers i ((i, b) :: rs) = b :: answers i rs := by
  simp [answers]

theorem answers_cons_of_ne {i j : ι} (h : j ≠ i) (b : Bytes) (rs : List (ι × Bytes)) :
    answers i ((j, b) :: rs) = answers i rs := by
  simp [answers, h]

end

/-! ## Requests to a plain volume -/

namespace PlainVolume

variable {cap : Nat} {known : Bool} {v : PlainVolume} {offset : Nat} {io io' : Io (Nat → UInt8)}

theorem read_at_ok {k : Nat} {b : Bytes}
    (hrun : v.read_at (memory cap known).toReadAt offset k io = .ok b io') :
    offset + k ≤ v.len ∧ b = load io.state (v.partition_offset + offset) k ∧ io'.state = io.state := by
  unfold read_at at hrun
  obtain ⟨stop, io₁, hstop, hrun⟩ := Run.bind_ok.mp hrun
  obtain ⟨hsum, rfl⟩ := IoM.lift_ok.mp hstop
  obtain ⟨rfl, -⟩ := LuksVolume.add_ok hsum
  split at hrun
  · exact absurd hrun Run.throw_bind_ok
  · rename_i hfits
    refine ⟨by omega, ?_⟩
    simp only at hrun
    split at hrun
    · rename_i hzero
      obtain ⟨rfl, rfl⟩ := Run.pure_ok.mp hrun
      rw [hzero]
      exact ⟨rfl, rfl⟩
    · obtain ⟨dev, io₂, hdev, hrun⟩ := Run.bind_ok.mp hrun
      obtain ⟨haddr, rfl⟩ := IoM.lift_ok.mp hdev
      obtain ⟨rfl, -⟩ := LuksVolume.add_ok haddr
      rw [memory_read_eq] at hrun
      split at hrun
      · cases hrun
        exact ⟨rfl, rfl⟩
      · cases hrun

theorem write_at_ok {data : Bytes} (hdata : data ≠ []) {u : Unit}
    (hrun : v.write_at (memory cap known) offset data io = .ok u io') :
    offset + data.length ≤ v.len ∧ io'.state = store io.state (v.partition_offset + offset) data := by
  unfold write_at at hrun
  rw [if_neg (by rwa [List.isEmpty_iff])] at hrun
  obtain ⟨stop, io₁, hstop, hrun⟩ := Run.bind_ok.mp hrun
  obtain ⟨hsum, rfl⟩ := IoM.lift_ok.mp hstop
  obtain ⟨rfl, -⟩ := LuksVolume.add_ok hsum
  split at hrun
  · exact absurd hrun Run.throw_bind_ok
  · rename_i hfits
    refine ⟨by omega, ?_⟩
    obtain ⟨dev, io₂, hdev, hrun⟩ := Run.bind_ok.mp hrun
    obtain ⟨haddr, rfl⟩ := IoM.lift_ok.mp hdev
    obtain ⟨rfl, -⟩ := LuksVolume.add_ok haddr
    exact (memory_write_ok hrun).2

end PlainVolume

/-! ## One volume -/

namespace VolumeSource

variable {cipher : SectorCipher} {cap : Nat} {known : Bool} {s : VolumeSource} {n : Nat} {m m' : Nat → UInt8}

/-- Where the volume starts on the device. -/
def base : VolumeSource → Nat
  | .Luks v => v.base
  | .Plain v => v.partition_offset

/-- The array that the device stands for. -/
def array (cipher : SectorCipher) : VolumeSource → (Nat → UInt8) → Nat → UInt8
  | .Luks v, m => v.plaintext cipher m
  | .Plain v, m => fun i => m (v.partition_offset + i)

/-- A volume of `n` bytes as it was opened on the device. A volume that is encrypted has whole sectors. -/
def Opened (cipher : SectorCipher) (cap : Nat) (known : Bool) (n : Nat) : VolumeSource → Prop
  | .Luks v => (∃ partition_offset partition_len header key,
      LuksVolume.with_master_key (memory cap known).toReadAt partition_offset partition_len header key = .ok v) ∧
      (Luks v).len = some n ∧ n % v.sector_size = 0 ∧ cipher.Inverse v.sector_size
  | .Plain v => (∃ partition_offset len,
      PlainVolume.new (memory cap known).toReadAt partition_offset len = .ok v) ∧ (Plain v).len = some n

@[simp] theorem base_luks (v : LuksVolume) : (Luks v).base = v.base := rfl

@[simp] theorem base_plain (v : PlainVolume) : (Plain v).base = v.partition_offset := rfl

@[simp] theorem array_luks (v : LuksVolume) (m : Nat → UInt8) : (Luks v).array cipher m = v.plaintext cipher m := rfl

@[simp] theorem array_plain (v : PlainVolume) (m : Nat → UInt8) (i : Nat) :
    (Plain v).array cipher m i = m (v.partition_offset + i) := rfl

theorem array_congr (h : s.Opened cipher cap known n) (hm : ∀ j, s.base ≤ j → j < s.base + n → m j = m' j) :
    clip n (s.array cipher m) = clip n (s.array cipher m') := by
  rw [clip_eq_iff]
  intro i hi
  cases s with
  | Plain v =>
    rw [base_plain] at hm
    rw [array_plain, array_plain]
    exact hm _ (by omega) (by omega)
  | Luks v =>
    obtain ⟨⟨_, _, _, _, hopen⟩, -, hwhole, -⟩ := h
    have hpos := (LuksVolume.with_master_key_sized hopen).pos
    have hsector : v.sectorOf m (i / v.sector_size) = v.sectorOf m' (i / v.sector_size) := by
      unfold LuksVolume.sectorOf
      rw [base_luks] at hm
      refine load_congr fun k hk => hm _ (by omega) ?_
      have hlt : i / v.sector_size < n / v.sector_size := by
        rw [Nat.div_lt_iff_lt_mul hpos, Nat.div_mul_cancel (Nat.dvd_of_mod_eq_zero hwhole)]
        exact hi
      have hle := Nat.mul_le_mul_right v.sector_size hlt
      rw [Nat.div_mul_cancel (Nat.dvd_of_mod_eq_zero hwhole), Nat.succ_mul] at hle
      omega
    rw [array_luks, array_luks]
    unfold LuksVolume.plaintext
    rw [hsector]

/-- The device after a write of these bytes to the volume. -/
structure Stored (cipher : SectorCipher) (s : VolumeSource) (n offset : Nat) (data : Bytes) (m m' : Nat → UInt8) :
    Prop where
  array : clip n (s.array cipher m') = store (clip n (s.array cipher m)) offset data
  outside : ∀ j, j < s.base ∨ s.base + n ≤ j → m' j = m j

theorem Stored.nil (offset : Nat) (m : Nat → UInt8) : Stored cipher s n offset [] m m where
  array := (store_nil _ _).symm
  outside := fun _ _ => rfl

theorem extent_le {v : LuksVolume} (h : v.segment_len = some n) : v.extent ≤ n := by
  unfold LuksVolume.extent
  rw [h]
  exact Nat.min_le_left _ _

theorem read_at_ok (h : s.Opened cipher cap known n) {offset k : Nat} {b : Bytes} {io io' : Io (Nat → UInt8)}
    (hrun : s.read_at cipher (memory cap known).toReadAt offset k io = .ok b io') :
    b = load (clip n (s.array cipher io.state)) offset k ∧ io'.state = io.state := by
  cases s with
  | Plain v =>
    obtain rfl := Option.some.inj h.2
    obtain ⟨hfits, rfl, hstate⟩ := PlainVolume.read_at_ok hrun
    refine ⟨?_, hstate⟩
    rw [load_clip hfits]
    refine List.map_congr_left fun i _ => ?_
    rw [array_plain, Nat.add_assoc]
  | Luks v =>
    obtain ⟨⟨_, _, _, _, hopen⟩, hlen, -, -⟩ := h
    replace hrun : v.read_at cipher (memory cap known).toReadAt offset k io = .ok b io' := hrun
    obtain ⟨rfl, hstate⟩ := LuksVolume.read_at_ok (LuksVolume.with_master_key_sized hopen) hrun
    refine ⟨?_, hstate⟩
    unfold LuksVolume.read_at at hrun
    rw [array_luks]
    split at hrun
    · rename_i hzero
      rw [hzero]
      rfl
    · obtain ⟨stop, io₁, hrange, -⟩ := Run.bind_ok.mp hrun
      have hfits := (LuksVolume.check_range_ok (IoM.lift_ok.mp hrange).1).2
      exact (load_clip (hfits.trans (extent_le hlen))).symm

theorem write_at_ok (h : s.Opened cipher cap known n) {offset : Nat} {data : Bytes} {io io' : Io (Nat → UInt8)}
    {u : Unit} (hrun : s.write_at cipher (memory cap known) offset data io = .ok u io') :
    Stored cipher s n offset data io.state io'.state := by
  by_cases hdata : data = []
  · subst hdata
    have hstate : io'.state = io.state := by
      cases s with
      | Plain v => exact congrArg Io.state (Run.pure_ok.mp hrun).2.symm
      | Luks v => exact congrArg Io.state (Run.pure_ok.mp hrun).2.symm
    rw [hstate]
    exact .nil _ _
  · cases s with
    | Plain v =>
      obtain rfl := Option.some.inj h.2
      obtain ⟨hfits, hstate⟩ := PlainVolume.write_at_ok hdata hrun
      refine ⟨?_, fun j hj => ?_⟩
      · rw [← clip_store hfits, hstate]
        congr 1
        funext i
        simp only [array_plain, store]
        by_cases hin : offset ≤ i ∧ i < offset + data.length
        · rw [if_pos hin, if_pos (by omega)]
          congr 1
          omega
        · rw [if_neg hin, if_neg (by omega)]
      · rw [base_plain] at hj
        rw [hstate, store_of_not_mem _ (by omega)]
    | Luks v =>
      obtain ⟨⟨_, _, _, _, hopen⟩, hlen, hwhole, hc⟩ := h
      have hsized := LuksVolume.with_master_key_sized hopen
      obtain ⟨hstored, hext⟩ := LuksVolume.write_at_ok hsized hc hrun
      have hfits := (hext (List.length_pos_iff.mpr hdata)).trans (extent_le hlen)
      refine ⟨?_, fun j hj => ?_⟩
      · rw [array_luks, array_luks, hstored.plain, clip_store hfits]
      · rw [base_luks] at hj
        rcases hj with hj | hj
        · exact hstored.below j hj
        · refine LuksVolume.eq_beyond_of_plaintext hsized hc hwhole (fun i hi => ?_) hj
          rw [hstored.plain, store_of_not_mem _ (by omega)]

theorem Stored.apart {t : VolumeSource} {k offset : Nat} {data : Bytes} (hopened : t.Opened cipher cap known k)
    (hapart : Bytes.Apart (s.base, n) (t.base, k)) (h : s.Stored cipher n offset data m m') :
    clip k (t.array cipher m') = clip k (t.array cipher m) := by
  refine array_congr hopened fun a hlo hhi => h.outside a ?_
  rcases hapart with hapart | hapart
  · simp only at hapart
    omega
  · simp only at hapart
    omega

end VolumeSource

/-! ## Several volumes -/

section

variable {ι : Type} [DecidableEq ι] {cipher : SectorCipher} {cap : Nat} {known : Bool} {volumes : ι → VolumeSource}
  {lens : ι → Nat}

/-- Volumes whose ranges of the device do not meet are byte arrays of their own: however requests to them
interleave, each volume answers its requests as if they were the only ones, and nothing outside of the
volumes changes. -/
theorem volumes_apart (hopened : ∀ i, (volumes i).Opened cipher cap known (lens i))
    (hapart : ∀ i j, i ≠ j → Bytes.Apart ((volumes i).base, lens i) ((volumes j).base, lens j))
    (reqs : List (ι × Request)) {rs : List (ι × Bytes)} {io io' : Io (Nat → UInt8)}
    (hrun : VolumeSource.serveAll cipher volumes (memory cap known) reqs io = .ok rs io') :
    (∀ i, (answers i rs, clip (lens i) ((volumes i).array cipher io'.state)) =
      Request.onArray (Request.own i reqs) (clip (lens i) ((volumes i).array cipher io.state))) ∧
    ∀ a, (∀ i, a < (volumes i).base ∨ (volumes i).base + lens i ≤ a) → io'.state a = io.state a := by
  induction reqs generalizing rs io with
  | nil =>
    obtain ⟨rfl, rfl⟩ := Run.pure_ok.mp hrun
    exact ⟨fun _ => rfl, fun _ _ => rfl⟩
  | cons q rest ih =>
    obtain ⟨j, req⟩ := q
    cases req with
    | read offset n =>
      obtain ⟨b, io₁, hread, hrun⟩ := Run.bind_ok.mp hrun
      obtain ⟨rfl, hstate⟩ := VolumeSource.read_at_ok (hopened j) hread
      obtain ⟨bs, io₂, hrest, hrun⟩ := Run.bind_ok.mp hrun
      obtain ⟨rfl, rfl⟩ := Run.pure_ok.mp hrun
      obtain ⟨hown, houtside⟩ := ih hrest
      rw [hstate] at hown houtside
      refine ⟨fun i => ?_, houtside⟩
      by_cases hi : j = i
      · subst hi
        rw [answers_cons_self, Request.own_cons_self, Request.onArray, ← hown j]
      · rw [answers_cons_of_ne hi, Request.own_cons_of_ne hi]
        exact hown i
    | write offset data =>
      obtain ⟨u, io₁, hwrite, hrun⟩ := Run.bind_ok.mp hrun
      have hstored := VolumeSource.write_at_ok (hopened j) hwrite
      obtain ⟨hown, houtside⟩ := ih hrun
      refine ⟨fun i => ?_, fun a ha => (houtside a ha).trans (hstored.outside a (ha j))⟩
      by_cases hi : j = i
      · subst hi
        rw [Request.own_cons_self, Request.onArray, ← hstored.array]
        exact hown j
      · rw [Request.own_cons_of_ne hi, ← hstored.apart (hopened i) (hapart j i hi)]
        exact hown i

end

namespace Disk

/-- A plain volume of one sector, well before the two. -/
def front : PlainVolume := ⟨0, 512⟩

def pair (luks : Bool) : VolumeSource := if luks then .Luks small else .Plain front

/-- Writes at the end of the one and at the start of the other, and reads of both. -/
def interleaved : List (Bool × Request) :=
  [(true, .write 1022 [1, 2]), (false, .write 0 [3, 4]), (true, .read 1021 3), (false, .read 0 3)]

end Disk

theorem volumes_apart_pair :
    ∃ io', VolumeSource.serveAll Disk.shift Disk.pair (memory 2048 true) Disk.interleaved ⟨fun _ => 0, [], false⟩ =
        .ok [(true, [248, 1, 2]), (false, [3, 4, 0])] io' ∧
      answers false [(true, [248, 1, 2]), (false, [3, 4, 0])] =
        (Request.onArray [.write 0 [3, 4], .read 0 3] (clip 512 fun _ => 0)).1 := by
  have hrun : returned (VolumeSource.serveAll Disk.shift Disk.pair (memory 2048 true) Disk.interleaved
      ⟨fun _ => 0, [], false⟩) = some [(true, [248, 1, 2]), (false, [3, 4, 0])] := by decide +kernel
  obtain ⟨io', hok⟩ := returned_eq_some hrun
  have hopened : ∀ i, (Disk.pair i).Opened Disk.shift 2048 true (if i then 1024 else 512) := by
    intro i
    cases i with
    | false => exact ⟨⟨0, 512, by decide +kernel⟩, rfl⟩
    | true => exact ⟨⟨512, some 1536, ⟨[Disk.twoSectors]⟩, Disk.key, by decide⟩, rfl, by decide, Disk.shift_inverse _⟩
  have hboth := (volumes_apart hopened (by decide) Disk.interleaved hok).1 false
  exact ⟨io', hok, congrArg Prod.fst hboth⟩

end LuksAndroid

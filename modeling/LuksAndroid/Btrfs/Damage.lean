import LuksAndroid.Btrfs.Raw.Code
import LuksAndroid.Btrfs.Super.Copy
import LuksAndroid.Btrfs.Verify
import LuksAndroid.Lib.Crc

/-!
# Damage that the checksums find

CRC32C loses nothing of what it has taken in, and takes in as many bits as it is wide without mixing them up.
So damage within 32 bits in a row never goes unseen where the readers check: in tree nodes, in the copies of
the superblock and in each sector of a file.
-/

namespace LuksAndroid

open Crc

/-! ## Bit by bit -/

/-- The bits of a byte string, the lowest of each byte first. -/
def bits_of (b : Bytes) : List Bool := b.flatMap fun x => lowBits 8 x.toNat

def CRC32C_POLY : Nat := 0x82F63B78

@[simp] theorem bits_of_nil : bits_of [] = [] := rfl

theorem bits_of_cons (x : UInt8) (b : Bytes) : bits_of (x :: b) = lowBits 8 x.toNat ++ bits_of b := rfl

theorem bits_of_append (a b : Bytes) : bits_of (a ++ b) = bits_of a ++ bits_of b := List.flatMap_append

@[simp] theorem length_bits_of (b : Bytes) : (bits_of b).length = 8 * b.length := by
  induction b with
  | nil => rfl
  | cons x b ih => simp [bits_of_cons, ih]; omega

theorem lowBits_inj {x y : UInt8} (h : lowBits 8 x.toNat = lowBits 8 y.toNat) : x = y := by
  have hnum := congrArg number h
  rw [number_lowBits, number_lowBits, Nat.mod_eq_of_lt x.toNat_lt, Nat.mod_eq_of_lt y.toNat_lt] at hnum
  exact UInt8.toNat_inj.mp hnum

theorem bits_of_inj {a b : Bytes} (h : bits_of a = bits_of b) : a = b := by
  have hlen : a.length = b.length := by
    have := congrArg List.length h
    rw [length_bits_of, length_bits_of] at this
    omega
  induction a generalizing b with
  | nil => exact (List.length_eq_zero_iff.mp hlen.symm).symm
  | cons x a ih =>
    cases b with
    | nil => cases hlen
    | cons y b =>
      rw [bits_of_cons, bits_of_cons] at h
      obtain ⟨hx, hrest⟩ := List.append_inj h (by simp)
      rw [lowBits_inj hx, ih hrest (by simpa using hlen)]

theorem bits_of_drop (b : Bytes) (n : Nat) : bits_of (b.drop n) = (bits_of b).drop (8 * n) := by
  induction n generalizing b with
  | zero => rfl
  | succ n ih =>
    cases b with
    | nil => simp
    | cons x b =>
      rw [List.drop_succ_cons, ih, bits_of_cons, Nat.mul_succ, Nat.add_comm, ← List.drop_drop,
        List.drop_left' (by simp)]

theorem bits_of_take (b : Bytes) (n : Nat) : bits_of (b.take n) = (bits_of b).take (8 * n) := by
  induction n generalizing b with
  | zero => rfl
  | succ n ih =>
    cases b with
    | nil => simp
    | cons x b =>
      have hwhole : (lowBits 8 x.toNat).take (8 * n + 8) = lowBits 8 x.toNat :=
        List.take_of_length_le (by rw [length_lowBits]; omega)
      rw [List.take_succ_cons, bits_of_cons, bits_of_cons, ih, Nat.mul_succ, List.take_append, hwhole,
        length_lowBits, Nat.add_sub_cancel]

theorem crc32c_byte_eq (r : Nat) (b : UInt8) : crc32c_byte r b = feed CRC32C_POLY r (lowBits 8 b.toNat) := by
  rw [feed_eq, length_lowBits, number_lowBits, Nat.mod_eq_of_lt b.toNat_lt]
  rfl

theorem crc32c_seed_eq (seed : Nat) (data : Bytes) :
    crc32c_seed seed data = feed CRC32C_POLY seed (bits_of data) := by
  induction data generalizing seed with
  | nil => rfl
  | cons b data ih =>
    rw [bits_of_cons, feed_append, ← crc32c_byte_eq, ← ih]
    rfl

/-! ## Damage -/

/-- Bytes that differ within 32 bits in a row. -/
def Struck (a b : Bytes) : Prop := Within 32 (bits_of a) (bits_of b)

namespace Struck

variable {a b : Bytes}

theorem length_eq (h : Struck a b) : a.length = b.length := by
  have := h.1
  rw [length_bits_of, length_bits_of] at this
  omega

theorem take (h : Struck a b) (n : Nat) : Struck (a.take n) (b.take n) := by
  rw [Struck, bits_of_take, bits_of_take]
  exact Within.take h _

theorem drop (h : Struck a b) (n : Nat) : Struck (a.drop n) (b.drop n) := by
  rw [Struck, bits_of_drop, bits_of_drop]
  exact Within.drop h _

theorem put (b : Bytes) (offset : Nat) (v : Bytes) (h : offset + v.length ≤ b.length) (hv : v.length ≤ 4) :
    Struck b (b.put offset v) := by
  have hcut : b = b.take offset ++ (b.slice offset v.length ++ b.drop (offset + v.length)) := by
    rw [Bytes.slice, ← List.drop_drop, List.take_append_drop, List.take_append_drop]
  have hlen : (b.slice offset v.length).length = v.length := by
    rw [Bytes.slice, List.length_take, List.length_drop]
    omega
  have hswap := Within.replaced (w := 32) (bits_of (b.take offset)) (bits_of (b.slice offset v.length)) (bits_of v)
    (bits_of (b.drop (offset + v.length))) (by simp [hlen]) (by simp [hlen]; omega)
  rw [← bits_of_append, ← bits_of_append, ← bits_of_append, ← bits_of_append, ← hcut, ← List.append_assoc] at hswap
  exact hswap

theorem slice (h : Struck a b) (offset n : Nat) : Struck (a.slice offset n) (b.slice offset n) :=
  (h.drop offset).take n

/-- Damage does not reach over a gap of 28 bytes. -/
theorem one_side (h : Struck a b) (n : Nat) : a.take n = b.take n ∨ a.drop (n + 28) = b.drop (n + 28) := by
  rcases Within.one_side h (n := 8 * n) (m := 8 * (n + 28)) (by omega) with hs | hs
  · left
    apply bits_of_inj
    rw [bits_of_take, bits_of_take, hs]
  · right
    apply bits_of_inj
    rw [bits_of_drop, bits_of_drop, hs]

theorem crc32c_seed_inj (h : Struck a b) {seed : Nat} (hseed : seed < 2 ^ 32)
    (hsum : crc32c_seed seed a = crc32c_seed seed b) : a = b := by
  rw [crc32c_seed_eq, crc32c_seed_eq] at hsum
  exact bits_of_inj (feed_within (w := 31) (by decide) (by decide) hseed h hsum)

theorem crc32c_inj (h : Struck a b) (hsum : crc32c a = crc32c b) : a = b :=
  h.crc32c_seed_inj (by decide) (Nat.xor_left_injective hsum)

end Struck

theorem unle_inj {a b : Bytes} (hlen : a.length = b.length) (h : Bytes.unle a = Bytes.unle b) : a = b := by
  induction a generalizing b with
  | nil => exact (List.length_eq_zero_iff.mp hlen.symm).symm
  | cons x a ih =>
    cases b with
    | nil => cases hlen
    | cons y b =>
      have hx := x.toNat_lt
      have hy := y.toNat_lt
      rw [Bytes.unle, Bytes.unle] at h
      have hxy : x = y := UInt8.toNat_inj.mp (by omega)
      rw [hxy, ih (by simpa using hlen) (by omega)]

namespace Btrfs

variable {sha256 : Digest}

/-- The bytes that CRC32C looks at: the checksum and everything after its field. -/
def checked (raw : Bytes) : Bytes × Bytes := (raw.take 4, raw.drop 32)

theorem verify_struck {raw raw' : Bytes} (h : CsumType.verify sha256 .Crc32c (raw.take 32) (raw.drop 32) = true)
    (hs : Struck raw raw') :
    CsumType.verify sha256 .Crc32c (raw'.take 32) (raw'.drop 32) = true ↔ checked raw' = checked raw := by
  have hstored (b : Bytes) : Bytes.get (b.take 32) 0 4 = Bytes.unle (b.take 4) := by
    simp [Bytes.get, Bytes.slice, List.take_take]
  simp only [CsumType.verify, hstored, decide_eq_true_eq] at h ⊢
  rw [checked, checked, Prod.mk.injEq]
  have hlen : (raw.take 4).length = (raw'.take 4).length := (hs.take 4).length_eq
  rcases hs.one_side 4 with hsum | hbody
  · rw [← hsum, ← h]
    exact ⟨fun heq => ⟨rfl, (hs.drop 32).crc32c_inj heq.symm |>.symm⟩, fun heq => by rw [heq.2]⟩
  · rw [← hbody, h]
    exact ⟨fun heq => ⟨(unle_inj hlen heq).symm, rfl⟩, fun heq => by rw [heq.1]⟩

/-! ## Tree nodes -/

theorem slice_of_drop_eq {a b : Bytes} {k : Nat} (h : a.drop k = b.drop k) {offset : Nat} (hk : k ≤ offset) (n : Nat) :
    a.slice offset n = b.slice offset n := by
  obtain ⟨d, rfl⟩ := Nat.exists_eq_add_of_le hk
  rw [Bytes.slice, Bytes.slice, ← List.drop_drop, ← List.drop_drop, h]

theorem get_of_drop_eq {a b : Bytes} {k : Nat} (h : a.drop k = b.drop k) {offset : Nat} (hk : k ≤ offset) (n : Nat) :
    a.get offset n = b.get offset n := congrArg Bytes.unle (slice_of_drop_eq h hk n)

/-- A node that was read is refused after damage to a byte that its checksum looks at, and reads the same
after damage to any other. -/
theorem node_struck {raw raw' : Bytes} {bytenr : Nat} {metadata_uuid : Bytes} {node : Raw.Node}
    (h : Raw.Node.parse sha256 raw bytenr .Crc32c metadata_uuid = .ok node) (hs : Struck raw raw') :
    Raw.Node.parse sha256 raw' bytenr .Crc32c metadata_uuid =
      if checked raw' = checked raw then .ok { node with raw := raw' }
      else .error (.FsChecksumMismatch "btrfs tree node") := by
  unfold Raw.Node.parse at h ⊢
  rw [← hs.length_eq]
  split at h
  · cases h
  rename_i hlen
  split at h
  · cases h
  rename_i hverify
  have hv := verify_struck (not_not.mp hverify) hs
  rw [if_neg hlen]
  by_cases hsame : checked raw' = checked raw
  · have hbody : raw'.drop 32 = raw.drop 32 := congrArg Prod.snd hsame
    rw [if_neg (not_not.mpr (hv.mpr hsame)), if_pos hsame]
    simp only [get_of_drop_eq hbody (by decide : 32 ≤ 48), get_of_drop_eq hbody (by decide : 32 ≤ 96),
      get_of_drop_eq hbody (by decide : 32 ≤ 100), get_of_drop_eq hbody (by decide : 32 ≤ 88),
      get_of_drop_eq hbody (by decide : 32 ≤ 80), slice_of_drop_eq hbody (le_refl 32)] at h ⊢
    by_cases hplace : raw.get 48 8 = bytenr
    · rw [if_neg (not_not.mpr hplace)] at h ⊢
      by_cases huuid : raw.slice 32 16 = metadata_uuid
      · rw [if_neg (not_not.mpr huuid)] at h ⊢
        by_cases hcount : HEADER_SIZE + raw.get 96 4 * (if raw.get 100 1 = 0 then ITEM_SIZE else KEY_PTR_SIZE) >
            raw.length
        · rw [if_pos hcount] at h
          cases h
        · rw [if_neg hcount] at h ⊢
          cases h
          rfl
      · rw [if_pos huuid] at h
        cases h
    · rw [if_pos hplace] at h
      cases h
  · rw [if_pos (fun hok => hsame (hv.mp hok)), if_neg hsame]

def lengthDigest : Digest := ⟨fun b => List.replicate 32 (UInt8.ofNat b.length), fun _ => List.length_replicate⟩

/-- An empty leaf of a block of 101 bytes. -/
def emptyBlock : Bytes :=
  Raw.write_out lengthDigest .Crc32c 101 [(32, List.replicate 16 1), (48, Bytes.le 8 65536)]

/-- One bit of its last byte is turned. -/
theorem emptyBlock_struck :
    Raw.Node.parse lengthDigest (emptyBlock.put 100 [1]) 65536 .Crc32c (List.replicate 16 1) =
      .error (.FsChecksumMismatch "btrfs tree node") := by
  have hread : Raw.Node.parse lengthDigest emptyBlock 65536 .Crc32c (List.replicate 16 1) =
      .ok ⟨emptyBlock, 0, emptyBlock.get 96 4, emptyBlock.get 88 8, emptyBlock.get 80 8⟩ := by
    have hlevel : emptyBlock.get 100 1 = 0 := by decide
    simp only [Raw.Node.parse, hlevel, if_true]
    rw [if_neg (by decide +kernel), if_neg (by decide +kernel), if_neg (by decide +kernel),
      if_neg (by decide), if_neg (by decide)]
  rw [node_struck hread (Struck.put _ 100 [1] (by decide +kernel) (by decide)), if_neg (by decide +kernel)]

/-! ## Copies of the superblock -/

/-- Damage where the checksum does not look changes nothing. A copy damaged elsewhere is refused, unless the
damage made it name the other checksum. -/
theorem superblock_struck {from_utf8_lossy : Bytes → String} {raw raw' : Bytes} {offset : Nat} {sb : Superblock}
    (hlen : raw.length = SUPER_SIZE) (h : Superblock.parse sha256 from_utf8_lossy raw offset = .ok sb)
    (hcrc : sb.csum_type = .Crc32c) (hs : Struck raw raw') :
    (checked raw' = checked raw → Superblock.parse sha256 from_utf8_lossy raw' offset = .ok sb) ∧
      (checked raw' ≠ checked raw → ∀ sb', Superblock.parse sha256 from_utf8_lossy raw' offset = .ok sb' →
        sb'.csum_type = .Sha256) := by
  have hlen' : raw'.length = SUPER_SIZE := hs.length_eq.symm.trans hlen
  obtain ⟨t, hacc, rfl⟩ := (Superblock.parse_iff hlen).mp h
  change t = .Crc32c at hcrc
  subst hcrc
  have hv := verify_struck hacc.verified hs
  refine ⟨fun hsame => ?_, fun hdiff sb' h' => ?_⟩
  · have hbody : raw'.drop 32 = raw.drop 32 := congrArg Prod.snd hsame
    have hget {offset : Nat} (n : Nat) (hk : 32 ≤ offset) := get_of_drop_eq hbody hk n
    have hslice {offset : Nat} (n : Nat) (hk : 32 ≤ offset) := slice_of_drop_eq hbody hk n
    refine (Superblock.parse_iff hlen').mpr ⟨.Crc32c, ?_, ?_⟩
    · obtain ⟨h1, h2, -, h3, h4, h5, h6, h7, h8⟩ := hacc
      refine ⟨?_, ?_, hv.mpr hsame, ?_, ?_, ?_, ?_, ?_, ?_⟩ <;> simpa (disch := decide) only [hget, hslice]
    · simp (disch := decide) only [Superblock.fields_of, uuid_of, label_bytes, hget, hslice]
  · obtain ⟨t', hacc', rfl⟩ := (Superblock.parse_iff hlen').mp h'
    cases t' with
    | Crc32c => exact absurd (hv.mp hacc'.verified) hdiff
    | Sha256 => rfl

theorem lateSuper_admitted : lateSuper.Admitted := by
  constructor <;> decide +kernel

def lateCopy : Bytes := lateSuper.emit_copy lengthDigest (List.replicate SUPER_SIZE 0) 65536

/-- A copy in which the level of the root changed is refused. -/
theorem lateCopy_struck :
    (Superblock.parse lengthDigest (fun _ => "") (lateCopy.put 0xc6 [1]) 65536).toOption = none := by
  have ht : (List.replicate SUPER_SIZE 0 : Bytes).length = SUPER_SIZE := List.length_replicate
  have hlen : lateCopy.length = SUPER_SIZE := Superblock.length_emit_copy ht _ _
  have hacc : Superblock.Accepted lengthDigest lateCopy 65536 .Crc32c :=
    Superblock.accepted_emit_copy ht lateSuper_admitted (by decide) (by decide) (by decide)
  have hread : Superblock.parse lengthDigest (fun _ => "") lateCopy 65536 =
      .ok (Superblock.fields_of (fun _ => "") lateCopy .Crc32c) :=
    (Superblock.parse_iff hlen).mpr ⟨.Crc32c, hacc, rfl⟩
  have hplace : 0xc6 + ([1] : Bytes).length ≤ lateCopy.length := by rw [hlen]; decide
  have hput : Struck lateCopy (lateCopy.put 0xc6 [1]) := Struck.put _ 0xc6 [1] hplace (by decide)
  have hsha := (superblock_struck hlen hread rfl hput).2 fun hsame => by
    have hlevel : lateCopy.get 0xc6 1 = 0 :=
      Superblock.get_written ht _ _ (by decide) (by decide) (by simp [Superblock.emitted_fields, lateSuper])
    have hbody : (lateCopy.put 0xc6 [1]).drop 32 = lateCopy.drop 32 := congrArg Prod.snd hsame
    have hone : (lateCopy.put 0xc6 [1]).slice 0xc6 1 = [1] := Bytes.slice_put_self hplace
    rw [← get_of_drop_eq hbody (by decide : 32 ≤ 0xc6), Bytes.get, hone] at hlevel
    exact absurd hlevel (by decide)
  cases hparse : Superblock.parse lengthDigest (fun _ => "") (lateCopy.put 0xc6 [1]) 65536 with
  | error e => rfl
  | ok sb' =>
    obtain ⟨c, hacc', rfl⟩ := (Superblock.parse_iff (hput.length_eq.symm.trans hlen)).mp hparse
    -- The name of the checksum is not where the damage is.
    have htype : (lateCopy.put 0xc6 [1]).get 0xc4 2 = lateCopy.get 0xc4 2 := by
      rw [Bytes.get, Bytes.get, Bytes.slice_put_of_apart hplace (.inr (by decide))]
    have hcsum := hacc'.csum
    rw [htype, hacc.csum] at hcsum
    cases hcsum
    exact absurd (hsha _ hparse) CsumType.noConfusion

/-! ## File data -/

/-- No sector is damaged in more than 32 bits in a row. -/
def StruckSectors (sector : Nat) (data data' : Bytes) : Prop :=
  data'.length = data.length ∧ ∀ i, Struck (chunk_at sector data i) (chunk_at sector data' i)

theorem Struck.sectors {data data' : Bytes} (h : Struck data data') (sector : Nat) :
    StruckSectors sector data data' :=
  ⟨h.length_eq.symm, fun _ => h.slice _ _⟩

theorem le_of_verify_sectors {read : Reader} {csum_type : CsumType} {sector logical : Nat} {l : List Bytes}
    {i : Nat} {c : Cursor} {n m : Nat} (h : verify_sectors sha256 read csum_type sector logical l i c n = .ok m) :
    n ≤ m := by
  induction l generalizing i c n with
  | nil =>
    cases h
    exact le_refl _
  | cons chunk rest ih =>
    rw [verify_sectors] at h
    obtain ⟨c', -, h⟩ := Run.except_bind_ok.mp h
    obtain ⟨found, -, h⟩ := Run.except_bind_ok.mp h
    cases found with
    | none => exact (Nat.le_succ n).trans (ih h)
    | some stored =>
      obtain ⟨-, h⟩ := Run.guard_bind_ok.mp h
      exact ih h

/-- The walk over sectors of which each had its checksum, once some of them are damaged. -/
theorem verify_sectors_struck {read : Reader} {sector logical : Nat} {l l' : List Bytes} {i : Nat} {c : Cursor}
    {n : Nat} (hs : List.Forall₂ Struck l l')
    (h : verify_sectors sha256 read .Crc32c sector logical l i c n = .ok n) :
    verify_sectors sha256 read .Crc32c sector logical l' i c n =
      if l' = l then .ok n else .error (.FsChecksumMismatch "btrfs file data") := by
  induction hs generalizing i c with
  | nil => simp [verify_sectors, pure, Except.pure]
  | cons hd htl ih =>
    rename_i chunk chunk' rest rest'
    rw [verify_sectors] at h ⊢
    obtain ⟨c', hseek, h⟩ := Run.except_bind_ok.mp h
    obtain ⟨found, hfound, h⟩ := Run.except_bind_ok.mp h
    rw [hseek]
    simp only [bind, Except.bind, hfound]
    cases found with
    | none => exact absurd (le_of_verify_sectors h) (by omega)
    | some stored =>
      obtain ⟨hok, h⟩ := Run.guard_bind_ok.mp h
      have hrest := ih h
      have hv : crc32c chunk = stored.get 0 4 := by simpa [CsumType.verify] using hok
      by_cases hchunk : chunk' = chunk
      · subst hchunk
        simp only [CsumType.verify, hv, decide_true, not_true_eq_false, if_false, List.cons.injEq, true_and]
        exact hrest
      · have hne : crc32c chunk' ≠ stored.get 0 4 := fun heq => hchunk (hd.crc32c_inj (hv.trans heq.symm)).symm
        simp [CsumType.verify, hne, hchunk, throw, throwThe, MonadExceptOf.throw]

theorem chunks_exact_ext {sector : Nat} {data data' : Bytes} (hpos : 0 < sector)
    (hwhole : data.length % sector = 0) (hlen : data'.length = data.length)
    (h : chunks_exact sector data' = chunks_exact sector data) : data' = data := by
  refine List.ext_getElem? fun j => ?_
  by_cases hj : j < data.length
  · have hi : j / sector < data.length / sector := by
      obtain ⟨k, hk⟩ := Nat.dvd_of_mod_eq_zero hwhole
      rw [hk, Nat.mul_div_cancel_left k hpos]
      rw [hk] at hj
      exact Nat.div_lt_of_lt_mul hj
    have hchunk : chunk_at sector data' (j / sector) = chunk_at sector data (j / sector) := by
      have hat := congrArg (·[j / sector]?) h
      simpa [chunks_exact, hlen, hi] using hat
    have hat := congrArg (·[j % sector]?) hchunk
    simp only [chunk_at, Bytes.getElem?_slice, if_pos (Nat.mod_lt j hpos)] at hat
    rwa [Nat.div_add_mod'] at hat
  · rw [List.getElem?_eq_none (by omega), List.getElem?_eq_none (by omega)]

/-- A range whose sectors were all checked is refused once any of them is damaged. -/
theorem verify_data_struck {fs : Mount} {csum_tree : Option TreeRoot} {logical : Nat} {data data' : Bytes}
    (hcrc : fs.sb.csum_type = .Crc32c) (h : verify_data sha256 fs csum_tree logical data = .ok .All)
    (hs : StruckSectors fs.sb.sector_size data data') :
    verify_data sha256 fs csum_tree logical data' =
      if data' = data then .ok .All else .error (.FsChecksumMismatch "btrfs file data") := by
  cases csum_tree with
  | none => cases h
  | some csum_root =>
    simp only [verify_data, hs.1] at h ⊢
    obtain ⟨hwhole, h⟩ := Run.guard_bind_ok.mp h
    obtain ⟨cursor, hsearch, h⟩ := Run.except_bind_ok.mp h
    obtain ⟨unchecked, hwalk, h⟩ := Run.except_bind_ok.mp h
    have hzero : unchecked = 0 := by
      by_contra hne
      rw [if_neg hne] at h
      cases h
    subst hzero
    rw [hcrc] at hwalk ⊢
    have hchunks : List.Forall₂ Struck (chunks_exact fs.sb.sector_size data)
        (chunks_exact fs.sb.sector_size data') := by
      unfold chunks_exact
      rw [hs.1, List.forall₂_map_left_iff, List.forall₂_map_right_iff]
      exact List.forall₂_same.mpr fun i _ => hs.2 i
    have hwalk' := verify_sectors_struck hchunks hwalk
    simp only [not_or, not_not] at hwhole
    have hsame : chunks_exact fs.sb.sector_size data' = chunks_exact fs.sb.sector_size data ↔ data' = data :=
      ⟨chunks_exact_ext (Nat.pos_of_ne_zero hwhole.1) hwhole.2.2 hs.1, fun heq => by rw [heq]⟩
    rw [if_neg (by simpa using hwhole), hsearch]
    simp only [bind, Except.bind, hwalk', hsame]
    by_cases hdata : data' = data
    · rw [if_pos hdata, if_pos hdata]
      rfl
    · rw [if_neg hdata, if_neg hdata]

/-- The sector at 12288 has this checksum. -/
def summedItems (sum : Bytes) : List LeafItem := [⟨csum_key 12288, sum⟩]

def summedMount (sum : Bytes) : Mount where
  device _ := .ok (.leaf ⟨1114112, 7, CSUM_TREE_OBJECTID, 1, [], [], summedItems sum⟩)
  sb := lateSuper
  chunks := ⟨[]⟩
  fs_tree_root := ⟨FS_TREE_OBJECTID, 1130496, 0, 256, 7, 0⟩
  active_batch := none
  has_open_writer := false

theorem summed_verifies {sum data : Bytes} (hsum : sum.length = 4) (hdata : data.length = 4096) :
    Verifies (summedMount sum) lateRoot (summedItems sum) 12288 data where
  tree := by
    have hread : seen (summedMount sum).read_node 1114112 =
        some (.leaf ⟨1114112, 7, CSUM_TREE_OBJECTID, 1, [], [], summedItems sum⟩) := by
      simp [seen, Mount.read_node, Mount.view, BtrfsView.read_node, Mount.blocks, summedMount, lateSuper, Node.parse,
        Node.bytenr, Node.metadata_uuid, Except.toOption, bind, Except.bind]
    refine ⟨0, by simp [Keyed.Sorted, summedItems], [1114112],
      ⟨1114112, 7, CSUM_TREE_OBJECTID, 1, [], [], summedItems sum⟩, hread, ?_, rfl⟩
    simp [summedItems, hsum, leaf_payload_bytes, summedMount, lateSuper, HEADER_SIZE, ITEM_SIZE]
  apart := .singleton (by simp [csumEnd, csum_key, summedMount, lateSuper, CsumType.size, hsum, Word.size])
  sector_pos := by simp [summedMount, lateSuper]
  aligned := (by decide : 12288 % 4096 = 0)
  whole := by simp [summedMount, lateSuper, hdata]
  addresses := by
    have hsize : 16384 ≤ Word.size := by decide +kernel
    omega

theorem summed_reads (sha256 : Digest) {data : Bytes} (hlen : data.length = 4096) :
    verify_data sha256 (summedMount (Bytes.le 4 (crc32c data))) (some lateRoot) 12288 data = .ok .All := by
  have hsum : (Bytes.le 4 (crc32c data)).length = 4 := Bytes.length_le 4 _
  have hsectors : ((summedMount (Bytes.le 4 (crc32c data))).request (summedItems (Bytes.le 4 (crc32c data)))
      12288 data).sectors = 1 := by
    simp [Request.sectors, Mount.request, hlen, summedMount, lateSuper]
  have hcovers : covers 4 4096 12288 ⟨csum_key 12288, Bytes.le 4 (crc32c data)⟩ = true := by
    simp [covers, csumEnd, csum_key]
  have hchunk : chunk_at 4096 data 0 = data := List.take_of_length_le (by simp [hlen])
  have hstored : storedCsum 4 4096 12288 ⟨csum_key 12288, Bytes.le 4 (crc32c data)⟩ = Bytes.le 4 (crc32c data) := by
    simp [storedCsum, csum_key, Bytes.slice]
  have hget : Bytes.get (Bytes.le 4 (crc32c data)) 0 4 = crc32c data := by
    rw [Bytes.get, Bytes.slice, List.drop_zero, List.take_of_length_le hsum.le]
    exact Bytes.unle_le_of_lt (crc32c_lt data)
  have hitems : csumItems (summedItems (Bytes.le 4 (crc32c data))) = summedItems (Bytes.le 4 (crc32c data)) := rfl
  rw [(summed_verifies hsum hlen).verify_data_reached sha256 ⟨_, List.mem_singleton.mpr rfl, le_rfl⟩, if_neg,
    Request.uncovered_eq_zero.mpr]
  · rfl
  · intro i hi
    rw [hsectors] at hi
    obtain rfl : i = 0 := by omega
    exact ⟨_, hitems ▸ List.mem_singleton.mpr rfl, hcovers⟩
  · rintro ⟨i, hi, it, hit, -, hbad⟩
    rw [hsectors] at hi
    obtain rfl : i = 0 := by omega
    obtain rfl := List.mem_singleton.mp (hitems ▸ hit)
    refine hbad ?_
    simp only [Request.target, Mount.request, summedMount, lateSuper, CsumType.size, CsumType.verify, Nat.zero_mul,
      Nat.add_zero]
    rw [hstored, hchunk, hget, decide_eq_true rfl]

/-- One sector with its checksum, and one byte of it overwritten. -/
theorem summed_struck :
    ∃ sum, verify_data lengthDigest (summedMount sum) (some lateRoot) 12288
      (Bytes.put (List.replicate 4096 0) 17 [5]) = .error (.FsChecksumMismatch "btrfs file data") := by
  have hlen : (List.replicate 4096 0 : Bytes).length = 4096 := List.length_replicate
  refine ⟨Bytes.le 4 (crc32c (List.replicate 4096 0)), ?_⟩
  have hstruck := Struck.put (List.replicate 4096 0) 17 [5] (by rw [hlen]; decide) (by decide)
  rw [verify_data_struck rfl (summed_reads _ hlen) (Struck.sectors hstruck _), if_neg (by decide)]

end Btrfs

end LuksAndroid

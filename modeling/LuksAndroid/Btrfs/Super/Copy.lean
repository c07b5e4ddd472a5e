import LuksAndroid.Btrfs.Super.Code

/-!
# One copy of the superblock

What makes a copy acceptable, and what a copy that was emitted over a template reads
as: the fields that are written, and the template's elsewhere.
-/

namespace LuksAndroid.Btrfs

open Word

namespace Superblock

variable {sha256 : Digest} {from_utf8_lossy : Bytes → String}

/-! ## Copies that are accepted -/

/-- What `check_copy` asks of a copy. -/
structure Accepted (sha256 : Digest) (b : Bytes) (offset : Nat) (csum_type : CsumType) : Prop where
  magic : b.slice 0x40 8 = MAGIC
  csum : CsumType.from_raw (b.get 0xc4 2) = .ok csum_type
  verified : csum_type.verify sha256 (b.take 32) (b.drop CSUM_START) = true
  bytenr : b.get 0x30 8 = offset
  sector_size : is_power_of_two (b.get 0x90 4) = true ∧ 512 ≤ b.get 0x90 4 ∧ b.get 0x90 4 ≤ 65536
  node_size : is_power_of_two (b.get 0x94 4) = true ∧ b.get 0x90 4 ≤ b.get 0x94 4 ∧
    b.get 0x94 4 ≤ 65536
  incompat : b.get 0xbc 8 &&& (size - 1 - SUPPORTED_INCOMPAT) = 0
  num_devices : b.get 0x88 8 = 1
  sys_array : b.get 0xa0 4 ≤ BTRFS_SYSTEM_CHUNK_ARRAY_SIZE

theorem check_copy_iff {b : Bytes} {offset : Nat} {csum_type : CsumType} :
    check_copy sha256 b offset = .ok csum_type ↔ Accepted sha256 b offset csum_type := by
  unfold check_copy
  simp only [Run.guard_bind_ok, Run.except_bind_ok]
  constructor
  · rintro ⟨h1, ct, hct, h2, h3, h4, h5, h6, h7, h8, h⟩
    cases h
    simp only [not_or, not_lt, not_not] at h1 h2 h3 h4 h5 h6 h7 h8
    exact ⟨h1, hct, h2, h3, h4, h5, h6, h7, h8⟩
  · intro h
    refine ⟨not_not.mpr h.magic, csum_type, h.csum, not_not.mpr h.verified, not_not.mpr h.bytenr, ?_, ?_,
      not_not.mpr h.incompat, not_not.mpr h.num_devices, not_lt.mpr h.sys_array, rfl⟩
    · simp only [not_or, not_not, not_lt]
      exact h.sector_size
    · simp only [not_or, not_not, not_lt]
      exact h.node_size

theorem parse_iff {raw : Bytes} {offset : Nat} {sb : Superblock} (hlen : raw.length = SUPER_SIZE) :
    parse sha256 from_utf8_lossy raw offset = .ok sb ↔
      ∃ csum_type, Accepted sha256 raw offset csum_type ∧ sb = fields_of from_utf8_lossy raw csum_type := by
  have htake : raw.take SUPER_SIZE = raw := List.take_of_length_le (by omega)
  unfold parse
  rw [if_neg (by omega)]
  simp only [htake]
  constructor
  · intro h
    obtain ⟨ct, hct, h⟩ := Run.except_bind_ok.mp h
    cases h
    exact ⟨ct, check_copy_iff.mp hct, rfl⟩
  · rintro ⟨ct, hct, rfl⟩
    exact Run.except_bind_ok.mpr ⟨ct, check_copy_iff.mpr hct, rfl⟩

/-! ## Superblocks that a mount holds -/

/-- The fields are as wide as on the device, and plausible. -/
structure Admitted (sb : Superblock) : Prop where
  generation : sb.generation < 2 ^ 64
  root : sb.root < 2 ^ 64
  chunk_root : sb.chunk_root < 2 ^ 64
  chunk_root_generation : sb.chunk_root_generation < 2 ^ 64
  log_root : sb.log_root < 2 ^ 64
  total_bytes : sb.total_bytes < 2 ^ 64
  bytes_used : sb.bytes_used < 2 ^ 64
  root_dir_objectid : sb.root_dir_objectid < 2 ^ 64
  num_devices : sb.num_devices = 1
  stripe_size : sb.stripe_size < 2 ^ 32
  incompat_lt : sb.incompat_flags < 2 ^ 64
  compat_ro_flags : sb.compat_ro_flags < 2 ^ 64
  root_level : sb.root_level < 256
  chunk_root_level : sb.chunk_root_level < 256
  sector_size : is_power_of_two sb.sector_size = true ∧ 512 ≤ sb.sector_size ∧ sb.sector_size ≤ 65536
  node_size : is_power_of_two sb.node_size = true ∧ sb.sector_size ≤ sb.node_size ∧ sb.node_size ≤ 65536
  incompat : sb.incompat_flags &&& (size - 1 - SUPPORTED_INCOMPAT) = 0
  uuid : sb.incompat_flags &&& INCOMPAT_METADATA_UUID = 0 → sb.metadata_uuid = sb.fsid

theorem Accepted.admitted {b : Bytes} {offset : Nat} {csum_type : CsumType}
    (h : Accepted sha256 b offset csum_type) : (fields_of from_utf8_lossy b csum_type).Admitted where
  generation := Bytes.get_lt _ _ 8
  root := Bytes.get_lt _ _ 8
  chunk_root := Bytes.get_lt _ _ 8
  chunk_root_generation := Bytes.get_lt _ _ 8
  log_root := Bytes.get_lt _ _ 8
  total_bytes := Bytes.get_lt _ _ 8
  bytes_used := Bytes.get_lt _ _ 8
  root_dir_objectid := Bytes.get_lt _ _ 8
  num_devices := h.num_devices
  stripe_size := Bytes.get_lt _ _ 4
  incompat_lt := Bytes.get_lt _ _ 8
  compat_ro_flags := Bytes.get_lt _ _ 8
  root_level := Bytes.get_lt _ _ 1
  chunk_root_level := Bytes.get_lt _ _ 1
  sector_size := h.sector_size
  node_size := h.node_size
  incompat := h.incompat
  uuid := by
    intro hflag
    simp only [fields_of, uuid_of] at hflag ⊢
    rw [if_neg (not_not.mpr hflag)]

/-! ## The emitted copy -/

/-- Where `emit_copy` writes. -/
def emittedSpans : List (Nat × Nat) :=
  [(0x40, 8), (0x30, 8), (0x48, 8), (0x50, 8), (0x58, 8), (0x60, 8), (0x70, 8), (0x78, 8), (0x80, 8),
    (0x88, 8), (0x90, 4), (0x94, 4), (0x98, 4), (0x9c, 4), (0xa4, 8), (0xb4, 8), (0xbc, 8), (0xc6, 1),
    (0xc7, 1)]

theorem emitted_fields_spans (sb : Superblock) (bytenr : Nat) :
    (sb.emitted_fields bytenr).map Bytes.span = emittedSpans := by
  simp [emitted_fields, Bytes.span, MAGIC, emittedSpans]

theorem length_calculate (t : CsumType) (data : Bytes) : (t.calculate sha256 data).length = 32 := by
  cases t with
  | Crc32c => simp [CsumType.calculate]
  | Sha256 => exact sha256.length_digest data

theorem verify_calculate (t : CsumType) (data : Bytes) :
    t.verify sha256 (t.calculate sha256 data) data = true := by
  cases t with
  | Crc32c =>
    have hlt := crc32c_lt data
    have hslice : (Bytes.le 4 (crc32c data) ++ List.replicate 28 0).slice 0 4 = Bytes.le 4 (crc32c data) := by
      simp [Bytes.slice]
    simp only [CsumType.verify, CsumType.calculate, Bytes.get, hslice, Bytes.unle_le]
    rw [Nat.mod_eq_of_lt (by omega)]
    simp
  | Sha256 =>
    have hlen := sha256.length_digest data
    have hslice : (sha256.digest data).slice 0 32 = sha256.digest data := by
      rw [Bytes.slice, List.drop_zero, List.take_of_length_le (by omega)]
    simp [CsumType.verify, CsumType.calculate, hslice]

variable {template : Bytes}

/-- The copy before its checksum. -/
def body (sb : Superblock) (template : Bytes) (bytenr : Nat) : Bytes :=
  template.patch (sb.emitted_fields bytenr)

theorem emit_copy_eq (ht : template.length = SUPER_SIZE) (sb : Superblock) (bytenr : Nat) :
    sb.emit_copy sha256 template bytenr = (sb.body template bytenr).put 0
      (sb.csum_type.calculate sha256 ((sb.body template bytenr).drop CSUM_START)) := by
  have hbuf : template_buf template = template := by
    rw [template_buf, List.take_of_length_le (by omega), ht]
    simp
  rw [emit_copy, hbuf]
  rfl

theorem fits_template (ht : template.length = SUPER_SIZE) :
    ∀ s ∈ emittedSpans, s.1 + s.2 ≤ template.length := by
  rw [ht]
  decide

theorem length_body (ht : template.length = SUPER_SIZE) (sb : Superblock) (bytenr : Nat) :
    (sb.body template bytenr).length = SUPER_SIZE := by
  rw [body, Bytes.length_patch, ht]
  rw [emitted_fields_spans]
  exact fits_template ht

theorem length_emit_copy (ht : template.length = SUPER_SIZE) (sb : Superblock) (bytenr : Nat) :
    (sb.emit_copy sha256 template bytenr).length = SUPER_SIZE := by
  have hlen := length_body ht sb bytenr
  rw [emit_copy_eq ht, Bytes.length_put, hlen]
  rw [length_calculate, hlen]
  decide

theorem slice_emit_copy (ht : template.length = SUPER_SIZE) (sb : Superblock) (bytenr : Nat)
    {offset : Nat} (n : Nat) (ho : 32 ≤ offset) :
    (sb.emit_copy sha256 template bytenr).slice offset n = (sb.body template bytenr).slice offset n := by
  rw [emit_copy_eq ht]
  refine Bytes.slice_put_of_apart ?_ (Or.inl ?_)
  · rw [length_calculate, length_body ht]
    decide
  · rw [length_calculate]
    exact ho

theorem get_written (ht : template.length = SUPER_SIZE) (sb : Superblock) (bytenr : Nat)
    {offset w x : Nat} (ho : 32 ≤ offset) (hx : x < 256 ^ w)
    (hmem : (offset, Bytes.le w x) ∈ sb.emitted_fields bytenr) :
    (sb.emit_copy sha256 template bytenr).get offset w = x := by
  have h := Bytes.slice_patch_mem (b := template) (sb.emitted_fields bytenr) hmem
    (by rw [emitted_fields_spans]; exact fits_template ht)
    (by rw [emitted_fields_spans]; decide)
  rw [Bytes.length_le] at h
  rw [Bytes.get, slice_emit_copy ht _ _ _ ho, body, h, Bytes.unle_le_of_lt hx]

theorem slice_kept (ht : template.length = SUPER_SIZE) (sb : Superblock) (bytenr : Nat)
    {offset n : Nat} (ho : 32 ≤ offset) (hapart : ∀ s ∈ emittedSpans, Bytes.Apart s (offset, n)) :
    (sb.emit_copy sha256 template bytenr).slice offset n = template.slice offset n := by
  rw [slice_emit_copy ht _ _ _ ho, body]
  refine Bytes.slice_patch_of_apart _ ?_
  rw [emitted_fields_spans]
  exact fun s hs => ⟨fits_template ht s hs, hapart s hs⟩

theorem get_kept (ht : template.length = SUPER_SIZE) (sb : Superblock) (bytenr : Nat)
    {offset w : Nat} (ho : 32 ≤ offset) (hapart : ∀ s ∈ emittedSpans, Bytes.Apart s (offset, w)) :
    (sb.emit_copy sha256 template bytenr).get offset w = template.get offset w := by
  rw [Bytes.get, Bytes.get, slice_kept ht _ _ ho hapart]

/-- The mount's fields where the copy writes them, the template's elsewhere. -/
def merged (from_utf8_lossy : Bytes → String) (sb : Superblock) (template : Bytes) (bytenr : Nat)
    (csum_type : CsumType) : Superblock :=
  { sb with
    bytenr
    fsid := template.slice 0x20 16
    dev_id := template.get 0xc9 8
    csum_type
    label := from_utf8_lossy (label_bytes template)
    metadata_uuid := uuid_of sb.incompat_flags template
    sys_chunk_array := template.slice SYS_CHUNK_ARRAY_OFFSET (template.get 0xa0 4) }

theorem fields_of_emit_copy (ht : template.length = SUPER_SIZE) {sb : Superblock} (h : sb.Admitted)
    {bytenr : Nat} (hb : bytenr < 2 ^ 64) (csum_type : CsumType) :
    fields_of from_utf8_lossy (sb.emit_copy sha256 template bytenr) csum_type =
      sb.merged from_utf8_lossy template bytenr csum_type := by
  have written : ∀ {offset w x : Nat}, 32 ≤ offset → x < 256 ^ w →
      (offset, Bytes.le w x) ∈ sb.emitted_fields bytenr →
      (sb.emit_copy sha256 template bytenr).get offset w = x := fun ho hx hm => get_written ht sb bytenr ho hx hm
  have kept : ∀ {offset n : Nat}, 32 ≤ offset → (∀ s ∈ emittedSpans, Bytes.Apart s (offset, n)) →
      (sb.emit_copy sha256 template bytenr).slice offset n = template.slice offset n :=
    fun ho ha => slice_kept ht sb bytenr ho ha
  have hnum := h.num_devices
  have hsector := h.sector_size
  have hnode := h.node_size
  have hflags : (sb.emit_copy sha256 template bytenr).get 0xbc 8 = sb.incompat_flags :=
    written (by omega) h.incompat_lt (by simp [emitted_fields])
  have hsize : (sb.emit_copy sha256 template bytenr).get 0xa0 4 = template.get 0xa0 4 :=
    get_kept ht sb bytenr (by omega) (by decide)
  have hfsid : (sb.emit_copy sha256 template bytenr).slice 0x20 16 = template.slice 0x20 16 :=
    kept (by omega) (by decide)
  have harray : (sb.emit_copy sha256 template bytenr).slice SYS_CHUNK_ARRAY_OFFSET (template.get 0xa0 4) =
      template.slice SYS_CHUNK_ARRAY_OFFSET (template.get 0xa0 4) := by
    refine kept (by decide) ?_
    intro s hs
    have hend : ∀ s ∈ emittedSpans, s.1 + s.2 ≤ SYS_CHUNK_ARRAY_OFFSET := by decide
    exact Or.inl (hend s hs)
  rw [fields_of, merged, hflags, hsize, hfsid, harray]
  simp only [Superblock.mk.injEq, true_and, and_true]
  refine ⟨written (by omega) hb (by simp [emitted_fields]),
    written (by omega) h.generation (by simp [emitted_fields]),
    written (by omega) h.root (by simp [emitted_fields]),
    written (by omega) h.chunk_root (by simp [emitted_fields]),
    written (by omega) h.chunk_root_generation (by simp [emitted_fields]),
    written (by omega) h.log_root (by simp [emitted_fields]),
    written (by omega) h.total_bytes (by simp [emitted_fields]),
    written (by omega) h.bytes_used (by simp [emitted_fields]),
    written (by omega) h.root_dir_objectid (by simp [emitted_fields]),
    written (by omega) (by omega) (by simp [emitted_fields]),
    get_kept ht sb bytenr (by omega) (by decide),
    written (by omega) (by omega) (by simp [emitted_fields]),
    written (by omega) (by omega) (by simp [emitted_fields]),
    written (by omega) h.stripe_size (by simp [emitted_fields]),
    written (by omega) h.compat_ro_flags (by simp [emitted_fields]),
    written (by omega) h.root_level (by simp [emitted_fields]),
    written (by omega) h.chunk_root_level (by simp [emitted_fields]),
    ?_,
    ?_⟩
  · -- the label
    rw [label_bytes, label_bytes, kept (by decide) (by decide)]
  · -- the metadata uuid
    rw [uuid_of, uuid_of, kept (by omega) (by decide), hfsid]

theorem verified_emit_copy (ht : template.length = SUPER_SIZE) (sb : Superblock) (bytenr : Nat) :
    sb.csum_type.verify sha256 ((sb.emit_copy sha256 template bytenr).take 32)
      ((sb.emit_copy sha256 template bytenr).drop CSUM_START) = true := by
  have hsum : (sb.csum_type.calculate sha256 ((sb.body template bytenr).drop CSUM_START)).length = 32 :=
    length_calculate _ _
  have hdrop : ∀ rest, (sb.csum_type.calculate sha256 ((sb.body template bytenr).drop CSUM_START) ++
      rest).drop CSUM_START = rest := fun rest => List.drop_left' hsum
  rw [emit_copy_eq ht, Bytes.put, List.take_zero, List.nil_append, hsum]
  rw [List.take_left' hsum, hdrop]
  exact verify_calculate _ _

theorem csum_emit_copy (ht : template.length = SUPER_SIZE) (sb : Superblock) (bytenr : Nat) :
    (sb.emit_copy sha256 template bytenr).get 0xc4 2 = template.get 0xc4 2 :=
  get_kept ht sb bytenr (by omega) (by decide)

/-- A copy over a template of the same checksum kind is accepted where it was emitted for. -/
theorem accepted_emit_copy (ht : template.length = SUPER_SIZE) {sb : Superblock} (h : sb.Admitted)
    {bytenr : Nat} (hb : bytenr < 2 ^ 64) (hsys : template.get 0xa0 4 ≤ BTRFS_SYSTEM_CHUNK_ARRAY_SIZE)
    (hcsum : CsumType.from_raw (template.get 0xc4 2) = .ok sb.csum_type) :
    Accepted sha256 (sb.emit_copy sha256 template bytenr) bytenr sb.csum_type := by
  have hfields : fields_of Utf8.text (sb.emit_copy sha256 template bytenr) sb.csum_type =
      sb.merged Utf8.text template bytenr sb.csum_type := fields_of_emit_copy ht h hb sb.csum_type
  rw [fields_of, merged] at hfields
  simp only [Superblock.mk.injEq] at hfields
  obtain ⟨-, hbytenr, -, -, -, -, -, -, -, -, hnum, -, hsector, hnode, -, hflags, -⟩ := hfields
  constructor
  case magic =>
    have hmem : (0x40, MAGIC) ∈ sb.emitted_fields bytenr := by simp [emitted_fields]
    have hslice := Bytes.slice_patch_mem (b := template) (sb.emitted_fields bytenr) hmem
      (by rw [emitted_fields_spans]; exact fits_template ht)
      (by rw [emitted_fields_spans]; decide)
    rw [slice_emit_copy ht _ _ _ (by omega)]
    exact hslice
  case csum => rw [csum_emit_copy ht, hcsum]
  case verified => exact verified_emit_copy ht sb bytenr
  case bytenr => exact hbytenr
  case sector_size => rw [hsector]; exact h.sector_size
  case node_size => rw [hsector, hnode]; exact h.node_size
  case incompat => rw [hflags]; exact h.incompat
  case num_devices => rw [hnum]; exact h.num_devices
  case sys_array => rwa [get_kept ht sb bytenr (by omega) (by decide)]

end Superblock

end LuksAndroid.Btrfs

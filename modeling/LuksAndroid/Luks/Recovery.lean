import LuksAndroid.Luks.Header
import LuksAndroid.Steady
import LuksAndroid.Store

/-!
# The two copies of the header

What `read_from` makes of a device that holds two sound copies, and of one on which a copy was damaged.
-/

namespace LuksAndroid.Luks

open Word
open Bytes (unbe)

/-! ## A copy on the device -/

/-- The bytes from `pos` on are a copy of the header, with the right checksum. -/
structure Copy (crates : Crates) (m : Nat → UInt8) (pos : Nat) (magic : Bytes) (h : Header) : Prop where
  magic : load m pos 6 = magic
  version : unbe (load m (pos + 6) 2) = 2
  size_in_range : size_in_range (unbe (load m (pos + 8) 8)) = true
  binary : h.binary = binary_header (load m pos BINARY_HEADER_LEN)
  checksum : verify_checksum crates (load m pos (unbe (load m (pos + 8) 8))) h.binary = .ok ()
  metadata : parse_json crates
    (load m (pos + BINARY_HEADER_LEN) (unbe (load m (pos + 8) 8) - BINARY_HEADER_LEN)) = .ok h.metadata

/-- A second copy at this offset within the first `n` bytes. -/
def Stands (crates : Crates) (m : Nat → UInt8) (po n off : Nat) (h : Header) : Prop :=
  off + unbe (load m (po + off + 8) 8) ≤ n ∧ h.source = .Secondary ∧ Copy crates m (po + off) MAGIC_SECONDARY h

section

variable {crates : Crates} {m m' : Nat → UInt8} {cap po n : Nat}

theorem size_in_range_iff {d : Nat} : size_in_range d = true ↔ MIN_HDR_SIZE ≤ d ∧ d ≤ MAX_HDR_SIZE := by
  unfold size_in_range
  rw [decide_eq_true_eq]

theorem drop_load_of_le {off : Nat} (h : off ≤ n) : (load m po n).drop off = load m (po + off) (n - off) := by
  have hdrop := drop_load m po off (n - off)
  rwa [show off + (n - off) = n by omega] at hdrop

theorem binary_header_load (m : Nat → UInt8) (pos : Nat) {k : Nat} (hk : 264 ≤ k) :
    binary_header (load m pos k) = binary_header (load m pos 264) := by
  have hslice : ∀ i j, i + j ≤ 264 → (load m pos k).slice i j = (load m pos 264).slice i j := by
    intro i j hij
    rw [slice_load m (by omega : i + j ≤ k), slice_load m hij]
  unfold binary_header
  rw [hslice 6 2 (by omega), hslice 8 8 (by omega), hslice 16 8 (by omega), hslice 24 48 (by omega),
    hslice 72 32 (by omega), hslice 104 64 (by omega), hslice 168 40 (by omega), hslice 208 48 (by omega),
    hslice 256 8 (by omega)]

theorem Copy.hdr_size {pos : Nat} {magic : Bytes} {h : Header} (hcopy : Copy crates m pos magic h) :
    h.binary.hdr_size = unbe (load m (pos + 8) 8) := by
  rw [hcopy.binary]
  simp only [binary_header]
  rw [slice_load m (by unfold BINARY_HEADER_LEN; omega)]

theorem parse_copy_ok {off : Nat} {magic : Bytes} {source : HeaderCopy} {h : Header} (hn : n < size) :
    parse_copy crates (load m po n) off magic source = .ok h ↔
      off + unbe (load m (po + off + 8) 8) ≤ n ∧ h.source = source ∧ Copy crates m (po + off) magic h := by
  unfold parse_copy
  simp only
  rw [Run.guard_bind_ok, Run.guard_bind_ok, length_load]
  constructor
  · rintro ⟨hstop, hlen, h⟩
    unfold BINARY_HEADER_LEN at hlen
    rw [drop_load_of_le (by omega), slice_load m (by omega), slice_load m (by omega), slice_load m (by omega),
      Run.guard_bind_ok, Run.guard_bind_ok, Run.guard_bind_ok, Run.guard_bind_ok, Run.guard_bind_ok] at h
    obtain ⟨hmagic, hversion, hrange₀, -, htotal, h⟩ := h
    rw [not_not] at hmagic hversion hrange₀
    rw [Nat.add_zero] at hmagic
    obtain ⟨u, hchecksum, h⟩ := Run.except_bind_ok.mp h
    obtain ⟨metadata, hmetadata, h⟩ := Run.except_bind_ok.mp h
    cases h
    have hrange := size_in_range_iff.mp hrange₀
    unfold MIN_HDR_SIZE at hrange
    rw [slice_load m (by omega)] at hchecksum
    rw [slice_load m (by unfold BINARY_HEADER_LEN; omega), ← Nat.add_assoc] at hmetadata
    have hbinary : binary_header (load m (po + off) (n - off)) =
        binary_header (load m (po + off) BINARY_HEADER_LEN) := by
      rw [binary_header_load m _ (by omega), binary_header_load m _ (show 264 ≤ BINARY_HEADER_LEN by decide)]
    refine ⟨by omega, rfl, hmagic, hversion, hrange₀, hbinary, hchecksum, hmetadata⟩
  · rintro ⟨hfits, rfl, hcopy⟩
    have hrange := size_in_range_iff.mp hcopy.size_in_range
    unfold MIN_HDR_SIZE at hrange
    have hstop : ¬ (off + BINARY_HEADER_LEN ≥ size) := by
      unfold BINARY_HEADER_LEN
      omega
    have hlen : ¬ (n < off + BINARY_HEADER_LEN) := by
      unfold BINARY_HEADER_LEN
      omega
    refine ⟨hstop, hlen, ?_⟩
    unfold BINARY_HEADER_LEN at hlen
    rw [drop_load_of_le (by omega), slice_load m (by omega), slice_load m (by omega), slice_load m (by omega),
      Run.guard_bind_ok, Run.guard_bind_ok, Run.guard_bind_ok, Run.guard_bind_ok, Run.guard_bind_ok]
    have hbinary : binary_header (load m (po + off) (n - off)) = h.binary := by
      rw [hcopy.binary, binary_header_load m _ (by omega),
        binary_header_load m _ (show 264 ≤ BINARY_HEADER_LEN by decide)]
    have hchecksum := hcopy.checksum
    have hmetadata := hcopy.metadata
    rw [← slice_load m (show off + unbe (load m (po + off + 8) 8) ≤ n by omega)] at hchecksum
    rw [Nat.add_assoc po off, ← slice_load m (show off + BINARY_HEADER_LEN +
      (unbe (load m (po + off + 8) 8) - BINARY_HEADER_LEN) ≤ n by unfold BINARY_HEADER_LEN; omega)] at hmetadata
    refine ⟨not_not.mpr hcopy.magic, not_not.mpr hcopy.version, not_not.mpr hcopy.size_in_range, by omega, by omega, ?_⟩
    rw [hbinary]
    refine Run.except_bind_ok.mpr ⟨(), hchecksum, ?_⟩
    exact Run.except_bind_ok.mpr ⟨h.metadata, hmetadata, rfl⟩

/-! ## The search -/

/-- The copy that the search meets at an offset. -/
def found (crates : Crates) (data : Bytes) (off : Nat) : Option Header :=
  if off + BINARY_HEADER_LEN > data.length then none
  else if data.slice off 6 ≠ MAGIC_SECONDARY then none
  else (parse_copy crates data off MAGIC_SECONDARY .Secondary).toOption

theorem search_secondary_eq (data : Bytes) (offs : List Nat) (last : LuksError) :
    (search_secondary crates data offs last).toOption = offs.findSome? (found crates data) := by
  induction offs generalizing last with
  | nil => rfl
  | cons off offs ih =>
    unfold search_secondary
    rw [List.findSome?_cons]
    unfold found
    split
    · exact ih last
    · split
      · exact ih last
      · cases parse_copy crates data off MAGIC_SECONDARY .Secondary with
        | ok h => rfl
        | error e => exact ih e

theorem found_eq_some {off : Nat} {h : Header} (hn : n < size) :
    found crates (load m po n) off = some h ↔ Stands crates m po n off h := by
  have hparse := @parse_copy_ok crates m po n off MAGIC_SECONDARY .Secondary h hn
  unfold found Stands
  rw [length_load]
  constructor
  · intro hfound
    split at hfound
    · cases hfound
    · split at hfound
      · cases hfound
      · cases hcopy : parse_copy crates (load m po n) off MAGIC_SECONDARY .Secondary with
        | error e =>
          rw [hcopy] at hfound
          cases hfound
        | ok h' =>
          rw [hcopy] at hfound
          cases hfound
          exact hparse.mp hcopy
  · intro hstands
    have hrange := size_in_range_iff.mp hstands.2.2.size_in_range
    unfold MIN_HDR_SIZE at hrange
    rw [if_neg (by unfold BINARY_HEADER_LEN; omega), slice_load m (by omega), if_neg (not_not.mpr hstands.2.2.magic),
      hparse.mpr hstands]
    rfl

theorem found_eq_none {off : Nat} (hn : n < size) :
    found crates (load m po n) off = none ↔ ∀ h, ¬ Stands crates m po n off h := by
  rw [Option.eq_none_iff_forall_ne_some]
  constructor
  · intro hnone h hstands
    exact hnone h ((found_eq_some hn).mpr hstands)
  · intro hnone h hfound
    exact hnone h ((found_eq_some hn).mp hfound)

/-- The offsets that are tried, by the size that the first copy gives. -/
def offsets (declared : Nat) : List Nat :=
  let first := if size_in_range declared then [declared] else []
  first ++ VALID_HDR_SIZES.filter fun size => size ∉ first

theorem candidates_eq (hn : 16 ≤ n) : candidates (load m po n) = offsets (unbe (load m (po + 8) 8)) := by
  unfold candidates offsets
  simp only [length_load, hn, true_and, slice_load m (show 8 + 8 ≤ n by omega)]

/-! ## The whole read -/

/-- What is made of the two copies, where `none` is an error. -/
def pick : Option Header → Option Header → Option Header
  | some p, some s => some (later p s)
  | some p, none => some p
  | none, s => s

theorem parse_toOption (data : Bytes) :
    (parse crates data).toOption = (detect_version data).toOption.bind fun version =>
      if version = 1 then none
      else pick (parse_copy crates data 0 MAGIC_PRIMARY .Primary).toOption (find_secondary crates data).toOption := by
  unfold parse
  cases detect_version data with
  | error e => rfl
  | ok version =>
    show (if version = 1 then _ else _ : Except LuksError Header).toOption = if version = 1 then none else _
    split
    · rfl
    · cases parse_copy crates data 0 MAGIC_PRIMARY .Primary with
      | ok p => cases find_secondary crates data with
        | ok s => rfl
        | error e => rfl
      | error e => cases find_secondary crates data with
        | ok s => rfl
        | error e => rfl

theorem detect_version_ok {pos v : Nat} (hn : 8 ≤ n) :
    detect_version (load m pos n) = .ok v ↔
      load m pos 6 = MAGIC_PRIMARY ∧ (v = 1 ∨ v = 2) ∧ (m (pos + 6)).toNat * 256 + (m (pos + 7)).toNat = v := by
  have hget : ∀ i, i < n → (load m pos n).getD i 0 = m (pos + i) := by
    intro i hi
    rw [List.getD_eq_getElem?_getD, getElem?_load, if_pos hi, Option.getD_some]
  unfold detect_version
  rw [Run.guard_bind_ok, length_load, slice_load m (by omega), hget 6 (by omega), hget 7 (by omega)]
  simp only
  rw [Run.guard_bind_ok]
  constructor
  · rintro ⟨-, hmagic, h⟩
    split at h
    · rename_i hversion
      cases h
      exact ⟨not_not.mp hmagic, hversion, rfl⟩
    · cases h
  · rintro ⟨hmagic, hversion, rfl⟩
    refine ⟨by omega, not_not.mpr hmagic, ?_⟩
    exact if_pos hversion

theorem unbe_two (pos : Nat) : unbe (load m pos 2) = (m pos).toNat * 256 + (m (pos + 1)).toNat := by
  show Bytes.unle [m (pos + 1), m (pos + 0)] = _
  simp only [Bytes.unle, Nat.add_zero]
  omega

def declaredSize (m : Nat → UInt8) (po : Nat) : Nat := unbe (load m (po + 8) 8)

/-- What `read_from` comes to. -/
def readFrom (crates : Crates) (cap : Nat) (m : Nat → UInt8) (po : Nat) : Option Header :=
  (seek cap m po BINARY_HEADER_LEN).bind fun _ =>
    (seek cap m po (span (declaredSize m po))).bind fun buf => (parse crates buf).toOption

theorem read_from_yields :
    Yields m (read_from crates (memory cap true).toReadAt po) (readFrom crates cap m po) := by
  unfold read_from readFrom
  refine (Yields.read cap po BINARY_HEADER_LEN).bind fun probe hprobe => ?_
  unfold seek at hprobe
  split at hprobe
  · obtain rfl := Option.some.inj hprobe
    rw [slice_load m (by unfold BINARY_HEADER_LEN; omega)]
    refine (Yields.read cap po _).bind fun buf _ => ?_
    exact .lift _
  · cases hprobe

theorem span_lt (declared : Nat) : span declared < size ∧ 2 * MIN_HDR_SIZE ≤ span declared := by
  unfold span
  split
  · rename_i h
    have := size_in_range_iff.mp h
    have hsize : MAX_HDR_SIZE * 2 < size := by decide +kernel
    omega
  · decide +kernel

/-- What the read comes to, in terms of the copies on the device. -/
theorem readFrom_eq (hroom : po + 2 * MIN_HDR_SIZE ≤ cap) :
    readFrom crates cap m po =
      if po + span (declaredSize m po) ≤ cap ∧ load m po 6 = MAGIC_PRIMARY ∧ unbe (load m (po + 6) 2) = 2 then
        pick (parse_copy crates (load m po (span (declaredSize m po))) 0 MAGIC_PRIMARY .Primary).toOption
          ((offsets (declaredSize m po)).findSome? (found crates (load m po (span (declaredSize m po)))))
      else none := by
  obtain ⟨hlt, hge⟩ := span_lt (declaredSize m po)
  have hfirst : seek cap m po BINARY_HEADER_LEN = some (load m po BINARY_HEADER_LEN) :=
    if_pos (by unfold MIN_HDR_SIZE at hroom; unfold BINARY_HEADER_LEN; omega)
  unfold MIN_HDR_SIZE at hge
  unfold readFrom seek
  rw [show (if po + BINARY_HEADER_LEN ≤ cap then some (load m po BINARY_HEADER_LEN) else none) =
    some (load m po BINARY_HEADER_LEN) from hfirst, Option.bind_some]
  by_cases hspan : po + span (declaredSize m po) ≤ cap
  · rw [if_pos hspan, Option.bind_some, parse_toOption]
    have hdetect := @detect_version_ok m (span (declaredSize m po)) po
    by_cases hsound : load m po 6 = MAGIC_PRIMARY ∧ unbe (load m (po + 6) 2) = 2
    · rw [unbe_two] at hsound
      rw [if_pos ⟨hspan, hsound.1, by rw [unbe_two]; exact hsound.2⟩,
        (hdetect (by omega)).mpr ⟨hsound.1, .inr rfl, hsound.2⟩]
      show (if (2 : Nat) = 1 then none else _) = _
      rw [if_neg (by decide)]
      unfold find_secondary
      rw [search_secondary_eq, candidates_eq (by omega)]
      rfl
    · rw [if_neg (fun h => hsound h.2)]
      rcases hversion : detect_version (load m po (span (declaredSize m po))) with e | v
      · rfl
      · obtain ⟨hmagic, rfl | rfl, hv⟩ := (hdetect (by omega)).mp hversion
        · rfl
        · exact absurd ⟨hmagic, by rw [unbe_two]; exact hv⟩ hsound
  · rw [if_neg hspan, if_neg (fun h => hspan h.1)]
    rfl

/-! ## Two sound copies -/

/-- Both copies as cryptsetup writes them: of one of its sizes, with NULs behind the JSON text. -/
structure TwoHeaders (crates : Crates) (cap : Nat) (m : Nat → UInt8) (po S : Nat) (p s : Header) : Prop where
  size : S ∈ VALID_HDR_SIZES
  room : po + 2 * S ≤ cap
  primary : Copy crates m po MAGIC_PRIMARY p
  primary_source : p.source = .Primary
  primary_size : declaredSize m po = S
  secondary : Copy crates m (po + S) MAGIC_SECONDARY s
  secondary_source : s.source = .Secondary
  secondary_size : declaredSize m (po + S) = S
  padded : ∀ i j, BINARY_HEADER_LEN ≤ i → i ≤ j → j < S → m (po + i) = 0 → m (po + j) = 0

/-- The first copy still says that it is one, twice the size that it gives lies on the device, and the
first copy that the search meets there is the second copy as it was written. -/
def Findable (crates : Crates) (cap : Nat) (m : Nat → UInt8) (po : Nat) (s : Header) : Prop :=
  po + span (declaredSize m po) ≤ cap ∧ load m po 6 = MAGIC_PRIMARY ∧ unbe (load m (po + 6) 2) = 2 ∧
  ∃ before off behind, offsets (declaredSize m po) = before ++ off :: behind ∧
    Stands crates m po (span (declaredSize m po)) off s ∧
    ∀ o ∈ before, ∀ h, ¬ Stands crates m po (span (declaredSize m po)) o h

theorem valid_sizes {S : Nat} (hS : S ∈ VALID_HDR_SIZES) :
    size_in_range S = true ∧ S ≤ MAX_HDR_SIZE ∧ MIN_HDR_SIZE ≤ S := by
  have hall : ∀ S ∈ VALID_HDR_SIZES, MIN_HDR_SIZE ≤ S ∧ S ≤ MAX_HDR_SIZE := by decide
  obtain ⟨hmin, hmax⟩ := hall S hS
  exact ⟨size_in_range_iff.mpr ⟨hmin, hmax⟩, hmax, hmin⟩

/-- The sizes double, so that no later one lies within twice an earlier one. -/
theorem valid_sizes_double {S o : Nat} (hS : S ∈ VALID_HDR_SIZES) (ho : o ∈ VALID_HDR_SIZES) (hlt : S < o) :
    2 * S ≤ o := by
  have hall : ∀ S ∈ VALID_HDR_SIZES, ∀ o ∈ VALID_HDR_SIZES, S < o → 2 * S ≤ o := by decide
  exact hall S hS o ho hlt

theorem span_of_valid {S : Nat} (hS : S ∈ VALID_HDR_SIZES) : span S = 2 * S := by
  unfold span
  rw [if_pos (valid_sizes hS).1, Nat.mul_comm]

theorem offsets_of_valid {S : Nat} (hS : S ∈ VALID_HDR_SIZES) :
    offsets S = S :: VALID_HDR_SIZES.filter fun o => o ≠ S := by
  unfold offsets
  rw [if_pos (valid_sizes hS).1]
  simp

theorem mem_offsets {S declared : Nat} (hS : S ∈ VALID_HDR_SIZES) : S ∈ offsets declared := by
  unfold offsets
  by_cases h : S ∈ (if size_in_range declared then [declared] else [])
  · exact List.mem_append_left _ h
  · exact List.mem_append_right _ (List.mem_filter.mpr ⟨hS, decide_eq_true h⟩)

theorem Copy.congr {pos : Nat} {magic : Bytes} {h : Header} (hcopy : Copy crates m pos magic h)
    (hsame : ∀ i < unbe (load m (pos + 8) 8), m (pos + i) = m' (pos + i)) : Copy crates m' pos magic h := by
  have hrange := size_in_range_iff.mp hcopy.size_in_range
  unfold MIN_HDR_SIZE at hrange
  have hload : ∀ i k, i + k ≤ unbe (load m (pos + 8) 8) → load m (pos + i) k = load m' (pos + i) k := by
    intro i k hik
    apply load_congr
    intro j hj
    have := hsame (i + j) (by omega)
    rwa [← Nat.add_assoc] at this
  have hbase : ∀ k, k ≤ unbe (load m (pos + 8) 8) → load m pos k = load m' pos k := by
    intro k hk
    have := hload 0 k (by omega)
    rwa [Nat.add_zero] at this
  have hsize := hload 8 8 (by omega)
  constructor
  · rw [← hbase 6 (by omega)]
    exact hcopy.magic
  · rw [← hload 6 2 (by omega)]
    exact hcopy.version
  · rw [← hsize]
    exact hcopy.size_in_range
  · rw [← hbase BINARY_HEADER_LEN (by unfold BINARY_HEADER_LEN; omega)]
    exact hcopy.binary
  · rw [← hsize, ← hbase _ le_rfl]
    exact hcopy.checksum
  · rw [← hsize, ← hload BINARY_HEADER_LEN _ (by unfold BINARY_HEADER_LEN; omega)]
    exact hcopy.metadata

theorem Copy.unique {pos : Nat} {magic : Bytes} {h h' : Header} (hcopy : Copy crates m pos magic h)
    (hcopy' : Copy crates m pos magic h') (hsource : h.source = h'.source) : h = h' := by
  have hmetadata := hcopy.metadata.symm.trans hcopy'.metadata
  have hbinary := hcopy.binary.trans hcopy'.binary.symm
  cases h
  cases h'
  cases hmetadata
  cases hbinary
  cases hsource
  rfl

theorem takeWhile_getD {l : Bytes} {i : Nat} (hi : i < l.length) (h : ∀ j ≤ i, l.getD j 0 ≠ 0) :
    i < (l.takeWhile fun b => b ≠ 0).length ∧ ∀ j ≤ i, (l.takeWhile fun b => b ≠ 0).getD j 0 = l.getD j 0 := by
  induction l generalizing i with
  | nil => simp at hi
  | cons b l ih =>
    have hb : b ≠ 0 := h 0 (Nat.zero_le _)
    rw [List.takeWhile_cons_of_pos (by simpa using hb)]
    cases i with
    | zero =>
      refine ⟨by simp, fun j hj => ?_⟩
      obtain rfl : j = 0 := by omega
      rfl
    | succ i =>
      obtain ⟨hlen, hget⟩ := ih (Nat.lt_of_succ_lt_succ hi) fun j hj => h (j + 1) (by omega)
      refine ⟨Nat.succ_lt_succ hlen, fun j hj => ?_⟩
      cases j with
      | zero => rfl
      | succ j => exact hget j (by omega)

/-- The magic of the second copy is in no JSON text, since it is no text in UTF-8. -/
theorem TwoHeaders.no_stray {S : Nat} {p s : Header} (h : TwoHeaders crates cap m po S p s) {o : Nat}
    (ho : BINARY_HEADER_LEN ≤ o) (hoS : o + 6 ≤ S) : load m (po + o) 6 ≠ MAGIC_SECONDARY := by
  intro hmagic
  have hbyte : ∀ k < 6, m (po + o + k) = MAGIC_SECONDARY.getD k 0 := by
    intro k hk
    rw [← hmagic, List.getD_eq_getElem?_getD, getElem?_load, if_pos hk, Option.getD_some]
  have hthree : m (po + o + 3) = 0x4C := hbyte 3 (by omega)
  have hfour : m (po + o + 4) = 0xBA := hbyte 4 (by omega)
  have hmetadata := h.primary.metadata
  have hsize : unbe (load m (po + 8) 8) = S := h.primary_size
  rw [hsize] at hmetadata
  unfold parse_json at hmetadata
  simp only at hmetadata
  split at hmetadata
  · rename_i hvalid
    have harea : ∀ i, i < S - BINARY_HEADER_LEN →
        (load m (po + BINARY_HEADER_LEN) (S - BINARY_HEADER_LEN)).getD i 0 = m (po + BINARY_HEADER_LEN + i) := by
      intro i hi
      rw [List.getD_eq_getElem?_getD, getElem?_load, if_pos hi, Option.getD_some]
    have hnonzero : ∀ j ≤ o + 4 - BINARY_HEADER_LEN,
        (load m (po + BINARY_HEADER_LEN) (S - BINARY_HEADER_LEN)).getD j 0 ≠ 0 := by
      intro j hj hzero
      rw [harea j (by omega), Nat.add_assoc] at hzero
      have := h.padded (BINARY_HEADER_LEN + j) (o + 4) (by omega) (by omega) (by omega) hzero
      rw [← Nat.add_assoc, hfour] at this
      exact absurd this (by decide)
    obtain ⟨hlen, hget⟩ := takeWhile_getD (by rw [length_load]; omega) hnonzero
    have hascii := hget (o + 3 - BINARY_HEADER_LEN) (by omega)
    have hcont := hget (o + 4 - BINARY_HEADER_LEN) le_rfl
    rw [harea _ (by omega), show po + BINARY_HEADER_LEN + (o + 3 - BINARY_HEADER_LEN) = po + o + 3 by omega, hthree]
      at hascii
    rw [harea _ (by omega), show po + BINARY_HEADER_LEN + (o + 4 - BINARY_HEADER_LEN) = po + o + 4 by omega, hfour]
      at hcont
    rw [show o + 4 - BINARY_HEADER_LEN = o + 3 - BINARY_HEADER_LEN + 1 by omega] at hlen hcont
    refine Utf8.not_cont_of_ascii hvalid hlen ?_ ?_
    · rw [hascii]
      decide
    · rw [hcont]
      decide
  · cases hmetadata

theorem TwoHeaders.intact {S : Nat} {p s : Header} (h : TwoHeaders crates cap m po S p s) :
    readFrom crates cap m po = some (later p s) := by
  obtain ⟨-, hmax, hmin⟩ := valid_sizes h.size
  have hsize : unbe (load m (po + 8) 8) = S := h.primary_size
  have hsize' : unbe (load m (po + S + 8) 8) = S := h.secondary_size
  have hlt := (span_lt S).1
  rw [span_of_valid h.size] at hlt
  have hroom := h.room
  have hprimary : parse_copy crates (load m po (2 * S)) 0 MAGIC_PRIMARY .Primary = .ok p := by
    refine (parse_copy_ok hlt).mpr ⟨?_, h.primary_source, h.primary⟩
    rw [Nat.add_zero, hsize]
    omega
  have hsecond : found crates (load m po (2 * S)) S = some s := by
    refine (found_eq_some hlt).mpr ⟨?_, h.secondary_source, h.secondary⟩
    rw [hsize']
    omega
  rw [readFrom_eq (by omega), h.primary_size, span_of_valid h.size, offsets_of_valid h.size,
    if_pos ⟨hroom, h.primary.magic, h.primary.version⟩, hprimary, List.findSome?_cons, hsecond]
  rfl

theorem TwoHeaders.secondary_damaged {S : Nat} {p s : Header} (h : TwoHeaders crates cap m po S p s)
    (hsame : ∀ i, ¬ (po + S ≤ i ∧ i < po + 2 * S) → m' i = m i)
    (hfails : ∀ h', ¬ Copy crates m' (po + S) MAGIC_SECONDARY h') : readFrom crates cap m' po = some p := by
  obtain ⟨-, hmax, hmin⟩ := valid_sizes h.size
  have hsize : unbe (load m (po + 8) 8) = S := h.primary_size
  have hlt := (span_lt S).1
  rw [span_of_valid h.size] at hlt
  have hroom := h.room
  have hMIN : MIN_HDR_SIZE = 16384 := rfl
  have hBIN : BINARY_HEADER_LEN = 4096 := rfl
  have hcopy : Copy crates m' po MAGIC_PRIMARY p := by
    refine h.primary.congr fun i hi => (hsame _ ?_).symm
    omega
  have hsize' : declaredSize m' po = S := by
    unfold declaredSize
    rw [load_congr fun i hi => hsame _ (by omega)]
    exact hsize
  have hprimary : parse_copy crates (load m' po (2 * S)) 0 MAGIC_PRIMARY .Primary = .ok p := by
    refine (parse_copy_ok hlt).mpr ⟨?_, h.primary_source, hcopy⟩
    show 0 + declaredSize m' po ≤ 2 * S
    omega
  have hnone : (offsets S).findSome? (found crates (load m' po (2 * S))) = none := by
    rw [offsets_of_valid h.size, List.findSome?_eq_none_iff]
    intro o ho
    rw [found_eq_none hlt]
    intro h' hstands
    rcases List.mem_cons.mp ho with rfl | ho
    · exact hfails h' hstands.2.2
    · have hvalid := (List.mem_filter.mp ho).1
      have hne : o ≠ S := by simpa using (List.mem_filter.mp ho).2
      have hmin' := (valid_sizes hvalid).2.2
      have hrange := size_in_range_iff.mp hstands.2.2.size_in_range
      rcases Nat.lt_or_gt_of_ne hne with hless | hmore
      · -- Within the first copy, which is as it was.
        have hdouble := valid_sizes_double hvalid h.size hless
        refine h.no_stray (o := o) (by omega) (by omega) ?_
        rw [← hstands.2.2.magic]
        exact (load_congr fun i hi => hsame _ (by omega)).symm
      · have hdouble := valid_sizes_double h.size hvalid hmore
        have := hstands.1
        omega
  rw [readFrom_eq (by omega), hsize', span_of_valid h.size, if_pos ⟨hroom, hcopy.magic, hcopy.version⟩, hprimary, hnone]
  rfl

theorem TwoHeaders.primary_damaged {S : Nat} {p s : Header} (h : TwoHeaders crates cap m po S p s)
    (hfails : ∀ h', ¬ Copy crates m' po MAGIC_PRIMARY h') :
    readFrom crates cap m' po = some s ↔ Findable crates cap m' po s := by
  obtain ⟨-, hmax, hmin⟩ := valid_sizes h.size
  have hroom := h.room
  obtain ⟨hlt, hge⟩ := span_lt (declaredSize m' po)
  have hprimary : (parse_copy crates (load m' po (span (declaredSize m' po))) 0 MAGIC_PRIMARY .Primary).toOption =
      none := by
    cases hparse : parse_copy crates (load m' po (span (declaredSize m' po))) 0 MAGIC_PRIMARY .Primary with
    | error e => rfl
    | ok h' =>
      have := ((parse_copy_ok hlt).mp hparse).2.2
      exact absurd this (hfails h')
  rw [readFrom_eq (by omega), hprimary]
  unfold Findable
  constructor
  · intro hread
    split at hread
    · rename_i hsound
      obtain ⟨before, off, behind, hoffsets, hfound, hnone⟩ := List.findSome?_eq_some_iff.mp hread
      refine ⟨hsound.1, hsound.2.1, hsound.2.2, before, off, behind, hoffsets, (found_eq_some hlt).mp hfound, ?_⟩
      intro o ho
      exact (found_eq_none hlt).mp (hnone o ho)
    · cases hread
  · rintro ⟨hspan, hmagic, hversion, before, off, behind, hoffsets, hstands, hnone⟩
    rw [if_pos ⟨hspan, hmagic, hversion⟩]
    refine List.findSome?_eq_some_iff.mpr ⟨before, off, behind, hoffsets, (found_eq_some hlt).mpr hstands, ?_⟩
    intro o ho
    exact (found_eq_none hlt).mpr (hnone o ho)

/-- Where the damage plants no other copy, the second one is found if it lies within the span. -/
theorem TwoHeaders.findable_iff {S : Nat} {p s : Header} (h : TwoHeaders crates cap m po S p s)
    (hsame : ∀ i, ¬ (po ≤ i ∧ i < po + S) → m' i = m i)
    (hplanted : ∀ o h', o ≠ S → ¬ Stands crates m' po (span (declaredSize m' po)) o h') :
    Findable crates cap m' po s ↔
      po + span (declaredSize m' po) ≤ cap ∧ load m' po 6 = MAGIC_PRIMARY ∧ unbe (load m' (po + 6) 2) = 2 ∧
        2 * S ≤ span (declaredSize m' po) := by
  obtain ⟨-, hmax, hmin⟩ := valid_sizes h.size
  have hMIN : MIN_HDR_SIZE = 16384 := rfl
  have hsize : unbe (load m (po + S + 8) 8) = S := h.secondary_size
  have hcopy : Copy crates m' (po + S) MAGIC_SECONDARY s := by
    refine h.secondary.congr fun i hi => (hsame _ ?_).symm
    omega
  have hsize' : unbe (load m' (po + S + 8) 8) = S := by
    rw [load_congr fun i hi => hsame _ (by omega)]
    exact hsize
  constructor
  · rintro ⟨hspan, hmagic, hversion, before, off, behind, -, hstands, -⟩
    obtain rfl : off = S := by
      by_contra hne
      exact hplanted off s hne hstands
    have := hstands.1
    exact ⟨hspan, hmagic, hversion, by omega⟩
  · rintro ⟨hspan, hmagic, hversion, hfits⟩
    have hmem : S ∈ offsets (declaredSize m' po) := mem_offsets h.size
    obtain ⟨before, behind, hoffsets, hbefore⟩ := List.eq_append_cons_of_mem hmem
    refine ⟨hspan, hmagic, hversion, before, S, behind, hoffsets, ⟨by omega, h.secondary_source, hcopy⟩, ?_⟩
    intro o ho h' hstands
    refine hplanted o h' ?_ hstands
    rintro rfl
    exact hbefore ho

/-- `read_from` returns this header, whatever was asked of the device before. -/
def Returns (crates : Crates) (cap : Nat) (m : Nat → UInt8) (po : Nat) (h : Header) : Prop :=
  ∀ io : Io (Nat → UInt8), io.state = m → ∃ io', read_from crates (memory cap true).toReadAt po io = .ok h io'

theorem returns_iff {h : Header} : Returns crates cap m po h ↔ readFrom crates cap m po = some h := by
  have hyields := @read_from_yields crates m cap po
  constructor
  · intro hreturns
    obtain ⟨io', hrun⟩ := hreturns ⟨m, [], false⟩ rfl
    obtain ⟨io₁, -, ⟨a, ha, hrun'⟩ | ⟨-, e, herr⟩⟩ := hyields ⟨m, [], false⟩ rfl
    · rw [hrun] at hrun'
      cases hrun'
      exact ha
    · rw [hrun] at herr
      cases herr
  · intro hread io hio
    rw [hread] at hyields
    exact hyields.run io hio

end

/-! ## A formatted device -/

/-- Two copies without any keyslot. -/
def emptyText : Bytes :=
  Bytes.le 31 0x64222c7d7b3a2273746e656d676573222c7d7b3a2273746f6c7379656b227b ++
    Bytes.le 31 0x657a69735f6e6f736a227b3a226769666e6f63222c7d7b3a22737473656769 ++
    Bytes.le 31 0x7d7d2230223a22657a69735f73746f6c7379656b222c223838323231223a22

def headerBytes (magic : Bytes) (seqid hdr_offset : Nat) (checksum : Bytes) : Bytes :=
  magic ++ [0, 2] ++ (Bytes.le 8 16384).reverse ++ (Bytes.le 8 seqid).reverse ++ List.replicate 48 0 ++ CHECKSUM_ALG ++
    List.replicate 178 0 ++ (Bytes.le 8 hdr_offset).reverse ++ List.replicate 184 0 ++ checksum

/-- The SHA-256 of the two copies. -/
def checksumOf (copy : HeaderCopy) : Bytes :=
  if copy = .Primary then Bytes.le 32 0x6059ace7968624536e95e0b3790c0447017365d8937c538ff6c68185ca26ce78
  else Bytes.le 32 0xa3cf8fadaa5802827e2235a4f142cbbdea0e0f3244e6f5e66db729fdee79d494

def formatted (i : Nat) : UInt8 :=
  if i < 4096 then (headerBytes MAGIC_PRIMARY 4 0 (checksumOf .Primary)).getD i 0
  else if i < 16384 then emptyText.getD (i - 4096) 0
  else if i < 20480 then (headerBytes MAGIC_SECONDARY 5 16384 (checksumOf .Secondary)).getD (i - 16384) 0
  else emptyText.getD (i - 20480) 0

/-- SHA-256 and the parser on the two copies, which differ in their first byte. -/
def recordedCrates : Crates where
  sha256 b := checksumOf (if b.getD 0 0 = 0x4C then .Primary else .Secondary)
  from_str text := if text = emptyText then .ok ⟨[], [], []⟩ else .error (.JsonParse "not recorded")

def formattedHeader (pos : Nat) (source : HeaderCopy) : Header :=
  ⟨binary_header (load formatted pos BINARY_HEADER_LEN), ⟨[], [], []⟩, source⟩

theorem first_of_copy (m : Nat → UInt8) {pos n : Nat} (hn : 512 ≤ n) :
    ((load m pos n).put 448 (List.replicate 64 0)).getD 0 0 = m pos := by
  rw [List.getD_eq_getElem?_getD, Bytes.getElem?_put (by rw [length_load, List.length_replicate]; omega),
    if_neg (by simp), getElem?_load, if_pos (by omega), Option.getD_some, Nat.add_zero]

theorem recorded_sha256 {b : Bytes} {x : UInt8} (h : b.getD 0 0 = x) :
    recordedCrates.sha256 b = recordedCrates.sha256 [x] := by
  subst h
  rfl

theorem text_of_area (m : Nat → UInt8) {pos n : Nat} (hn : 94 ≤ n)
    (hshort : ((load m pos 94).takeWhile fun b => b ≠ 0).length ≠ 94) :
    ((load m pos n).takeWhile fun b => b ≠ 0) = (load m pos 94).takeWhile fun b => b ≠ 0 := by
  obtain ⟨r, rfl⟩ : ∃ r, n = 94 + r := ⟨n - 94, by omega⟩
  rw [load_add, List.takeWhile_append, if_neg (by rwa [length_load])]

theorem formatted_copy {pos : Nat} {magic : Bytes} {source : HeaderCopy}
    (hmagic : load formatted pos 6 = magic) (hversion : unbe (load formatted (pos + 6) 2) = 2)
    (hsize : unbe (load formatted (pos + 8) 8) = 16384)
    (halg : (binary_header (load formatted pos 264)).checksum_alg = CHECKSUM_ALG)
    (hchecksum : load formatted (pos + 448) 32 = recordedCrates.sha256 [formatted pos])
    (htext : ((load formatted (pos + BINARY_HEADER_LEN) 94).takeWhile fun b => b ≠ 0) = emptyText) :
    Copy recordedCrates formatted pos magic (formattedHeader pos source) where
  magic := hmagic
  version := hversion
  size_in_range := by
    rw [hsize]
    decide
  binary := rfl
  checksum := by
    have hsha : recordedCrates.sha256 ((load formatted pos 16384).put 448 (List.replicate 64 0)) =
        recordedCrates.sha256 [formatted pos] := recorded_sha256 (first_of_copy formatted (by omega))
    have halg' : (formattedHeader pos source).binary.checksum_alg = CHECKSUM_ALG := by
      show (binary_header (load formatted pos BINARY_HEADER_LEN)).checksum_alg = CHECKSUM_ALG
      rw [binary_header_load formatted pos (by decide)]
      exact halg
    unfold verify_checksum
    rw [hsize, if_neg (not_not.mpr halg'), slice_load formatted (by omega), hsha, if_pos hchecksum]
  metadata := by
    have hlen : emptyText.length = 93 := by decide
    unfold parse_json
    rw [hsize, text_of_area formatted (by decide) (by rw [htext, hlen]; decide), htext]
    show (if Utf8.valid emptyText = true then recordedCrates.from_str emptyText else .error .JsonNotUtf8) =
      .ok (⟨[], [], []⟩ : Metadata)
    decide

theorem formatted_two_headers :
    TwoHeaders recordedCrates 32768 formatted 0 16384 (formattedHeader 0 .Primary)
    (formattedHeader 16384 .Secondary) where
  size := by decide
  room := by omega
  primary := formatted_copy (by decide) (by decide) (by decide) (by decide)
    (by decide +kernel) (by decide +kernel)
  primary_source := rfl
  primary_size := by decide
  secondary := formatted_copy (by decide) (by decide) (by decide) (by decide)
    (by decide +kernel) (by decide +kernel)
  secondary_source := rfl
  secondary_size := by decide
  padded := by
    intro i j hi hij hj hzero
    have hlen : emptyText.length = 93 := by decide
    have hnonzero : ∀ k < 93, emptyText.getD k 0 ≠ 0 := by decide
    have hBIN : BINARY_HEADER_LEN = 4096 := rfl
    have hget : ∀ k, 4096 ≤ k → k < 16384 → formatted k = emptyText.getD (k - 4096) 0 := by
      intro k hk hk'
      unfold formatted
      rw [if_neg (by omega), if_pos hk']
    rw [Nat.zero_add] at hzero ⊢
    rw [hget i (by omega) (by omega)] at hzero
    rw [hget j (by omega) hj, List.getD_eq_default _ _ ?_]
    by_contra hlt
    exact hnonzero (i - 4096) (by omega) hzero

/-- The first byte of the device was damaged. -/
def struck (i : Nat) : UInt8 := if i = 0 then 0 else formatted i

theorem struck_fails (h : Header) : ¬ Copy recordedCrates struck 0 MAGIC_PRIMARY h := by
  intro hcopy
  have hmagic := hcopy.magic
  revert hmagic
  decide

/-- The first byte of the checksum was damaged. -/
def scratched (i : Nat) : UInt8 := if i = 448 then 0 else formatted i

theorem scratched_fails (h : Header) : ¬ Copy recordedCrates scratched 0 MAGIC_PRIMARY h := by
  intro hcopy
  have hsize : unbe (load scratched (0 + 8) 8) = 16384 := by decide
  have halg : h.binary.checksum_alg = CHECKSUM_ALG := by
    rw [hcopy.binary, binary_header_load scratched 0 (by decide)]
    decide
  have hsha : recordedCrates.sha256 ((load scratched 0 16384).put 448 (List.replicate 64 0)) =
      recordedCrates.sha256 [scratched 0] := recorded_sha256 (first_of_copy scratched (by omega))
  have hchecksum := hcopy.checksum
  have hdiffers : load scratched (0 + 448) 32 ≠ recordedCrates.sha256 [scratched 0] := by decide
  unfold verify_checksum at hchecksum
  rw [hsize, if_neg (not_not.mpr halg), slice_load scratched (by omega), hsha, if_neg hdiffers] at hchecksum
  cases hchecksum

theorem scratched_findable :
    Findable recordedCrates 32768 scratched 0 (formattedHeader 16384 .Secondary) := by
  have hsecond : ∀ i, 16384 ≤ i → formatted i = scratched i := by
    intro i hi
    exact (if_neg (by omega)).symm
  refine ⟨by decide, by decide, by decide, [], 16384, _, rfl, ⟨by decide, rfl, ?_⟩, ?_⟩
  · exact formatted_two_headers.secondary.congr fun i _ => hsecond _ (by omega)
  · simp

/-- Two sound copies give the later one, and a damaged second copy gives the first. Of a damaged first copy
the magic, the version and a size that covers the second copy have to be left. -/
theorem header_recovered_iff {crates : Crates} {cap po S : Nat} {m : Nat → UInt8} {p s : Header}
    (h : TwoHeaders crates cap m po S p s) :
    Returns crates cap m po (later p s) ∧
    (∀ m' : Nat → UInt8, (∀ i, ¬ (po + S ≤ i ∧ i < po + 2 * S) → m' i = m i) →
      (∀ h', ¬ Copy crates m' (po + S) MAGIC_SECONDARY h') → Returns crates cap m' po p) ∧
    (∀ m' : Nat → UInt8, (∀ i, ¬ (po ≤ i ∧ i < po + S) → m' i = m i) →
      (∀ h', ¬ Copy crates m' po MAGIC_PRIMARY h') →
      (Returns crates cap m' po s ↔ Findable crates cap m' po s)) ∧
    ∀ m' : Nat → UInt8, (∀ i, ¬ (po ≤ i ∧ i < po + S) → m' i = m i) →
      (∀ o h', o ≠ S → ¬ Stands crates m' po (span (declaredSize m' po)) o h') →
      (Findable crates cap m' po s ↔
        po + span (declaredSize m' po) ≤ cap ∧ load m' po 6 = MAGIC_PRIMARY ∧ unbe (load m' (po + 6) 2) = 2 ∧
          2 * S ≤ span (declaredSize m' po)) := by
  refine ⟨returns_iff.mpr h.intact, ?_, ?_, ?_⟩
  · intro m' hsame hfails
    exact returns_iff.mpr (h.secondary_damaged hsame hfails)
  · intro m' _ hfails
    exact returns_iff.trans (h.primary_damaged hfails)
  · intro m' hsame hplanted
    exact h.findable_iff hsame hplanted

theorem header_recovered_formatted :
    Returns recordedCrates 32768 formatted 0 (formattedHeader 16384 .Secondary) ∧
    Returns recordedCrates 32768 (fun i => if i = 16384 then 0 else formatted i) 0 (formattedHeader 0 .Primary) ∧
    Returns recordedCrates 32768 scratched 0 (formattedHeader 16384 .Secondary) := by
  obtain ⟨hintact, hsecond, hfirst, -⟩ := header_recovered_iff formatted_two_headers
  refine ⟨?_, ?_, ?_⟩
  · have hlater : later (formattedHeader 0 .Primary) (formattedHeader 16384 .Secondary) =
        formattedHeader 16384 .Secondary := by decide +kernel
    rwa [hlater] at hintact
  · refine hsecond _ (fun i hi => if_neg (by omega)) fun h' hcopy => ?_
    have hmagic := hcopy.magic
    revert hmagic
    decide
  · exact (hfirst scratched (fun i hi => if_neg (by omega)) scratched_fails).mpr scratched_findable

/-- The second copy is whole, and is not looked at. -/
theorem struck_not_recovered :
    TwoHeaders recordedCrates 32768 formatted 0 16384 (formattedHeader 0 .Primary) (formattedHeader 16384 .Secondary) ∧
    (∀ i, ¬ (0 ≤ i ∧ i < 16384) → struck i = formatted i) ∧
    (∀ h, ¬ Copy recordedCrates struck 0 MAGIC_PRIMARY h) ∧
    ¬ Returns recordedCrates 32768 struck 0 (formattedHeader 16384 .Secondary) := by
  refine ⟨formatted_two_headers, fun i hi => if_neg (by omega), struck_fails, ?_⟩
  rw [returns_iff, readFrom_eq (by decide), if_neg]
  · simp
  · rintro ⟨-, hmagic, -⟩
    revert hmagic
    decide

end LuksAndroid.Luks

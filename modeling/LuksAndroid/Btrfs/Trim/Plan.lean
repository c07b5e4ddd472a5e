import LuksAndroid.Btrfs.Cow.Proofs
import LuksAndroid.Btrfs.Trim.Ranges
import LuksAndroid.Btrfs.Verify

/-!
# What becomes of a checksum item

A plan deletes, cuts or splits one item. Whichever it does, what is left of the item are its surviving
intervals, each an item with the checksums that it had before.
-/

namespace LuksAndroid.Btrfs

open Keyed Word

/-! ## One item -/

/-- A checksum item of whole sectors, and ranges of whole sectors to free. -/
structure Trimmable (width sector : Nat) (freed : List (Nat × Nat)) (it : LeafItem) : Prop where
  width_pos : 0 < width
  sector_pos : 0 < sector
  csum : is_csum_key it.key = true
  aligned : sector ∣ it.key.offset
  address : csumEnd width sector it < size
  whole : OnSectors sector freed

def survivors (width sector : Nat) (freed : List (Nat × Nat)) (it : LeafItem) : List (Nat × Nat) :=
  compute_surviving_intervals it.key.offset (csumEnd width sector it) freed

/-- What is left of an item. -/
def trimmed (width sector : Nat) (freed : List (Nat × Nat)) (it : LeafItem) : List LeafItem :=
  (survivors width sector freed it).map (csum_item_at sector width it.key.offset it.data)

section Item

variable {width sector : Nat} {freed : List (Nat × Nat)} {it : LeafItem} {i : Nat × Nat}

theorem Trimmable.item_end (h : Trimmable width sector freed it) :
    csum_item_end sector width it.key it.data = csumEnd width sector it :=
  saturating_add_of_lt h.address

theorem Trimmable.pieces (h : Trimmable width sector freed it) :
    Pieces sector (survivors width sector freed it) :=
  surviving_pieces h.aligned (h.aligned.add (Dvd.intro_left _ rfl)) h.whole

theorem Trimmable.count (h : Trimmable width sector freed it) (hi : i ∈ survivors width sector freed it) :
    ∃ a b, i = (it.key.offset + a * sector, it.key.offset + b * sector) ∧ a < b ∧ b ≤ it.data.length / width := by
  have hp := h.pieces
  obtain ⟨hlow, hhigh⟩ := surviving_within hp hi
  obtain ⟨o, ho⟩ := h.aligned
  obtain ⟨⟨x, hx⟩, y, hy⟩ := hp.whole i hi
  have hpos := hp.pos i hi
  have hsector := h.sector_pos
  unfold csumEnd at hhigh
  rw [ho, Nat.mul_comm sector o] at hlow hhigh ⊢
  rw [hx, Nat.mul_comm sector x] at hlow hpos
  rw [hy, Nat.mul_comm sector y] at hhigh hpos
  have hox : o ≤ x := Nat.le_of_mul_le_mul_right hlow hsector
  have hxy : x < y := Nat.lt_of_mul_lt_mul_right hpos
  rw [← Nat.add_mul] at hhigh
  have hy' : y ≤ o + it.data.length / width := Nat.le_of_mul_le_mul_right hhigh hsector
  refine ⟨x - o, y - o, Prod.ext ?_ ?_, by omega, by omega⟩
  · simp only
    rw [hx, ← Nat.add_mul, Nat.add_sub_cancel' hox, Nat.mul_comm]
  · simp only
    rw [hy, ← Nat.add_mul, Nat.add_sub_cancel' (hox.trans hxy.le), Nat.mul_comm]

theorem csum_slice_count (hsector : 0 < sector) (item_start a b : Nat) (payload : Bytes) :
    csum_slice sector width item_start payload (item_start + a * sector, item_start + b * sector) =
      payload.slice (a * width) ((b - a) * width) := by
  simp only [csum_slice, Nat.add_sub_cancel_left, Nat.mul_div_cancel _ hsector]

theorem length_slice_count {payload : Bytes} {a b : Nat} (hab : a < b) (hb : b ≤ payload.length / width) :
    (payload.slice (a * width) ((b - a) * width)).length = (b - a) * width := by
  have hle : b * width ≤ payload.length := (Nat.mul_le_mul_right _ hb).trans (Nat.div_mul_le_self _ _)
  have hsum : a * width + (b - a) * width = b * width := by rw [← Nat.add_mul, Nat.add_sub_cancel' hab.le]
  rw [Bytes.slice, List.length_take, List.length_drop]
  omega

theorem Trimmable.csumEnd_piece (h : Trimmable width sector freed it) (hi : i ∈ survivors width sector freed it) :
    csumEnd width sector (csum_item_at sector width it.key.offset it.data i) = i.2 := by
  obtain ⟨a, b, rfl, hab, hb⟩ := h.count hi
  simp only [csumEnd, csum_item_at, csum_slice_count h.sector_pos, length_slice_count hab hb,
    Nat.mul_div_cancel _ h.width_pos]
  rw [Nat.add_assoc, ← Nat.add_mul, Nat.add_sub_cancel' hab.le]

theorem slice_slice {b : Bytes} {o n p m : Nat} (h : p + m ≤ n) : (b.slice o n).slice p m = b.slice (o + p) m := by
  rw [Bytes.slice, Bytes.slice, Bytes.slice, List.drop_take, List.take_take, List.drop_drop,
    Nat.min_eq_left (by omega)]

theorem Trimmable.storedCsum_piece (h : Trimmable width sector freed it)
    (hi : i ∈ survivors width sector freed it) {t : Nat} (ht : i.1 ≤ t ∧ t < i.2) :
    storedCsum width sector t (csum_item_at sector width it.key.offset it.data i) = storedCsum width sector t it := by
  obtain ⟨a, b, rfl, hab, hb⟩ := h.count hi
  have hk : (t - (it.key.offset + a * sector)) / sector < b - a := by
    rw [Nat.div_lt_iff_lt_mul h.sector_pos, Nat.sub_mul]
    simp only at ht
    omega
  have hindex : (t - it.key.offset) / sector = a + (t - (it.key.offset + a * sector)) / sector := by
    have hsplit : t - it.key.offset = (t - (it.key.offset + a * sector)) + a * sector := by
      simp only at ht
      omega
    rw [hsplit, Nat.add_mul_div_right _ _ h.sector_pos, Nat.add_comm]
  have hroom : (t - (it.key.offset + a * sector)) / sector * width + width ≤ (b - a) * width := by
    rw [← Nat.succ_mul]
    exact Nat.mul_le_mul_right _ hk
  simp only [storedCsum, csum_item_at, csum_slice_count h.sector_pos]
  rw [slice_slice hroom, hindex, Nat.add_mul]

/-- What is left of an item has the checksums of its sectors that are not freed. -/
theorem Trimmable.covers_trimmed (h : Trimmable width sector freed it) {t : Nat} {v : Bytes} :
    (∃ a ∈ trimmed width sector freed it, covers width sector t a ∧ storedCsum width sector t a = v) ↔
      (covers width sector t it ∧ storedCsum width sector t it = v) ∧ t ∉ IntervalSet.cells freed := by
  have hcells := Set.ext_iff.mp (cells_surviving it.key.offset (csumEnd width sector it) freed) t
  have hit : covers width sector t it = true ↔ t ∈ Set.Ico it.key.offset (csumEnd width sector it) := by
    simp [covers]
  rw [Set.mem_sdiff, ← hit] at hcells
  constructor
  · rintro ⟨a, ha, hcov, hv⟩
    obtain ⟨i, hi, rfl⟩ := List.mem_map.mp ha
    have hin : i.1 ≤ t ∧ t < i.2 := by
      rw [covers, h.csumEnd_piece hi] at hcov
      exact of_decide_eq_true hcov
    obtain ⟨hcovers, hfree⟩ := hcells.mp ⟨i, hi, hin⟩
    rw [h.storedCsum_piece hi hin] at hv
    exact ⟨⟨hcovers, hv⟩, hfree⟩
  · rintro ⟨⟨hcovers, hv⟩, hfree⟩
    obtain ⟨i, hi, hin⟩ := hcells.mpr ⟨hcovers, hfree⟩
    refine ⟨_, List.mem_map.mpr ⟨i, hi, rfl⟩, ?_, ?_⟩
    · rw [covers, h.csumEnd_piece hi]
      exact decide_eq_true hin
    · rw [h.storedCsum_piece hi hin]
      exact hv

theorem Trimmable.mem_trimmed (h : Trimmable width sector freed it) {a : LeafItem}
    (ha : a ∈ trimmed width sector freed it) : is_csum_key a.key ∧ it.key.offset ≤ a.key.offset ∧
      a.key.offset < csumEnd width sector a ∧ csumEnd width sector a ≤ csumEnd width sector it := by
  obtain ⟨i, hi, rfl⟩ := List.mem_map.mp ha
  have hin := surviving_within h.pieces hi
  rw [h.csumEnd_piece hi]
  exact ⟨rfl, hin.1, h.pieces.pos i hi, hin.2⟩

theorem Trimmable.trimmed_apart (h : Trimmable width sector freed it) {a b : LeafItem}
    (ha : a ∈ trimmed width sector freed it) (hb : b ∈ trimmed width sector freed it) (hne : a ≠ b) :
    csumEnd width sector a ≤ b.key.offset ∨ csumEnd width sector b ≤ a.key.offset := by
  obtain ⟨i, hi, rfl⟩ := List.mem_map.mp ha
  obtain ⟨j, hj, rfl⟩ := List.mem_map.mp hb
  rw [h.csumEnd_piece hi, h.csumEnd_piece hj]
  have hsymm : Std.Symm fun x y : Nat × Nat => x.2 ≤ y.1 ∨ y.2 ≤ x.1 := ⟨fun _ _ hxy => hxy.symm⟩
  have hij : i ≠ j := by
    rintro rfl
    exact hne rfl
  exact (h.pieces.apart.imp fun {x y} hxy => (Or.inl hxy : x.2 ≤ y.1 ∨ y.2 ≤ x.1)).forall hi hj hij

/-! ## The plan -/

/-- A plan for the item that leaves `left` of it. -/
structure Leaves (it : LeafItem) (left : List LeafItem) (p : ItemDiff) : Prop where
  delete : ∀ k ∈ p.to_delete, k = it.key
  mutate : ∀ a ∈ p.to_mutate, a.key = it.key
  single : p.to_mutate.length ≤ 1
  mem : ∀ a, a ∈ left ↔ (a = it ∧ p.to_delete = [] ∧ p.to_mutate = []) ∨ a ∈ p.to_mutate ∨ a ∈ p.to_insert

theorem Trimmable.leaves (h : Trimmable width sector freed it) :
    Leaves it (trimmed width sector freed it) (plan_csum_item sector width freed it) := by
  have hkey : it.key = ⟨EXTENT_CSUM_OBJECTID, EXTENT_CSUM_KEY, it.key.offset⟩ := by
    obtain ⟨ho, ht⟩ := is_csum_key_iff.mp h.csum
    rw [← ho, ← ht]
  unfold plan_csum_item trimmed
  rw [h.item_end]
  dsimp only
  rw [show compute_surviving_intervals it.key.offset (csumEnd width sector it) freed =
    survivors width sector freed it from rfl]
  cases hs : survivors width sector freed it with
  | nil => exact ⟨by simp, by simp, by simp, by simp⟩
  | cons first rest =>
    simp only
    by_cases hfirst : first.1 = it.key.offset
    · have hat : csum_item_at sector width it.key.offset it.data first =
          ⟨it.key, csum_slice sector width it.key.offset it.data first⟩ := by
        rw [csum_item_at, hfirst, ← hkey]
      rw [if_pos hfirst]
      by_cases hshort : (csum_slice sector width it.key.offset it.data first).length < it.data.length
      · rw [if_pos hshort]
        exact ⟨by simp, by simp, by simp, by simp [hat]⟩
      · have hwhole : csum_slice sector width it.key.offset it.data first = it.data := by
          have hsub : (csum_slice sector width it.key.offset it.data first).length ≤ it.data.length := by
            simp [csum_slice, Bytes.slice]
          have hzero : (first.1 - it.key.offset) / sector * width = 0 := by simp [hfirst]
          have hlen := le_antisymm hsub (not_lt.mp hshort)
          simp only [csum_slice, hzero, Bytes.slice, List.drop_zero] at hlen ⊢
          exact List.take_of_length_le (by rw [List.length_take] at hlen; omega)
        rw [if_neg hshort]
        exact ⟨by simp, by simp, by simp, by simp [hat, hwhole]⟩
    · rw [if_neg hfirst]
      exact ⟨by simp, by simp, by simp, by simp⟩

end Item

end LuksAndroid.Btrfs

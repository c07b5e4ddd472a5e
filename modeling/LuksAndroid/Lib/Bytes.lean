import Mathlib

/-!
# Byte strings

Little-endian fields of a byte string: encode a number, read one back, overwrite
a field in place.
-/

abbrev Bytes := List UInt8

namespace Bytes

/-- The low `w` bytes of `v`, least significant first. -/
def le : Nat → Nat → Bytes
  | 0, _ => []
  | w + 1, v => UInt8.ofNat v :: le w (v / 256)

def unle : Bytes → Nat
  | [] => 0
  | b :: rest => b.toNat + 256 * unle rest

def slice (b : Bytes) (offset n : Nat) : Bytes := (b.drop offset).take n

/-- The number in the `w` bytes at `offset`. -/
def get (b : Bytes) (offset w : Nat) : Nat := unle (slice b offset w)

/-- The low `w` bytes of `v`, most significant first. -/
def be (w v : Nat) : Bytes := (le w v).reverse

def unbe (b : Bytes) : Nat := unle b.reverse

/-- Overwrite the bytes at `offset` with `v`. -/
def put (b : Bytes) (offset : Nat) (v : Bytes) : Bytes :=
  b.take offset ++ v ++ b.drop (offset + v.length)

/-- Overwrite several fields, one after the other. -/
def patch (b : Bytes) (fields : List (Nat × Bytes)) : Bytes :=
  fields.foldl (fun b f => put b f.1 f.2) b

@[simp] theorem length_le (w v : Nat) : (le w v).length = w := by
  induction w generalizing v with
  | zero => rfl
  | succ w ih => simp [le, ih]

theorem unle_le (w v : Nat) : unle (le w v) = v % 256 ^ w := by
  induction w generalizing v with
  | zero => simp [le, unle, Nat.mod_one]
  | succ w ih =>
    rw [le, unle, ih, Nat.pow_succ', Nat.mod_mul]
    simp

theorem unle_le_of_lt {w v : Nat} (h : v < 256 ^ w) : unle (le w v) = v := by
  rw [unle_le, Nat.mod_eq_of_lt h]

theorem unle_lt (b : Bytes) : unle b < 256 ^ b.length := by
  induction b with
  | nil => simp [unle]
  | cons x b ih =>
    have hx := x.toNat_lt
    rw [unle, List.length_cons, Nat.pow_succ']
    omega

@[simp] theorem length_be (w v : Nat) : (be w v).length = w := by
  simp [be]

theorem unbe_be {w v : Nat} (h : v < 256 ^ w) : unbe (be w v) = v := by
  rw [unbe, be, List.reverse_reverse, unle_le_of_lt h]

theorem unbe_slice_lt (b : Bytes) (offset w : Nat) : unbe (slice b offset w) < 256 ^ w := by
  have hlen : (slice b offset w).reverse.length ≤ w := by
    rw [List.length_reverse]
    exact List.length_take_le _ _
  exact lt_of_lt_of_le (unle_lt _) (Nat.pow_le_pow_right (by omega) hlen)

theorem get_lt (b : Bytes) (offset w : Nat) : get b offset w < 256 ^ w := by
  have hlen : (slice b offset w).length ≤ w := List.length_take_le _ _
  exact lt_of_lt_of_le (unle_lt _) (Nat.pow_le_pow_right (by omega) hlen)

theorem length_put {b v : Bytes} {offset : Nat} (h : offset + v.length ≤ b.length) :
    (put b offset v).length = b.length := by
  simp [put]; omega

/-! ## Fields apart from each other -/

theorem getElem?_slice (b : Bytes) (offset n i : Nat) :
    (slice b offset n)[i]? = if i < n then b[offset + i]? else none := by
  rw [slice, List.getElem?_take]
  split
  · rw [List.getElem?_drop]
  · rfl

theorem getElem?_put {b v : Bytes} {offset : Nat} (h : offset + v.length ≤ b.length) (i : Nat) :
    (put b offset v)[i]? =
      if offset ≤ i ∧ i < offset + v.length then v[i - offset]? else b[i]? := by
  have htake : (b.take offset).length = offset := by rw [List.length_take]; omega
  rw [put, List.append_assoc, List.getElem?_append, htake]
  by_cases hlow : i < offset
  · rw [if_pos hlow, if_neg (by omega), List.getElem?_take, if_pos hlow]
  · rw [if_neg hlow, List.getElem?_append]
    by_cases hin : i - offset < v.length
    · rw [if_pos hin, if_pos (by omega)]
    · rw [if_neg hin, if_neg (by omega), List.getElem?_drop]
      congr 1
      omega

theorem slice_put_self {b v : Bytes} {offset : Nat} (h : offset + v.length ≤ b.length) :
    slice (put b offset v) offset v.length = v := by
  apply List.ext_getElem?
  intro i
  rw [getElem?_slice]
  split
  · rw [getElem?_put h, if_pos (by omega)]
    congr 1
    omega
  · rw [List.getElem?_eq_none (by omega)]

/-- Two ranges, each given by its start and its length, share no byte. -/
def Apart (a b : Nat × Nat) : Prop := a.1 + a.2 ≤ b.1 ∨ b.1 + b.2 ≤ a.1

instance (a b : Nat × Nat) : Decidable (Apart a b) := inferInstanceAs (Decidable (_ ∨ _))

theorem slice_put_of_apart {b v : Bytes} {p offset n : Nat} (h : p + v.length ≤ b.length)
    (ha : Apart (p, v.length) (offset, n)) : slice (put b p v) offset n = slice b offset n := by
  apply List.ext_getElem?
  intro i
  rw [getElem?_slice, getElem?_slice]
  split
  · rw [getElem?_put h, if_neg]
    rcases ha with ha | ha <;> simp only at ha <;> omega
  · rfl

def span (f : Nat × Bytes) : Nat × Nat := (f.1, f.2.length)

theorem length_patch {b : Bytes} (fields : List (Nat × Bytes))
    (h : ∀ s ∈ fields.map span, s.1 + s.2 ≤ b.length) : (patch b fields).length = b.length := by
  induction fields generalizing b with
  | nil => rfl
  | cons f fields ih =>
    have hf : f.1 + f.2.length ≤ b.length := h (span f) (by simp)
    have hlen := length_put hf
    rw [patch, List.foldl_cons]
    refine (ih fun s hs => ?_).trans hlen
    rw [hlen]
    exact h s (by simp [hs])

theorem slice_patch_of_apart {b : Bytes} (fields : List (Nat × Bytes)) {offset n : Nat}
    (h : ∀ s ∈ fields.map span, s.1 + s.2 ≤ b.length ∧ Apart s (offset, n)) :
    slice (patch b fields) offset n = slice b offset n := by
  induction fields generalizing b with
  | nil => rfl
  | cons f fields ih =>
    obtain ⟨hf, hapart⟩ := h (span f) (by simp)
    have hlen : (put b f.1 f.2).length = b.length := length_put hf
    rw [patch, List.foldl_cons]
    refine (ih fun s hs => ?_).trans (slice_put_of_apart hf hapart)
    rw [hlen]
    exact h s (by simp [hs])

theorem slice_patch_mem {b : Bytes} (fields : List (Nat × Bytes)) {f : Nat × Bytes} (hf : f ∈ fields)
    (hfit : ∀ s ∈ fields.map span, s.1 + s.2 ≤ b.length) (hapart : (fields.map span).Pairwise Apart) :
    slice (patch b fields) f.1 f.2.length = f.2 := by
  induction fields generalizing b with
  | nil => cases hf
  | cons g fields ih =>
    have hg : g.1 + g.2.length ≤ b.length := hfit (span g) (by simp)
    have hlen := length_put hg
    rw [List.map_cons, List.pairwise_cons] at hapart
    rw [patch, List.foldl_cons]
    have hrest : ∀ s ∈ fields.map span, s.1 + s.2 ≤ (put b g.1 g.2).length := by
      intro s hs
      rw [hlen]
      exact hfit s (by simp [hs])
    rcases List.mem_cons.mp hf with rfl | hf
    · refine (slice_patch_of_apart fields fun s hs => ⟨hrest s hs, ?_⟩).trans (slice_put_self hg)
      exact (hapart.1 s hs).symm
    · exact ih hf hrest hapart.2

end Bytes

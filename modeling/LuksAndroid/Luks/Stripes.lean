import LuksAndroid.Luks.Keyslot

/-!
# The anti-forensic splitter

How a key is split into stripes when a slot is written: all stripes but the last are random, and the
last one makes up for what the others come to. Merging gives the key back.
-/

namespace LuksAndroid.Luks

open Word

variable {c : Crypto}

/-! ## Exclusive or -/

theorem length_xor {a b : Bytes} (h : a.length = b.length) : (xor a b).length = b.length := by
  unfold xor
  rw [List.length_zipWith, h, Nat.min_self]

theorem xor_xor {a b : Bytes} (h : a.length = b.length) : xor a (xor a b) = b := by
  unfold xor
  induction a generalizing b with
  | nil =>
    cases b with
    | nil => rfl
    | cons y b => cases h
  | cons x a ih =>
    cases b with
    | nil => cases h
    | cons y b =>
      simp only [List.zipWith_cons_cons]
      rw [ih (Nat.succ.inj h), ← UInt8.xor_assoc, UInt8.xor_self, UInt8.zero_xor]

/-! ## Diffusing keeps the length -/

theorem length_diffuse_chunk (h : HashName) (i : Nat) {chunk : Bytes} (hlen : chunk.length ≤ h.digest_size) :
    (diffuse_chunk c h i chunk).length = chunk.length := by
  unfold diffuse_chunk
  rw [List.length_take, c.length_hash, Nat.min_eq_left hlen]

theorem HashName.digest_size_pos (h : HashName) : 0 < h.digest_size := by
  cases h
  · decide
  · decide

theorem length_diffuse_chunks (h : HashName) (block : Bytes) (n : Nat) :
    ((List.range n).flatMap fun i => diffuse_chunk c h i (block.slice (i * h.digest_size) h.digest_size)).length =
      min (n * h.digest_size) block.length := by
  have hpos := h.digest_size_pos
  have hchunk : ∀ i, (block.slice (i * h.digest_size) h.digest_size).length =
      min h.digest_size (block.length - i * h.digest_size) := by
    intro i
    unfold Bytes.slice
    rw [List.length_take, List.length_drop]
  induction n with
  | zero => simp
  | succ n ih =>
    rw [List.range_succ, List.flatMap_append, List.length_append, ih, List.flatMap_singleton,
      length_diffuse_chunk h n (by rw [hchunk]; exact Nat.min_le_left _ _), hchunk, Nat.succ_mul]
    omega

theorem diffuse_ok {block d : Bytes} {hash : String} (h : diffuse c block hash = .ok d) : d.length = block.length := by
  unfold diffuse at h
  split at h
  · cases h
  · rename_i name hname
    cases h
    rw [length_diffuse_chunks]
    refine Nat.min_eq_right (not_lt.mp ?_)
    intro hlt
    exact lt_irrefl _ ((lt_div_ceil name.digest_size_pos).mpr hlt)

/-! ## Splitting -/

/-- What the stripes come to, one after the other. -/
def fold_blocks (c : Crypto) (hash : String) : List Bytes → Bytes → Except LuksError Bytes
  | [], d => return d
  | stripe :: rest, d => do
    let d ← diffuse c (xor d stripe) hash
    fold_blocks c hash rest d

/-- The stripes of a key, when `stripes` are the random ones. -/
def af_split (c : Crypto) (hash : String) (stripes : List Bytes) (key : Bytes) : Except LuksError Bytes := do
  let d ← fold_blocks c hash stripes (List.replicate key.length 0)
  return stripes.flatten ++ xor d key

theorem fold_blocks_length {hash : String} {n : Nat} (stripes : List Bytes) (hlen : ∀ s ∈ stripes, s.length = n)
    {d d' : Bytes} (hd : d.length = n) (h : fold_blocks c hash stripes d = .ok d') : d'.length = n := by
  induction stripes generalizing d with
  | nil =>
    cases h
    exact hd
  | cons s stripes ih =>
    obtain ⟨e, hdiffuse, h⟩ := Run.except_bind_ok.mp h
    refine ih (fun t ht => hlen t (by simp [ht])) ?_ h
    have hs := hlen s (by simp)
    rw [diffuse_ok hdiffuse, length_xor (hd.trans hs.symm), hs]

theorem flatten_slice {n : Nat} (stripes : List Bytes) (hlen : ∀ s ∈ stripes, s.length = n) (rest : Bytes) (i : Nat)
    (hi : i < stripes.length) : Bytes.slice (stripes.flatten ++ rest) (i * n) n = stripes[i] := by
  induction stripes generalizing i with
  | nil => cases hi
  | cons s stripes ih =>
    have hs := hlen s (by simp)
    unfold Bytes.slice at ih ⊢
    cases i with
    | zero =>
      rw [Nat.zero_mul, List.drop_zero, List.flatten_cons, List.append_assoc, List.getElem_cons_zero]
      exact List.take_left' hs
    | succ i =>
      have hdrop : ((s :: stripes).flatten ++ rest).drop ((i + 1) * n) = (stripes.flatten ++ rest).drop (i * n) := by
        rw [List.flatten_cons, List.append_assoc, Nat.succ_mul, Nat.add_comm, ← List.drop_drop, List.drop_left' hs]
      rw [hdrop, List.getElem_cons_succ]
      exact ih (fun t ht => hlen t (by simp [ht])) i (by simpa using hi)

theorem flatten_length {n : Nat} (stripes : List Bytes) (hlen : ∀ s ∈ stripes, s.length = n) :
    stripes.flatten.length = stripes.length * n := by
  rw [List.length_flatten, List.map_congr_left hlen, List.map_const', List.sum_replicate, smul_eq_mul]

theorem fold_stripes_eq {hash : String} {n : Nat} (stripes : List Bytes) (hlen : ∀ s ∈ stripes, s.length = n)
    (rest : Bytes) (k : Nat) (hk : k ≤ stripes.length) (d : Bytes) :
    fold_stripes c (stripes.flatten ++ rest) n hash ((List.range stripes.length).drop k) d =
      fold_blocks c hash (stripes.drop k) d := by
  induction hm : stripes.length - k generalizing k d with
  | zero =>
    rw [List.drop_eq_nil_of_le (by rw [List.length_range]; omega), List.drop_eq_nil_of_le (by omega)]
    rfl
  | succ m ih =>
    have hlt : k < stripes.length := by omega
    have hrange : (List.range stripes.length).drop k = k :: (List.range stripes.length).drop (k + 1) := by
      rw [List.drop_eq_getElem_cons (by rw [List.length_range]; exact hlt), List.getElem_range]
    rw [hrange, List.drop_eq_getElem_cons hlt, fold_stripes, fold_blocks, flatten_slice stripes hlen rest k hlt]
    refine bind_congr fun e => ?_
    exact ih (k + 1) hlt e (by omega)

/-- Merging undoes the split, whatever is behind the stripes. -/
theorem af_merge_split {hash : String} {stripes : List Bytes} {key src : Bytes}
    (hlen : ∀ s ∈ stripes, s.length = key.length) (hsize : key.length * (stripes.length + 1) < size)
    (hsplit : af_split c hash stripes key = .ok src) (rest : Bytes) :
    af_merge c (src ++ rest) key.length (stripes.length + 1) hash = .ok key := by
  obtain ⟨d, hfold, hsrc⟩ := Run.except_bind_ok.mp hsplit
  cases hsrc
  have hd := fold_blocks_length stripes hlen (by simp) hfold
  have hlast : (xor d key).length = key.length := length_xor hd
  have hflat := flatten_length stripes hlen
  have hsource : stripes.flatten ++ xor d key ++ rest = stripes.flatten ++ (xor d key ++ rest) :=
    List.append_assoc _ _ _
  have hchecked : checked_mul key.length (stripes.length + 1) = some (key.length * (stripes.length + 1)) := if_pos hsize
  have hlong : ¬ (stripes.flatten ++ (xor d key ++ rest)).length < key.length * (stripes.length + 1) := by
    rw [List.length_append, List.length_append, hflat, hlast, Nat.mul_succ, Nat.mul_comm]
    omega
  have hloop := @fold_stripes_eq c hash key.length stripes hlen (xor d key ++ rest) 0 (Nat.zero_le _)
    (List.replicate key.length 0)
  rw [List.drop_zero, List.drop_zero, hfold] at hloop
  unfold af_merge
  rw [hsource, if_neg (Nat.succ_ne_zero _), hchecked]
  simp only [Nat.add_sub_cancel]
  rw [if_neg hlong, hloop]
  have hslice : Bytes.slice (stripes.flatten ++ (xor d key ++ rest)) (stripes.length * key.length) key.length =
      xor d key := by
    unfold Bytes.slice
    rw [List.drop_left' hflat]
    exact List.take_left' hlast
  show Except.ok (xor d (Bytes.slice (stripes.flatten ++ (xor d key ++ rest)) (stripes.length * key.length)
    key.length)) = Except.ok key
  rw [hslice, xor_xor hd]

/-! ## What can be merged -/

/-- The source starts with so many stripes of the key. -/
def Split (c : Crypto) (hash : String) (count : Nat) (src key : Bytes) : Prop :=
  ∃ stripes split rest, stripes.length + 1 = count ∧ (∀ s ∈ stripes, s.length = key.length) ∧
    af_split c hash stripes key = .ok split ∧ src = split ++ rest

/-- The source in blocks. -/
def blocks (src : Bytes) (n count : Nat) : List Bytes := (List.range count).map fun i => src.slice (i * n) n

theorem blocks_flatten (src : Bytes) (n count : Nat) : (blocks src n count).flatten = src.take (count * n) := by
  unfold blocks
  induction count with
  | zero => simp
  | succ count ih =>
    rw [List.range_succ, List.map_append, List.flatten_append, ih, List.map_singleton, List.flatten_singleton,
      Nat.succ_mul, List.take_add]
    rfl

theorem length_blocks_mem {src : Bytes} {n count : Nat} (hlong : count * n ≤ src.length) :
    ∀ s ∈ blocks src n count, s.length = n := by
  intro s hs
  obtain ⟨i, hi, rfl⟩ := List.mem_map.mp hs
  have hle : (i + 1) * n ≤ count * n := Nat.mul_le_mul_right n (List.mem_range.mp hi)
  rw [Nat.succ_mul] at hle
  unfold Bytes.slice
  rw [List.length_take, List.length_drop]
  omega

theorem split_of_af_merge {hash : String} {src key : Bytes} {n count : Nat}
    (h : af_merge c src n count hash = .ok key) :
    key.length = n ∧ n * count < size ∧ Split c hash count src key := by
  unfold af_merge at h
  obtain ⟨hcount, h⟩ := Run.guard_bind_ok.mp h
  cases hneeded : checked_mul n count with
  | none =>
    rw [hneeded] at h
    cases h
  | some needed =>
    obtain ⟨rfl, hsize⟩ := checked_mul_eq_some hneeded
    rw [hneeded] at h
    obtain ⟨hlong, h⟩ := Run.guard_bind_ok.mp h
    obtain ⟨d, hfold, hkey⟩ := Run.except_bind_ok.mp h
    cases hkey
    obtain ⟨m, rfl⟩ := Nat.exists_eq_succ_of_ne_zero hcount
    rw [Nat.succ_sub_one] at hfold ⊢
    rw [Nat.mul_succ, Nat.mul_comm] at hlong
    have hmem : ∀ s ∈ blocks src n m, s.length = n := length_blocks_mem (by omega)
    have hcut : (blocks src n m).flatten ++ src.drop (m * n) = src := by
      rw [blocks_flatten]
      exact List.take_append_drop _ _
    have hloop := @fold_stripes_eq c hash n (blocks src n m) hmem (src.drop (m * n)) 0 (Nat.zero_le _)
      (List.replicate n 0)
    rw [List.drop_zero, List.drop_zero, hcut, blocks, List.length_map, List.length_range, hfold] at hloop
    have hd := fold_blocks_length (blocks src n m) hmem (by simp) hloop.symm
    have hlast : (src.slice (m * n) n).length = n := by
      unfold Bytes.slice
      rw [List.length_take, List.length_drop]
      omega
    have hlen : (xor d (src.slice (m * n) n)).length = n := (length_xor (hd.trans hlast.symm)).trans hlast
    refine ⟨hlen, hsize, blocks src n m, (blocks src n m).flatten ++ src.slice (m * n) n, src.drop (m * n + n),
      by simp [blocks], ?_, ?_, ?_⟩
    · rw [hlen]
      exact hmem
    · unfold af_split
      rw [hlen, show fold_blocks c hash (blocks src n m) (List.replicate n 0) = .ok d from hloop.symm]
      show Except.ok ((blocks src n m).flatten ++ xor d (xor d (src.slice (m * n) n))) = _
      rw [xor_xor (hd.trans hlast.symm)]
    · rw [blocks_flatten, List.append_assoc, Bytes.slice, ← List.drop_drop, List.take_append_drop,
        List.take_append_drop]

theorem af_merge_ok_iff {hash : String} {src key : Bytes} {n count : Nat} :
    af_merge c src n count hash = .ok key ↔ key.length = n ∧ n * count < size ∧ Split c hash count src key := by
  constructor
  · exact split_of_af_merge
  · rintro ⟨rfl, hsize, stripes, split, rest, rfl, hlen, hsplit, rfl⟩
    exact af_merge_split hlen hsize hsplit rest

end LuksAndroid.Luks

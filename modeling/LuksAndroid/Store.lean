import LuksAndroid.Device

/-!
# Bytes of a plain store

How reading and writing ranges of a store fit together. A byte array that requests
are compared with is such a store too.
-/

namespace LuksAndroid

variable {m m' : Nat → UInt8}

theorem getElem?_load (m : Nat → UInt8) (offset n i : Nat) :
    (load m offset n)[i]? = if i < n then some (m (offset + i)) else none := by
  simp only [load, List.getElem?_map]
  split
  · rw [List.getElem?_range ‹_›]
    rfl
  · rw [List.getElem?_eq_none (by rw [List.length_range]; omega)]
    rfl

theorem load_congr {offset n : Nat} (h : ∀ i < n, m (offset + i) = m' (offset + i)) :
    load m offset n = load m' offset n :=
  List.map_congr_left fun i hi => h i (List.mem_range.mp hi)

theorem load_add (m : Nat → UInt8) (offset a b : Nat) :
    load m offset (a + b) = load m offset a ++ load m (offset + a) b := by
  apply List.ext_getElem?
  intro i
  rw [List.getElem?_append, length_load, getElem?_load, getElem?_load, getElem?_load]
  by_cases ha : i < a
  · rw [if_pos (by omega), if_pos ha, if_pos ha]
  · rw [if_neg ha]
    by_cases hb : i < a + b
    · rw [if_pos hb, if_pos (by omega)]
      congr 2
      omega
    · rw [if_neg hb, if_neg (by omega)]

theorem take_load (m : Nat → UInt8) (offset a b : Nat) : (load m offset (a + b)).take a = load m offset a := by
  rw [load_add, List.take_left' (length_load _ _ _)]

theorem drop_load (m : Nat → UInt8) (offset a b : Nat) :
    (load m offset (a + b)).drop a = load m (offset + a) b := by
  rw [load_add, List.drop_left' (length_load _ _ _)]

theorem slice_load (m : Nat → UInt8) {offset n i k : Nat} (h : i + k ≤ n) :
    Bytes.slice (load m offset n) i k = load m (offset + i) k := by
  obtain ⟨r, rfl⟩ : ∃ r, n = i + (k + r) := ⟨n - i - k, by omega⟩
  rw [Bytes.slice, drop_load, take_load]

theorem store_nil (m : Nat → UInt8) (offset : Nat) : store m offset [] = m := by
  funext i
  rw [store, if_neg]
  simp only [List.length_nil]
  omega

theorem load_store_inside (m : Nat → UInt8) {offset i n : Nat} {data : Bytes} (h : i + n ≤ data.length) :
    load (store m offset data) (offset + i) n = Bytes.slice data i n := by
  conv_rhs => rw [← load_store_self m offset data]
  exact (slice_load _ h).symm

theorem store_append (m : Nat → UInt8) (offset : Nat) (a b : Bytes) :
    store (store m offset a) (offset + a.length) b = store m offset (a ++ b) := by
  funext i
  simp only [store, List.length_append]
  by_cases hb : offset + a.length ≤ i ∧ i < offset + a.length + b.length
  · rw [if_pos hb, if_pos (by omega), List.getD_append_right _ _ _ _ (by omega)]
    congr 1
    omega
  · rw [if_neg hb]
    by_cases ha : offset ≤ i ∧ i < offset + a.length
    · rw [if_pos ha, if_pos (by omega), List.getD_append _ _ _ _ (by omega)]
    · rw [if_neg ha, if_neg (by omega)]

theorem store_put_load (m : Nat → UInt8) {offset n i : Nat} {data : Bytes} (h : i + data.length ≤ n) :
    store m offset (Bytes.put (load m offset n) i data) = store m (offset + i) data := by
  have hlen : (Bytes.put (load m offset n) i data).length = n := by
    rw [Bytes.length_put (by rwa [length_load]), length_load]
  funext j
  simp only [store, hlen]
  by_cases hin : offset ≤ j ∧ j < offset + n
  · rw [if_pos hin, List.getD_eq_getElem?_getD, Bytes.getElem?_put (by rwa [length_load]), getElem?_load]
    by_cases hd : offset + i ≤ j ∧ j < offset + i + data.length
    · rw [if_pos (by omega), if_pos hd, List.getD_eq_getElem?_getD]
      congr 2
      omega
    · rw [if_neg (by omega), if_neg hd, if_pos (by omega)]
      simp only [Option.getD_some]
      congr 1
      omega
  · rw [if_neg hin, if_neg (by omega)]

theorem store_of_not_mem (m : Nat → UInt8) {offset i : Nat} {data : Bytes}
    (h : i < offset ∨ offset + data.length ≤ i) : store m offset data i = m i := by
  rw [store, if_neg (by omega)]

end LuksAndroid

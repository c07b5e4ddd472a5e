import LuksAndroid.Btrfs.Cow.Tree

/-!
# Which child a key belongs to

`lower_bound` is a binary search, and `child_for` picks the last entry whose key
is not above the target. In a well-formed tree everything left of that child is
below the target and everything right of it is above.
-/

namespace LuksAndroid.Btrfs

open Keyed

theorem lt_of_getElem? {keys : List Key} (hs : keys.Pairwise (· < ·)) {i j : Nat} {k l : Key}
    (hij : i < j) (hi : keys[i]? = some k) (hj : keys[j]? = some l) : k < l := by
  obtain ⟨hi', rfl⟩ := List.getElem?_eq_some_iff.mp hi
  obtain ⟨hj', rfl⟩ := List.getElem?_eq_some_iff.mp hj
  exact List.pairwise_iff_getElem.mp hs i j hi' hj' hij

/-- The interval of the search: below it keys are too small, from its end on they are not. -/
structure SearchInv (keys : List Key) (key : Key) (lo hi : Nat) : Prop where
  le : lo ≤ hi
  hi_le : hi ≤ keys.length
  small : ∀ i k, i < lo → keys[i]? = some k → k < key
  large : ∀ i k, hi ≤ i → keys[i]? = some k → key ≤ k

theorem lower_bound_loop_spec {keys : List Key} {key : Key} (hs : keys.Pairwise (· < ·))
    (fuel lo hi : Nat) (h : SearchInv keys key lo hi) (hfuel : hi - lo ≤ fuel) :
    ∃ r, Node.lower_bound_loop keys key fuel lo hi = .ok r ∧ SearchInv keys key r r := by
  induction fuel generalizing lo hi with
  | zero =>
    have heq : hi = lo := by have := h.le; omega
    subst heq
    exact ⟨hi, rfl, h⟩
  | succ fuel ih =>
    rw [Node.lower_bound_loop]
    split
    · rename_i hlt
      have hmid : lo + (hi - lo) / 2 < keys.length := by have := h.hi_le; omega
      simp only [List.getElem?_eq_getElem hmid]
      split
      · -- The middle key is too small, and so is everything before it.
        rename_i hk
        refine ih _ _ ⟨by omega, h.hi_le, ?_, h.large⟩ (by omega)
        intro i k hi' hik
        rcases Nat.lt_or_ge i (lo + (hi - lo) / 2) with hlt' | hge
        · exact (lt_of_getElem? hs hlt' hik (List.getElem?_eq_getElem hmid)).trans hk
        · have : i = lo + (hi - lo) / 2 := by omega
          subst this
          rw [List.getElem?_eq_getElem hmid] at hik
          cases hik
          exact hk
      · rename_i hk
        refine ih _ _ ⟨by omega, by omega, h.small, ?_⟩ (by omega)
        intro i k hi' hik
        rcases Nat.lt_or_ge (lo + (hi - lo) / 2) i with hlt' | hge
        · exact (not_lt.mp hk).trans (lt_of_getElem? hs hlt' (List.getElem?_eq_getElem hmid) hik).le
        · have : i = lo + (hi - lo) / 2 := by omega
          subst this
          rw [List.getElem?_eq_getElem hmid] at hik
          cases hik
          exact not_lt.mp hk
    · rename_i hge
      have heq : hi = lo := by have := h.le; omega
      subst heq
      exact ⟨hi, rfl, h⟩

theorem lower_bound_spec {n : Node} (key : Key) (hs : n.keys.Pairwise (· < ·)) :
    ∃ r, n.lower_bound key = .ok r ∧ SearchInv n.keys key r r :=
  lower_bound_loop_spec hs n.nr_items 0 n.nr_items
    ⟨by omega, le_refl _, by omega, fun i k hi hik => by
      have := (List.getElem?_eq_some_iff.mp hik).1
      simp only [Node.nr_items] at hi
      omega⟩ (by omega)

theorem child_for_spec {n : Node} (key : Key) (hs : n.keys.Pairwise (· < ·)) (hne : n.keys ≠ []) :
    ∃ i k, n.child_for key = .ok i ∧ n.keys[i]? = some k ∧ (i = 0 ∨ k ≤ key) ∧
      ∀ j l, i < j → n.keys[j]? = some l → key < l := by
  obtain ⟨r, hr, hinv⟩ := lower_bound_spec key hs
  have hlen : 0 < n.keys.length := List.length_pos_of_ne_nil hne
  have hrun : n.child_for key =
      if n.keys[r]? = some key then .ok r else .ok (r - 1) := by
    unfold Node.child_for
    simp only [Node.nr_items, Nat.ne_of_gt hlen, if_false, hr, bind, Except.bind]
    rfl
  rw [hrun]
  split
  · rename_i hexact
    exact ⟨r, key, rfl, hexact, Or.inr (le_refl _), fun j l hj hl => lt_of_getElem? hs hj hexact hl⟩
  · rename_i hexact
    have hlt : r - 1 < n.keys.length := by have := hinv.hi_le; omega
    refine ⟨r - 1, n.keys[r - 1], rfl, List.getElem?_eq_getElem hlt, ?_, ?_⟩
    · rcases Nat.eq_zero_or_pos r with h0 | hpos
      · exact Or.inl (by omega)
      · exact Or.inr (hinv.small (r - 1) _ (by omega) (List.getElem?_eq_getElem hlt)).le
    · intro j l hj hl
      have hle := hinv.large j l (by omega) hl
      refine lt_of_le_of_ne hle ?_
      rintro rfl
      -- The target itself would have been found at `r`.
      rcases Nat.eq_or_lt_of_le (by omega : r ≤ j) with rfl | hrj
      · exact hexact hl
      · have hr' : r < n.keys.length := by
          have := (List.getElem?_eq_some_iff.mp hl).1; omega
        have h1 := hinv.large r _ (le_refl r) (List.getElem?_eq_getElem hr')
        have h2 := lt_of_getElem? hs hrj (List.getElem?_eq_getElem hr') hl
        exact absurd h1 (not_le.mpr h2)

/-! ## In a tree -/

theorem Sorted.lowest_le {items : List LeafItem} {k : Key} (hs : Sorted LeafItem.key items)
    (hk : lowestKey items = some k) {a : LeafItem} (ha : a ∈ items) : k ≤ a.key := by
  obtain ⟨c, rest, rfl, rfl⟩ := lowestKey_eq_some hk
  rcases List.mem_cons.mp ha with rfl | ha
  · exact le_refl _
  · exact ((sorted_cons.mp hs).1 a ha).le

theorem Children.le_of_mem {mem : Memory} {node_size level : Nat} {es : List InteriorEntry}
    {parts : List Part} (h : Children mem node_size level es parts)
    (hs : Sorted LeafItem.key (itemsOf parts)) {a : LeafItem} (ha : a ∈ itemsOf parts) :
    ∃ e ∈ es, e.key ≤ a.key := by
  induction es generalizing parts with
  | nil => cases h; simp at ha
  | cons e es ih =>
    obtain ⟨p, ps, rfl, -, hk, hch⟩ := h.of_cons
    obtain ⟨h1, h2, -⟩ := sorted_append.mp hs
    rcases List.mem_append.mp ha with ha | ha
    · exact ⟨e, by simp, Sorted.lowest_le h1 hk ha⟩
    · obtain ⟨e', he', hle⟩ := ih hch h2 ha
      exact ⟨e', by simp [he'], hle⟩

theorem Children.sorted_keys {mem : Memory} {node_size level : Nat} {es : List InteriorEntry}
    {parts : List Part} (h : Children mem node_size level es parts)
    (hs : Sorted LeafItem.key (itemsOf parts)) : Sorted InteriorEntry.key es := by
  induction es generalizing parts with
  | nil => exact List.Pairwise.nil
  | cons e es ih =>
    obtain ⟨p, ps, rfl, -, hk, hch⟩ := h.of_cons
    obtain ⟨h1, h2, h3⟩ := sorted_append.mp hs
    obtain ⟨a, rest, hp, ha⟩ := lowestKey_eq_some hk
    refine sorted_cons.mpr ⟨?_, ih hch h2⟩
    intro e' he'
    -- The lowest key of a later child is the key of one of its items.
    obtain ⟨i, hi, rfl⟩ := List.mem_iff_get.mp he'
    obtain ⟨hlen, hget⟩ := List.forall₂_iff_get.mp hch
    obtain ⟨-, hk'⟩ := hget i i.2 (by rw [← hlen]; exact i.2)
    obtain ⟨c, rest', hc, hck⟩ := lowestKey_eq_some hk'
    rw [← ha, ← hck]
    exact h3 a (by simp [hp]) c (mem_itemsOf.mpr ⟨_, List.get_mem _ _, by rw [hc]; simp⟩)

/-- The child that `child_for` picks, with everything around it on its side of the key. -/
theorem route {mem : Memory} {node_size level : Nat} {n : InteriorNode} {parts : List Part}
    (key : Key) (h : Children mem node_size level n.entries parts) (hne : n.entries ≠ [])
    (hs : Sorted LeafItem.key (itemsOf parts)) :
    ∃ i es e es' ps p ps', (Node.interior n).child_for key = .ok i ∧ i = es.length ∧
      n.entries = es ++ e :: es' ∧ parts = ps ++ p :: ps' ∧
      Children mem node_size level es ps ∧ Tree mem node_size level e.blockptr p ∧
      lowestKey p.1 = some e.key ∧ Children mem node_size level es' ps' ∧
      (∀ a ∈ itemsOf ps, a.key < key) ∧ ∀ a ∈ itemsOf ps', key < a.key := by
  have hkeys := h.sorted_keys hs
  obtain ⟨i, k, hrun, hik, hlow, hhigh⟩ := child_for_spec (n := .interior n) key
    (List.pairwise_map.mpr hkeys) (by simpa [Node.keys] using hne)
  simp only [Node.keys, List.getElem?_map, Option.map_eq_some_iff] at hik
  obtain ⟨e, he, rfl⟩ := hik
  obtain ⟨hi, rfl⟩ := List.getElem?_eq_some_iff.mp he
  have hsplit : n.entries = n.entries.take i ++ n.entries[i] :: n.entries.drop (i + 1) := by simp
  rw [hsplit] at h
  obtain ⟨ps, qs, rfl, hps, hqs⟩ := h.of_append
  obtain ⟨p, ps', rfl, ht, hk, hps'⟩ := hqs.of_cons
  rw [itemsOf_append, itemsOf_cons] at hs
  obtain ⟨h1, h2, h3⟩ := sorted_append.mp hs
  obtain ⟨h4, h5, h6⟩ := sorted_append.mp h2
  refine ⟨i, _, _, _, ps, p, ps', hrun, by simp; omega, hsplit, rfl, hps, ht, hk, hps', ?_, ?_⟩
  · intro a ha
    obtain ⟨c, rest, hc, hck⟩ := lowestKey_eq_some hk
    rcases hlow with rfl | hle
    · rw [List.take_zero] at hps
      cases hps
      simp at ha
    · have hac := h3 a ha c (by simp [hc])
      rw [hck] at hac
      exact lt_of_lt_of_le hac hle
  · intro a ha
    obtain ⟨e', he', hle⟩ := hps'.le_of_mem h5 ha
    refine lt_of_lt_of_le ?_ hle
    obtain ⟨j, hj, rfl⟩ := List.mem_iff_getElem.mp he'
    refine hhigh (i + 1 + j) _ (by omega) ?_
    simp only [Node.keys, List.getElem?_map, List.getElem_drop]
    rw [List.getElem?_eq_getElem (by simp at hj; omega)]
    rfl

end LuksAndroid.Btrfs

import LuksAndroid.Btrfs.ChunkAlloc.Code

/-!
# What the searches find

The holes of a device are the runs of bytes past the reserved ones that no device
extent holds. An extent past the end of the device is not expected, but it counts:
the space that is searched then reaches up to it.
-/

namespace LuksAndroid.Btrfs

open Word Spans

def nonEmpty (extents : List Span) : List Span := extents.filter fun e => e.length ≠ 0

/-- A hole between the extents of a device. A device of the reserved bytes only has none. -/
structure DeviceHole (total : Nat) (extents : List Span) (h : Span) : Prop where
  device : BTRFS_BLOCK_RESERVED_1M_FOR_SUPER < total
  hole : Hole BTRFS_BLOCK_RESERVED_1M_FOR_SUPER (reach total (nonEmpty extents)) extents h

def roundDown (n : Nat) : Nat := n / SZ_64K * SZ_64K

/-- The policy of the search: the first hole that is large enough, else the first of the largest
ones, rounded down to 64 KiB, when something is left and reaches the minimum. -/
inductive FirstFit (hole : Span → Prop) (requested minimum : Nat) : Except LuksError (Nat × Nat) → Prop
  | fits {h : Span} (mem : hole h) (large : requested ≤ h.length)
      (first : ∀ g, hole g → requested ≤ g.length → h.start ≤ g.start) :
      FirstFit hole requested minimum (.ok (h.start, requested))
  | shrunk {h : Span} (mem : hole h) (none_fits : ∀ g, hole g → g.length < requested)
      (largest : ∀ g, hole g → g.length ≤ h.length)
      (first : ∀ g, hole g → g.length = h.length → h.start ≤ g.start)
      (reaches : minimum ≤ roundDown h.length) (pos : 0 < roundDown h.length) :
      FirstFit hole requested minimum (.ok (h.start, roundDown h.length))
  | full (none_fits : ∀ g, hole g → g.length < requested)
      (none_reaches : ∀ g, hole g → roundDown g.length < minimum ∨ roundDown g.length = 0) :
      FirstFit hole requested minimum (.error .FilesystemFull)

theorem roundDown_le (n : Nat) : roundDown n ≤ n := Nat.div_mul_le_self n SZ_64K

theorem roundDown_mono {a b : Nat} (h : a ≤ b) : roundDown a ≤ roundDown b :=
  Nat.mul_le_mul_right _ (Nat.div_le_div_right h)

/-! ## The loop -/

/-- The search over the list of the holes, with the largest one so far. -/
def pickHole (requested minimum : Nat) (holes : List Span) (best : Option Span) :
    Except LuksError (Nat × Nat) :=
  match holes.find? fun h => requested ≤ h.length with
  | some h => .ok (h.start, requested)
  | none => shrink_hole minimum (holes.foldl longer best)

theorem pickHole_cons (requested minimum : Nat) (h : Span) (holes : List Span) (best : Option Span) :
    pickHole requested minimum (h :: holes) best =
      if h.length ≥ requested then .ok (h.start, requested)
      else pickHole requested minimum holes (longer best h) := by
  unfold pickHole
  rw [List.find?_cons]
  by_cases hlen : requested ≤ h.length
  · simp [hlen]
  · simp [hlen]

/-- The loop picks among the gaps. Ends that saturate lie behind every start, so they change nothing. -/
theorem search_holes_eq {total requested minimum : Nat} (htotal : total < size) (l : List Span)
    (hl : ∀ r ∈ l, r.start < size) (cur : Nat) (best : Option Span) :
    search_holes total requested minimum l (min cur (size - 1)) best =
      pickHole requested minimum (gaps total (nonEmpty l) cur) best := by
  induction l generalizing cur best with
  | nil =>
    rw [search_holes, nonEmpty, List.filter_nil, gaps]
    by_cases hlt : cur < total
    · have hcur : min cur (size - 1) = cur := by omega
      rw [hcur, if_pos hlt, if_pos hlt, pickHole_cons]
      rfl
    · rw [if_neg hlt, if_neg (by omega)]
      rfl
  | cons r l ih =>
    have hstart := hl r (by simp)
    have ih := ih fun b hb => hl b (by simp [hb])
    rw [search_holes]
    split
    · rename_i hzero
      rw [nonEmpty, List.filter_cons_of_neg (by simpa using hzero)]
      exact ih cur best
    · rename_i hne
      rw [nonEmpty, List.filter_cons_of_pos (by simpa using hne), gaps]
      have hnext : max (min cur (size - 1)) (saturating_add r.start r.length) =
          min (max cur r.stop) (size - 1) := by
        unfold saturating_add Span.stop
        omega
      rw [hnext]
      by_cases hgt : cur < r.start
      · have hcur : min cur (size - 1) = cur := by omega
        rw [hcur, if_pos hgt, if_pos hgt, List.singleton_append, pickHole_cons]
        exact if_congr Iff.rfl rfl (ih _ _)
      · rw [if_neg hgt, if_neg (by omega), List.nil_append]
        exact ih _ _

/-! ## The policy -/

theorem pickHole_firstFit {requested minimum : Nat} {holes : List Span}
    (hsorted : holes.Pairwise fun a b => a.start < b.start) :
    FirstFit (· ∈ holes) requested minimum (pickHole requested minimum holes none) := by
  unfold pickHole
  cases hfind : holes.find? fun h => requested ≤ h.length with
  | some h =>
    obtain ⟨hlen, before, after, rfl, hbefore⟩ := List.find?_eq_some_iff_append.mp hfind
    refine .fits (by simp) (by simpa using hlen) ?_
    intro g hg hlong
    rcases List.mem_append.mp hg with hg | hg
    · have := hbefore g hg
      simp only [Bool.not_eq_eq_eq_not, Bool.not_true, decide_eq_false_iff_not] at this
      exact absurd hlong this
    · rcases List.mem_cons.mp hg with rfl | hg
      · exact le_refl _
      · exact ((List.pairwise_cons.mp (List.pairwise_append.mp hsorted).2.1).1 g hg).le
  | none =>
    have hnone : ∀ g ∈ holes, g.length < requested := by
      intro g hg
      simpa using List.find?_eq_none.mp hfind g hg
    rcases foldl_longer none hsorted (by simp) with ⟨-, rfl, hfold⟩ | ⟨h, hfold, hlongest⟩
    · exact .full hnone (by simp)
    · simp only [hfold, shrink_hole]
      rw [Option.toList_none, List.nil_append] at hlongest
      split
      · rename_i hok
        exact .shrunk hlongest.mem hnone hlongest.longest hlongest.first hok.1 hok.2
      · rename_i hno
        refine .full hnone ?_
        intro g hg
        have hle := roundDown_mono (hlongest.longest g hg)
        unfold roundDown at hle ⊢
        omega

theorem FirstFit.congr {hole hole' : Span → Prop} {requested minimum : Nat}
    {answer : Except LuksError (Nat × Nat)} (heq : ∀ h, hole h ↔ hole' h)
    (h : FirstFit hole requested minimum answer) : FirstFit hole' requested minimum answer := by
  rw [show hole' = hole from funext fun g => propext (heq g).symm]
  exact h

theorem reach_perm {top : Nat} {l m : List Span} (h : l.Perm m) : reach top l = reach top m := by
  induction h with
  | nil => rfl
  | cons a _ ih => rw [reach, reach, ih]
  | swap a b l => rw [reach, reach, reach, reach, max_left_comm]
  | trans _ _ ih₁ ih₂ => exact ih₁.trans ih₂

theorem covers_nonEmpty (l : List Span) : covers (nonEmpty l) = covers l := by
  ext x
  simp only [mem_covers, nonEmpty, List.mem_filter, decide_eq_true_eq]
  constructor
  · rintro ⟨r, ⟨hr, -⟩, hx⟩
    exact ⟨r, hr, hx⟩
  · rintro ⟨r, hr, hx⟩
    refine ⟨r, ⟨hr, ?_⟩, hx⟩
    simp only [Span.stop] at hx
    omega

theorem mem_gaps_iff_deviceHole {total : Nat} (htotal : BTRFS_BLOCK_RESERVED_1M_FOR_SUPER < total)
    (extents : List Span) (h : Span) :
    h ∈ gaps total (nonEmpty (extents.insertionSort byStart)) BTRFS_BLOCK_RESERVED_1M_FOR_SUPER ↔
      DeviceHole total extents h := by
  have hperm := List.perm_insertionSort byStart extents
  have hpos : ∀ r ∈ nonEmpty (extents.insertionSort byStart), 0 < r.length := by
    intro r hr
    have := (List.mem_filter.mp hr).2
    simp only [decide_eq_true_eq] at this
    omega
  have hsorted : (nonEmpty (extents.insertionSort byStart)).Pairwise fun a b => a.start ≤ b.start :=
    (List.pairwise_insertionSort byStart extents).sublist List.filter_sublist
  rw [mem_gaps hpos hsorted, hole_congr ((covers_nonEmpty _).trans (covers_perm hperm)),
    reach_perm (m := nonEmpty extents) (by unfold nonEmpty; exact hperm.filter _),
      max_eq_right (htotal.le.trans (le_reach total _))]
  exact ⟨fun hh => ⟨htotal, hh⟩, fun hh => hh.hole⟩

/-- For every list of extents the search is first fit over the holes of the device. -/
theorem find_free_dev_extent_firstFit {extents : List Span} {total : Nat} (htotal : total < size)
    (hext : ∀ e ∈ extents, e.start < size) (requested minimum : Nat) :
    FirstFit (DeviceHole total extents) requested minimum
      (find_free_dev_extent extents total requested minimum) := by
  unfold find_free_dev_extent
  split
  · rename_i hle
    have hnone : ∀ g, ¬ DeviceHole total extents g := fun g hg => absurd hg.device (Nat.not_lt.mpr hle)
    exact .full (fun g hg => absurd hg (hnone g)) fun g hg => absurd hg (hnone g)
  · rename_i hgt
    have hsort : ∀ r ∈ extents.insertionSort byStart, r.start < size := by
      intro r hr
      exact hext r ((List.perm_insertionSort byStart extents).mem_iff.mp hr)
    have hmin : BTRFS_BLOCK_RESERVED_1M_FOR_SUPER = min BTRFS_BLOCK_RESERVED_1M_FOR_SUPER (size - 1) := by
      decide +kernel
    rw [hmin, search_holes_eq htotal _ hsort]
    refine (pickHole_firstFit (gaps_sorted ?_)).congr (mem_gaps_iff_deviceHole (by omega) extents)
    intro r hr
    have := (List.mem_filter.mp hr).2
    simp only [decide_eq_true_eq] at this
    omega

end LuksAndroid.Btrfs

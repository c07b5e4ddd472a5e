import LuksAndroid.Btrfs.IntervalSet
import LuksAndroid.Btrfs.Txn.Csum

/-!
# Ranges without the freed ones

Merging loses no address, and what survives of an interval are its addresses that no range frees, in order.
-/

namespace LuksAndroid.Btrfs

open IntervalSet

/-- Intervals of whole sectors in order, none of them empty. -/
structure Pieces (sector : Nat) (l : List (Nat × Nat)) : Prop where
  pos : ∀ i ∈ l, i.1 < i.2
  apart : l.Pairwise fun a b => a.2 ≤ b.1
  whole : ∀ i ∈ l, sector ∣ i.1 ∧ sector ∣ i.2

/-- Ranges of whole sectors. -/
def OnSectors (sector : Nat) (l : List (Nat × Nat)) : Prop := ∀ f ∈ l, sector ∣ f.1 ∧ sector ∣ f.2

/-! ## Merging -/

theorem cells_merge_freed_from {last : Nat × Nat} {l : List (Nat × Nat)}
    (h : (last :: l).Pairwise fun a b => a.1 ≤ b.1) :
    cells (merge_freed_from last l) = cells (last :: l) := by
  induction l generalizing last with
  | nil => rfl
  | cons f rest ih =>
    obtain ⟨start, stop⟩ := f
    obtain ⟨hlast, hrest⟩ := List.pairwise_cons.mp h
    have hle : last.1 ≤ start := hlast (start, stop) List.mem_cons_self
    rw [merge_freed_from]
    split
    · rename_i htouch
      have hmerged : ((last.1, max last.2 stop) :: rest).Pairwise fun a b => a.1 ≤ b.1 :=
        List.pairwise_cons.mpr ⟨fun b hb => hlast b (List.mem_cons_of_mem _ hb), (List.pairwise_cons.mp hrest).2⟩
      rw [ih hmerged]
      ext n
      simp only [cells_cons, Set.mem_union, Set.mem_Ico]
      constructor
      · rintro (⟨h1, h2⟩ | hn)
        · rcases lt_max_iff.mp h2 with h2 | h2
          · exact .inl ⟨h1, h2⟩
          · by_cases hlt : n < last.2
            · exact .inl ⟨h1, hlt⟩
            · exact .inr (.inl ⟨htouch.trans (not_lt.mp hlt), h2⟩)
        · exact .inr (.inr hn)
      · rintro (⟨h1, h2⟩ | ⟨h1, h2⟩ | hn)
        · exact .inl ⟨h1, h2.trans_le (le_max_left _ _)⟩
        · exact .inl ⟨hle.trans h1, h2.trans_le (le_max_right _ _)⟩
        · exact .inr hn
    · rw [cells_cons, cells_cons, ih hrest]

theorem cells_merge_freed (ranges : List (Nat × Nat)) : cells (merge_freed ranges) = cells ranges := by
  have hperm := List.perm_insertionSort (fun a b : Nat × Nat => a.1 ≤ b.1) ranges
  have hcells : cells (ranges.insertionSort fun a b => a.1 ≤ b.1) = cells ranges := by
    ext n
    simp only [cells, Set.mem_ofPred_eq, hperm.mem_iff]
  have hsorted : (ranges.insertionSort fun a b => a.1 ≤ b.1).Pairwise fun a b => a.1 ≤ b.1 := by
    have htotal : Std.Total fun a b : Nat × Nat => a.1 ≤ b.1 := ⟨fun a b => le_total a.1 b.1⟩
    have htrans : IsTrans (Nat × Nat) fun a b => a.1 ≤ b.1 := ⟨fun a b c => le_trans⟩
    exact List.pairwise_insertionSort _ _
  unfold merge_freed
  cases hsort : ranges.insertionSort fun a b => a.1 ≤ b.1 with
  | nil => rw [← hcells, hsort]
  | cons r rest =>
    rw [hsort] at hsorted hcells
    exact (cells_merge_freed_from hsorted).trans hcells

theorem OnSectors.merge_freed_from {sector : Nat} {last : Nat × Nat} {l : List (Nat × Nat)}
    (h : OnSectors sector (last :: l)) : OnSectors sector (merge_freed_from last l) := by
  induction l generalizing last with
  | nil => exact h
  | cons f rest ih =>
    obtain ⟨start, stop⟩ := f
    obtain ⟨hlast, hf⟩ : (sector ∣ last.1 ∧ sector ∣ last.2) ∧ sector ∣ start ∧ sector ∣ stop :=
      ⟨h last (by simp), h (start, stop) (by simp)⟩
    rw [Btrfs.merge_freed_from]
    split
    · apply ih
      rintro i (_ | ⟨_, hi⟩)
      · refine ⟨hlast.1, ?_⟩
        rcases max_choice last.2 stop with hm | hm <;> rw [hm]
        · exact hlast.2
        · exact hf.2
      · exact h i (List.mem_cons_of_mem _ (List.mem_cons_of_mem _ hi))
    · have hrest := ih fun i hi => h i (List.mem_cons_of_mem _ hi)
      rintro i (_ | ⟨_, hi⟩)
      · exact hlast
      · exact hrest i hi

theorem OnSectors.merge_freed {sector : Nat} {ranges : List (Nat × Nat)} (h : OnSectors sector ranges) :
    OnSectors sector (merge_freed ranges) := by
  have hperm := List.perm_insertionSort (fun a b : Nat × Nat => a.1 ≤ b.1) ranges
  unfold Btrfs.merge_freed
  cases hsort : ranges.insertionSort fun a b => a.1 ≤ b.1 with
  | nil => exact fun f hf => absurd hf (by simp)
  | cons r rest =>
    rw [hsort] at hperm
    exact OnSectors.merge_freed_from fun f hf => h f (hperm.mem_iff.mp hf)

/-! ## What survives -/

namespace Pieces

variable {sector : Nat}

theorem append {l m : List (Nat × Nat)} (hl : Pieces sector l) (hm : Pieces sector m)
    (hlm : ∀ a ∈ l, ∀ b ∈ m, a.2 ≤ b.1) : Pieces sector (l ++ m) where
  pos := by
    intro i hi
    exact (List.mem_append.mp hi).elim (hl.pos i) (hm.pos i)
  apart := List.pairwise_append.mpr ⟨hl.apart, hm.apart, hlm⟩
  whole := by
    intro i hi
    exact (List.mem_append.mp hi).elim (hl.whole i) (hm.whole i)

theorem nil : Pieces sector [] := ⟨by simp, .nil, by simp⟩

theorem singleton {i : Nat × Nat} (hpos : i.1 < i.2) (hwhole : sector ∣ i.1 ∧ sector ∣ i.2) :
    Pieces sector [i] := ⟨by simpa using hpos, List.pairwise_singleton _ _, by simpa using hwhole⟩

end Pieces

theorem cut_interval_within {f i j : Nat × Nat} (h : j ∈ cut_interval f i) : i.1 ≤ j.1 ∧ j.2 ≤ i.2 := by
  simp only [cut_interval] at h
  split at h
  · rcases List.mem_append.mp h with h | h
    · split at h
      · cases List.mem_singleton.mp h
        simp only
        omega
      · cases h
    · split at h
      · cases List.mem_singleton.mp h
        simp only
        omega
      · cases h
  · cases List.mem_singleton.mp h
    exact ⟨le_rfl, le_rfl⟩

theorem cells_cut_interval {f : Nat × Nat} (hf : f.1 < f.2) (i : Nat × Nat) :
    cells (cut_interval f i) = Set.Ico i.1 i.2 \ Set.Ico f.1 f.2 := by
  ext n
  simp only [cut_interval, Set.mem_sdiff, Set.mem_Ico]
  split_ifs <;> simp <;> omega

theorem cut_interval_pieces {sector : Nat} {f i : Nat × Nat} (hi : i.1 < i.2)
    (hwhole : sector ∣ i.1 ∧ sector ∣ i.2) (hf : sector ∣ f.1 ∧ sector ∣ f.2) :
    Pieces sector (cut_interval f i) := by
  have hmax : sector ∣ max i.1 f.1 := by
    rcases max_choice i.1 f.1 with h | h <;> rw [h]
    · exact hwhole.1
    · exact hf.1
  have hmin : sector ∣ min i.2 f.2 := by
    rcases min_choice i.2 f.2 with h | h <;> rw [h]
    · exact hwhole.2
    · exact hf.2
  simp only [cut_interval]
  split
  · rename_i hover
    refine Pieces.append ?_ ?_ ?_
    · split
      · rename_i hlt
        exact .singleton hlt ⟨hwhole.1, hmax⟩
      · exact .nil
    · split
      · rename_i hlt
        exact .singleton hlt ⟨hmin, hwhole.2⟩
      · exact .nil
    · intro a ha b hb
      split at ha
      · split at hb
        · cases List.mem_singleton.mp ha
          cases List.mem_singleton.mp hb
          exact hover.le
        · cases hb
      · cases ha
  · exact .singleton hi hwhole

theorem cells_flatMap_cut {f : Nat × Nat} (hf : f.1 < f.2) (l : List (Nat × Nat)) :
    cells (l.flatMap (cut_interval f)) = cells l \ Set.Ico f.1 f.2 := by
  induction l with
  | nil => simp
  | cons i l ih =>
    rw [List.flatMap_cons, cells_append, cells_cut_interval hf, ih, cells_cons, Set.union_sdiff_distrib]

theorem Pieces.flatMap_cut {sector : Nat} {f : Nat × Nat} (hf : sector ∣ f.1 ∧ sector ∣ f.2)
    {l : List (Nat × Nat)} (h : Pieces sector l) : Pieces sector (l.flatMap (cut_interval f)) := by
  induction l with
  | nil => exact h
  | cons i l ih =>
    have htail : Pieces sector l := ⟨fun j hj => h.pos j (List.mem_cons_of_mem _ hj), (List.pairwise_cons.mp h.apart).2,
      fun j hj => h.whole j (List.mem_cons_of_mem _ hj)⟩
    rw [List.flatMap_cons]
    refine (cut_interval_pieces (h.pos i (by simp)) (h.whole i (by simp)) hf).append (ih htail) ?_
    intro a ha b hb
    obtain ⟨j, hj, hb⟩ := List.mem_flatMap.mp hb
    have hij := (List.pairwise_cons.mp h.apart).1 j hj
    exact ((cut_interval_within ha).2.trans hij).trans (cut_interval_within hb).1

theorem cells_surviving (item_start item_end : Nat) (freed : List (Nat × Nat)) :
    cells (compute_surviving_intervals item_start item_end freed) =
      Set.Ico item_start item_end \ cells freed := by
  have hfold : ∀ l, cells (freed.foldl
      (fun current f => if f.1 ≥ f.2 then current else current.flatMap (cut_interval f)) l) =
        cells l \ cells freed := by
    induction freed with
    | nil => simp
    | cons f freed ih =>
      intro l
      rw [List.foldl_cons, ih, cells_cons]
      split
      · rename_i hempty
        rw [Set.Ico_eq_empty (not_lt.mpr hempty), Set.empty_union]
      · rename_i hpos
        rw [cells_flatMap_cut (not_le.mp hpos), Set.sdiff_sdiff]
  unfold compute_surviving_intervals
  split
  · rename_i hempty
    rw [cells_nil, Set.Ico_eq_empty (not_lt.mpr hempty), Set.empty_sdiff]
  · rw [hfold, cells_cons, cells_nil, Set.union_empty]

theorem surviving_pieces {sector item_start item_end : Nat} {freed : List (Nat × Nat)}
    (hstart : sector ∣ item_start) (hend : sector ∣ item_end) (hfreed : OnSectors sector freed) :
    Pieces sector (compute_surviving_intervals item_start item_end freed) := by
  unfold compute_surviving_intervals
  split
  · exact .nil
  · rename_i hpos
    have hfold : ∀ l, Pieces sector l → Pieces sector (freed.foldl
        (fun current f => if f.1 ≥ f.2 then current else current.flatMap (cut_interval f)) l) := by
      induction freed with
      | nil => exact fun l hl => hl
      | cons f freed ih =>
        intro l hl
        refine ih (fun g hg => hfreed g (List.mem_cons_of_mem _ hg)) _ ?_
        simp only
        split
        · exact hl
        · exact hl.flatMap_cut (hfreed f (by simp))
    exact hfold _ (.singleton (not_le.mp hpos) ⟨hstart, hend⟩)

theorem surviving_within {sector item_start item_end : Nat} {freed : List (Nat × Nat)} {i : Nat × Nat}
    (hp : Pieces sector (compute_surviving_intervals item_start item_end freed))
    (hi : i ∈ compute_surviving_intervals item_start item_end freed) : item_start ≤ i.1 ∧ i.2 ≤ item_end := by
  have hpos := hp.pos i hi
  have hsub : ∀ n, i.1 ≤ n → n < i.2 → item_start ≤ n ∧ n < item_end := by
    intro n h1 h2
    have hn : n ∈ cells (compute_surviving_intervals item_start item_end freed) := ⟨i, hi, h1, h2⟩
    rw [cells_surviving] at hn
    exact hn.1
  have hlow := hsub i.1 le_rfl hpos
  have hhigh := hsub (i.2 - 1) (by omega) (by omega)
  omega

end LuksAndroid.Btrfs

import Mathlib

/-!
# Lists of spans

A span is a run of addresses `[start, start + length)`. A list of spans covers a
set of addresses. The operations here (cut one span, subtract a window from a
list, join touching neighbours) are described by what they do to that set.
-/

structure Span where
  start : Nat
  length : Nat
deriving DecidableEq, Repr

namespace Span

def stop (r : Span) : Nat := r.start + r.length

def cells (r : Span) : Set Nat := Set.Ico r.start r.stop

@[simp] theorem mem_cells {r : Span} {x : Nat} : x ∈ r.cells ↔ r.start ≤ x ∧ x < r.stop := Iff.rfl

@[simp] theorem stop_mk (s n : Nat) : (Span.mk s n).stop = s + n := rfl

end Span

namespace Spans

/-- The addresses that some span of the list holds. -/
def covers (l : List Span) : Set Nat := {x | ∃ r ∈ l, x ∈ r.cells}

def total (l : List Span) : Nat := (l.map Span.length).sum

/-- Sorted, without empty spans, pairwise disjoint. -/
structure Ordered (l : List Span) : Prop where
  pos : ∀ r ∈ l, 0 < r.length
  apart : l.Pairwise (fun a b => a.stop ≤ b.start)

/-- Every span lies in the window `[lo, hi)`. -/
def Within (lo hi : Nat) (l : List Span) : Prop := ∀ r ∈ l, lo ≤ r.start ∧ r.stop ≤ hi

/-! ## Covered addresses -/

theorem mem_covers {l : List Span} {x : Nat} : x ∈ covers l ↔ ∃ r ∈ l, r.start ≤ x ∧ x < r.stop :=
  Iff.rfl

@[simp] theorem covers_nil : covers [] = ∅ := by ext x; simp [covers]

@[simp] theorem covers_cons (r : Span) (l : List Span) : covers (r :: l) = r.cells ∪ covers l := by
  ext x; simp [covers]

@[simp] theorem covers_append (l m : List Span) : covers (l ++ m) = covers l ∪ covers m := by
  ext x
  simp only [covers, List.mem_append, Set.mem_ofPred_eq, Set.mem_union]
  constructor
  · rintro ⟨r, hr | hr, hx⟩
    · exact Or.inl ⟨r, hr, hx⟩
    · exact Or.inr ⟨r, hr, hx⟩
  · rintro (⟨r, hr, hx⟩ | ⟨r, hr, hx⟩)
    · exact ⟨r, Or.inl hr, hx⟩
    · exact ⟨r, Or.inr hr, hx⟩

theorem covers_perm {l m : List Span} (h : l.Perm m) : covers l = covers m := by
  ext x; simp only [covers, Set.mem_ofPred_eq, h.mem_iff]

theorem Within.covers_subset {lo hi : Nat} {l : List Span} (h : Within lo hi l) :
    covers l ⊆ Set.Ico lo hi := by
  rintro x ⟨r, hr, hx⟩
  obtain ⟨h1, h2⟩ := h r hr
  rw [Span.mem_cells] at hx
  exact ⟨by omega, by omega⟩

theorem Ordered.within_of_covers {lo hi : Nat} {l : List Span} (ho : Ordered l)
    (h : covers l ⊆ Set.Ico lo hi) : Within lo hi l := by
  intro r hr
  have hpos := ho.pos r hr
  have hfirst : r.start ∈ Set.Ico lo hi := h ⟨r, hr, by simp [Span.stop]; omega⟩
  have hlast : r.stop - 1 ∈ Set.Ico lo hi := h ⟨r, hr, by simp [Span.stop]; omega⟩
  simp only [Set.mem_Ico, Span.stop] at hfirst hlast ⊢
  omega

theorem finite_covers (l : List Span) : (covers l).Finite := by
  induction l with
  | nil => simp
  | cons r l ih =>
    rw [covers_cons]
    exact (Set.finite_Ico _ _).union ih

/-! ## Ordered lists -/

theorem ordered_nil : Ordered [] := ⟨by simp, List.Pairwise.nil⟩

theorem ordered_cons {r : Span} {l : List Span} :
    Ordered (r :: l) ↔ 0 < r.length ∧ (∀ b ∈ l, r.stop ≤ b.start) ∧ Ordered l := by
  constructor
  · intro h
    have hp := List.pairwise_cons.mp h.apart
    exact ⟨h.pos r (by simp), hp.1, fun b hb => h.pos b (by simp [hb]), hp.2⟩
  · rintro ⟨h1, h2, h3⟩
    exact ⟨by simpa [h1] using h3.pos, List.pairwise_cons.mpr ⟨h2, h3.apart⟩⟩

theorem ordered_append {l m : List Span} :
    Ordered (l ++ m) ↔ Ordered l ∧ Ordered m ∧ ∀ a ∈ l, ∀ b ∈ m, a.stop ≤ b.start := by
  constructor
  · intro h
    obtain ⟨h1, h2, h3⟩ := List.pairwise_append.mp h.apart
    exact ⟨⟨fun r hr => h.pos r (by simp [hr]), h1⟩, ⟨fun r hr => h.pos r (by simp [hr]), h2⟩, h3⟩
  · rintro ⟨h1, h2, h3⟩
    refine ⟨?_, List.pairwise_append.mpr ⟨h1.apart, h2.apart, h3⟩⟩
    intro r hr
    rcases List.mem_append.mp hr with hr | hr
    · exact h1.pos r hr
    · exact h2.pos r hr

theorem ordered_singleton {r : Span} (h : 0 < r.length) : Ordered [r] :=
  ordered_cons.mpr ⟨h, by simp, ordered_nil⟩

theorem Ordered.sublist {l m : List Span} (h : Ordered m) (hs : l.Sublist m) : Ordered l :=
  ⟨fun r hr => h.pos r (hs.subset hr), h.apart.sublist hs⟩

theorem ncard_cells (r : Span) : r.cells.ncard = r.length := by
  rw [Span.cells, ← Finset.coe_Ico, Set.ncard_coe_finset, Nat.card_Ico, Span.stop]
  omega

theorem Ordered.ncard_covers {l : List Span} (h : Ordered l) : (covers l).ncard = total l := by
  induction l with
  | nil => simp [total]
  | cons r l ih =>
    obtain ⟨-, hapart, hl⟩ := ordered_cons.mp h
    have hdisj : Disjoint r.cells (covers l) := by
      rw [Set.disjoint_left]
      rintro x hx ⟨b, hb, hxb⟩
      have := hapart b hb
      simp only [Span.mem_cells] at hx hxb
      omega
    rw [covers_cons, Set.ncard_union_eq hdisj (Set.finite_Ico _ _) (finite_covers l), ih hl, ncard_cells]
    simp [total]

/-! ## Cutting a window out of one span -/

/-- What is left of `r` outside `[a, b)`, when the window overlaps `r`. -/
def cut (r : Span) (a b : Nat) : List Span :=
  (if r.start < a then [⟨r.start, a - r.start⟩] else []) ++
    (if b < r.stop then [⟨b, r.stop - b⟩] else [])

theorem covers_cut {r : Span} {a b : Nat} (ha : a ≤ r.stop) (hb : r.start ≤ b) :
    covers (cut r a b) = r.cells \ Set.Ico a b := by
  ext x
  simp only [cut, covers_append, Set.mem_union, Set.mem_sdiff, Span.mem_cells, Set.mem_Ico]
  have h1 : x ∈ covers (if r.start < a then [⟨r.start, a - r.start⟩] else []) ↔
      r.start ≤ x ∧ x < a := by
    split
    · simp; omega
    · simp; omega
  have h2 : x ∈ covers (if b < r.stop then [⟨b, r.stop - b⟩] else []) ↔ b ≤ x ∧ x < r.stop := by
    split
    · simp; omega
    · simp; omega
  rw [h1, h2]
  omega

theorem cut_within {r : Span} {a b : Nat} (ha : a ≤ r.stop) (hb : r.start ≤ b) :
    Within r.start r.stop (cut r a b) := by
  intro c hc
  simp only [cut, List.mem_append] at hc
  rcases hc with hc | hc <;> split at hc <;> simp at hc
  all_goals subst hc; simp; omega

theorem ordered_cut {r : Span} {a b : Nat} (hab : a ≤ b) : Ordered (cut r a b) := by
  rw [cut, ordered_append]
  refine ⟨?_, ?_, ?_⟩
  · split
    · exact ordered_singleton (by simp; omega)
    · exact ordered_nil
  · split
    · exact ordered_singleton (by simp; omega)
    · exact ordered_nil
  · intro c hc d hd
    split at hc <;> split at hd <;> simp at hc hd
    subst hc hd
    simp; omega

theorem Ordered.replace {pre post l : List Span} {r : Span} (h : Ordered (pre ++ r :: post))
    (hl : Ordered l) (hin : Within r.start r.stop l) : Ordered (pre ++ l ++ post) := by
  obtain ⟨hpre, hr, hcross⟩ := ordered_append.mp h
  obtain ⟨-, hrpost, hpost⟩ := ordered_cons.mp hr
  rw [List.append_assoc, ordered_append, ordered_append]
  refine ⟨hpre, ⟨hl, hpost, ?_⟩, ?_⟩
  · intro a ha b hb
    exact (hin a ha).2.trans (hrpost b hb)
  · intro a ha b hb
    rcases List.mem_append.mp hb with hb | hb
    · exact (hcross a ha r (by simp)).trans (hin b hb).1
    · exact hcross a ha b (by simp [hb])

theorem covers_replace_cut {pre post : List Span} {r : Span} {a b : Nat}
    (h : Ordered (pre ++ r :: post)) (hab : a ≤ b) (ha : r.start ≤ a) (hb : b ≤ r.stop) :
    covers (pre ++ cut r a b ++ post) = covers (pre ++ r :: post) \ Set.Ico a b := by
  obtain ⟨hpre, hr, hcross⟩ := ordered_append.mp h
  obtain ⟨-, hrpost, hpost⟩ := ordered_cons.mp hr
  rw [covers_append, covers_append, covers_cut (hab.trans hb) (ha.trans hab), covers_append, covers_cons]
  ext x
  have h1 : x ∈ covers pre → x ∉ Set.Ico a b := by
    rintro ⟨c, hc, hx⟩ hw
    have := hcross c hc r (by simp)
    simp only [Span.mem_cells, Set.mem_Ico] at hx hw
    omega
  have h2 : x ∈ covers post → x ∉ Set.Ico a b := by
    rintro ⟨c, hc, hx⟩ hw
    have := hrpost c hc
    simp only [Span.mem_cells, Set.mem_Ico] at hx hw
    omega
  simp only [Set.mem_union, Set.mem_sdiff]
  tauto

/-! ## Subtracting a window from a list -/

def subtract (l : List Span) (a b : Nat) : List Span :=
  l.flatMap fun r => if b ≤ r.start ∨ r.stop ≤ a then [r] else cut r a b

theorem subtract_cons (r : Span) (l : List Span) (a b : Nat) :
    subtract (r :: l) a b =
      (if b ≤ r.start ∨ r.stop ≤ a then [r] else cut r a b) ++ subtract l a b := rfl

theorem covers_subtract (l : List Span) (a b : Nat) :
    covers (subtract l a b) = covers l \ Set.Ico a b := by
  induction l with
  | nil => simp [subtract]
  | cons r l ih =>
    rw [subtract_cons, covers_append, ih, covers_cons, Set.union_sdiff_distrib]
    congr 1
    split
    · ext x
      simp only [covers_cons, covers_nil, Set.union_empty, Set.mem_sdiff, Span.mem_cells, Set.mem_Ico]
      omega
    · exact covers_cut (by omega) (by omega)

theorem Ordered.subtract {l : List Span} (h : Ordered l) {a b : Nat} (hab : a ≤ b) :
    Ordered (subtract l a b) := by
  induction l with
  | nil => exact ordered_nil
  | cons r l ih =>
    obtain ⟨hpos, hapart, hl⟩ := ordered_cons.mp h
    rw [subtract_cons, ordered_append]
    have hin : Within r.start r.stop (if b ≤ r.start ∨ r.stop ≤ a then [r] else cut r a b) := by
      split
      · intro c hc; simp at hc; subst hc; simp
      · exact cut_within (by omega) (by omega)
    refine ⟨?_, ih hl, ?_⟩
    · split
      · exact ordered_singleton hpos
      · exact ordered_cut hab
    · -- A piece of a later span starts where that span starts, or after.
      intro c hc d hd
      obtain ⟨e, he, hd⟩ := List.mem_flatMap.mp hd
      have hce := (hin c hc).2
      have hre := hapart e he
      have hed : e.start ≤ d.start := by
        split at hd
        · simp at hd; subst hd; exact le_refl _
        · exact (cut_within (by omega) (by omega) d hd).1
      omega

/-! ## Joining touching spans -/

/-- `last` is the newest joined span, and the rest is still to come. -/
def mergeFrom : Span → List Span → List Span
  | last, [] => [last]
  | last, r :: rest =>
    if r.start ≤ last.stop then mergeFrom ⟨last.start, max last.stop r.stop - last.start⟩ rest
    else last :: mergeFrom r rest

def merge : List Span → List Span
  | [] => []
  | r :: rest => mergeFrom r rest

def byStart (a b : Span) : Prop := a.start ≤ b.start

instance : DecidableRel byStart := fun a b => inferInstanceAs (Decidable (a.start ≤ b.start))

instance : IsTrans Span byStart := ⟨fun _ _ _ => Nat.le_trans⟩

instance : Std.Total byStart := ⟨fun a b => Nat.le_total a.start b.start⟩

theorem covers_mergeFrom (last : Span) (l : List Span) (h : (last :: l).Pairwise byStart) :
    covers (mergeFrom last l) = last.cells ∪ covers l := by
  induction l generalizing last with
  | nil => simp [mergeFrom]
  | cons r l ih =>
    rw [List.pairwise_cons] at h
    have hr : last.start ≤ r.start := h.1 r (by simp)
    rw [mergeFrom]
    split
    · rename_i hle
      rw [ih, covers_cons, ← Set.union_assoc]
      · congr 1
        ext x
        simp only [Set.mem_union, Span.mem_cells, Span.stop_mk]
        omega
      · rw [List.pairwise_cons]
        exact ⟨fun c hc => h.1 c (by simp [hc]), (List.pairwise_cons.mp h.2).2⟩
    · rw [covers_cons, ih r h.2, covers_cons]

theorem ordered_mergeFrom (last : Span) (l : List Span) (h : (last :: l).Pairwise byStart)
    (hlast : 0 < last.length) (hpos : ∀ r ∈ l, 0 < r.length) :
    Ordered (mergeFrom last l) ∧ ∀ r ∈ mergeFrom last l, last.start ≤ r.start := by
  induction l generalizing last with
  | nil => exact ⟨ordered_singleton hlast, by simp [mergeFrom]⟩
  | cons r l ih =>
    rw [List.pairwise_cons] at h
    have hr : last.start ≤ r.start := h.1 r (by simp)
    have htail := List.pairwise_cons.mp h.2
    rw [mergeFrom]
    split
    · apply ih
      · rw [List.pairwise_cons]
        exact ⟨fun c hc => h.1 c (by simp [hc]), htail.2⟩
      · simp [Span.stop]; omega
      · exact fun c hc => hpos c (by simp [hc])
    · rename_i hgt
      obtain ⟨h1, h2⟩ := ih r h.2 (hpos r (by simp)) (fun c hc => hpos c (by simp [hc]))
      refine ⟨ordered_cons.mpr ⟨hlast, fun b hb => ?_, h1⟩, ?_⟩
      · have := h2 b hb; omega
      · intro b hb
        rcases List.mem_cons.mp hb with rfl | hb
        · exact le_refl _
        · exact hr.trans (h2 b hb)

theorem covers_merge {l : List Span} (h : l.Pairwise byStart) : covers (merge l) = covers l := by
  cases l with
  | nil => rfl
  | cons r l => rw [merge, covers_mergeFrom r l h, covers_cons]

theorem ordered_merge {l : List Span} (h : l.Pairwise byStart) (hpos : ∀ r ∈ l, 0 < r.length) :
    Ordered (merge l) := by
  cases l with
  | nil => exact ordered_nil
  | cons r l => exact (ordered_mergeFrom r l h (hpos r (by simp)) (fun c hc => hpos c (by simp [hc]))).1

/-- Sorting by start and joining keeps the covered addresses and puts them in order. -/
theorem merge_insertionSort {l : List Span} (hpos : ∀ r ∈ l, 0 < r.length) :
    Ordered (merge (l.insertionSort byStart)) ∧
      covers (merge (l.insertionSort byStart)) = covers l := by
  have hsorted : (l.insertionSort byStart).Pairwise byStart := List.pairwise_insertionSort _ _
  have hperm : (l.insertionSort byStart).Perm l := List.perm_insertionSort _ _
  refine ⟨ordered_merge hsorted fun r hr => hpos r (hperm.mem_iff.mp hr), ?_⟩
  rw [covers_merge hsorted, covers_perm hperm]

end Spans

import LuksAndroid.Lib.Spans

/-!
# Holes between spans

A hole of a window is a run of addresses that no span holds and that cannot grow
inside the window. `gaps` lists the holes of spans that are sorted by their start.
-/

namespace Spans

/-- A maximal run of `[lo, hi)` that no span of the list holds. -/
structure Hole (lo hi : Nat) (l : List Span) (h : Span) : Prop where
  pos : 0 < h.length
  low : lo ≤ h.start
  high : h.stop ≤ hi
  clear : ∀ x ∈ h.cells, x ∉ covers l
  left : h.start = lo ∨ h.start - 1 ∈ covers l
  right : h.stop = hi ∨ h.stop ∈ covers l

/-- How far a list reaches, `top` at least. -/
def reach (top : Nat) : List Span → Nat
  | [] => top
  | r :: l => max r.stop (reach top l)

/-- The holes from `cur` on, the last one up to `top`. -/
def gaps (top : Nat) : List Span → Nat → List Span
  | [], cur => if cur < top then [⟨cur, top - cur⟩] else []
  | r :: l, cur => (if cur < r.start then [⟨cur, r.start - cur⟩] else []) ++ gaps top l (max cur r.stop)

theorem le_reach (top : Nat) (l : List Span) : top ≤ reach top l := by
  induction l with
  | nil => exact le_refl _
  | cons r l ih => exact ih.trans (le_max_right _ _)

theorem reach_le {top n : Nat} {l : List Span} (htop : top ≤ n) (h : ∀ r ∈ l, r.stop ≤ n) :
    reach top l ≤ n := by
  induction l with
  | nil => exact htop
  | cons r l ih => exact max_le (h r (by simp)) (ih fun b hb => h b (by simp [hb]))

theorem hole_congr {lo hi : Nat} {l m : List Span} (h : covers l = covers m) (g : Span) :
    Hole lo hi l g ↔ Hole lo hi m g := by
  constructor
  · rintro ⟨h1, h2, h3, h4, h5, h6⟩
    rw [h] at h4 h5 h6
    exact ⟨h1, h2, h3, h4, h5, h6⟩
  · rintro ⟨h1, h2, h3, h4, h5, h6⟩
    rw [← h] at h4 h5 h6
    exact ⟨h1, h2, h3, h4, h5, h6⟩

theorem hole_nil {lo top : Nat} {h : Span} :
    Hole lo (max lo top) [] h ↔ lo < top ∧ h = ⟨lo, top - lo⟩ := by
  constructor
  · rintro ⟨hpos, hlow, hhigh, -, hleft, hright⟩
    simp only [covers_nil, Set.mem_empty_iff_false, or_false] at hleft hright
    obtain ⟨start, length⟩ := h
    simp only [Span.stop] at *
    exact ⟨by omega, by simp only [Span.mk.injEq]; omega⟩
  · rintro ⟨hlt, rfl⟩
    refine ⟨by simp only; omega, le_refl _, by simp only [Span.stop]; omega, by simp, Or.inl rfl, Or.inl ?_⟩
    simp only [Span.stop]
    omega

/-- The holes beside a span that starts first: the one before it, and those of the rest behind it. -/
theorem hole_cons {lo hi : Nat} {r : Span} {l : List Span} (hr : 0 < r.length) (hhi : r.stop ≤ hi)
    (hfirst : ∀ b ∈ l, r.start ≤ b.start) {h : Span} :
    Hole lo hi (r :: l) h ↔
      (lo < r.start ∧ h = ⟨lo, r.start - lo⟩) ∨ Hole (max lo r.stop) hi l h := by
  have hstop : r.stop = r.start + r.length := rfl
  have hmem : ∀ x, x ∈ covers (r :: l) ↔ (r.start ≤ x ∧ x < r.stop) ∨ x ∈ covers l := by
    intro x
    rw [covers_cons]
    exact Iff.rfl
  -- Nothing of the list lies before the span.
  have hrest : ∀ x ∈ covers l, r.start ≤ x := by
    rintro x ⟨b, hb, hx⟩
    exact (hfirst b hb).trans hx.1
  constructor
  · rintro ⟨hpos, hlow, hhigh, hclear, hleft, hright⟩
    have hcell : ∀ x, h.start ≤ x → x < h.start + h.length → ¬ (r.start ≤ x ∧ x < r.stop) := by
      intro x hx hx' hin
      exact hclear x ⟨hx, hx'⟩ ((hmem x).mpr (Or.inl hin))
    have hs : h.stop = h.start + h.length := rfl
    rcases lt_or_ge h.start r.start with hlt | hge
    · -- It starts before the span, so it starts the window and ends at the span.
      have hstart : h.start = lo := by
        rcases hleft with hleft | hleft
        · exact hleft
        · rcases (hmem _).mp hleft with hin | hin
          · omega
          · have := hrest _ hin
            omega
      have hend : h.stop = r.start := by
        have hle : h.stop ≤ r.start := by
          by_contra hgt
          exact hcell r.start hlt.le (by omega) ⟨le_refl _, by omega⟩
        rcases hright with hright | hright
        · omega
        · rcases (hmem _).mp hright with hin | hin
          · omega
          · have := hrest _ hin
            omega
      refine Or.inl ⟨by omega, ?_⟩
      obtain ⟨start, length⟩ := h
      simp only [Span.mk.injEq]
      simp only at hstart hs hend
      omega
    · have hpast : r.stop ≤ h.start := by
        by_contra hlt
        exact hcell h.start (le_refl _) (by omega) ⟨hge, by omega⟩
      refine Or.inr ⟨hpos, by omega, hhigh, fun x hx hin => hclear x hx ((hmem x).mpr (Or.inr hin)), ?_, ?_⟩
      · rcases hleft with hleft | hleft
        · exact Or.inl (by omega)
        · rcases (hmem _).mp hleft with hin | hin
          · exact Or.inl (by omega)
          · exact Or.inr hin
      · rcases hright with hright | hright
        · exact Or.inl hright
        · rcases (hmem _).mp hright with hin | hin
          · omega
          · exact Or.inr hin
  · rintro (⟨hlt, rfl⟩ | ⟨hpos, hlow, hhigh, hclear, hleft, hright⟩)
    · have hend : lo + (r.start - lo) = r.start := by omega
      refine ⟨by simp only; omega, le_refl _, by simp only [Span.stop_mk]; omega, ?_, Or.inl rfl, Or.inr ?_⟩
      · intro x hx hin
        simp only [Span.mem_cells, Span.stop_mk, hend] at hx
        rcases (hmem x).mp hin with hin | hin
        · omega
        · have := hrest x hin
          omega
      · rw [Span.stop_mk, hend]
        exact (hmem _).mpr (Or.inl ⟨le_refl _, by omega⟩)
    · refine ⟨hpos, by omega, hhigh, ?_, ?_, hright.imp id fun hin => (hmem _).mpr (Or.inr hin)⟩
      · intro x hx hin
        rcases (hmem x).mp hin with hin | hin
        · have := hx.1
          omega
        · exact hclear x hx hin
      · rcases hleft with hleft | hleft
        · rcases le_or_gt r.stop lo with hle | hgt
          · exact Or.inl (by omega)
          · exact Or.inr ((hmem _).mpr (Or.inl ⟨by omega, by omega⟩))
        · exact Or.inr ((hmem _).mpr (Or.inr hleft))

theorem mem_gaps {top : Nat} {l : List Span} (hpos : ∀ r ∈ l, 0 < r.length)
    (hsorted : l.Pairwise fun a b => a.start ≤ b.start) {cur : Nat} {h : Span} :
    h ∈ gaps top l cur ↔ Hole cur (max cur (reach top l)) l h := by
  induction l generalizing cur with
  | nil =>
    rw [gaps, reach, hole_nil]
    split <;> simp [*]
  | cons r l ih =>
    obtain ⟨hfirst, hsorted⟩ := List.pairwise_cons.mp hsorted
    have hhi : max cur (reach top (r :: l)) = max (max cur r.stop) (reach top l) := by
      rw [reach, max_assoc]
    rw [gaps, List.mem_append, ih (fun b hb => hpos b (by simp [hb])) hsorted, hhi,
      hole_cons (hpos r (by simp)) (le_max_of_le_left (le_max_right _ _)) hfirst]
    split <;> simp [*]

theorem gaps_start_ge {top : Nat} {l : List Span} {cur : Nat} : ∀ h ∈ gaps top l cur, cur ≤ h.start := by
  induction l generalizing cur with
  | nil =>
    intro h hh
    rw [gaps] at hh
    split at hh <;> simp at hh
    simp [hh]
  | cons r l ih =>
    intro h hh
    rw [gaps, List.mem_append] at hh
    rcases hh with hh | hh
    · split at hh <;> simp at hh
      simp [hh]
    · exact (le_max_left _ _).trans (ih h hh)

theorem gaps_sorted {top : Nat} {l : List Span} {cur : Nat} (hpos : ∀ r ∈ l, 0 < r.length) :
    (gaps top l cur).Pairwise fun a b => a.start < b.start := by
  induction l generalizing cur with
  | nil =>
    rw [gaps]
    split <;> simp
  | cons r l ih =>
    have ih := @ih (max cur r.stop) fun b hb => hpos b (by simp [hb])
    rw [gaps, List.pairwise_append]
    refine ⟨by split <;> simp, ih, ?_⟩
    intro a ha b hb
    have hb := gaps_start_ge b hb
    have hr := hpos r (by simp)
    split at ha <;> simp at ha
    subst ha
    simp only [Span.stop] at hb ⊢
    omega

/-! ## The longest span -/

/-- The longer of two spans, the first one when they are equally long. -/
def longer (best : Option Span) (h : Span) : Option Span :=
  if best.all fun b => b.length < h.length then some h else best

/-- The first of the longest spans. -/
structure Longest (l : List Span) (h : Span) : Prop where
  mem : h ∈ l
  longest : ∀ g ∈ l, g.length ≤ h.length
  first : ∀ g ∈ l, g.length = h.length → h.start ≤ g.start

theorem foldl_longer {l : List Span} (best : Option Span)
    (hsorted : l.Pairwise fun a b => a.start < b.start) (hbest : ∀ b ∈ best, ∀ g ∈ l, b.start < g.start) :
    (best = none ∧ l = [] ∧ l.foldl longer best = none) ∨
      ∃ h, l.foldl longer best = some h ∧ Longest (best.toList ++ l) h := by
  induction l generalizing best with
  | nil =>
    cases best with
    | none => exact Or.inl ⟨rfl, rfl, rfl⟩
    | some b => exact Or.inr ⟨b, rfl, by simp, by simp, by simp⟩
  | cons a l ih =>
    obtain ⟨ha, hsorted⟩ := List.pairwise_cons.mp hsorted
    have hstep : ∃ c, longer best a = some c ∧ Longest (best.toList ++ [a]) c ∧ (c = a ∨ best = some c) := by
      cases best with
      | none => exact ⟨a, rfl, ⟨by simp, by simp, by simp⟩, Or.inl rfl⟩
      | some b =>
        have hba := hbest b rfl a (by simp)
        unfold longer
        split
        · rename_i hlt
          simp only [Option.all_some, decide_eq_true_eq] at hlt
          exact ⟨a, rfl, ⟨by simp, by simp; omega, by simp; omega⟩, Or.inl rfl⟩
        · rename_i hge
          simp only [Option.all_some, decide_eq_true_eq] at hge
          exact ⟨b, rfl, ⟨by simp, by simp; omega, by simp; omega⟩, Or.inr rfl⟩
    obtain ⟨c, hc, hlongest, hcases⟩ := hstep
    have hnext : ∀ b ∈ some c, ∀ g ∈ l, b.start < g.start := by
      rintro b hb g hg
      cases hb
      rcases hcases with rfl | rfl
      · exact ha g hg
      · exact hbest c rfl g (by simp [hg])
    rw [List.foldl_cons, hc]
    rcases ih (some c) hsorted hnext with ⟨h, -, -⟩ | ⟨h, hfold, hmem, hlong, hfirst⟩
    · cases h
    · refine Or.inr ⟨h, hfold, ?_⟩
      have hch := hlong c (by simp)
      have hmem' : h ∈ best.toList ++ a :: l := by
        have hcin := hlongest.mem
        rcases List.mem_append.mp hmem with hmem | hmem
        · rw [List.mem_singleton.mp hmem]
          exact (List.append_assoc best.toList [a] l) ▸ List.mem_append_left l hcin
        · simp [hmem]
      have hsplit : ∀ g ∈ best.toList ++ a :: l, g ∈ best.toList ++ [a] ∨ g ∈ l := by
        intro g hg
        rwa [← List.mem_append, List.append_assoc]
      refine ⟨hmem', ?_, ?_⟩
      · intro g hg
        rcases hsplit g hg with hg | hg
        · exact (hlongest.longest g hg).trans hch
        · exact hlong g (by simp [hg])
      · intro g hg heq
        rcases hsplit g hg with hg | hg
        · have hgc := hlongest.longest g hg
          have h1 := hlongest.first g hg (by omega)
          have h2 := hfirst c (by simp) (by omega)
          omega
        · exact hfirst g (by simp [hg]) heq

end Spans

import LuksAndroid.Lib.Word

/-!
# Sets of intervals

`core/src/fs/btrfs/write/interval_set.rs`: the half-open ranges a transaction holds, sorted by
their starts. A list of them stands for the addresses it covers.
-/

namespace LuksAndroid.Btrfs

open Word

structure IntervalSet where
  intervals : List (Nat × Nat)
deriving DecidableEq, Repr

namespace IntervalSet

def new : IntervalSet := ⟨[]⟩

/-- How many intervals come before the first one for which `p` fails. -/
def partition_point (l : List (Nat × Nat)) (p : Nat × Nat → Bool) : Nat := (l.takeWhile p).length

def overlaps (s : IntervalSet) (start length : Nat) : Bool :=
  if length = 0 then false
  else
    match checked_add start length with
    | none => true
    | some stop =>
      let idx := partition_point s.intervals fun i => i.1 < stop
      idx > 0 ∧ (s.intervals.getD (idx - 1) (0, 0)).2 > start

def insert (s : IntervalSet) (start length : Nat) : Bool × IntervalSet :=
  if length = 0 then (true, s)
  else
    match checked_add start length with
    | none => (false, s)
    | some stop =>
      let idx := partition_point s.intervals fun i => i.1 < stop
      let prev := s.intervals.getD (idx - 1) (0, 0)
      let next := s.intervals.getD idx (0, 0)
      if idx > 0 ∧ prev.2 > start then (false, s)
      else
        let left : Bool := idx > 0 ∧ prev.2 = start
        let right : Bool := idx < s.intervals.length ∧ next.1 = stop
        let remove_start := if left then idx - 1 else idx
        let remove_end := if right then idx + 1 else idx
        (true, ⟨s.intervals.take remove_start ++
          (if left then prev.1 else start, if right then next.2 else stop) :: s.intervals.drop remove_end⟩)

/-- What is left of one interval. -/
def cut_one (start stop : Nat) (i : Nat × Nat) : List (Nat × Nat) :=
  if i.2 ≤ start ∨ i.1 ≥ stop then [i]
  else (if i.1 < start then [(i.1, start)] else []) ++ if i.2 > stop then [(stop, i.2)] else []

def remove (s : IntervalSet) (start length : Nat) : IntervalSet :=
  if length = 0 then s
  else
    match checked_add start length with
    | none => s
    | some stop => ⟨s.intervals.flatMap (cut_one start stop)⟩

def contains_range (s : IntervalSet) (start length : Nat) : Bool :=
  if length = 0 then true
  else
    match checked_add start length with
    | none => false
    | some stop =>
      let idx := partition_point s.intervals fun i => i.1 ≤ start
      let prev := s.intervals.getD (idx - 1) (0, 0)
      idx > 0 ∧ prev.1 ≤ start ∧ prev.2 ≥ stop

def remove_exact (s : IntervalSet) (start length : Nat) : Bool × IntervalSet :=
  if length = 0 then (true, s)
  else if ¬ s.contains_range start length then (false, s)
  else (true, s.remove start length)

/-! ## What a list stands for -/

/-- The addresses of a range. -/
def range (start length : Nat) : Set Nat := Set.Ico start (start + length)

def cells (l : List (Nat × Nat)) : Set Nat := {n | ∃ i ∈ l, i.1 ≤ n ∧ n < i.2}

/-- Sorted intervals of words, none of them empty, with a gap after each. -/
structure Apart (l : List (Nat × Nat)) : Prop where
  pos : ∀ i ∈ l, i.1 < i.2
  lt : ∀ i ∈ l, i.2 < size
  gaps : l.Pairwise fun a b => a.2 < b.1

@[simp] theorem mem_range {start length n : Nat} : n ∈ range start length ↔ start ≤ n ∧ n < start + length := Iff.rfl

@[simp] theorem cells_nil : cells [] = ∅ := by ext n; simp [cells]

@[simp] theorem cells_cons (i : Nat × Nat) (l : List (Nat × Nat)) : cells (i :: l) = Set.Ico i.1 i.2 ∪ cells l := by
  ext n
  simp [cells]

@[simp] theorem cells_append (l m : List (Nat × Nat)) : cells (l ++ m) = cells l ∪ cells m := by
  induction l with
  | nil => simp
  | cons i l ih => rw [List.cons_append, cells_cons, ih, cells_cons, Set.union_assoc]

theorem apart_nil : Apart [] := ⟨by simp, by simp, by simp⟩

theorem Apart.append_iff {l m : List (Nat × Nat)} :
    Apart (l ++ m) ↔ Apart l ∧ Apart m ∧ ∀ a ∈ l, ∀ b ∈ m, a.2 < b.1 := by
  constructor
  · intro h
    obtain ⟨hl, hm, hlm⟩ := List.pairwise_append.mp h.gaps
    exact ⟨⟨fun i hi => h.pos i (by simp [hi]), fun i hi => h.lt i (by simp [hi]), hl⟩,
      ⟨fun i hi => h.pos i (by simp [hi]), fun i hi => h.lt i (by simp [hi]), hm⟩, hlm⟩
  · rintro ⟨hl, hm, hlm⟩
    refine ⟨?_, ?_, List.pairwise_append.mpr ⟨hl.gaps, hm.gaps, hlm⟩⟩
    · intro i hi
      rcases List.mem_append.mp hi with hi | hi
      · exact hl.pos i hi
      · exact hm.pos i hi
    · intro i hi
      rcases List.mem_append.mp hi with hi | hi
      · exact hl.lt i hi
      · exact hm.lt i hi

theorem apart_singleton {i : Nat × Nat} : Apart [i] ↔ i.1 < i.2 ∧ i.2 < size := by
  constructor
  · intro h
    exact ⟨h.pos i (by simp), h.lt i (by simp)⟩
  · rintro ⟨hpos, hlt⟩
    exact ⟨by simpa using hpos, by simpa using hlt, by simp⟩

theorem Apart.cells_lt {l : List (Nat × Nat)} (h : Apart l) {n : Nat} (hn : n ∈ cells l) : n + 1 < size := by
  obtain ⟨i, hi, -, hlt⟩ := hn
  have := h.lt i hi
  omega

theorem Apart.split {l : List (Nat × Nat)} (h : Apart l) (p : Nat × Nat → Bool)
    (hp : ∀ a b : Nat × Nat, a.1 ≤ b.1 → p b = true → p a = true) :
    ∃ a b, l = a ++ b ∧ partition_point l p = a.length ∧ (∀ i ∈ a, p i = true) ∧ ∀ i ∈ b, p i = false := by
  refine ⟨l.takeWhile p, l.dropWhile p, List.takeWhile_append_dropWhile.symm, rfl,
    fun i hi => List.mem_takeWhile_imp hi, ?_⟩
  cases hb : l.dropWhile p with
  | nil => simp
  | cons j b =>
    have hfirst : p j = false := by
      have hhead := List.head?_dropWhile_not p l
      rw [hb] at hhead
      simpa using hhead
    have hsplit : l = l.takeWhile p ++ j :: b := by
      rw [← hb]
      exact List.takeWhile_append_dropWhile.symm
    have hrest := (Apart.append_iff.mp (hsplit ▸ h)).2.1
    intro i hi
    rcases List.mem_cons.mp hi with rfl | hi
    · exact hfirst
    · by_contra hne
      have hlt := (List.pairwise_cons.mp hrest.gaps).1 i hi
      have hpos := hrest.pos j (by simp)
      rw [hp j i (by omega) (by simpa using hne)] at hfirst
      cases hfirst

theorem Apart.split_stop {l : List (Nat × Nat)} (h : Apart l) (stop : Nat) :
    ∃ a b, l = a ++ b ∧ partition_point l (fun i => i.1 < stop) = a.length ∧ (∀ i ∈ a, i.1 < stop) ∧
      ∀ i ∈ b, stop ≤ i.1 := by
  obtain ⟨a, b, hl, hidx, ha, hb⟩ := h.split (fun i => i.1 < stop) (by simp only [decide_eq_true_eq]; omega)
  exact ⟨a, b, hl, hidx, by simpa using ha, by simpa using hb⟩

theorem getD_concat {l a b : List (Nat × Nat)} {prev : Nat × Nat} (hl : l = a ++ [prev] ++ b) :
    l.getD ((a ++ [prev]).length - 1) (0, 0) = prev := by
  subst hl
  simp

/-- The interval before the search's place is the only one that can share an address with the range. -/
theorem Apart.meets_iff {a b : List (Nat × Nat)} (h : Apart (a ++ b)) {start stop : Nat} (hpos : start < stop)
    (ha : ∀ i ∈ a, i.1 < stop) (hb : ∀ i ∈ b, stop ≤ i.1) :
    (a.length > 0 ∧ ((a ++ b).getD (a.length - 1) (0, 0)).2 > start) ↔
      ∃ n ∈ cells (a ++ b), start ≤ n ∧ n < stop := by
  have hbehind : ∀ i ∈ b, ∀ n, n < stop → ¬ (i.1 ≤ n ∧ n < i.2) := by
    intro i hi n hn
    have := hb i hi
    omega
  rcases a.eq_nil_or_concat' with rfl | ⟨before, prev, rfl⟩
  · simp only [List.nil_append, List.length_nil, gt_iff_lt, Nat.lt_irrefl, false_and, false_iff]
    rintro ⟨n, ⟨i, hi, hn⟩, -, hlt⟩
    exact hbehind i hi n hlt hn
  · rw [getD_concat rfl]
    have hprev := ha prev (by simp)
    have hnonempty := h.pos prev (by simp)
    have hbefore := (Apart.append_iff.mp (Apart.append_iff.mp h).1).2.2
    constructor
    · rintro ⟨-, hover⟩
      exact ⟨max prev.1 start, ⟨prev, by simp, by omega, by omega⟩, by omega, by omega⟩
    · rintro ⟨n, ⟨i, hi, hn⟩, hle, hlt⟩
      refine ⟨by simp, ?_⟩
      rcases List.mem_append.mp hi with hi | hi
      · rcases List.mem_append.mp hi with hi | hi
        · have := hbefore i hi prev (by simp)
          omega
        · rw [List.mem_singleton] at hi
          subst hi
          omega
      · exact absurd hn (hbehind i hi n hlt)

theorem overlaps_iff {s : IntervalSet} (h : Apart s.intervals) (start length : Nat) :
    s.overlaps start length = true ↔
      length ≠ 0 ∧ (size ≤ start + length ∨ ∃ n ∈ cells s.intervals, n ∈ range start length) := by
  unfold overlaps
  by_cases hzero : length = 0
  · simp [hzero]
  by_cases hfits : start + length < size
  · obtain ⟨a, b, hl, hidx, ha, hb⟩ := h.split_stop (start + length)
    rw [if_neg hzero, checked_add, if_pos hfits]
    simp only [hidx, decide_eq_true_eq]
    rw [hl] at h ⊢
    rw [h.meets_iff (by omega) ha hb]
    simp only [mem_range]
    constructor
    · intro hmeets
      exact ⟨hzero, .inr hmeets⟩
    · rintro ⟨-, hwraps | hmeets⟩
      · omega
      · exact hmeets
  · rw [if_neg hzero, checked_add, if_neg hfits]
    simp only [true_iff]
    exact ⟨hzero, .inl (by omega)⟩

/-! ## Insertion -/

theorem Ico_union {a b c : Nat} (hab : a ≤ b) (hbc : b ≤ c) : Set.Ico a b ∪ Set.Ico b c = Set.Ico a c :=
  Set.Ico_union_Ico_eq_Ico hab hbc

/-- One interval in the place of a few that it swallows, with gaps on both sides. -/
theorem Apart.put {a b : List (Nat × Nat)} {i : Nat × Nat} (ha : Apart a) (hb : Apart b) (hpos : i.1 < i.2)
    (hlt : i.2 < size) (hleft : ∀ j ∈ a, j.2 < i.1) (hright : ∀ j ∈ b, i.2 < j.1) : Apart (a ++ i :: b) := by
  rw [← List.singleton_append]
  refine Apart.append_iff.mpr ⟨ha, Apart.append_iff.mpr ⟨apart_singleton.mpr ⟨hpos, hlt⟩, hb, ?_⟩, ?_⟩
  · simpa using hright
  · intro j hj k hk
    have hji := hleft j hj
    rcases List.mem_cons.mp hk with rfl | hk
    · exact hji
    · have := hright k hk
      omega

theorem Apart.front {a b : List (Nat × Nat)} (h : Apart a) {start : Nat} (hbelow : ∀ i ∈ a, i.2 ≤ start) {left : Bool}
    (hleft : left = true ↔ a.length > 0 ∧ ((a ++ b).getD (a.length - 1) (0, 0)).2 = start) :
    ∃ front first, (a ++ b).take (if left then a.length - 1 else a.length) = front ∧
      (if left then ((a ++ b).getD (a.length - 1) (0, 0)).1 else start) = first ∧ Apart front ∧
      (∀ j ∈ front, j.2 < first) ∧ first ≤ start ∧ cells a = cells front ∪ Set.Ico first start := by
  cases left with
  | false =>
    refine ⟨a, start, by simp, by simp, h, ?_, Nat.le_refl _, by simp⟩
    rcases a.eq_nil_or_concat' with rfl | ⟨before, prev, rfl⟩
    · simp
    · rw [getD_concat rfl] at hleft
      have hprev := hbelow prev (by simp)
      have hapart : prev.2 ≠ start := fun heq => by simpa using hleft.mpr ⟨by simp, heq⟩
      have hnonempty := h.pos prev (by simp)
      have hbefore := (Apart.append_iff.mp h).2.2
      intro j hj
      rcases List.mem_append.mp hj with hj | hj
      · have := hbefore j hj prev (by simp)
        omega
      · rw [List.mem_singleton] at hj
        subst hj
        omega
  | true =>
    rcases a.eq_nil_or_concat' with rfl | ⟨before, prev, rfl⟩
    · simp at hleft
    · rw [getD_concat rfl] at hleft ⊢
      obtain ⟨hbefore, -, hgap⟩ := Apart.append_iff.mp h
      have hnonempty := h.pos prev (by simp)
      have htouch := (hleft.mp rfl).2
      refine ⟨before, prev.1, by simp, by simp, hbefore, ?_, by omega, ?_⟩
      · intro j hj
        exact hgap j hj prev (by simp)
      · rw [cells_append, cells_cons, cells_nil, Set.union_empty, htouch]

theorem Apart.back {a b : List (Nat × Nat)} (h : Apart b) {stop : Nat} (hword : stop < size)
    (habove : ∀ i ∈ b, stop ≤ i.1)
    {right : Bool} (hright : right = true ↔ a.length < (a ++ b).length ∧ ((a ++ b).getD a.length (0, 0)).1 = stop) :
    ∃ back last, (a ++ b).drop (if right then a.length + 1 else a.length) = back ∧
      (if right then ((a ++ b).getD a.length (0, 0)).2 else stop) = last ∧ Apart back ∧
      (∀ j ∈ back, last < j.1) ∧ stop ≤ last ∧ last < size ∧ cells b = Set.Ico stop last ∪ cells back := by
  cases b with
  | nil =>
    have hno : right = false := by
      cases right with
      | false => rfl
      | true => simp at hright
    subst hno
    exact ⟨[], stop, by simp, by simp, apart_nil, by simp, Nat.le_refl _, hword, by simp⟩
  | cons next b =>
    have hget : (a ++ next :: b).getD a.length (0, 0) = next := by simp
    rw [hget] at hright ⊢
    have hnext := habove next (by simp)
    have hnonempty := h.pos next (by simp)
    have hgap := (List.pairwise_cons.mp h.gaps).1
    cases right with
    | false =>
      have hapart : next.1 ≠ stop := fun heq => by simpa using hright.mpr ⟨by simp, heq⟩
      refine ⟨next :: b, stop, by simp, by simp, h, ?_, Nat.le_refl _, hword, by simp⟩
      intro j hj
      rcases List.mem_cons.mp hj with rfl | hj
      · omega
      · have := hgap j hj
        omega
    | true =>
      have htouch := (hright.mp rfl).2
      have hlt := h.lt next (by simp)
      have hrest := (Apart.append_iff.mp (show Apart ([next] ++ b) from h)).2.1
      refine ⟨b, next.2, by simp, by simp, hrest, hgap, by omega, hlt, ?_⟩
      rw [cells_cons, htouch]

/-- A range that shares no address goes in, and joins what it touches. -/
theorem insert_free {s : IntervalSet} (h : Apart s.intervals) {start length : Nat} (hzero : length ≠ 0)
    (hfits : start + length < size) (hfree : ¬ ∃ n ∈ cells s.intervals, n ∈ range start length) :
    (s.insert start length).1 = true ∧ Apart (s.insert start length).2.intervals ∧
      cells (s.insert start length).2.intervals = cells s.intervals ∪ range start length := by
  obtain ⟨l⟩ := s
  simp only at h hfree
  obtain ⟨a, b, rfl, hidx, ha, hb⟩ := h.split_stop (start + length)
  have hmeets := h.meets_iff (show start < start + length by omega) ha hb
  obtain ⟨happart, hbpart, hgap⟩ := Apart.append_iff.mp h
  have hbelow : ∀ i ∈ a, i.2 ≤ start := by
    intro i hi
    by_contra hover
    have hstart := ha i hi
    have hpos := happart.pos i hi
    exact hfree ⟨max i.1 start, ⟨i, by simp [hi], by omega, by omega⟩, by simp only [mem_range]; omega⟩
  unfold insert
  rw [if_neg hzero, checked_add, if_pos hfits]
  simp only [hidx]
  rw [if_neg (fun hover => hfree (hmeets.mp hover))]
  obtain ⟨front, first, hfront, hfirst, hfrontApart, hbefore, hle, hcellsA⟩ :=
    happart.front (b := b) hbelow
      (decide_eq_true_iff (p := a.length > 0 ∧ ((a ++ b).getD (a.length - 1) (0, 0)).2 = start))
  obtain ⟨back, last, hback, hlast, hbackApart, hbehind, hge, hlt, hcellsB⟩ :=
    hbpart.back (a := a) hfits hb
      (decide_eq_true_iff (p := a.length < (a ++ b).length ∧ ((a ++ b).getD a.length (0, 0)).1 = start + length))
  rw [hfront, hfirst, hback, hlast]
  refine ⟨rfl, hfrontApart.put hbackApart (by simp only; omega) hlt hbefore hbehind, ?_⟩
  rw [cells_append, cells_append, cells_cons, hcellsA, hcellsB]
  simp only [range]
  rw [← Ico_union hle (show start ≤ last by omega), ← Ico_union (Nat.le_add_right start length) hge]
  ac_rfl

/-- A range that does not fit a word, or shares an address, changes nothing. -/
theorem insert_taken {s : IntervalSet} (h : Apart s.intervals) {start length : Nat} (hzero : length ≠ 0)
    (htaken : size ≤ start + length ∨ ∃ n ∈ cells s.intervals, n ∈ range start length) :
    s.insert start length = (false, s) := by
  unfold insert
  rw [if_neg hzero]
  by_cases hfits : start + length < size
  · obtain ⟨a, b, hl, hidx, ha, hb⟩ := h.split_stop (start + length)
    rw [checked_add, if_pos hfits]
    simp only [hidx]
    rw [if_pos]
    rw [hl] at h htaken ⊢
    exact (h.meets_iff (by omega) ha hb).mpr (htaken.resolve_left (by omega))
  · rw [checked_add, if_neg hfits]

/-! ## Removal -/

theorem cut_one_within {start stop : Nat} {i j : Nat × Nat} (hj : j ∈ cut_one start stop i) :
    i.1 ≤ j.1 ∧ j.2 ≤ i.2 := by
  unfold cut_one at hj
  split at hj
  · rw [List.mem_singleton] at hj
    subst hj
    omega
  · rcases List.mem_append.mp hj with hj | hj
    · split at hj
      · rw [List.mem_singleton] at hj
        subst hj
        simp only
        omega
      · cases hj
    · split at hj
      · rw [List.mem_singleton] at hj
        subst hj
        simp only
        omega
      · cases hj

theorem cut_one_apart {start stop : Nat} {i : Nat × Nat} (hpos : i.1 < i.2) (hlt : i.2 < size) (hrange : start < stop) :
    Apart (cut_one start stop i) := by
  unfold cut_one
  split
  · exact apart_singleton.mpr ⟨hpos, hlt⟩
  · refine Apart.append_iff.mpr ⟨?_, ?_, ?_⟩
    · split
      · exact apart_singleton.mpr ⟨by assumption, by simp only; omega⟩
      · exact apart_nil
    · split
      · exact apart_singleton.mpr ⟨by assumption, hlt⟩
      · exact apart_nil
    · intro j hj k hk
      split at hj <;> split at hk <;> simp_all

theorem cells_cut_one {start stop : Nat} {i : Nat × Nat} (hrange : start < stop) :
    cells (cut_one start stop i) = Set.Ico i.1 i.2 \ Set.Ico start stop := by
  ext n
  unfold cut_one
  split
  · simp only [cells_cons, cells_nil, Set.union_empty, Set.mem_Ico, Set.mem_sdiff]
    omega
  · rw [cells_append]
    split <;> split <;> simp only [cells_cons, cells_nil, Set.union_empty, Set.empty_union, Set.mem_union, Set.mem_Ico,
      Set.mem_sdiff, Set.mem_empty_iff_false, false_iff] <;> omega

theorem remove_spec {s : IntervalSet} (h : Apart s.intervals) {start length : Nat} (hfits : start + length < size) :
    Apart (s.remove start length).intervals ∧
      cells (s.remove start length).intervals = cells s.intervals \ range start length := by
  unfold remove
  by_cases hzero : length = 0
  · rw [if_pos hzero, hzero]
    exact ⟨h, by simp [range]⟩
  rw [if_neg hzero, checked_add, if_pos hfits]
  obtain ⟨l⟩ := s
  simp only at h ⊢
  induction l with
  | nil => exact ⟨apart_nil, by simp⟩
  | cons i l ih =>
    obtain ⟨hone, hrest, hgap⟩ := Apart.append_iff.mp (show Apart ([i] ++ l) from h)
    obtain ⟨hpos, hlt⟩ := apart_singleton.mp hone
    obtain ⟨ihApart, ihCells⟩ := ih hrest
    rw [List.flatMap_cons]
    constructor
    · refine Apart.append_iff.mpr ⟨cut_one_apart hpos hlt (by omega), ihApart, ?_⟩
      intro j hj k hk
      obtain ⟨i', hi', hk⟩ := List.mem_flatMap.mp hk
      have hj := cut_one_within hj
      have hk := cut_one_within hk
      have := hgap i (by simp) i' hi'
      omega
    · rw [cells_append, ihCells, cells_cut_one (by omega), cells_cons, range, Set.union_sdiff_distrib]

theorem contains_range_iff {s : IntervalSet} (h : Apart s.intervals) (start length : Nat) :
    s.contains_range start length = true ↔ range start length ⊆ cells s.intervals := by
  unfold contains_range
  by_cases hzero : length = 0
  · rw [if_pos hzero, hzero]
    simp [range]
  have hlast : start + length - 1 ∈ range start length := by
    simp only [mem_range]
    omega
  rw [if_neg hzero]
  by_cases hfits : start + length < size
  case neg =>
    rw [checked_add, if_neg hfits]
    simp only [Bool.false_eq_true, false_iff]
    intro hsub
    have := h.cells_lt (hsub hlast)
    omega
  obtain ⟨a, b, hl, hidx, ha, hb⟩ := h.split (fun i => i.1 ≤ start) (by simp only [decide_eq_true_eq]; omega)
  simp only [decide_eq_true_eq, decide_eq_false_iff_not, Nat.not_le] at ha hb
  rw [checked_add, if_pos hfits]
  simp only [hidx, decide_eq_true_eq]
  rw [hl] at h ⊢
  rcases a.eq_nil_or_concat' with rfl | ⟨before, prev, rfl⟩
  · simp only [List.length_nil, gt_iff_lt, Nat.lt_irrefl, false_and, false_iff]
    intro hsub
    obtain ⟨i, hi, hle, -⟩ := hsub (show start ∈ range start length by simp only [mem_range]; omega)
    have := hb i (by simpa using hi)
    omega
  · rw [getD_concat rfl]
    obtain ⟨happart, hbpart, hgap⟩ := Apart.append_iff.mp h
    have hprev := ha prev (by simp)
    constructor
    · rintro ⟨-, -, hstop⟩ n hn
      simp only [mem_range] at hn
      exact ⟨prev, by simp, by omega, by omega⟩
    · intro hsub
      refine ⟨by simp, hprev, ?_⟩
      -- the interval that ends first inside the range leaves a gap behind it
      by_contra hshort
      have hbehind : ∀ i ∈ b, prev.2 < i.1 := fun i hi => hgap prev (by simp) i hi
      have hbefore : ∀ i ∈ before, i.2 < prev.1 := fun i hi => (Apart.append_iff.mp happart).2.2 i hi prev (by simp)
      have hmem : max start prev.2 ∈ range start length := by
        simp only [mem_range]
        omega
      obtain ⟨i, hi, hle, hlt⟩ := hsub hmem
      rcases List.mem_append.mp hi with hi | hi
      · rcases List.mem_append.mp hi with hi | hi
        · have := hbefore i hi
          omega
        · rw [List.mem_singleton] at hi
          subst hi
          omega
      · obtain ⟨j, hj, hjle, hjlt⟩ := hsub (show start ∈ range start length by simp only [mem_range]; omega)
        have hbi := hb i hi
        have hbi' := hbehind i hi
        omega

/-! ## Runs of calls -/

inductive Op where
  | insert (start length : Nat)
  | remove (start length : Nat)
  | remove_exact (start length : Nat)

namespace Op

/-- The arguments are 64-bit words. -/
def Words : Op → Prop
  | insert start length => start < size ∧ length < size
  | remove start length => start < size ∧ length < size
  | remove_exact start length => start < size ∧ length < size

/-- What a call answers and makes of a set of addresses. -/
inductive Means (S : Set Nat) : Op → Option Bool → Set Nat → Prop where
  | inserted {start length} : start + length < size → (∀ n ∈ range start length, n ∉ S) →
      Means S (insert start length) (some true) (S ∪ range start length)
  | refused {start length} : ¬ (start + length < size ∧ ∀ n ∈ range start length, n ∉ S) →
      Means S (insert start length) (some false) S
  | removed {start length} : start + length < size → Means S (remove start length) none (S \ range start length)
  | kept {start length} : size ≤ start + length → Means S (remove start length) none S
  | released {start length} : range start length ⊆ S →
      Means S (remove_exact start length) (some true) (S \ range start length)
  | missing {start length} : ¬ range start length ⊆ S → Means S (remove_exact start length) (some false) S

end Op

def step (s : IntervalSet) : Op → Option Bool × IntervalSet
  | .insert start length => ((s.insert start length).1, (s.insert start length).2)
  | .remove start length => (none, s.remove start length)
  | .remove_exact start length => ((s.remove_exact start length).1, (s.remove_exact start length).2)

/-- The answers of the calls in turn, and the set after them. -/
def run (s : IntervalSet) : List Op → List (Option Bool) × IntervalSet
  | [] => ([], s)
  | o :: rest => ((s.step o).1 :: (run (s.step o).2 rest).1, (run (s.step o).2 rest).2)

inductive AllMean : Set Nat → List Op → List (Option Bool) → Set Nat → Prop where
  | nil {S} : AllMean S [] [] S
  | cons {S T U o rest answer answers} : Op.Means S o answer T → AllMean T rest answers U →
      AllMean S (o :: rest) (answer :: answers) U

theorem step_means {s : IntervalSet} (h : Apart s.intervals) {o : Op} (ho : o.Words) :
    Apart (s.step o).2.intervals ∧ Op.Means (cells s.intervals) o (s.step o).1 (cells (s.step o).2.intervals) := by
  cases o with
  | insert start length =>
    simp only [step]
    by_cases hzero : length = 0
    · have hsame : s.insert start length = (true, s) := by simp [insert, hzero]
      have hmeans : Op.Means (cells s.intervals) (.insert start length) (some true)
        (cells s.intervals ∪ range start length) :=
        .inserted (by rw [hzero]; exact ho.1) (by simp [range, hzero])
      rw [hsame]
      rw [show cells s.intervals ∪ range start length = cells s.intervals by simp [range, hzero]] at hmeans
      exact ⟨h, hmeans⟩
    by_cases hfree : start + length < size ∧ ∀ n ∈ range start length, n ∉ cells s.intervals
    · obtain ⟨hanswer, hapart, hcells⟩ := insert_free h hzero hfree.1 fun hshared => by
        obtain ⟨n, hn, hmem⟩ := hshared
        exact hfree.2 n hmem hn
      rw [hanswer, hcells]
      exact ⟨hapart, .inserted hfree.1 hfree.2⟩
    · have hsame : s.insert start length = (false, s) := insert_taken h hzero (by
        by_contra hno
        apply hfree
        simp only [not_or, Nat.not_le, not_exists, not_and] at hno
        exact ⟨hno.1, fun n hn hcell => hno.2 n hcell hn⟩)
      rw [hsame]
      exact ⟨h, .refused hfree⟩
  | remove start length =>
    simp only [step]
    by_cases hfits : start + length < size
    · obtain ⟨hapart, hcells⟩ := remove_spec h hfits
      rw [hcells]
      exact ⟨hapart, .removed hfits⟩
    · have hsame : s.remove start length = s := by
        unfold remove
        rw [checked_add, if_neg hfits]
        split <;> rfl
      rw [hsame]
      exact ⟨h, .kept (by omega)⟩
  | remove_exact start length =>
    simp only [step, remove_exact]
    have hiff := contains_range_iff h start length
    by_cases hin : range start length ⊆ cells s.intervals
    · have hfits : start + length < size := by
        by_cases hzero : length = 0
        · rw [hzero]
          exact ho.1
        · have hlast : start + length - 1 ∈ range start length := by
            simp only [mem_range]
            omega
          have := h.cells_lt (hin hlast)
          omega
      obtain ⟨hapart, hcells⟩ := remove_spec h hfits
      have hmeans := Op.Means.released hin
      split
      · rename_i hzero
        rw [show cells s.intervals \ range start length = cells s.intervals by simp [range, hzero]] at hmeans
        exact ⟨h, hmeans⟩
      · rw [if_neg (by rw [hiff.mpr hin]; simp), hcells]
        exact ⟨hapart, hmeans⟩
    · have hzero : length ≠ 0 := fun hzero => hin (by simp [range, hzero])
      rw [if_neg hzero, if_pos (by rw [← hiff] at hin; exact hin)]
      exact ⟨h, .missing hin⟩

theorem run_means {s : IntervalSet} (h : Apart s.intervals) {ops : List Op} (hops : ∀ o ∈ ops, o.Words) :
    Apart (s.run ops).2.intervals ∧
      AllMean (cells s.intervals) ops (s.run ops).1 (cells (s.run ops).2.intervals) := by
  induction ops generalizing s with
  | nil => exact ⟨h, .nil⟩
  | cons o rest ih =>
    obtain ⟨hstep, hmeans⟩ := step_means h (hops o (by simp))
    obtain ⟨hrun, hall⟩ := ih hstep fun p hp => hops p (by simp [hp])
    exact ⟨hrun, .cons hmeans hall⟩

/-- After any calls the list is sorted with gaps, the calls did to the addresses what they say, and the two
questions are about them. -/
theorem interval_set_denotes (ops : List Op) (hops : ∀ o ∈ ops, o.Words) :
    Apart (new.run ops).2.intervals ∧ AllMean ∅ ops (new.run ops).1 (cells (new.run ops).2.intervals) ∧
      ∀ start length,
        ((new.run ops).2.overlaps start length = true ↔ length ≠ 0 ∧
          (size ≤ start + length ∨ ∃ n ∈ cells (new.run ops).2.intervals, n ∈ range start length)) ∧
        ((new.run ops).2.contains_range start length = true ↔
          range start length ⊆ cells (new.run ops).2.intervals) := by
  obtain ⟨hapart, hall⟩ := run_means (s := new) apart_nil hops
  rw [show cells new.intervals = ∅ from cells_nil] at hall
  exact ⟨hapart, hall, fun start length => ⟨overlaps_iff hapart start length, contains_range_iff hapart start length⟩⟩

theorem interval_set_denotes_merged :
    AllMean ∅ [.insert 100 50, .insert 200 50, .insert 150 50, .remove_exact 140 10]
      (new.run [.insert 100 50, .insert 200 50, .insert 150 50, .remove_exact 140 10]).1
      (cells (new.run [.insert 100 50, .insert 200 50, .insert 150 50, .remove_exact 140 10]).2.intervals) :=
  (interval_set_denotes [.insert 100 50, .insert 200 50, .insert 150 50, .remove_exact 140 10]
    (by simp [Op.Words, size])).2.1

/-- Nothing is in a new set, and yet a range that ends past the last word overlaps it. -/
theorem overlaps_wrapped_range :
    ¬ ∀ ops : List Op, (∀ o ∈ ops, o.Words) → ∀ start length, start < size → length < size →
      ((new.run ops).2.overlaps start length = true ↔
        ∃ n ∈ cells (new.run ops).2.intervals, n ∈ range start length) := by
  intro h
  obtain ⟨n, hn, -⟩ := (h [] (by simp) (size - 1) 2 (by unfold size; omega) (by unfold size; omega)).mp
    (by decide +kernel)
  simp [run, new] at hn

end IntervalSet

end LuksAndroid.Btrfs

import Mathlib

/-!
# Lists that are sorted by a key

A sorted list of entries with distinct keys is a finite map. Searching, inserting
and splitting are described by what lies below and above a key.
-/

namespace Keyed

variable {α κ : Type} [LinearOrder κ] (key : α → κ)

/-- Strictly increasing keys. -/
def Sorted (l : List α) : Prop := l.Pairwise fun a b => key a < key b

/-- The entries below a key. -/
def below (k : κ) (l : List α) : List α := l.takeWhile fun a => key a < k

/-- The entries from a key on. -/
def above (k : κ) (l : List α) : List α := l.dropWhile fun a => key a < k

/-- Rust's `binary_search_by` on a sorted slice: the position of the key, or the position where it
would go. -/
def binary_search (k : κ) (l : List α) : Except Nat Nat :=
  match above key k l with
  | [] => .error (below key k l).length
  | a :: _ => if key a = k then .ok (below key k l).length else .error (below key k l).length

/-- Put an entry where its key belongs. -/
def insert (a : α) (l : List α) : List α := below key (key a) l ++ a :: above key (key a) l

/-- Put other entries in place of the one with the key. -/
def alter (k : κ) (f : α → List α) (l : List α) : List α :=
  l.flatMap fun a => if key a = k then f a else [a]

variable {key}

theorem below_append_above (key : α → κ) (k : κ) (l : List α) :
    below key k l ++ above key k l = l :=
  List.takeWhile_append_dropWhile

theorem lt_of_mem_below {k : κ} {l : List α} {a : α} (h : a ∈ below key k l) : key a < k := by
  simpa using List.mem_takeWhile_imp h

theorem sorted_append {l m : List α} :
    Sorted key (l ++ m) ↔ Sorted key l ∧ Sorted key m ∧ ∀ a ∈ l, ∀ b ∈ m, key a < key b :=
  List.pairwise_append

theorem sorted_cons {a : α} {l : List α} :
    Sorted key (a :: l) ↔ (∀ b ∈ l, key a < key b) ∧ Sorted key l :=
  List.pairwise_cons

theorem Sorted.le_of_mem_above {k : κ} {l : List α} (h : Sorted key l) {a : α}
    (ha : a ∈ above key k l) : k ≤ key a := by
  induction l with
  | nil => simp [above] at ha
  | cons b l ih =>
    obtain ⟨hb, hl⟩ := sorted_cons.mp h
    by_cases hlt : key b < k
    · rw [above, List.dropWhile_cons_of_pos (by simpa using hlt)] at ha
      exact ih hl ha
    · rw [above, List.dropWhile_cons_of_neg (by simpa using hlt)] at ha
      rcases List.mem_cons.mp ha with rfl | ha
      · exact le_of_not_gt hlt
      · exact (le_of_not_gt hlt).trans (hb a ha).le

/-! ## Cutting a sorted list at a key -/

theorem cut_unique {k : κ} {pre post : List α} (hpre : ∀ a ∈ pre, key a < k)
    (hpost : ∀ a ∈ post, k ≤ key a) :
    below key k (pre ++ post) = pre ∧ above key k (pre ++ post) = post := by
  induction pre with
  | nil =>
    cases post with
    | nil => exact ⟨rfl, rfl⟩
    | cons b post =>
      have hb : ¬ key b < k := not_lt.mpr (hpost b (by simp))
      constructor
      · rw [below, List.nil_append, List.takeWhile_cons_of_neg (by simpa using hb)]
      · rw [above, List.nil_append, List.dropWhile_cons_of_neg (by simpa using hb)]
  | cons b pre ih =>
    have hb : key b < k := hpre b (by simp)
    obtain ⟨h1, h2⟩ := ih fun a ha => hpre a (by simp [ha])
    constructor
    · rw [below, List.cons_append, List.takeWhile_cons_of_pos (by simpa using hb)]
      exact congrArg (b :: ·) h1
    · rw [above, List.cons_append, List.dropWhile_cons_of_pos (by simpa using hb)]
      exact h2

theorem insert_eq {a : α} {pre post : List α} (hpre : ∀ b ∈ pre, key b < key a)
    (hpost : ∀ b ∈ post, key a ≤ key b) : insert key a (pre ++ post) = pre ++ a :: post := by
  obtain ⟨h1, h2⟩ := cut_unique hpre hpost
  rw [insert, h1, h2]

theorem insert_between {a : α} {pre mid post : List α} (hmid : Sorted key mid)
    (hpre : ∀ b ∈ pre, key b < key a) (hpost : ∀ b ∈ post, key a ≤ key b) :
    insert key a (pre ++ mid ++ post) = pre ++ insert key a mid ++ post := by
  have hsplit : pre ++ mid ++ post =
      (pre ++ below key (key a) mid) ++ (above key (key a) mid ++ post) := by
    conv_lhs => rw [← below_append_above key (key a) mid]
    simp only [List.append_assoc]
  rw [hsplit, insert_eq, insert]
  · simp
  · intro b hb
    rcases List.mem_append.mp hb with hb | hb
    · exact hpre b hb
    · exact lt_of_mem_below hb
  · intro b hb
    rcases List.mem_append.mp hb with hb | hb
    · exact hmid.le_of_mem_above hb
    · exact hpost b hb

theorem mem_insert {a b : α} {l : List α} : b ∈ insert key a l ↔ b = a ∨ b ∈ l := by
  conv_rhs => rw [← below_append_above key (key a) l]
  simp only [insert, List.mem_append, List.mem_cons]
  tauto

theorem Sorted.insert {a : α} {l : List α} (h : Sorted key l) (hne : ∀ b ∈ l, key b ≠ key a) :
    Sorted key (insert key a l) := by
  have hl := h
  rw [← below_append_above key (key a) l, sorted_append] at hl
  obtain ⟨h1, h2, h3⟩ := hl
  have habove : ∀ b ∈ above key (key a) l, key a < key b := fun b hb =>
    lt_of_le_of_ne (h.le_of_mem_above hb)
      (hne b ((List.dropWhile_sublist _).subset hb)).symm
  rw [Keyed.insert, sorted_append, sorted_cons]
  refine ⟨h1, ⟨habove, h2⟩, ?_⟩
  intro b hb c hc
  rcases List.mem_cons.mp hc with rfl | hc
  · exact lt_of_mem_below hb
  · exact h3 b hb c hc

theorem Sorted.eq_of_key {l : List α} (h : Sorted key l) {a b : α} (ha : a ∈ l) (hb : b ∈ l)
    (hk : key a = key b) : a = b := by
  induction l with
  | nil => simp at ha
  | cons c l ih =>
    obtain ⟨hc, hl⟩ := sorted_cons.mp h
    rcases List.mem_cons.mp ha with rfl | ha
    · rcases List.mem_cons.mp hb with rfl | hb
      · rfl
      · exact absurd hk (hc b hb).ne
    · rcases List.mem_cons.mp hb with hb | hb
      · exact absurd (hk.trans (congrArg key hb)) (hc a ha).ne'
      · exact ih hl ha hb

/-! ## Binary search -/

theorem binary_search_ok {k : κ} {l : List α} {i : Nat} (h : binary_search key k l = .ok i) :
    ∃ a rest, above key k l = a :: rest ∧ key a = k ∧ i = (below key k l).length := by
  unfold binary_search at h
  split at h
  · cases h
  · rename_i a rest hab
    split at h
    · rename_i hk
      cases h
      exact ⟨a, rest, hab, hk, rfl⟩
    · cases h

theorem binary_search_error {k : κ} {l : List α} (hl : Sorted key l) {i : Nat}
    (h : binary_search key k l = .error i) :
    i = (below key k l).length ∧ (∀ a ∈ l, key a ≠ k) ∧ ∀ a ∈ above key k l, k < key a := by
  have hsplit := hl
  rw [← below_append_above key k l, sorted_append] at hsplit
  have habove : ∀ a ∈ above key k l, k < key a := by
    unfold binary_search at h
    split at h
    · rename_i hab
      simp [hab]
    · rename_i b rest hab
      split at h
      · cases h
      · rename_i hk
        have hb : k < key b := lt_of_le_of_ne (hl.le_of_mem_above (by simp [hab])) (Ne.symm hk)
        intro a ha
        rw [hab] at ha hsplit
        rcases List.mem_cons.mp ha with rfl | ha
        · exact hb
        · exact hb.trans ((sorted_cons.mp hsplit.2.1).1 a ha)
  refine ⟨?_, ?_, habove⟩
  · unfold binary_search at h
    split at h
    · cases h; rfl
    · split at h
      · cases h
      · cases h; rfl
  · intro a ha hk
    rw [← below_append_above key k l] at ha
    rcases List.mem_append.mp ha with ha | ha
    · exact absurd hk (lt_of_mem_below ha).ne
    · exact absurd hk (habove a ha).ne'

theorem take_below (k : κ) (l : List α) : l.take (below key k l).length = below key k l := by
  conv_lhs => rw [← below_append_above key k l]
  exact List.take_left' (by rw [below_append_above])

theorem drop_below (k : κ) (l : List α) : l.drop (below key k l).length = above key k l := by
  conv_lhs => rw [← below_append_above key k l]
  exact List.drop_left' (by rw [below_append_above])

theorem insert_at_error {a : α} {l : List α} (hl : Sorted key l) {i : Nat}
    (h : binary_search key (key a) l = .error i) : l.take i ++ a :: l.drop i = insert key a l := by
  obtain ⟨rfl, -, -⟩ := binary_search_error hl h
  rw [take_below, drop_below, insert]

/-! ## Altering one entry -/

theorem alter_append (k : κ) (f : α → List α) (l m : List α) :
    alter key k f (l ++ m) = alter key k f l ++ alter key k f m := by
  simp [alter]

theorem alter_of_ne {k : κ} {f : α → List α} {l : List α} (h : ∀ a ∈ l, key a ≠ k) :
    alter key k f l = l := by
  induction l with
  | nil => rfl
  | cons a l ih =>
    have hl := ih fun b hb => h b (by simp [hb])
    have ha : key a ≠ k := h a (by simp)
    simp only [alter] at hl
    simp [alter, ha, hl]

theorem alter_between {k : κ} {f : α → List α} {pre mid post : List α}
    (hpre : ∀ a ∈ pre, key a ≠ k) (hpost : ∀ a ∈ post, key a ≠ k) :
    alter key k f (pre ++ mid ++ post) = pre ++ alter key k f mid ++ post := by
  rw [alter_append, alter_append, alter_of_ne hpre, alter_of_ne hpost]

theorem Sorted.alter {k : κ} {f : α → List α} {l : List α} (h : Sorted key l)
    (hlen : ∀ a, (f a).length ≤ 1) (hkey : ∀ a, ∀ b ∈ f a, key b = key a) :
    Sorted key (alter key k f l) := by
  induction l with
  | nil => exact List.Pairwise.nil
  | cons a l ih =>
    obtain ⟨ha, hl⟩ := sorted_cons.mp h
    have hmem : ∀ b ∈ Keyed.alter key k f l, ∃ c ∈ l, key b = key c := by
      intro b hb
      obtain ⟨c, hc, hb⟩ := List.mem_flatMap.mp hb
      refine ⟨c, hc, ?_⟩
      split at hb
      · exact hkey c b hb
      · rw [List.mem_singleton.mp hb]
    have hhead : ∀ b ∈ (if key a = k then f a else [a]), key b = key a := by
      intro b hb
      split at hb
      · exact hkey a b hb
      · rw [List.mem_singleton.mp hb]
    rw [Keyed.alter, List.flatMap_cons, sorted_append]
    refine ⟨?_, ih hl, ?_⟩
    · split
      · have hle := hlen a
        cases hf : f a with
        | nil => exact List.Pairwise.nil
        | cons b m =>
          rw [hf, List.length_cons] at hle
          rw [List.eq_nil_of_length_eq_zero (by omega : m.length = 0)]
          exact List.pairwise_singleton _ _
      · exact List.pairwise_singleton _ _
    · intro b hb c hc
      obtain ⟨d, hd, hcd⟩ := hmem c hc
      rw [hhead b hb, hcd]
      exact ha d hd

theorem alter_at_ok {k : κ} {f : α → List α} {l : List α} (hl : Sorted key l) {i : Nat}
    (h : binary_search key k l = .ok i) :
    ∃ a, l[i]? = some a ∧ key a = k ∧ alter key k f l = l.take i ++ f a ++ l.drop (i + 1) := by
  obtain ⟨a, rest, hab, hk, rfl⟩ := binary_search_ok h
  have hsplit : l = below key k l ++ a :: rest := by rw [← hab, below_append_above]
  have hs := hl
  rw [hsplit, sorted_append, sorted_cons] at hs
  have htail : l.drop ((below key k l).length + 1) = rest := by
    rw [← List.drop_drop, drop_below, hab]
    rfl
  refine ⟨a, ?_, hk, ?_⟩
  · rw [← Nat.add_zero (below key k l).length, ← List.getElem?_drop, drop_below, hab]
    rfl
  · rw [take_below, htail]
    have hbetween : alter key k f (below key k l ++ [a] ++ rest) =
        below key k l ++ alter key k f [a] ++ rest :=
      alter_between (fun b hb => (lt_of_mem_below hb).ne)
        fun b hb => (hk ▸ hs.2.1.1 b hb : k < key b).ne'
    rw [List.append_assoc, List.singleton_append, ← hsplit] at hbetween
    rw [hbetween]
    simp [alter, hk]

/-! ## Sorting -/

/-- A list that holds the same entries as a sorted one is that one after sorting. -/
theorem insertionSort_eq {l m : List α} (hp : l.Perm m) (hm : Sorted key m) :
    l.insertionSort (fun a b => key a ≤ key b) = m := by
  have : Std.Total (fun a b : α => key a ≤ key b) := ⟨fun a b => le_total _ _⟩
  have : IsTrans α (fun a b => key a ≤ key b) := ⟨fun _ _ _ => le_trans⟩
  have hs : (l.insertionSort fun a b => key a ≤ key b).Perm m :=
    (List.perm_insertionSort _ l).trans hp
  refine List.Perm.eq_of_pairwise ?_ (List.pairwise_insertionSort _ l) (hm.imp fun h => h.le) hs
  intro a b ha hb hab hba
  exact hm.eq_of_key (hs.mem_iff.mp ha) hb (le_antisymm hab hba)

end Keyed

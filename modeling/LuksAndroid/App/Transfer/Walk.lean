import LuksAndroid.App.Transfer.Import

/-!
# The plan of a transfer

`transfer/DirectoryWalker.kt`: a source tree is walked breadth-first into a list of entries. The ids,
sizes and times of the entries are left out, but for whether a size is known.
-/

namespace LuksAndroid.App

inductive Source where
  | file (sizeKnown : Bool)
  | dir (children : List (Text × Source))

/-- Sibling names are unique and not empty. -/
inductive Source.Distinct : List (Text × Source) → Prop where
  | mk {children : List (Text × Source)} (hnames : (children.map Prod.fst).Nodup)
    (hnamed : ∀ child ∈ children, child.1 ≠ [])
    (hbelow : ∀ name below, (name, .dir below) ∈ children → Distinct below) : Distinct children

structure QueueItem where
  children : List (Text × Source)
  relativePath : Path
  depth : Nat

namespace QueueItem

variable (q : QueueItem)

def entry (child : Text × Source) : PlanEntry :=
  match child.2 with
  | .file sizeKnown => ⟨q.relativePath ++ [child.1], false, sizeKnown⟩
  | .dir _ => ⟨q.relativePath ++ [child.1], true, true⟩

def sub (child : Text × Source) : Option QueueItem :=
  match child.2 with
  | .file _ => none
  | .dir below => some ⟨below, q.relativePath ++ [child.1], q.depth + 1⟩

def entries : List PlanEntry := q.children.map q.entry

def subs : List QueueItem := q.children.filterMap q.sub

noncomputable def size : Nat := sizeOf q.children

theorem subs_size : (q.subs.map size).sum < q.size := by
  obtain ⟨children, relativePath, depth⟩ := q
  unfold subs size
  simp only
  suffices h : ∀ children' : List (Text × Source),
      ((children'.filterMap (sub ⟨children, relativePath, depth⟩)).map fun q => sizeOf q.children).sum <
        sizeOf children' from h children
  intro children'
  induction children' with
  | nil => simp
  | cons child rest ih =>
    obtain ⟨name, source⟩ := child
    cases source with
    | file sizeKnown =>
      simp only [List.filterMap_cons, sub, List.cons.sizeOf_spec]
      omega
    | dir below =>
      simp only [List.filterMap_cons, sub, List.map_cons, List.sum_cons, List.cons.sizeOf_spec, Prod.mk.sizeOf_spec,
        Source.dir.sizeOf_spec]
      omega

end QueueItem

def DEFAULT_MAX_DEPTH : Nat := 1024

/-- The loop of `walk`. None when a directory is too deep. -/
def walkFrom (maxDepth : Nat) : List QueueItem → Option (List PlanEntry)
  | [] => some []
  | q :: rest =>
    if q.depth ≥ maxDepth then none
    else (walkFrom maxDepth (rest ++ q.subs)).map (q.entries ++ ·)
termination_by queue => (queue.map QueueItem.size).sum
decreasing_by
  have := q.subs_size
  simp only [List.map_append, List.sum_append, List.map_cons, List.sum_cons]
  omega

def walk (maxDepth : Nat) (root : List (Text × Source)) : Option (List PlanEntry) := do
  let entries ← walkFrom maxDepth [⟨root, [], 0⟩]
  if parentBeforeChild [[]] entries then return entries else none

/-! ## No path comes twice -/

/-- Neither is above the other. -/
def Unrelated (a b : QueueItem) : Prop := ¬ a.relativePath <+: b.relativePath ∧ ¬ b.relativePath <+: a.relativePath

theorem entry_relativePath (q : QueueItem) (child : Text × Source) :
    (q.entry child).relativePath = q.relativePath ++ [child.1] := by
  unfold QueueItem.entry
  split <;> rfl

theorem mem_subs {q r : QueueItem} (h : r ∈ q.subs) :
    ∃ name below, (name, .dir below) ∈ q.children ∧ r = ⟨below, q.relativePath ++ [name], q.depth + 1⟩ := by
  obtain ⟨⟨name, source⟩, hmem, hsub⟩ := List.mem_filterMap.mp h
  cases source with
  | file sizeKnown => cases hsub
  | dir below =>
    cases hsub
    exact ⟨name, below, hmem, rfl⟩

theorem subs_unrelated {q : QueueItem} (hnames : (q.children.map Prod.fst).Nodup) : q.subs.Pairwise Unrelated := by
  unfold QueueItem.subs
  rw [List.pairwise_filterMap]
  rw [List.nodup_iff_pairwise_ne, List.pairwise_map] at hnames
  refine hnames.imp ?_
  rintro ⟨name, source⟩ ⟨name', source'⟩ hne r hr r' hr'
  cases source with
  | file sizeKnown => cases hr
  | dir below =>
    cases source' with
    | file sizeKnown => cases hr'
    | dir below' =>
      cases hr
      cases hr'
      constructor
      · intro habove
        have heq := habove.eq_of_length (by simp)
        exact hne (by simpa using heq)
      · intro habove
        have heq := habove.eq_of_length (by simp)
        exact hne (by simpa using heq.symm)

theorem above_entry {p q : Path} {name : Text} (habove : p <+: q ++ [name]) (hne : p ≠ q ++ [name]) : p <+: q :=
  (List.prefix_concat_iff.mp habove).resolve_left hne

theorem queue_unrelated {q : QueueItem} {rest : List QueueItem} (hqueue : (q :: rest).Pairwise Unrelated)
    (hnames : (q.children.map Prod.fst).Nodup) : (rest ++ q.subs).Pairwise Unrelated := by
  rw [List.pairwise_cons] at hqueue
  refine List.pairwise_append.mpr ⟨hqueue.2, subs_unrelated hnames, ?_⟩
  intro r hr s hs
  obtain ⟨name, below, -, rfl⟩ := mem_subs hs
  obtain ⟨hqr, hrq⟩ := hqueue.1 r hr
  constructor
  · intro habove
    by_cases heq : r.relativePath = q.relativePath ++ [name]
    · exact hqr (heq ▸ List.prefix_append _ _)
    · exact hrq (above_entry habove heq)
  · intro habove
    exact hqr ((List.prefix_append _ _).trans habove)

/-- Every entry is below a directory of the queue, and no path comes twice. -/
theorem walkFrom_nodup {maxDepth : Nat} {queue : List QueueItem} {entries : List PlanEntry}
    (hqueue : queue.Pairwise Unrelated) (hdistinct : ∀ q ∈ queue, Source.Distinct q.children)
    (h : walkFrom maxDepth queue = some entries) :
    (entries.map PlanEntry.relativePath).Nodup ∧
      ∀ e ∈ entries, ∃ q ∈ queue, q.relativePath <+: e.relativePath ∧ q.relativePath ≠ e.relativePath := by
  induction queue using walkFrom.induct maxDepth generalizing entries with
  | case1 =>
    rw [walkFrom] at h
    cases h
    simp
  | case2 q rest hdeep =>
    rw [walkFrom, if_pos hdeep] at h
    cases h
  | case3 q rest hdeep ih =>
    rw [walkFrom, if_neg hdeep] at h
    obtain ⟨more, hmore, rfl⟩ := Option.map_eq_some_iff.mp h
    obtain ⟨hnames, -, hbelow⟩ := hdistinct q (by simp)
    have hdistinct' : ∀ r ∈ rest ++ q.subs, Source.Distinct r.children := by
      intro r hr
      rcases List.mem_append.mp hr with hr | hr
      · exact hdistinct r (List.mem_cons_of_mem q hr)
      · obtain ⟨name, below, hmem, rfl⟩ := mem_subs hr
        exact hbelow name below hmem
    obtain ⟨hnodup, hplaced⟩ := ih (queue_unrelated hqueue hnames) hdistinct' hmore
    have hown : (q.entries.map PlanEntry.relativePath).Nodup := by
      unfold QueueItem.entries
      rw [List.map_map]
      rw [List.nodup_iff_pairwise_ne, List.pairwise_map] at hnames ⊢
      refine hnames.imp ?_
      intro a b hne heq
      simp only [Function.comp_apply, entry_relativePath] at heq
      exact hne (by simpa using heq)
    have hmem {e : PlanEntry} (he : e ∈ q.entries) : ∃ name, e.relativePath = q.relativePath ++ [name] := by
      obtain ⟨child, -, rfl⟩ := List.mem_map.mp he
      exact ⟨child.1, entry_relativePath q child⟩
    constructor
    · rw [List.map_append, List.nodup_append]
      refine ⟨hown, hnodup, ?_⟩
      intro path hpath path' hpath'
      rintro rfl
      obtain ⟨e, he, rfl⟩ := List.mem_map.mp hpath
      obtain ⟨e', he', heq⟩ := List.mem_map.mp hpath'
      obtain ⟨name, hname⟩ := hmem he
      obtain ⟨r, hr, habove, hne⟩ := hplaced e' he'
      rw [heq, hname] at habove hne
      have habove' := above_entry habove hne
      -- what is below the rest of the queue is not here
      rcases List.mem_append.mp hr with hr | hr
      · exact ((List.pairwise_cons.mp hqueue).1 r hr).2 habove'
      · obtain ⟨name', below, -, rfl⟩ := mem_subs hr
        have hlength := habove'.length_le
        simp at hlength
    · intro e he
      rcases List.mem_append.mp he with he | he
      · obtain ⟨name, hname⟩ := hmem he
        exact ⟨q, by simp, by simp [hname], by simp [hname]⟩
      · obtain ⟨r, hr, habove, hne⟩ := hplaced e he
        rcases List.mem_append.mp hr with hr | hr
        · exact ⟨r, by simp [hr], habove, hne⟩
        · obtain ⟨name, below, -, rfl⟩ := mem_subs hr
          refine ⟨q, by simp, (List.prefix_append _ _).trans habove, ?_⟩
          intro heq
          have hlength := habove.length_le
          rw [← heq] at hlength
          simp at hlength

/-- The paths of a plan are unique, and none is that of the root. -/
structure Planned (plan : List PlanEntry) : Prop where
  nodup : (plan.map PlanEntry.relativePath).Nodup
  named : ∀ e ∈ plan, e.relativePath ≠ []

theorem walk_planned {maxDepth : Nat} {root : List (Text × Source)} {plan : List PlanEntry}
    (hroot : Source.Distinct root) (h : walk maxDepth root = some plan) : Planned plan := by
  obtain ⟨entries, hentries, h⟩ := Option.bind_eq_some_iff.mp h
  split at h
  · cases h
    obtain ⟨hnodup, hplaced⟩ := walkFrom_nodup (by simp) (by simpa using hroot) hentries
    refine ⟨hnodup, ?_⟩
    intro e he hempty
    obtain ⟨q, hq, -, hne⟩ := hplaced e he
    rw [List.mem_singleton.mp hq, hempty] at hne
    exact hne rfl
  · cases h

end LuksAndroid.App

import LuksAndroid.Lib.Machine

/-!
# Entries under the numbers of a counter

Threads file entries in a table under numbers that a counter hands out. A thread takes its number first and
files its entry in a step of its own, so that others come in between. As long as the counter has not come
round, the record of what was filed and altered says what the table holds.
-/

namespace Registry

/-- An entry was filed, or something was done to what is filed under a number. -/
inductive Event (α ω : Type) where
  | filed (n : Nat) (a : α)
  | altered (n : Nat) (o : ω)
deriving DecidableEq, Repr

inductive Action (ι α ω : Type) where
  | take (t : ι) (a : α)
  | file (t : ι)
  | alter (n : Nat) (o : ω)

end Registry

structure Registry (ι α ω : Type) where
  next : Nat
  entries : Nat → Option α
  /-- The number that a thread has taken, and the entry that it is about to file. -/
  taken : ι → Option (Nat × α)
  record : List (Registry.Event α ω)

namespace Registry

variable {ι α ω : Type} [DecidableEq ι] (size : Nat) (apply : ω → α → Option α)

def empty : Registry ι α ω := ⟨1, fun _ => none, fun _ => none, []⟩

def step (s : Registry ι α ω) : Action ι α ω → Option (Registry ι α ω)
  | .take t a =>
    match s.taken t with
    | some _ => none
    | none => some { s with next := (s.next + 1) % size, taken := Function.update s.taken t (some (s.next, a)) }
  | .file t =>
    match s.taken t with
    | none => none
    | some (n, a) => some { s with
        entries := Function.update s.entries n (some a)
        taken := Function.update s.taken t none
        record := s.record ++ [.filed n a] }
  | .alter n o => some { s with
      entries := Function.update s.entries n ((s.entries n).bind (apply o))
      record := s.record ++ [.altered n o] }

/-- How many numbers are taken. -/
def takes : List (Action ι α ω) → Nat
  | [] => 0
  | .take _ _ :: rest => takes rest + 1
  | _ :: rest => takes rest

/-- The numbers under which something was filed. -/
def filedNumbers : List (Event α ω) → List Nat
  | [] => []
  | .filed n _ :: rest => n :: filedNumbers rest
  | .altered _ _ :: rest => filedNumbers rest

/-- What becomes of the entry under a number. -/
def outcome (n : Nat) : Option α → List (Event α ω) → Option α
  | v, [] => v
  | v, .filed m a :: rest => outcome n (if m = n then some a else v) rest
  | v, .altered m o :: rest => outcome n (if m = n then v.bind (apply o) else v) rest

variable {size apply} {s s' : Registry ι α ω}

/-! ## The record -/

theorem filedNumbers_append (r r' : List (Event α ω)) :
    filedNumbers (r ++ r') = filedNumbers r ++ filedNumbers r' := by
  induction r with
  | nil => rfl
  | cons e rest ih =>
    cases e with
    | filed n a => simp only [List.cons_append, filedNumbers, ih]
    | altered n o => simp only [List.cons_append, filedNumbers, ih]

theorem mem_filedNumbers {n : Nat} {r : List (Event α ω)} : n ∈ filedNumbers r ↔ ∃ a, .filed n a ∈ r := by
  induction r with
  | nil => simp [filedNumbers]
  | cons e rest ih =>
    cases e with
    | filed m a =>
      simp only [filedNumbers, List.mem_cons, ih, Event.filed.injEq]
      constructor
      · rintro (rfl | ⟨b, hb⟩)
        · exact ⟨a, .inl ⟨rfl, rfl⟩⟩
        · exact ⟨b, .inr hb⟩
      · rintro ⟨b, ⟨rfl, -⟩ | hb⟩
        · exact .inl rfl
        · exact .inr ⟨b, hb⟩
    | altered m o => simp [filedNumbers, ih]

theorem outcome_append (n : Nat) (v : Option α) (r r' : List (Event α ω)) :
    outcome apply n v (r ++ r') = outcome apply n (outcome apply n v r) r' := by
  induction r generalizing v with
  | nil => rfl
  | cons e rest ih =>
    cases e with
    | filed m a => simp only [List.cons_append, outcome, ih]
    | altered m o => simp only [List.cons_append, outcome, ih]

/-- What was taken out, or was never there, does not come back unless it is filed. -/
theorem outcome_none {n : Nat} {r : List (Event α ω)} (h : n ∉ filedNumbers r) : outcome apply n none r = none := by
  induction r with
  | nil => rfl
  | cons e rest ih =>
    cases e with
    | filed m a =>
      rw [filedNumbers, List.mem_cons, not_or] at h
      rw [outcome, if_neg (Ne.symm h.1)]
      exact ih h.2
    | altered m o =>
      rw [outcome, Option.bind_none, ite_self]
      exact ih h

/-! ## The invariant -/

/-- After `k` numbers have been taken. -/
structure Inv (apply : ω → α → Option α) (k : Nat) (s : Registry ι α ω) : Prop where
  next : s.next = k + 1
  entries : ∀ n, s.entries n = outcome apply n none s.record
  filed : ∀ n ∈ filedNumbers s.record, 1 ≤ n ∧ n ≤ k
  once : (filedNumbers s.record).Nodup
  taken : ∀ t n a, s.taken t = some (n, a) → 1 ≤ n ∧ n ≤ k ∧ n ∉ filedNumbers s.record
  apart : ∀ t u n a b, s.taken t = some (n, a) → s.taken u = some (n, b) → t = u

omit [DecidableEq ι] in
theorem inv_empty : Inv apply 0 (empty : Registry ι α ω) where
  next := rfl
  entries := fun _ => rfl
  filed := fun n h => absurd h List.not_mem_nil
  once := List.nodup_nil
  taken := fun t n a h => by cases h
  apart := fun t u n a b h => by cases h

theorem Inv.take {k : Nat} {t : ι} {a : α} (h : Inv apply k s) (hk : k + 2 < size)
    (hstep : step size apply s (.take t a) = some s') : Inv apply (k + 1) s' := by
  rw [step] at hstep
  split at hstep
  · cases hstep
  · cases hstep
    refine ⟨?_, h.entries, fun n hn => ?_, h.once, ?_, ?_⟩
    · simp only [h.next]
      exact Nat.mod_eq_of_lt hk
    · have := h.filed n hn
      omega
    · intro u n b hu
      simp only at hu ⊢
      by_cases htu : u = t
      · subst htu
        rw [Function.update_self, Option.some.injEq, Prod.mk.injEq] at hu
        obtain ⟨rfl, rfl⟩ := hu
        rw [h.next]
        refine ⟨by omega, by omega, fun hmem => ?_⟩
        have := h.filed _ hmem
        omega
      · rw [Function.update_of_ne htu] at hu
        obtain ⟨h1, h2, h3⟩ := h.taken u n b hu
        exact ⟨h1, by omega, h3⟩
    · intro u v n b c hu hv
      simp only at hu hv
      by_cases htu : u = t
      · subst htu
        by_cases htv : v = u
        · exact htv.symm
        · rw [Function.update_self, Option.some.injEq, Prod.mk.injEq] at hu
          rw [Function.update_of_ne htv] at hv
          have := h.taken v n c hv
          have := h.next
          omega
      · rw [Function.update_of_ne htu] at hu
        by_cases htv : v = t
        · subst htv
          rw [Function.update_self, Option.some.injEq, Prod.mk.injEq] at hv
          have := h.taken u n b hu
          have := h.next
          omega
        · rw [Function.update_of_ne htv] at hv
          exact h.apart u v n b c hu hv

theorem Inv.file {k : Nat} {t : ι} (h : Inv apply k s) (hstep : step size apply s (.file t) = some s') :
    Inv apply k s' := by
  rw [step] at hstep
  split at hstep
  · cases hstep
  · rename_i n a ht
    cases hstep
    obtain ⟨hlo, hhi, hnew⟩ := h.taken t n a ht
    have hnumbers : filedNumbers (s.record ++ [.filed n a]) = filedNumbers s.record ++ [n] := filedNumbers_append _ _
    refine ⟨h.next, fun m => ?_, ?_, ?_, ?_, ?_⟩
    · simp only [outcome_append, outcome]
      by_cases hm : m = n
      · subst hm
        rw [Function.update_self, if_pos rfl]
      · rw [Function.update_of_ne hm, if_neg (Ne.symm hm)]
        exact h.entries m
    · intro m hm
      simp only [hnumbers, List.mem_append, List.mem_singleton] at hm
      rcases hm with hm | rfl
      · exact h.filed m hm
      · exact ⟨hlo, hhi⟩
    · simp only [hnumbers]
      exact List.nodup_append.mpr ⟨h.once, List.nodup_singleton n, fun x hx y hy hxy => by
        rw [List.mem_singleton] at hy
        exact hnew (hy ▸ hxy ▸ hx)⟩
    · intro u m b hu
      simp only at hu ⊢
      by_cases htu : u = t
      · subst htu
        rw [Function.update_self] at hu
        cases hu
      · rw [Function.update_of_ne htu] at hu
        obtain ⟨h1, h2, h3⟩ := h.taken u m b hu
        refine ⟨h1, h2, ?_⟩
        simp only [hnumbers, List.mem_append, List.mem_singleton, not_or]
        refine ⟨h3, ?_⟩
        rintro rfl
        exact htu (h.apart u t m b a hu ht)
    · intro u v m b c hu hv
      simp only at hu hv
      by_cases htu : u = t
      · subst htu
        rw [Function.update_self] at hu
        cases hu
      · by_cases htv : v = t
        · subst htv
          rw [Function.update_self] at hv
          cases hv
        · rw [Function.update_of_ne htu] at hu
          rw [Function.update_of_ne htv] at hv
          exact h.apart u v m b c hu hv

theorem Inv.alter {k n : Nat} {o : ω} (h : Inv apply k s) (hstep : step size apply s (.alter n o) = some s') :
    Inv apply k s' := by
  cases hstep
  have hnumbers : filedNumbers (s.record ++ [.altered n o]) = filedNumbers s.record := by
    rw [filedNumbers_append]
    exact List.append_nil _
  refine ⟨h.next, fun m => ?_, ?_, ?_, ?_, h.apart⟩
  · simp only [outcome_append, outcome]
    by_cases hm : m = n
    · subst hm
      rw [Function.update_self, if_pos rfl, h.entries m]
    · rw [Function.update_of_ne hm, if_neg (Ne.symm hm)]
      exact h.entries m
  · simpa only [hnumbers] using h.filed
  · simpa only [hnumbers] using h.once
  · simpa only [hnumbers] using h.taken

theorem Inv.run {k : Nat} (acts : List (Action ι α ω)) (h : Inv apply k s) (hfew : k + takes acts + 1 < size)
    (hrun : Machine.run (step size apply) s acts = some s') : Inv apply (k + takes acts) s' := by
  induction acts generalizing s k with
  | nil =>
    cases hrun
    exact h
  | cons act rest ih =>
    obtain ⟨t, hstep, hrest⟩ := Machine.run_cons.mp hrun
    cases act with
    | take u a =>
      rw [takes] at hfew
      have hnext := ih (h.take (by omega) hstep) (by omega) hrest
      rwa [takes, ← Nat.add_assoc, Nat.add_right_comm]
    | file u => exact ih (h.file hstep) hfew hrest
    | alter n o => exact ih (h.alter hstep) hfew hrest

theorem record_run (acts : List (Action ι α ω)) (hrun : Machine.run (step size apply) s acts = some s') :
    ∃ new, s'.record = s.record ++ new := by
  induction acts generalizing s with
  | nil =>
    cases hrun
    exact ⟨[], (List.append_nil _).symm⟩
  | cons act rest ih =>
    obtain ⟨t, hstep, hrest⟩ := Machine.run_cons.mp hrun
    obtain ⟨new, hnew⟩ := ih hrest
    have hone : ∃ one, t.record = s.record ++ one := by
      cases act with
      | take u a =>
        rw [step] at hstep
        split at hstep
        · cases hstep
        · cases hstep
          exact ⟨[], (List.append_nil _).symm⟩
      | file u =>
        rw [step] at hstep
        split at hstep
        · cases hstep
        · cases hstep
          exact ⟨_, rfl⟩
      | alter n o =>
        cases hstep
        exact ⟨_, rfl⟩
    obtain ⟨one, hone⟩ := hone
    exact ⟨one ++ new, by rw [hnew, hone, List.append_assoc]⟩

theorem filed_run {P : α → Prop} (acts : List (Action ι α ω)) (hacts : ∀ t a, Action.take t a ∈ acts → P a)
    (htaken : ∀ t n a, s.taken t = some (n, a) → P a) (hfiled : ∀ n a, .filed n a ∈ s.record → P a)
    (hrun : Machine.run (step size apply) s acts = some s') : ∀ n a, .filed n a ∈ s'.record → P a := by
  induction acts generalizing s with
  | nil =>
    cases hrun
    exact hfiled
  | cons act rest ih =>
    obtain ⟨t, hstep, hrest⟩ := Machine.run_cons.mp hrun
    have hmore := fun u a hmem => hacts u a (List.mem_cons_of_mem act hmem)
    cases act with
    | take u a =>
      rw [step] at hstep
      split at hstep
      · cases hstep
      · cases hstep
        refine ih hmore ?_ ?_ hrest
        · intro v n b hv
          simp only at hv
          by_cases hvu : v = u
          · subst hvu
            rw [Function.update_self, Option.some.injEq, Prod.mk.injEq] at hv
            exact hv.2 ▸ hacts v a List.mem_cons_self
          · rw [Function.update_of_ne hvu] at hv
            exact htaken v n b hv
        · exact hfiled
    | file u =>
      rw [step] at hstep
      split at hstep
      · cases hstep
      · rename_i m b hu
        cases hstep
        refine ih hmore ?_ ?_ hrest
        · intro v n c hv
          simp only at hv
          by_cases hvu : v = u
          · subst hvu
            rw [Function.update_self] at hv
            cases hv
          · rw [Function.update_of_ne hvu] at hv
            exact htaken v n c hv
        · intro n c hmem
          simp only [List.mem_append, List.mem_singleton, Event.filed.injEq] at hmem
          rcases hmem with hmem | ⟨-, rfl⟩
          · exact hfiled n c hmem
          · exact htaken u m c hu
    | alter n o =>
      cases hstep
      refine ih hmore ?_ ?_ hrest
      · exact htaken
      · intro m c hmem
        simp only [List.mem_append, List.mem_singleton, reduceCtorEq, or_false] at hmem
        exact hfiled m c hmem

/-! ## What the table holds -/

omit [DecidableEq ι] in
theorem Inv.entry {k n : Nat} {a : α} {pre post : List (Event α ω)} (h : Inv apply k s)
    (hrecord : s.record = pre ++ .filed n a :: post) :
    n ∉ filedNumbers post ∧ s.entries n = outcome apply n (some a) post := by
  have honce := h.once
  rw [hrecord, filedNumbers_append, filedNumbers] at honce
  have hpost := (List.nodup_cons.mp (List.nodup_append.mp honce).2.1).1
  refine ⟨hpost, ?_⟩
  rw [h.entries, hrecord, outcome_append, outcome, if_pos rfl]

omit [DecidableEq ι] in
theorem Inv.filed_of_entry {k n : Nat} {v : α} (h : Inv apply k s) (hv : s.entries n = some v) :
    ∃ pre a post, s.record = pre ++ .filed n a :: post := by
  by_contra hnone
  have hnot : n ∉ filedNumbers s.record := by
    intro hmem
    obtain ⟨a, ha⟩ := mem_filedNumbers.mp hmem
    obtain ⟨pre, post, hsplit⟩ := List.append_of_mem ha
    exact hnone ⟨pre, a, post, hsplit⟩
  rw [h.entries, outcome_none hnot] at hv
  cases hv

end Registry

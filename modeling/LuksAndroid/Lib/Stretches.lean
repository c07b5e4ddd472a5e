import Mathlib.Data.List.Basic

/-!
# Stretches

A stretch of block numbers is kept in one place of a store, or not at all. A list of
stretches that do not overlap is a map from block numbers, and a run is a number of blocks
over which the map goes on as it began.
-/

/-- `len` blocks from `block` on, which are kept from `start` on if they are kept at all. -/
structure Stretch where
  block : Nat
  len : Nat
  start : Option Nat
deriving DecidableEq, Repr

namespace Stretch

def stop (e : Stretch) : Nat := e.block + e.len

def covers (e : Stretch) (l : Nat) : Bool := e.block ≤ l ∧ l < e.stop

end Stretch

namespace Stretches

/-- In order, and without overlap. -/
def Ordered (es : List Stretch) : Prop := es.Pairwise fun a b => a.stop ≤ b.block

/-- All that is kept is kept below `limit`. -/
def Below (limit : Nat) (es : List Stretch) : Prop := ∀ e ∈ es, ∀ s, e.start = some s → s + e.len ≤ limit

def lookup (es : List Stretch) (l : Nat) : Option Nat :=
  (es.find? (·.covers l)).bind fun e => e.start.map (· + (l - e.block))

/-- From `l` on, `n` blocks are kept one after the other from `phys` on, or they are all holes. The run
stays within every bound above `l` that the stretches stay within. -/
structure RunAt (es : List Stretch) (l : Nat) (phys : Option Nat) (n : Nat) : Prop where
  pos : 0 < n
  maps : ∀ j < n, lookup es (l + j) = phys.map (· + j)
  short : ∀ bound, l < bound → (∀ e ∈ es, e.stop ≤ bound) → l + n ≤ bound

variable {e : Stretch} {es pre mid post : List Stretch} {l n : Nat} {phys : Option Nat}

theorem Ordered.head_le (h : Ordered es) {f : Stretch} (he : e ∈ es.head?) (hf : f ∈ es) : e.block ≤ f.block := by
  cases es with
  | nil => cases hf
  | cons x rest =>
    cases he
    rcases List.mem_cons.mp hf with rfl | hf
    · exact Nat.le_refl _
    · exact Nat.le_trans (Nat.le_add_right _ _) ((List.pairwise_cons.mp h).1 f hf)

theorem covers_eq_false : e.covers l = false ↔ l < e.block ∨ e.stop ≤ l := by
  simp only [Stretch.covers, decide_eq_false_iff_not]
  omega

theorem find_eq_none (h : ∀ e ∈ es, l < e.block ∨ e.stop ≤ l) : es.find? (·.covers l) = none := by
  rw [List.find?_eq_none]
  intro e he
  rw [covers_eq_false.mpr (h e he)]
  exact Bool.false_ne_true

theorem lookup_eq_none (h : ∀ e ∈ es, l < e.block ∨ e.stop ≤ l) : lookup es l = none := by
  rw [lookup, find_eq_none h]
  rfl

theorem lookup_cons_of_covers (h : e.covers l) :
    lookup (e :: es) l = e.start.map (· + (l - e.block)) := by
  simp only [lookup, List.find?_cons, h, Option.bind_some]

theorem lookup_cons_of_not_covers (h : e.covers l = false) : lookup (e :: es) l = lookup es l := by
  simp only [lookup, List.find?_cons, h]

theorem lookup_append (hpre : ∀ e ∈ pre, e.stop ≤ l) (hpost : ∀ e ∈ post, l < e.block) :
    lookup (pre ++ mid ++ post) l = lookup mid l := by
  have hbefore := find_eq_none fun e he => Or.inr (hpre e he)
  have hafter := find_eq_none fun e he => Or.inl (hpost e he)
  simp only [lookup, List.find?_append, hbefore, hafter, Option.none_or, Option.or_none]

namespace RunAt

theorem append (h : RunAt mid l phys n) (hpre : ∀ e ∈ pre, e.stop ≤ l) (hpost : ∀ f ∈ post, l < f.block)
    (hmid : ∀ e ∈ mid, ∀ f ∈ post, e.stop ≤ f.block) : RunAt (pre ++ mid ++ post) l phys n where
  pos := h.pos
  maps j hj := by
    rw [lookup_append]
    · exact h.maps j hj
    · intro e he
      exact Nat.le_trans (hpre e he) (Nat.le_add_right l j)
    · intro f hf
      have hbound := h.short f.block (hpost f hf) fun e he => hmid e he f hf
      omega
  short bound hl hbound :=
    h.short bound hl fun e he => hbound e (by simp [he])

theorem cons (h : RunAt es l phys n) (he : e.stop ≤ l) : RunAt (e :: es) l phys n := by
  have happend := @append [e] es [] l n phys h (by simpa using he) (by simp) (by simp)
  rwa [List.append_nil, List.singleton_append] at happend

theorem cons_empty (h : RunAt es l phys n) (he : e.len = 0) : RunAt (e :: es) l phys n where
  pos := h.pos
  maps j hj := by
    rw [lookup_cons_of_not_covers]
    · exact h.maps j hj
    · rw [covers_eq_false, Stretch.stop]
      omega
  short bound hl hbound := h.short bound hl fun f hf => hbound f (List.mem_cons_of_mem e hf)

theorem of_covers (h : e.covers l) : RunAt (e :: es) l (e.start.map (· + (l - e.block))) (e.stop - l) := by
  have hcovers := of_decide_eq_true h
  refine ⟨by omega, ?_, ?_⟩
  · intro j hj
    rw [lookup_cons_of_covers (decide_eq_true (by omega)), Option.map_map]
    congr 1
    funext s
    simp only [Function.comp]
    omega
  · intro bound _ hbound
    have hstop := hbound e List.mem_cons_self
    omega

theorem of_lt (hord : Ordered (e :: es)) (h : l < e.block) : RunAt (e :: es) l none (e.block - l) := by
  refine ⟨by omega, ?_, ?_⟩
  · intro j hj
    apply lookup_eq_none
    intro f hf
    left
    rcases List.mem_cons.mp hf with rfl | hf
    · omega
    · have hle := (List.pairwise_cons.mp hord).1 f hf
      unfold Stretch.stop at hle
      omega
  · intro bound _ hbound
    have hstop := hbound e List.mem_cons_self
    unfold Stretch.stop at hstop
    omega

theorem nil (l : Nat) : RunAt [] l none 1 where
  pos := Nat.one_pos
  maps _ _ := rfl
  short _ hl _ := hl

theorem le_bound (h : RunAt es l phys n) {bound : Nat} (hbound : ∀ e ∈ es, e.stop ≤ bound) (hpos : 0 < bound) :
    n ≤ bound := by
  have hshort := h.short (max (l + 1) bound) (by omega) fun e he =>
    Nat.le_trans (hbound e he) (Nat.le_max_right _ _)
  omega

theorem below {p limit : Nat} (h : RunAt es l (some p) n) (hbelow : Below limit es) : p + n ≤ limit := by
  have hpos := h.pos
  have hlast := h.maps (n - 1) (by omega)
  obtain ⟨e, he, hstart⟩ := Option.bind_eq_some_iff.mp hlast
  obtain ⟨s, hs, hsum⟩ := Option.map_eq_some_iff.mp hstart
  have hbounds := List.find?_some he
  simp only [Stretch.covers, decide_eq_true_eq] at hbounds
  have hle := hbelow e (List.mem_of_find?_eq_some he) s hs
  unfold Stretch.stop at hbounds
  simp only at hsum
  omega

end RunAt

end Stretches

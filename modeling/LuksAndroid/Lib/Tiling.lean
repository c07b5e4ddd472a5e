import Mathlib.Data.List.Basic

/-!
# Tilings

A list of pieces tiles a range when each piece begins where the one before it ends. What a
piece is at a place is up to the user.
-/

/-- From `lo` to `hi`, one piece after the other. -/
def Tiles {α : Type} (here : Nat → α → Prop) (len : α → Nat) : Nat → List α → Nat → Prop
  | lo, [], hi => lo = hi
  | lo, a :: rest, hi => here lo a ∧ Tiles here len (lo + len a) rest hi

namespace Tiles

variable {α : Type} {here there : Nat → α → Prop} {len : α → Nat} {lo hi : Nat} {l pre post : List α} {a : α}

theorem append : Tiles here len lo (pre ++ post) hi ↔
    ∃ mid, Tiles here len lo pre mid ∧ Tiles here len mid post hi := by
  induction pre generalizing lo with
  | nil => simp [Tiles]
  | cons a rest ih => simp [Tiles, ih, and_assoc]

theorem le (h : Tiles here len lo l hi) : lo ≤ hi := by
  induction l generalizing lo with
  | nil => exact Nat.le_of_eq h
  | cons a rest ih => exact Nat.le_trans (Nat.le_add_right lo (len a)) (ih h.2)

/-- What holds of every piece in the range may replace what a piece is. -/
theorem frame (h : Tiles here len lo l hi)
    (hpiece : ∀ p a, lo ≤ p → p + len a ≤ hi → here p a → there p a) : Tiles there len lo l hi := by
  induction l generalizing lo with
  | nil => exact h
  | cons a rest ih =>
    obtain ⟨hhere, hrest⟩ := h
    refine ⟨hpiece lo a (Nat.le_refl lo) hrest.le hhere, ih hrest ?_⟩
    intro p b hp
    exact hpiece p b (Nat.le_trans (Nat.le_add_right lo (len a)) hp)

theorem singleton (h : here lo a) : Tiles here len lo [a] (lo + len a) := ⟨h, rfl⟩

theorem length_mul_le {k : Nat} (h : Tiles here len lo l hi) (hk : ∀ p a, here p a → k ≤ len a) :
    lo + l.length * k ≤ hi := by
  induction l generalizing lo with
  | nil => simpa using Nat.le_of_eq h
  | cons a rest ih =>
    have hle := ih h.2
    have ha := hk lo a h.1
    rw [List.length_cons, Nat.add_one_mul]
    omega

end Tiles

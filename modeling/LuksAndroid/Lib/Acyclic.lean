import Mathlib.Data.Finset.Card
import Mathlib.Logic.Relation

/-!
# Walks without a cycle

A walk goes from point to point along a relation. It ends only if no point that it
reaches leads back to itself, and over finitely many points this is enough: each step
leaves fewer of them ahead.
-/

open Relation

/-- No point that `a` leads to leads back to itself. -/
def Acyclic {α : Type*} (r : α → α → Prop) (a : α) : Prop := ∀ b, ReflTransGen r a b → ¬ TransGen r b b

namespace Acyclic

variable {α : Type*} {r : α → α → Prop} {a b : α}

theorem next (h : Acyclic r a) (hab : r a b) : Acyclic r b := fun c hc => h c (hc.head hab)

theorem of_next (h : ∀ b, r a b → Acyclic r b) : Acyclic r a := by
  have hself : ¬ TransGen r a a := by
    intro hcycle
    obtain ⟨b, hab, hba⟩ := TransGen.head'_iff.mp hcycle
    exact h b hab a hba hcycle
  intro c hc
  rcases hc.cases_head with rfl | ⟨b, hab, hbc⟩
  · exact hself
  · exact h b hab c hbc

open Classical in
/-- The points of `s` that lie ahead of `a`. -/
noncomputable def ahead (r : α → α → Prop) (s : Finset α) (a : α) : Finset α := s.filter (TransGen r a)

theorem mem_ahead {s : Finset α} : b ∈ ahead r s a ↔ b ∈ s ∧ TransGen r a b := by
  simp [ahead]

theorem card_ahead_le (s : Finset α) : (ahead r s a).card ≤ s.card :=
  Finset.card_le_card fun _ hb => (mem_ahead.mp hb).1

theorem card_ahead_lt {s : Finset α} (h : Acyclic r a) (hab : r a b) (hb : b ∈ s) :
    (ahead r s b).card < (ahead r s a).card := by
  apply Finset.card_lt_card
  rw [Finset.ssubset_iff_of_subset]
  · refine ⟨b, ?_, ?_⟩
    · exact mem_ahead.mpr ⟨hb, .single hab⟩
    · intro hmem
      exact h b (.single hab) (mem_ahead.mp hmem).2
  · intro c hc
    obtain ⟨hc, hbc⟩ := mem_ahead.mp hc
    exact mem_ahead.mpr ⟨hc, .head hab hbc⟩

end Acyclic

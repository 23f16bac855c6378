import Mathlib.Data.Finset.Card
import Mathlib.Logic.Relation

/-!
# Reach without cycles

Where a relation has no cycles, a member of a finite set leads to fewer members of the set with every
step. So the number of members that it leads to bounds the steps of a walk.
-/
namespace TokenGrammar

variable {α : Type} {r : α → α → Prop} {s : Finset α} {a b : α}

open Classical in
/-- The members of a set that are reached from a place. -/
noncomputable def reach (r : α → α → Prop) (s : Finset α) (a : α) : Finset α :=
  {b ∈ s | Relation.ReflTransGen r a b}

theorem mem_reach : b ∈ reach r s a ↔ b ∈ s ∧ Relation.ReflTransGen r a b := by
  classical
  rw [reach, Finset.mem_filter]

theorem card_reach_pos (ha : a ∈ s) : 0 < (reach r s a).card :=
  Finset.card_pos.mpr ⟨a, mem_reach.mpr ⟨ha, .refl⟩⟩

theorem card_reach_le (r : α → α → Prop) (s : Finset α) (a : α) : (reach r s a).card ≤ s.card := by
  classical
  exact Finset.card_filter_le _ _

/-- A place leads to everything that the next place leads to and, without cycles, in addition to
itself. -/
theorem card_reach_lt (hacyclic : ∀ c, ¬ Relation.TransGen r c c) (ha : a ∈ s) (hstep : r a b) :
    (reach r s b).card < (reach r s a).card := by
  refine Finset.card_lt_card ((Finset.ssubset_iff_of_subset ?_).mpr ⟨a, ?_, ?_⟩)
  · intro c hc
    obtain ⟨hmem, hreach⟩ := mem_reach.mp hc
    exact mem_reach.mpr ⟨hmem, hreach.head hstep⟩
  · exact mem_reach.mpr ⟨ha, .refl⟩
  · intro hback
    exact hacyclic a (.head' hstep (mem_reach.mp hback).2)

end TokenGrammar

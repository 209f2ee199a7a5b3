import Mathlib

/-!
# The two ends of a list

When a front and a back of a list together weigh less than the whole list, they do not meet.
What a front of an ordered list leaves out comes after it, what a back leaves out comes before.
-/

namespace Lib.Ends

open List

variable {α : Type} {items front back : List α}

lemma disjoint_of_light {weight : α → Nat} (nodup : items.Nodup) (begins : front <+: items)
    (ends : back <:+ items)
    (light : (front.map weight).sum + (back.map weight).sum < (items.map weight).sum) :
    ∀ item ∈ front, item ∉ back := by
  obtain ⟨behind, rfl⟩ := begins
  obtain ⟨pre, same⟩ := ends
  rcases append_eq_append_iff.mp same with ⟨shared, rfl, rfl⟩ | ⟨between, rfl, rfl⟩
  · -- The front covers what is before the back, so the two weigh as much as the list.
    simp only [map_append, sum_append] at light
    omega
  · intro item inFront inBack
    exact (disjoint_of_nodup_append nodup) inFront (mem_append_right between inBack)

variable {order : α → α → Prop}

lemma front_before (ordered : items.Pairwise order) (begins : front <+: items)
    {inside outside : α} (mem : inside ∈ front) (here : outside ∈ items)
    (left : outside ∉ front) : order inside outside := by
  obtain ⟨behind, rfl⟩ := begins
  rcases mem_append.mp here with inFront | inBehind
  · exact absurd inFront left
  · exact (pairwise_append.mp ordered).2.2 inside mem outside inBehind

lemma before_back (ordered : items.Pairwise order) (ends : back <:+ items) {inside outside : α}
    (mem : inside ∈ back) (here : outside ∈ items) (left : outside ∉ back) :
    order outside inside := by
  obtain ⟨pre, rfl⟩ := ends
  rcases mem_append.mp here with inBefore | inBack
  · exact (pairwise_append.mp ordered).2.2 outside inBefore inside mem
  · exact absurd inBack left

end Lib.Ends

import Mathlib

/-!
# Weighted quorums

Participants carry natural weights. A set reaches the quorum threshold when the
weights of its members sum to at least the threshold. Two such sets meet outside
every set whose weight is below their guaranteed overlap; this is the only
property of thresholds that agreement arguments use, so it is stated for an
arbitrary threshold, an arbitrary finite population and an arbitrary faulty set.
-/

namespace Lib.Quorum

variable {α : Type} {weight : α → Nat}

def weigh (weight : α → Nat) (members : Finset α) : Nat := ∑ mem ∈ members, weight mem

lemma weigh_mono {small large : Finset α} (inside : small ⊆ large) :
    weigh weight small ≤ weigh weight large :=
  Finset.sum_le_sum_of_subset inside

lemma weigh_insert_of_notMem [DecidableEq α] {members : Finset α} {mem : α}
    (absent : mem ∉ members) :
    weigh weight (insert mem members) = weigh weight members + weight mem := by
  rw [weigh, Finset.sum_insert absent, Nat.add_comm]
  rfl

lemma weigh_sub_le_sdiff [DecidableEq α] {members removed : Finset α} :
    weigh weight members - weigh weight removed ≤ weigh weight (members \ removed) := by
  have split : weigh weight (members ∩ removed) + weigh weight (members \ removed) =
      weigh weight members := Finset.sum_inter_add_sum_sdiff members removed weight
  have part : weigh weight (members ∩ removed) ≤ weigh weight removed :=
    weigh_mono Finset.inter_subset_right
  omega

/-- Two sets inside a population overlap at least by the excess of their
combined weight over the population's weight. -/
lemma overlap_weight [DecidableEq α] {population left right : Finset α}
    (leftInside : left ⊆ population) (rightInside : right ⊆ population) :
    weigh weight left + weigh weight right ≤
      weigh weight population + weigh weight (left ∩ right) := by
  have union : weigh weight (left ∪ right) + weigh weight (left ∩ right) =
      weigh weight left + weigh weight right := Finset.sum_union_inter
  have bounded : weigh weight (left ∪ right) ≤ weigh weight population :=
    weigh_mono (Finset.union_subset leftInside rightInside)
  omega

/-- When the threshold exceeds half of population plus faulty weight, two
quorums share a participant outside the faulty set. -/
lemma exists_common_correct [DecidableEq α] {population faulty left right : Finset α}
    {limit : Nat} (leftInside : left ⊆ population) (rightInside : right ⊆ population)
    (leftReaches : limit ≤ weigh weight left) (rightReaches : limit ≤ weigh weight right)
    (intersects : weigh weight population + weigh weight faulty < 2 * limit) :
    ∃ mem, mem ∈ left ∧ mem ∈ right ∧ mem ∉ faulty := by
  have overlap : weigh weight left + weigh weight right ≤
      weigh weight population + weigh weight (left ∩ right) := overlap_weight leftInside rightInside
  have exceeds : weigh weight faulty < weigh weight (left ∩ right) := by omega
  obtain ⟨mem, shared, correct⟩ : ∃ mem, mem ∈ left ∩ right ∧ mem ∉ faulty := by
    by_contra covered
    push Not at covered
    have small : weigh weight (left ∩ right) ≤ weigh weight faulty := weigh_mono covered
    omega
  exact ⟨mem, Finset.mem_of_mem_inter_left shared, Finset.mem_of_mem_inter_right shared, correct⟩

end Lib.Quorum

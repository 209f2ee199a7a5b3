import Mathlib

/-!
# Where the weight of a list crosses a bound

Items carry a value and a weight. A value is where the weight crosses a bound when the items
below it weigh no more than the bound, and together with those at the value they weigh more.
There is one such value, whatever the order of the items, and a pass over the sorted items that
adds up weights finds it. With half of the total weight as the bound it is a median; if the
items of some kind weigh no more than the bound, and the others more, it lies between the
values of the others.
-/

namespace Lib.WeightedMedian

open List

variable {ι α : Type} [LinearOrder α] {val : ι → α} {weight : ι → Nat} {bound : Nat}
  {items others : List ι}

def weightWhere (weight : ι → Nat) (keep : ι → Bool) (items : List ι) : Nat :=
  ((items.filter keep).map weight).sum

section Weights

variable {keep : ι → Bool}

lemma weightWhere_append : weightWhere weight keep (items ++ others) =
    weightWhere weight keep items + weightWhere weight keep others := by
  simp [weightWhere]

lemma weightWhere_cons {item : ι} : weightWhere weight keep (item :: items) =
    (if keep item then weight item else 0) + weightWhere weight keep items := by
  unfold weightWhere
  by_cases kept : keep item = true
  · simp [kept]
  · simp [kept]

lemma weightWhere_perm (same : items.Perm others) :
    weightWhere weight keep items = weightWhere weight keep others :=
  ((same.filter keep).map weight).sum_eq

lemma weightWhere_mono {wider : ι → Bool}
    (implies : ∀ item ∈ items, keep item = true → wider item = true) :
    weightWhere weight keep items ≤ weightWhere weight wider items := by
  induction items with
  | nil => exact Nat.le_refl _
  | cons item rest ih =>
    have tail := ih fun other here => implies other (mem_cons_of_mem item here)
    rw [weightWhere_cons, weightWhere_cons]
    by_cases kept : keep item = true
    · have wide := implies item mem_cons_self kept
      simpa [kept, wide] using tail
    · exact Nat.add_le_add (by simp [kept]) tail

lemma weightWhere_add_not : weightWhere weight keep items +
    weightWhere weight (fun item => !keep item) items = (items.map weight).sum := by
  induction items with
  | nil => rfl
  | cons item rest ih =>
    rw [weightWhere_cons, weightWhere_cons, map_cons, sum_cons, ← ih]
    by_cases kept : keep item = true
    · simp only [kept, if_true, Bool.not_true, Bool.false_eq_true, if_false]
      omega
    · simp only [kept, if_false, Bool.not_false, if_true, Bool.false_eq_true]
      omega

lemma weightWhere_le_total : weightWhere weight keep items ≤ (items.map weight).sum := by
  rw [← @weightWhere_add_not ι weight items keep]
  exact Nat.le_add_right _ _

end Weights

/-- The weight crosses the bound at the value. -/
structure Crosses (val : ι → α) (weight : ι → Nat) (bound : Nat) (items : List ι)
    (crossing : α) : Prop where
  below : weightWhere weight (fun item => val item < crossing) items ≤ bound
  reached : bound < weightWhere weight (fun item => val item ≤ crossing) items

namespace Crosses

variable {first second : α}

variable (crosses : Crosses val weight bound items first)

include crosses

lemma exists_between {other : α}
    (outweighs : bound < weightWhere weight (fun item => val item ≤ other) items) :
    ∃ item ∈ items, first ≤ val item ∧ val item ≤ other := by
  by_contra none
  push Not at none
  have covered : weightWhere weight (fun item => val item ≤ other) items ≤
      weightWhere weight (fun item => val item < first) items := by
    apply weightWhere_mono
    intro item here low
    rw [decide_eq_true_eq] at low ⊢
    by_contra high
    exact absurd low (not_le_of_gt (none item here (le_of_not_gt high)))
  exact absurd (outweighs.trans_le covered) (not_lt_of_ge crosses.below)

lemma attained : ∃ item ∈ items, val item = first := by
  obtain ⟨item, here, high, low⟩ := crosses.exists_between crosses.reached
  exact ⟨item, here, le_antisymm low high⟩

lemma isLeast :
    IsLeast {other | bound < weightWhere weight (fun item => val item ≤ other) items} first := by
  refine ⟨crosses.reached, fun other outweighs => ?_⟩
  obtain ⟨item, -, high, low⟩ := crosses.exists_between outweighs
  exact high.trans low

lemma unique (other : Crosses val weight bound items second) : first = second :=
  crosses.isLeast.unique other.isLeast

lemma perm (same : items.Perm others) : Crosses val weight bound others first where
  below := by
    rw [← weightWhere_perm same]
    exact crosses.below
  reached := by
    rw [← weightWhere_perm same]
    exact crosses.reached

lemma above :
    weightWhere weight (fun item => first < val item) items + bound < (items.map weight).sum := by
  have split := @weightWhere_add_not ι weight items (fun item => val item ≤ first)
  have sameKind : (fun item => !decide (val item ≤ first)) =
      fun item => decide (first < val item) := by
    funext item
    rw [← decide_not, decide_eq_decide, not_le]
  rw [sameKind] at split
  have final := crosses.reached
  omega

lemma exists_le {kind : ι → Bool} (light : weightWhere weight kind items ≤ bound) :
    ∃ item ∈ items, kind item = false ∧ val item ≤ first := by
  by_contra none
  push Not at none
  have covered : weightWhere weight (fun item => val item ≤ first) items ≤
      weightWhere weight kind items := by
    apply weightWhere_mono
    intro item here low
    by_contra other
    rw [decide_eq_true_eq] at low
    exact absurd low (not_le_of_gt (none item here (Bool.eq_false_of_not_eq_true other)))
  have final := crosses.reached
  omega

lemma exists_ge {kind : ι → Bool}
    (heavy : weightWhere weight kind items + bound < (items.map weight).sum) :
    ∃ item ∈ items, kind item = false ∧ first ≤ val item := by
  by_contra none
  push Not at none
  have covered : weightWhere weight (fun item => !kind item) items ≤
      weightWhere weight (fun item => val item < first) items := by
    apply weightWhere_mono
    intro item here other
    rw [Bool.not_eq_true'] at other
    rw [decide_eq_true_eq]
    exact none item here other
  have split := @weightWhere_add_not ι weight items kind
  have below := crosses.below
  omega

end Crosses

omit [LinearOrder α] in
lemma weightWhere_map (keep : α → Bool) :
    weightWhere Prod.snd (fun entry => keep entry.1)
      (items.map fun item => (val item, weight item)) =
      weightWhere weight (fun item => keep (val item)) items := by
  rw [weightWhere, weightWhere, filter_map, map_map]
  rfl

lemma Crosses.of_map {crossing : α} (crosses : Crosses Prod.fst Prod.snd bound
    (items.map fun item => (val item, weight item)) crossing) :
    Crosses val weight bound items crossing where
  below := by
    rw [← weightWhere_map fun other => other < crossing]
    exact crosses.below
  reached := by
    rw [← weightWhere_map fun other => other ≤ crossing]
    exact crosses.reached

/-- The value of the first item with which the added weight passes the bound, or else of the
last one. -/
def firstPast (val : ι → α) (weight : ι → Nat) (bound : Nat) : Nat → α → List ι → α
  | _, last, [] => last
  | added, _, item :: rest =>
    if bound < added + weight item then val item
    else firstPast val weight bound (added + weight item) (val item) rest

omit [LinearOrder α] in
lemma firstPast_split {added : Nat} {last : α} (within : added ≤ bound)
    (past : bound < added + (items.map weight).sum) :
    ∃ front item back, items = front ++ item :: back ∧
      firstPast val weight bound added last items = val item ∧
      added + (front.map weight).sum ≤ bound ∧
      bound < added + (front.map weight).sum + weight item := by
  induction items generalizing added last with
  | nil =>
    rw [map_nil, sum_nil] at past
    omega
  | cons item rest ih =>
    rw [firstPast]
    split
    · rename_i passed
      exact ⟨[], item, rest, rfl, rfl, within, passed⟩
    · rename_i kept
      rw [map_cons, sum_cons, ← Nat.add_assoc] at past
      obtain ⟨front, got, back, rfl, same, below, above⟩ :=
        @ih _ (val item) (Nat.le_of_not_lt kept) past
      refine ⟨item :: front, got, back, rfl, same, ?_, ?_⟩
      · rw [map_cons, sum_cons, ← Nat.add_assoc]
        exact below
      · rw [map_cons, sum_cons, ← Nat.add_assoc]
        exact above

lemma firstPast_crosses {last : α}
    (sorted : items.Pairwise fun left right => val left ≤ val right)
    (past : bound < (items.map weight).sum) :
    Crosses val weight bound items (firstPast val weight bound 0 last items) := by
  obtain ⟨front, item, back, rfl, same, below, above⟩ :=
    @firstPast_split ι α val weight bound items 0 last (Nat.zero_le _)
      (by rwa [Nat.zero_add])
  rw [Nat.zero_add] at below above
  rw [same]
  obtain ⟨-, ordered, pre⟩ := pairwise_append.mp sorted
  have post := (pairwise_cons.mp ordered).1
  constructor
  · -- nothing from the item on is below it
    rw [weightWhere_append, weightWhere_cons, decide_eq_false (lt_irrefl _)]
    have nothing : weightWhere weight (fun other => val other < val item) back = 0 := by
      rw [weightWhere, filter_eq_nil_iff.mpr, map_nil, sum_nil]
      intro other here
      rw [decide_eq_true_eq]
      exact not_lt_of_ge (post other here)
    rw [nothing]
    exact weightWhere_le_total.trans below
  · -- everything up to the item is not above it
    have everything : weightWhere weight (fun other => val other ≤ val item) front =
        (front.map weight).sum := by
      rw [weightWhere, filter_eq_self.mpr]
      intro other here
      rw [decide_eq_true_eq]
      exact pre other here item mem_cons_self
    rw [weightWhere_append, weightWhere_cons, everything, decide_eq_true (le_refl _), if_pos rfl]
    omega

end Lib.WeightedMedian

import Mathlib

/-!
# The last element of a stable sort

Insertion sort is stable: of elements that compare both ways, the one that comes later stays
later. So an element ends up last when nothing before it in the list has to come after it and
everything after it in the list has to come before it.
-/

namespace Lib.StableSort

open List

variable {α : Type} {order : α → α → Prop} [DecidableRel order]

lemma orderedInsert_append_singleton {item last : α} (pre : order item last)
    (items : List α) :
    ∃ front, (items ++ [last]).orderedInsert order item = front ++ [last] := by
  induction items with
  | nil => exact ⟨[item], by simp [pre]⟩
  | cons head rest ih =>
    obtain ⟨front, inserted⟩ := ih
    by_cases first : order item head
    · exact ⟨item :: head :: rest, by simp [first]⟩
    · exact ⟨head :: front, by simp [first, inserted]⟩

lemma orderedInsert_of_after {last : α} {items : List α}
    (post : ∀ item ∈ items, ¬ order last item) :
    items.orderedInsert order last = items ++ [last] := by
  induction items with
  | nil => rfl
  | cons head rest ih =>
    rw [orderedInsert, if_neg (post head mem_cons_self),
      ih fun item mem => post item (mem_cons_of_mem head mem),
      cons_append]

lemma insertionSort_append_cons {last : α} {prev later : List α}
    (pre : ∀ item ∈ prev, order item last) (post : ∀ item ∈ later, ¬ order last item) :
    ∃ front, (prev ++ last :: later).insertionSort order = front ++ [last] := by
  induction prev with
  | nil =>
    refine ⟨later.insertionSort order, ?_⟩
    rw [nil_append, insertionSort_cons]
    exact orderedInsert_of_after fun item mem =>
      post item ((perm_insertionSort order later).mem_iff.mp mem)
  | cons head rest ih =>
    obtain ⟨front, sorted⟩ := ih fun item mem => pre item (mem_cons_of_mem head mem)
    rw [cons_append, insertionSort_cons, sorted]
    exact orderedInsert_append_singleton (pre head mem_cons_self) front

/-- An element with only strictly smaller ones after it is sorted to the end exactly when
nothing before it is greater. -/
lemma getLast?_insertionSort_iff [IsTrans α order] [Std.Total order] {last : α}
    {prev later : List α} (post : ∀ item ∈ later, ¬ order last item) :
    ((prev ++ last :: later).insertionSort order).getLast? = some last ↔
      ∀ item ∈ prev, order item last := by
  constructor
  · intro isLast item mem
    have sorted := pairwise_insertionSort order (prev ++ last :: later)
    have here : item ∈ (prev ++ last :: later).insertionSort order :=
      (perm_insertionSort order _).mem_iff.mpr (mem_append_left _ mem)
    obtain ⟨front, split⟩ := getLast?_eq_some_iff.mp isLast
    rw [split] at sorted here
    rcases mem_append.mp here with inFront | same
    · exact (pairwise_append.mp sorted).2.2 item inFront last (by simp)
    · rw [mem_singleton.mp same]
      exact (Std.Total.total last last).elim id id
  · intro pre
    obtain ⟨front, sorted⟩ := insertionSort_append_cons pre post
    rw [sorted, getLast?_concat]

end Lib.StableSort

import Mathlib

/-!
# Worklist traversals

A traversal keeps a list of pending nodes and a set of barred nodes, which it never
enters. Two disciplines are treated. `drain` pops from a stack and bars the children
of a node when it pushes them; `sweep` pops from a queue and bars a node when it
visits it. Both visit exactly the nodes reached from the pending ones through
unbarred nodes, each once, and both end: the bound is the number of nodes (for
`sweep`, of links) that can still be entered.

`drain_congr` is the two-run rule: a traversal reads nothing outside the nodes it
reaches.
-/

namespace Lib.Worklist

open List Option

variable {α : Type} {node : α} {pending : List α} {domain : Finset α}

/-- A link to a node that may be entered. -/
def Link (kids : α → List α) (barred : Set α) (source target : α) : Prop :=
  target ∈ kids source ∧ target ∉ barred

/-- Reached from one of the roots along links to unbarred nodes. The roots
themselves may be barred. -/
def Reached (kids : α → List α) (barred : Set α) (roots : List α) (node : α) : Prop :=
  ∃ root ∈ roots, Relation.ReflTransGen (Link kids barred) root node

section Reached

variable {kids : α → List α} {barred : Set α} {roots : List α}

lemma Reached.root (mem : node ∈ roots) : Reached kids barred roots node := ⟨node, mem, .refl⟩

lemma Reached.next {source target : α} (final : Reached kids barred roots source)
    (child : target ∈ kids source) (entered : target ∉ barred) :
    Reached kids barred roots target := by
  obtain ⟨root, mem, path⟩ := final
  exact ⟨root, mem, path.tail ⟨child, entered⟩⟩

lemma Reached.induct {motive : α → Prop} (final : Reached kids barred roots node)
    (atRoots : ∀ root ∈ roots, motive root)
    (alongLinks : ∀ source target, motive source → target ∈ kids source → target ∉ barred →
      motive target) : motive node := by
  obtain ⟨root, mem, path⟩ := final
  induction path with
  | refl => exact atRoots root mem
  | tail _ link ih => exact alongLinks _ _ ih link.1 link.2

lemma Reached.root_or_unbarred (final : Reached kids barred roots node) :
    node ∈ roots ∨ node ∉ barred :=
  final.induct (motive := fun node => node ∈ roots ∨ node ∉ barred)
    (fun _ mem => .inl mem) (fun _ _ _ _ entered => .inr entered)

lemma Reached.mono {larger : Set α} {others : List α} (fewer : larger ⊆ barred)
    (more : ∀ root ∈ roots, Reached kids larger others root)
    (final : Reached kids barred roots node) : Reached kids larger others node :=
  final.induct more fun _ _ got child entered =>
    got.next child fun isBarred => entered (fewer isBarred)

end Reached

open Classical in
/-- The nodes of a finite domain that may still be entered. -/
noncomputable def remaining (domain : Finset α) (barred : Set α) : Finset α :=
  domain.filter (fun node => node ∉ barred)

lemma mem_remaining {barred : Set α} :
    node ∈ remaining domain barred ↔ node ∈ domain ∧ node ∉ barred := by
  simp [remaining]

lemma remaining_card_le (domain : Finset α) (barred : Set α) :
    (remaining domain barred).card ≤ domain.card :=
  Finset.card_le_card (fun _ mem => (mem_remaining.mp mem).1)

section Drain

open Classical

variable {kids : α → List α}

/-- The children of a node that may still be entered. -/
noncomputable def fresh (kids : α → List α) (barred : Set α) (node : α) : List α :=
  (kids node).filter (fun child => child ∉ barred)

lemma mem_fresh {barred : Set α} {child : α} :
    child ∈ fresh kids barred node ↔ child ∈ kids node ∧ child ∉ barred := by
  simp [fresh]

/-- Pop a node, visit it, push its fresh children and bar them. -/
noncomputable def drain (kids : α → List α) : Nat → List α → Set α → Option (List α)
  | _, [], _ => some []
  | 0, _ :: _, _ => none
  | fuel + 1, node :: rest, barred =>
    (drain kids fuel ((fresh kids barred node).reverse ++ rest)
      (barred ∪ {child | child ∈ fresh kids barred node})).map (node :: ·)

/-- Visiting one node and barring its fresh children loses nothing: what was reached
is that node or is reached from the new pending list. -/
lemma reached_drain_step {barred : Set α} {rest : List α} {target : α} :
    Reached kids barred (node :: rest) target ↔
      target = node ∨ Reached kids (barred ∪ {child | child ∈ fresh kids barred node})
        ((fresh kids barred node).reverse ++ rest) target := by
  constructor
  · intro final
    refine final.induct (motive := fun target => target = node ∨ Reached kids _ _ target)
      (fun root mem => ?_) (fun source child got linked entered => ?_)
    · rcases mem_cons.mp mem with rfl | mem
      · exact .inl rfl
      · exact .inr (Reached.root (by simp [mem]))
    · by_cases fromNode : child ∈ kids node
      · exact .inr (Reached.root (by simp [mem_fresh, fromNode, entered]))
      · rcases got with rfl | got
        · exact absurd linked fromNode
        · exact .inr (got.next linked (by simp [mem_fresh, fromNode, entered]))
  · rintro (rfl | final)
    · exact Reached.root (by simp)
    · refine final.mono Set.subset_union_left (fun root mem => ?_)
      simp only [mem_append, mem_reverse, mem_fresh] at mem
      rcases mem with ⟨child, entered⟩ | mem
      · exact (Reached.root (by simp)).next child entered
      · exact Reached.root (by simp [mem])

lemma card_after_fresh {barred : Set α} (nodup : (kids node).Nodup)
    (bounded : ∀ child ∈ kids node, child ∉ barred → child ∈ domain) :
    (remaining domain (barred ∪ {child | child ∈ fresh kids barred node})).card +
      (fresh kids barred node).length ≤ (remaining domain barred).card := by
  have freshDistinct : (fresh kids barred node).Nodup := nodup.filter _
  rw [← toFinset_card_of_nodup freshDistinct, ← Finset.card_union_of_disjoint]
  · refine Finset.card_le_card (fun target mem => ?_)
    rcases Finset.mem_union.mp mem with mem | mem
    · simp only [mem_remaining, Set.mem_union, not_or] at mem ⊢
      exact ⟨mem.1, mem.2.1⟩
    · rw [List.mem_toFinset, mem_fresh] at mem
      exact mem_remaining.mpr ⟨bounded target mem.1 mem.2, mem.2⟩
  · refine Finset.disjoint_left.mpr (fun target left mem => ?_)
    exact (mem_remaining.mp left).2 (.inr (List.mem_toFinset.mp mem))

/-- The stack traversal returns, and visits exactly the reached nodes, each once.
The bound counts the nodes still to be entered and the pending ones. -/
lemma drain_spec {fuel : Nat} {barred : Set α} (marked : ∀ node ∈ pending, node ∈ barred)
    (nodup : pending.Nodup)
    (childrenDistinct : ∀ node, Reached kids barred pending node → (kids node).Nodup)
    (bounded : ∀ node, Reached kids barred pending node → ∀ child ∈ kids node,
      child ∉ barred → child ∈ domain)
    (enough : (remaining domain barred).card + pending.length ≤ fuel) :
    ∃ seen, drain kids fuel pending barred = some seen ∧ seen.Nodup ∧
      ∀ node, node ∈ seen ↔ Reached kids barred pending node := by
  induction fuel generalizing pending barred with
  | zero =>
    have empty : pending = [] := eq_nil_of_length_eq_zero (by omega)
    subst empty
    exact ⟨[], rfl, nodup_nil, fun node => by simp [Reached]⟩
  | succ fuel ih =>
    cases pending with
    | nil => exact ⟨[], rfl, nodup_nil, fun node => by simp [Reached]⟩
    | cons node rest =>
      have rootReached : Reached kids barred (node :: rest) node := Reached.root (by simp)
      have nodeBarred : node ∈ barred := marked node (by simp)
      have freshDistinct : (fresh kids barred node).Nodup :=
        (childrenDistinct node rootReached).filter _
      have room := card_after_fresh (childrenDistinct node rootReached) (bounded node rootReached)
      have back : ∀ target, Reached kids _ _ target →
          Reached kids barred (node :: rest) target :=
        fun target final => reached_drain_step.mpr (.inr final)
      obtain ⟨seen, run, visitedDistinct, members⟩ :
          ∃ seen, drain kids fuel ((fresh kids barred node).reverse ++ rest)
            (barred ∪ {child | child ∈ fresh kids barred node}) = some seen ∧
            seen.Nodup ∧ ∀ target, target ∈ seen ↔ Reached kids
              (barred ∪ {child | child ∈ fresh kids barred node})
              ((fresh kids barred node).reverse ++ rest) target := by
        refine ih ?_ ?_ ?_ ?_ ?_
        · intro target mem
          rcases mem_append.mp mem with mem | mem
          · exact .inr (mem_reverse.mp mem)
          · exact .inl (marked target (by simp [mem]))
        · refine nodup_append.mpr
            ⟨nodup_reverse.mpr freshDistinct, (nodup_cons.mp nodup).2, ?_⟩
          rintro target mem _ otherMember rfl
          exact (mem_fresh.mp (mem_reverse.mp mem)).2
            (marked target (by simp [otherMember]))
        · exact fun target final => childrenDistinct target (back target final)
        · exact fun target final child linked entered =>
            bounded target (back target final) child linked
              fun isBarred => entered (.inl isBarred)
        · simp only [length_append, length_reverse, length_cons] at enough ⊢
          omega
      refine ⟨node :: seen, by rw [drain, run, map_some], ?_, ?_⟩
      · refine nodup_cons.mpr ⟨fun mem => ?_, visitedDistinct⟩
        rcases ((members node).mp mem).root_or_unbarred with pendingAgain | unbarred
        · rcases mem_append.mp pendingAgain with child | later
          · exact (mem_fresh.mp (mem_reverse.mp child)).2 nodeBarred
          · exact (nodup_cons.mp nodup).1 later
        · exact unbarred (.inl nodeBarred)
      · intro target
        rw [reached_drain_step, mem_cons, members]

lemma mem_drain_of_pending {fuel : Nat} {seen : List α} {barred : Set α}
    (ret : drain kids fuel pending barred = some seen) (mem : node ∈ pending) :
    node ∈ seen := by
  induction fuel generalizing pending barred seen with
  | zero =>
    cases pending with
    | nil => exact absurd mem not_mem_nil
    | cons first rest => simp [drain] at ret
  | succ fuel ih =>
    cases pending with
    | nil => exact absurd mem not_mem_nil
    | cons first rest =>
      simp only [drain, map_eq_some_iff] at ret
      obtain ⟨later, run, rfl⟩ := ret
      rcases mem_cons.mp mem with rfl | mem
      · exact mem_cons_self
      · exact mem_cons_of_mem _ (ih run (by simp [mem]))

lemma drain_mono {fuel more : Nat} {seen : List α} {barred : Set α}
    (ret : drain kids fuel pending barred = some seen) (larger : fuel ≤ more) :
    drain kids more pending barred = some seen := by
  induction fuel generalizing more pending barred seen with
  | zero =>
    cases pending with
    | nil => simpa [drain] using ret
    | cons node rest => simp [drain] at ret
  | succ fuel ih =>
    obtain ⟨extra, rfl⟩ := Nat.exists_eq_add_of_le larger
    cases pending with
    | nil => simpa [drain] using ret
    | cons node rest =>
      simp only [drain, map_eq_some_iff] at ret
      obtain ⟨remaining, run, rfl⟩ := ret
      have lifted := ih run (Nat.le_add_right fuel extra)
      rw [Nat.add_right_comm, drain, lifted, map_some]

/-- Two traversals that see the same children and the same barred nodes on a region
that neither leaves make the same visits. -/
lemma drain_congr {others : α → List α} {fuel : Nat} {barred excluded : Set α}
    (region : α → Prop) (inside : ∀ node ∈ pending, region node)
    (sameChildren : ∀ node, region node → kids node = others node)
    (sameBarred : ∀ node, region node → ∀ child ∈ kids node,
      (child ∈ barred ↔ child ∈ excluded))
    (closed : ∀ node, region node → ∀ child ∈ kids node, child ∉ barred → region child) :
    drain kids fuel pending barred = drain others fuel pending excluded := by
  induction fuel generalizing pending barred excluded with
  | zero => cases pending <;> rfl
  | succ fuel ih =>
    cases pending with
    | nil => rfl
    | cons node rest =>
      have nodeInside := inside node (by simp)
      have sameFresh : fresh kids barred node = fresh others excluded node := by
        rw [fresh, fresh, ← sameChildren node nodeInside]
        refine filter_congr (fun child mem => ?_)
        simp [sameBarred node nodeInside child mem]
      rw [drain, drain, ← sameFresh]
      congr 1
      refine ih ?_ ?_ ?_
      · intro target mem
        simp only [mem_append, mem_reverse, mem_fresh] at mem
        rcases mem with ⟨child, entered⟩ | mem
        · exact closed node nodeInside target child entered
        · exact inside target (by simp [mem])
      · intro source sourceInside child mem
        simp only [Set.mem_union, sameBarred source sourceInside child mem]
      · intro source sourceInside child mem entered
        exact closed source sourceInside child mem (fun isBarred => entered (.inl isBarred))

end Drain

section Sweep

open Classical

variable {kids : α → List α}

/-- Pop the first node; skip it when barred, else visit it, bar it and queue all its
children. -/
noncomputable def sweep (kids : α → List α) : Nat → List α → Set α → Option (List α)
  | _, [], _ => some []
  | 0, _ :: _, _ => none
  | fuel + 1, node :: rest, barred =>
    if node ∈ barred then sweep kids fuel rest barred
    else (sweep kids fuel (rest ++ kids node) (insert node barred)).map (node :: ·)

noncomputable def enterable (barred : Set α) (pending : List α) : List α :=
  pending.filter (fun node => node ∉ barred)

lemma mem_enterable {barred : Set α} :
    node ∈ enterable barred pending ↔ node ∈ pending ∧ node ∉ barred := by
  simp [enterable]

lemma reached_sweep_step {barred : Set α} {rest : List α} {target : α}
    (unbarred : node ∉ barred) :
    Reached kids barred (enterable barred (node :: rest)) target ↔
      target = node ∨ Reached kids (insert node barred)
        (enterable (insert node barred) (rest ++ kids node)) target := by
  constructor
  · intro final
    refine final.induct (motive := fun target => target = node ∨ Reached kids _ _ target)
      (fun root mem => ?_) (fun source child got linked entered => ?_)
    · rw [mem_enterable, mem_cons] at mem
      by_cases same : root = node
      · exact .inl same
      · refine .inr (Reached.root (mem_enterable.mpr ⟨?_, ?_⟩))
        · exact mem_append.mpr (.inl (mem.1.resolve_left same))
        · simp [same, mem.2]
    · by_cases same : child = node
      · exact .inl same
      · rcases got with rfl | got
        · exact .inr (Reached.root (mem_enterable.mpr
            ⟨mem_append.mpr (.inr linked), by simp [same, entered]⟩))
        · exact .inr (got.next linked (by simp [same, entered]))
  · have rootReached : Reached kids barred (enterable barred (node :: rest)) node :=
      Reached.root (mem_enterable.mpr ⟨by simp, unbarred⟩)
    rintro (rfl | final)
    · exact rootReached
    · refine final.mono (Set.subset_insert node barred) (fun root mem => ?_)
      obtain ⟨queued, open_⟩ := mem_enterable.mp mem
      have entered : root ∉ barred := fun isBarred => open_ (.inr isBarred)
      rcases mem_append.mp queued with queued | child
      · exact Reached.root (mem_enterable.mpr ⟨by simp [queued], entered⟩)
      · exact rootReached.next child entered

/-- The queue traversal returns, and visits exactly the nodes reached from the
enterable ones, each once. The bound counts the links of the nodes still to be
visited and the pending entries. -/
lemma sweep_spec {fuel : Nat} {barred : Set α}
    (bounded : ∀ node, Reached kids barred (enterable barred pending) node → node ∈ domain)
    (enough : (∑ node ∈ remaining domain barred, (kids node).length) + pending.length ≤ fuel) :
    ∃ seen, sweep kids fuel pending barred = some seen ∧ seen.Nodup ∧
      ∀ node, node ∈ seen ↔ Reached kids barred (enterable barred pending) node := by
  induction fuel generalizing pending barred with
  | zero =>
    have empty : pending = [] := eq_nil_of_length_eq_zero (by omega)
    subst empty
    exact ⟨[], rfl, nodup_nil, fun node => by simp [Reached, enterable]⟩
  | succ fuel ih =>
    cases pending with
    | nil => exact ⟨[], rfl, nodup_nil, fun node => by simp [Reached, enterable]⟩
    | cons node rest =>
      by_cases isBarred : node ∈ barred
      · have skipped : enterable barred (node :: rest) = enterable barred rest := by
          simp [enterable, isBarred]
        rw [skipped] at bounded ⊢
        obtain ⟨seen, run, spec⟩ := ih bounded
          (by rw [length_cons] at enough; omega)
        exact ⟨seen, by rw [sweep, if_pos isBarred, run], spec⟩
      · have inDomain : node ∈ domain :=
          bounded node (Reached.root (mem_enterable.mpr ⟨by simp, isBarred⟩))
        have split : remaining domain barred =
            insert node (remaining domain (insert node barred)) := by
          ext target
          by_cases same : target = node
          · simp [mem_remaining, same, inDomain, isBarred]
          · simp [mem_remaining, same]
        rw [split, Finset.sum_insert (by simp [mem_remaining]), length_cons] at enough
        obtain ⟨seen, run, visitedDistinct, members⟩ :=
          @ih (rest ++ kids node) (insert node barred)
            (fun target final =>
              bounded target ((reached_sweep_step isBarred).mpr (.inr final)))
            (by rw [length_append]; omega)
        refine ⟨node :: seen, by rw [sweep, if_neg isBarred, run, map_some], ?_, ?_⟩
        · refine nodup_cons.mpr ⟨fun mem => ?_, visitedDistinct⟩
          rcases ((members node).mp mem).root_or_unbarred with again | unbarred
          · exact (mem_enterable.mp again).2 (.inl rfl)
          · exact unbarred (.inl rfl)
        · intro target
          rw [reached_sweep_step isBarred, mem_cons, members]

end Sweep

end Lib.Worklist

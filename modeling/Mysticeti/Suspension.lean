import Mysticeti.BlockManager
import Mysticeti.CacheUpkeep
import Mysticeti.Lib.Log

/-!
# Suspended blocks

The block manager keeps two maps for one relation: which suspended block waits for which
ancestor. `Waiting` says that they agree, and that a suspended block waits for every
ancestor above the garbage-collection round that is not there. From it the release loop
cannot stop at its checks, its bound suffices, and what it returns is in causal order: a
block comes after the ancestors it waited for.
-/

namespace Mysticeti

open List Option Lib.Outcome Lib.OrderedMap Lib.Log DagState Std

/-- A suspended block is kept under its own reference, and each of its ancestors above the
garbage-collection round is noted as missing or is there. -/
structure SuspendedBlock.Waits (admitted : Set VerifiedBlock) (gcRound : Round)
    (has : BlockRef → Prop) (ref : BlockRef) (suspended : SuspendedBlock) : Prop where
  keyed : suspended.block.reference = ref
  inside : suspended.block ∈ admitted
  missing : ∀ anc ∈ suspended.missingAncestors, anc ∈ suspended.block.ancestors
  rest : ∀ anc ∈ suspended.block.ancestors, gcRound < anc.round →
    anc ∈ suspended.missingAncestors ∨ has anc

lemma SuspendedBlock.Waits.mono {admitted : Set VerifiedBlock} {gcRound : Round}
    {few many : BlockRef → Prop} {ref : BlockRef} {suspended : SuspendedBlock}
    (waits : suspended.Waits admitted gcRound few ref)
    (more : ∀ anc, gcRound < anc.round → few anc → many anc) :
    suspended.Waits admitted gcRound many ref :=
  ⟨waits.keyed, waits.inside, waits.missing, fun anc mem above =>
    (waits.rest anc mem above).imp_right (more anc above)⟩

namespace BlockManager

variable {ctx : Context} {admitted : Set VerifiedBlock}

/-- By its own record, a suspended block waits for an ancestor. -/
def Misses (mgr : BlockManager) (child anc : BlockRef) : Prop :=
  ∃ suspended, mgr.suspendedBlocks[child]? = some suspended ∧ anc ∈ suspended.missingAncestors

/-- By the index of missing ancestors, a block waits for an ancestor. -/
def Awaited (mgr : BlockManager) (anc child : BlockRef) : Prop :=
  ∃ kids, mgr.missingAncestors[anc]? = some kids ∧ child ∈ kids

/-- The two maps agree, up to the pairs that a running release took out of the index, and
every suspended block waits for what is not there. -/
structure Waiting (ctx : Context) (admitted : Set VerifiedBlock) (has : BlockRef → Prop)
    (unprocessed : BlockRef → BlockRef → Prop) (mgr : BlockManager) : Prop where
  agree : ∀ anc child, mgr.Awaited anc child ∨ unprocessed anc child ↔ mgr.Misses child anc
  waits : ∀ (ref : BlockRef) (suspended : SuspendedBlock),
    mgr.suspendedBlocks[ref]? = some suspended →
      suspended.Waits admitted (mgr.dagState.gcRound ctx) has ref

/-- Cached, or among the blocks about to be accepted. -/
def Present (st : DagState) (acc : List BlockRef) (ref : BlockRef) : Prop :=
  ref ∈ st.recentBlocks ∨ ref ∈ acc

/-- The ancestors of a block above the garbage-collection round are there once the root
and the earlier blocks are accepted. -/
def Follows (ctx : Context) (st : DagState) (root : BlockRef)
    (prev : List VerifiedBlock) (blk : VerifiedBlock) : Prop :=
  ∀ anc ∈ blk.ancestors, st.gcRound ctx < anc.round →
    Present st (root :: prev.map VerifiedBlock.reference) anc

section Release

/-- The state of a release started by the acceptance of a root. -/
structure Releasing (ctx : Context) (admitted : Set VerifiedBlock) (root : BlockRef)
    (start : BlockManager) (fuel : Nat) (unprocessed : BlockRef → BlockRef → Prop)
    (progress : Unsuspending) : Prop where
  sameState : progress.2.2.dagState = start.dagState
  waiting : progress.2.2.Waiting ctx admitted
    (Present start.dagState (root :: progress.2.1.map VerifiedBlock.reference)) unprocessed
  ordered : Grown (Follows ctx start.dagState root) progress.2.1
  inside : ∀ blk ∈ progress.2.1, blk ∈ admitted
  pending : ∀ ref ∈ progress.1, ref ∈ root :: progress.2.1.map VerifiedBlock.reference
  counted : progress.1.length + progress.2.2.suspendedBlocks.size ≤ fuel
  narrowed : ∀ key ∈ progress.2.2.missingAncestors,
    key ∈ start.missingAncestors ∧ (key = root → root ∈ progress.1)

variable {root acc child : BlockRef} {start : BlockManager} {fuel : Nat}
  {rest : List BlockRef} {progress : Unsuspending} {mgr : BlockManager}

lemma tryUnsuspendBlock_ok {suspended : SuspendedBlock}
    (got : mgr.suspendedBlocks[child]? = some suspended)
    (missed : acc ∈ suspended.missingAncestors) :
    tryUnsuspendBlock mgr child acc =
      if (suspended.missingAncestors.erase acc).isEmpty then
        .ok (some ⟨suspended.block, suspended.missingAncestors.erase acc⟩,
          { mgr with suspendedBlocks := mgr.suspendedBlocks.erase child })
      else .ok (none, { mgr with
        suspendedBlocks := mgr.suspendedBlocks.insert child
          ⟨suspended.block, suspended.missingAncestors.erase acc⟩ }) := by
  rw [tryUnsuspendBlock, got, expect_some, ok_bind, ensure_holds _ missed, ok_bind]
  by_cases empty : (suspended.missingAncestors.erase acc).isEmpty = true
  · simp [empty]
  · simp [empty]

lemma Waiting.agree_child {post : BlockManager} {has : BlockRef → Prop}
    (waiting : mgr.Waiting ctx admitted has
      (fun anc waiter => anc = acc ∧ waiter ∈ child :: rest))
    (nodup : (child :: rest).Nodup) (cleared : ∀ waiter, ¬ mgr.Awaited acc waiter)
    (sameIndex : post.missingAncestors = mgr.missingAncestors)
    (others : ∀ ref : BlockRef, ref ≠ child →
      post.suspendedBlocks[ref]? = mgr.suspendedBlocks[ref]?)
    (dropped : ∀ anc, post.Misses child anc ↔
      mgr.Misses child anc ∧ anc ≠ acc) (anc waiter : BlockRef) :
    post.Awaited anc waiter ∨ (anc = acc ∧ waiter ∈ rest) ↔ post.Misses waiter anc := by
  have unchanged : post.Awaited anc waiter ↔ mgr.Awaited anc waiter := by
    rw [Awaited, Awaited, sameIndex]
  rw [nodup_cons] at nodup
  rw [unchanged]
  by_cases same : waiter = child
  · subst same
    rw [dropped, ← waiting.agree]
    constructor
    · rintro (awaited | ⟨-, later⟩)
      · refine ⟨.inl awaited, ?_⟩
        rintro rfl
        exact cleared _ awaited
      · exact absurd later nodup.1
    · rintro ⟨awaited | ⟨rfl, -⟩, ne⟩
      · exact .inl awaited
      · exact absurd rfl ne
  · have misses : post.Misses waiter anc ↔ mgr.Misses waiter anc := by
      rw [Misses, Misses, others waiter same]
    rw [misses, ← waiting.agree, mem_cons]
    simp only [same, false_or]

lemma Present.mono {st : DagState} {few many : List BlockRef} {ref : BlockRef}
    (has : Present st few ref) (more : ∀ ref ∈ few, ref ∈ many) :
    Present st many ref :=
  has.imp_right (more ref)

lemma Releasing.unsuspend (releasing : Releasing ctx admitted root start fuel
      (fun anc waiter => anc = acc ∧ waiter ∈ child :: rest) progress)
    (nodup : (child :: rest).Nodup)
    (cleared : ∀ waiter, ¬ progress.2.2.Awaited acc waiter)
    (known : acc ∈ root :: progress.2.1.map VerifiedBlock.reference) :
    ∃ next, unsuspendChild acc progress child = .ok next ∧
      Releasing ctx admitted root start fuel
        (fun anc waiter => anc = acc ∧ waiter ∈ rest) next ∧
      next.2.2.missingAncestors = progress.2.2.missingAncestors ∧
      acc ∈ root :: next.2.1.map VerifiedBlock.reference := by
  obtain ⟨toProcess, freed, mgr⟩ := progress
  obtain ⟨sameState, waiting, ordered, inside, pending, counted, narrowed⟩ := releasing
  dsimp only at sameState waiting ordered inside pending counted narrowed cleared known
  obtain ⟨suspended, got, missed⟩ := (waiting.agree acc child).mp (.inr ⟨rfl, by simp⟩)
  have waits := waiting.waits child suspended got
  have cached : mgr.suspendedBlocks.contains child = true := by
    rw [← ExtTreeMap.mem_iff_contains, ← ExtTreeMap.isSome_getElem?_iff_mem, got]
    rfl
  have pos : 0 < mgr.suspendedBlocks.size := by
    rw [← ExtTreeMap.length_keys]
    apply length_pos_of_mem
    exact ExtTreeMap.mem_keys.mpr (ExtTreeMap.mem_iff_contains.mpr cached)
  rw [unsuspendChild, tryUnsuspendBlock_ok got missed]
  by_cases empty : (suspended.missingAncestors.erase acc).isEmpty = true
  · -- The child waited for nothing else: it is released.
    rw [if_pos empty, ok_bind]
    have nothing : ∀ anc, anc ∈ suspended.missingAncestors → anc = acc := by
      intro anc mem
      by_contra ne
      have left := mem_erase_iff.mpr ⟨ne, mem⟩
      rw [ExtTreeSet.isEmpty_iff.mp empty] at left
      exact absurd left ExtTreeSet.not_mem_empty
    have grown : ∀ ref ∈ root :: freed.map VerifiedBlock.reference,
        ref ∈ root :: (freed ++ [suspended.block]).map VerifiedBlock.reference := by
      intro ref mem
      rw [map_append, ← cons_append]
      exact mem_append_left _ mem
    refine ⟨_, rfl, ⟨sameState, ⟨?_, ?_⟩, ?_, ?_, ?_, ?_, ?_⟩, rfl, grown _ known⟩
    · apply waiting.agree_child nodup cleared ?_ ?_ ?_
      · rfl
      · exact fun ref ne => getElem?_erase_of_ne ne
      intro anc
      constructor
      · rintro ⟨info, released, -⟩
        simp at released
      · rintro ⟨⟨info, same, mem⟩, ne⟩
        rw [got, some.injEq] at same
        exact absurd (nothing anc (same ▸ mem)) ne
    · intro ref info suspends
      have ne : ref ≠ child := by
        rintro rfl
        simp at suspends
      dsimp only at suspends ⊢
      rw [getElem?_erase_of_ne ne] at suspends
      exact (waiting.waits ref info suspends).mono fun anc _ there => there.mono grown
    · apply ordered.extend
      intro anc mem above
      rw [← sameState] at above ⊢
      rcases waits.rest anc mem above with missed | there
      · rw [nothing anc missed]
        exact .inr known
      · rw [sameState]
        exact there
    · intro blk mem
      rcases mem_append.mp mem with prev | last
      · exact inside blk prev
      · rw [mem_singleton.mp last]
        exact waits.inside
    · intro ref mem
      rcases mem_cons.mp mem with rfl | prev
      · simp
      · exact grown ref (pending ref prev)
    · dsimp only
      rw [ExtTreeMap.size_erase, if_pos cached, length_cons]
      lia
    · intro key mem
      obtain ⟨pre, isRoot⟩ := narrowed key mem
      exact ⟨pre, fun same => mem_cons_of_mem _ (isRoot same)⟩
  · rw [if_neg empty, ok_bind]
    have has : (mgr.suspendedBlocks.insert child ⟨suspended.block,
        suspended.missingAncestors.erase acc⟩)[child]? =
          some ⟨suspended.block, suspended.missingAncestors.erase acc⟩ := by
      simp
    refine ⟨_, rfl, ⟨sameState, ⟨?_, ?_⟩, ordered, inside, pending, ?_, narrowed⟩, rfl, known⟩
    · apply waiting.agree_child nodup cleared ?_ ?_ ?_
      · rfl
      · exact fun ref ne => getElem?_insert_of_ne ne
      intro anc
      constructor
      · rintro ⟨info, suspends, mem⟩
        dsimp only at suspends
        rw [has, some.injEq] at suspends
        rw [← suspends, mem_erase_iff] at mem
        exact ⟨⟨suspended, got, mem.2⟩, mem.1⟩
      · rintro ⟨⟨info, same, mem⟩, ne⟩
        rw [got, some.injEq] at same
        exact ⟨_, has, mem_erase_iff.mpr ⟨ne, same ▸ mem⟩⟩
    · intro ref info suspends
      dsimp only at suspends ⊢
      rcases getElem?_insert_cases suspends with ⟨rfl, rfl⟩ | ⟨-, suspends⟩
      · refine ⟨waits.keyed, waits.inside, ?_, ?_⟩
        · exact fun anc mem => waits.missing anc (mem_erase_iff.mp mem).2
        · intro anc mem above
          rcases waits.rest anc mem above with missing | there
          · by_cases isAccepted : anc = acc
            · rw [isAccepted]
              exact .inr (.inr known)
            · exact .inl (mem_erase_iff.mpr ⟨isAccepted, missing⟩)
          · exact .inr there
      · exact waiting.waits ref info suspends
    · dsimp only
      rw [ExtTreeMap.size_insert, if_pos cached]
      exact counted

lemma Releasing.children {waiters : List BlockRef}
    (releasing : Releasing ctx admitted root start fuel
      (fun anc waiter => anc = acc ∧ waiter ∈ waiters) progress)
    (nodup : waiters.Nodup) (cleared : ∀ waiter, ¬ progress.2.2.Awaited acc waiter)
    (known : acc ∈ root :: progress.2.1.map VerifiedBlock.reference) :
    ∃ next, waiters.foldlM (unsuspendChild acc) progress = .ok next ∧
      Releasing ctx admitted root start fuel (fun _ _ => False) next := by
  induction waiters generalizing progress with
  | nil => exact ⟨progress, rfl, by simpa using releasing⟩
  | cons waiter rest ih =>
    obtain ⟨next, taken, kept, sameIndex, stillKnown⟩ :=
      releasing.unsuspend nodup cleared known
    obtain ⟨final, run, done⟩ := ih kept (nodup_cons.mp nodup).2
      (by simpa only [Awaited, sameIndex] using cleared) stillKnown
    exact ⟨final, (foldlM_step taken).trans run, done⟩

lemma Releasing.more {unprocessed : BlockRef → BlockRef → Prop}
    (releasing : Releasing ctx admitted root start fuel unprocessed progress) :
    Releasing ctx admitted root start (fuel + 1) unprocessed progress :=
  { releasing with counted := Nat.le_succ_of_le releasing.counted }

lemma Releasing.skip {toProcess : List BlockRef} {freed : List VerifiedBlock}
    (releasing : Releasing ctx admitted root start (fuel + 1)
      (fun _ _ => False) (acc :: toProcess, freed, mgr))
    (childless : mgr.missingAncestors[acc]? = none) :
    Releasing ctx admitted root start fuel (fun _ _ => False)
      (toProcess, freed, mgr) :=
  { releasing with
    pending := fun ref mem => releasing.pending ref (mem_cons_of_mem _ mem)
    counted := by
      have counted := releasing.counted
      simp only [length_cons] at counted
      lia
    narrowed := by
      intro key mem
      obtain ⟨pre, isRoot⟩ := releasing.narrowed key mem
      refine ⟨pre, fun same => ?_⟩
      rcases mem_cons.mp (isRoot same) with rfl | later
      · subst same
        rw [← ExtTreeMap.isSome_getElem?_iff_mem, childless] at mem
        exact absurd mem (by simp)
      · exact later }

lemma Releasing.pop {toProcess : List BlockRef} {freed : List VerifiedBlock}
    {waiters : ExtTreeSet BlockRef}
    (releasing : Releasing ctx admitted root start (fuel + 1)
      (fun _ _ => False) (acc :: toProcess, freed, mgr))
    (got : mgr.missingAncestors[acc]? = some waiters) :
    Releasing ctx admitted root start fuel
      (fun anc waiter => anc = acc ∧ waiter ∈ waiters.toList)
      (toProcess, freed,
        { mgr with missingAncestors := mgr.missingAncestors.erase acc }) :=
  { releasing with
    waiting := by
      refine ⟨fun anc waiter => ?_, releasing.waiting.waits⟩
      have agree := releasing.waiting.agree anc waiter
      simp only [or_false] at agree
      rw [Misses] at agree ⊢
      rw [← agree, ExtTreeSet.mem_toList]
      by_cases same : anc = acc
      · subst same
        simp [Awaited, got]
      · simp only [Awaited, getElem?_erase_of_ne same, same, false_and, or_false]
    pending := fun ref mem => releasing.pending ref (mem_cons_of_mem _ mem)
    counted := by
      have counted := releasing.counted
      simp only [length_cons] at counted
      lia
    narrowed := by
      intro key mem
      rw [mem_eraseKey_iff] at mem
      obtain ⟨pre, isRoot⟩ := releasing.narrowed key mem.2
      refine ⟨pre, fun same => ?_⟩
      rcases mem_cons.mp (isRoot same) with rfl | later
      · exact absurd same mem.1
      · exact later }

lemma unsuspendChildren_ok (releasing : Releasing ctx admitted root start fuel
      (fun _ _ => False) progress) :
    ∃ freed mgr, unsuspendChildren fuel progress = .ok (freed, mgr) ∧
      Releasing ctx admitted root start fuel (fun _ _ => False)
        ([], freed, mgr) := by
  induction fuel generalizing progress with
  | zero =>
    obtain ⟨toProcess, freed, mgr⟩ := progress
    cases toProcess with
    | nil => exact ⟨freed, mgr, by rw [unsuspendChildren], releasing⟩
    | cons ref toProcess =>
      have counted := releasing.counted
      simp at counted
  | succ fuel ih =>
    obtain ⟨toProcess, freed, mgr⟩ := progress
    cases toProcess with
    | nil => exact ⟨freed, mgr, by rw [unsuspendChildren], releasing⟩
    | cons ref toProcess =>
      rw [unsuspendChildren]
      cases got : mgr.missingAncestors[ref]? with
      | none =>
        obtain ⟨freed, mgr, run, done⟩ := ih (releasing.skip got)
        exact ⟨freed, mgr, run, done.more⟩
      | some waiters =>
        have known := releasing.pending ref (by simp)
        have nodup : waiters.toList.Nodup := nodup_of_increasing ExtTreeSet.ordered_toList
        obtain ⟨next, taken, kept⟩ := (releasing.pop got).children nodup
          (by simp [Awaited]) known
        obtain ⟨freed, mgr, run, done⟩ := ih kept
        refine ⟨freed, mgr, ?_, done.more⟩
        dsimp only
        rw [taken, ok_bind, run]

lemma tryUnsuspendChildrenBlocks_ok (waiting : start.Waiting ctx admitted
      (Present start.dagState [root]) (fun _ _ => False)) :
    ∃ freed mgr, tryUnsuspendChildrenBlocks start root = .ok (freed, mgr) ∧
      Releasing ctx admitted root start (start.suspendedBlocks.size + 1) (fun _ _ => False)
        ([], freed, mgr) := by
  apply unsuspendChildren_ok
  constructor
  · rfl
  · exact waiting
  · exact .start
  · simp
  · simp
  · simp [Nat.add_comm]
  · exact fun key mem => ⟨mem, fun _ => by simp⟩

end Release

end BlockManager

end Mysticeti

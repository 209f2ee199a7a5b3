import Mysticeti.BlockBookkeeping
import Mysticeti.Lib.Machine

/-!
# Runs of the block manager

The operations of the manager in any order, between them whatever the rest of the core does
to the DAG state. Each keeps the books. Looking for a block and giving up on garbage are
treated here; for the latter the point is that the least missing ancestor cannot be
suspended, since it would wait for a lesser one.
-/

namespace Mysticeti

open List Lib.Outcome Lib.OrderedMap Std

namespace BlockManager

open DagState

variable {ctx : Context} {admitted : Set VerifiedBlock} {err : Panic → Prop}
  {mgr : BlockManager} {ref : BlockRef}

section Operations

variable {blocks : List VerifiedBlock}

lemma Booked.tryAcceptBlocks (valid : ∀ blk ∈ admitted, ValidBlock ctx blk.block.inner)
    (refuses : Refuses ctx admitted err) (booked : mgr.Booked ctx admitted)
    (inside : ∀ blk ∈ blocks, blk ∈ admitted) :
    Meets err (fun next : Accepting => next.2.2.Booked ctx admitted)
      (tryAcceptBlocks ctx mgr blocks) := by
  refine @Meets.foldlM _ _ _ _ _ _ (fun next : Accepting => next.2.2.Booked ctx admitted)
    _ booked ?_
  rintro ⟨acc, missing, mid⟩ blk mem booked
  exact booked.acceptReceived valid refuses
    (inside blk ((perm_insertionSort _ blocks).mem_iff.mp mem))

lemma Booked.tryAcceptCommittedBlocks (refuses : Refuses ctx admitted err)
    (booked : mgr.Booked ctx admitted) (inside : ∀ blk ∈ blocks, blk ∈ admitted) :
    Meets err
      (fun res : List VerifiedBlock × BlockManager => res.2.Booked ctx admitted)
      (tryAcceptCommittedBlocks ctx mgr blocks) := by
  have folded : Meets err
      (fun next : Accepting => next.2.1 = ∅ ∧ next.2.2.Booked ctx admitted)
      (tryAcceptBlocksInternal ctx mgr blocks true) := by
    refine @Meets.foldlM _ _ _ _ _ _
      (fun next : Accepting => next.2.1 = ∅ ∧ next.2.2.Booked ctx admitted)
      _ ⟨rfl, booked⟩ ?_
    rintro ⟨acc, missing, mid⟩ blk mem ⟨rfl, booked⟩
    exact booked.acceptCommitted refuses
      (inside blk ((perm_insertionSort _ blocks).mem_iff.mp mem))
  rw [BlockManager.tryAcceptCommittedBlocks]
  apply folded.bind
  rintro ⟨acc, missing, final⟩ - ⟨rfl, booked⟩
  exact booked

lemma Booked.noteSought (booked : mgr.Booked ctx admitted)
    (above : mgr.dagState.gcRound ctx < ref.round)
    {missing : ExtTreeSet BlockRef} :
    (noteSought ctx (missing, mgr) ref).2.Booked ctx admitted ∧
      (noteSought ctx (missing, mgr) ref).2.dagState = mgr.dagState := by
  rw [BlockManager.noteSought]
  split
  · exact ⟨booked, rfl⟩
  rename_i unknown
  rw [Bool.not_eq_true, Bool.or_eq_false_iff] at unknown
  split
  · exact ⟨booked, rfl⟩
  have free : ref ∉ mgr.suspendedBlocks := by
    rw [ExtTreeMap.mem_iff_contains, unknown.2]
    simp
  refine ⟨⟨⟨booked.managed.kept, ?_, booked.managed.waiting.waits⟩, ?_, booked.lacking, ?_⟩, rfl⟩
  · intro anc child
    refine Iff.trans ?_ (booked.managed.waiting.agree anc child)
    by_cases same : anc = ref
    · subst same
      simp only [Awaited, ExtTreeMap.getElem?_insert_self, Option.some.injEq,
        exists_eq_left', or_false]
      cases mgr.missingAncestors[anc]? with
      | none => simp
      | some kids => simp
    · simp only [Awaited, getElem?_insert_of_ne same, or_false]
  · intro other
    dsimp only
    rw [Lib.OrderedMap.mem_insert_iff, mem_insertKey_iff, booked.fetching]
    constructor
    · rintro (rfl | ⟨awaited, freed⟩)
      · exact ⟨.inl rfl, free⟩
      · exact ⟨.inr awaited, freed⟩
    · rintro ⟨rfl | awaited, freed⟩
      · exact .inl rfl
      · exact .inr ⟨awaited, freed⟩
  · intro other lacked
    dsimp only at lacked ⊢
    rw [mem_insertKey_iff] at lacked
    rcases lacked with suspended | rfl | awaited
    · exact booked.unheld other (.inl suspended)
    · intro acc
      rw [booked.managed.kept.contains_of_hasAccepted above acc] at unknown
      exact Bool.noConfusion unknown.1
    · exact booked.unheld other (.inr awaited)

lemma Booked.tryFindBlocks (booked : mgr.Booked ctx admitted)
    (refs : List BlockRef) :
    (tryFindBlocks ctx mgr refs).2.Booked ctx admitted := by
  rw [BlockManager.tryFindBlocks]
  -- The state does not change on the way, so each reference stays above its round.
  refine (foldlRecOn (motive := fun sought : ExtTreeSet BlockRef × BlockManager =>
    sought.2.Booked ctx admitted ∧ sought.2.dagState = mgr.dagState) _ _ ?_ ?_).1
  · exact ⟨booked, rfl⟩
  rintro ⟨missing, mid⟩ ⟨booked, same⟩ ref mem
  have above : mid.dagState.gcRound ctx < ref.round := by
    rw [show mid.dagState = mgr.dagState from same]
    simpa using (mem_filter.mp ((perm_insertionSort _ _).mem_iff.mp mem)).2
  obtain ⟨next, sameNext⟩ := @Booked.noteSought _ _ _ _ booked above missing
  exact ⟨next, sameNext.trans same⟩

lemma Booked.first_unsuspended
    (valid : ∀ blk ∈ admitted, ValidBlock ctx blk.block.inner)
    (booked : mgr.Booked ctx admitted)
    (first : firstKey mgr.missingAncestors = some ref) :
    ref ∉ mgr.suspendedBlocks := by
  intro held
  obtain ⟨suspended, got⟩ := getElem?_of_mem held
  obtain ⟨anc, missed⟩ := booked.lacking ref suspended got
  have waits := booked.managed.waiting.waits ref suspended got
  have awaited : mgr.Awaited anc ref := by
    have agree := booked.managed.waiting.agree anc ref
    rw [or_false] at agree
    exact agree.mpr ⟨suspended, got, missed⟩
  obtain ⟨kids, here, -⟩ := awaited
  have least := (firstKey_eq_some_iff.mp first).2 anc (mem_of_getElem? here)
  have lower := (valid _ waits.inside).ancestorRound anc (waits.missing anc missed)
  have upper : suspended.block.round ≤ anc.round := by
    rw [← VerifiedBlock.reference_round, waits.keyed]
    exact BlockRef.round_le_of_isLE least
  exact absurd lower (Nat.not_lt_of_le upper)

lemma Booked.collectMissing (valid : ∀ blk ∈ admitted, ValidBlock ctx blk.block.inner)
    (refuses : Refuses ctx admitted err) {fuel : Nat} {gcRound : Round}
    (booked : mgr.Booked ctx admitted)
    (latest : mgr.dagState.gcRound ctx = gcRound)
    (enough : mgr.missingAncestors.size ≤ fuel) :
    Meets err (fun final => final.Booked ctx admitted)
      (collectMissing ctx gcRound fuel mgr) := by
  induction fuel generalizing mgr with
  | zero =>
    rw [collectMissing.eq_def]
    have empty : mgr.missingAncestors = ∅ :=
      ExtTreeMap.eq_empty_iff_size_eq_zero.mpr (Nat.le_zero.mp enough)
    have none : firstKey mgr.missingAncestors = none := by
      rw [empty]
      rfl
    simp only [none]
    exact booked
  | succ fuel ih =>
    rw [collectMissing.eq_def]
    cases first : firstKey mgr.missingAncestors with
    | none =>
      simp only [first]
      exact booked
    | some ref =>
      simp only [first]
      split
      · exact booked
      rename_i old
      have free := booked.first_unsuspended valid first
      have has := (firstKey_eq_some_iff.mp first).1
      have freed : (!mgr.suspendedBlocks.contains ref) = true := by
        rw [ExtTreeMap.mem_iff_contains] at free
        rw [Bool.not_eq_true', ← Bool.not_eq_true]
        exact free
      have rooted : Rooted ctx admitted ref
          { mgr with missingBlocks := mgr.missingBlocks.erase ref } := by
        refine ⟨booked.managed.congr rfl rfl fun _ _ => Iff.rfl, fun other => ?_,
          booked.lacking, fun other _ => booked.unheld other, free⟩
        dsimp only
        rw [mem_erase_iff, booked.fetching]
        tauto
      rw [ensure_holds _ freed, ok_bind]
      apply (rooted.release refuses (by simp) (by simp) ?_).bind
      · rintro ⟨kids, mid⟩ - ⟨closed, sameGc, narrowed⟩
        have smaller := size_lt_of_keys has narrowed
        exact ih closed (sameGc.trans latest) (by lia)
      · exact fun above => absurd (latest ▸ above) old

lemma Booked.update {next : DagState} (booked : mgr.Booked ctx admitted)
    (same : SameBlocks ctx mgr.dagState next) :
    ({ mgr with dagState := next } : BlockManager).Booked ctx admitted where
  managed := by
    refine ⟨booked.managed.kept.of_flags same.refs same.blocks same.buffer same.store same.raised,
      booked.managed.waiting.agree, fun ref suspended got => ?_⟩
    have waits := booked.managed.waiting.waits ref suspended got
    refine ⟨waits.keyed, waits.inside, waits.missing, fun anc mem above => ?_⟩
    exact (waits.rest anc mem (Nat.lt_of_le_of_lt same.raised above)).imp_right
      same.mem_iff.mpr
  fetching := booked.fetching
  lacking := booked.lacking
  unheld ref lacked acc := booked.unheld ref lacked (same.hasAccepted_iff.mp acc)

lemma Booked.flush (booked : mgr.Booked ctx admitted) :
    ({ mgr with dagState := mgr.dagState.flush ctx } : BlockManager).Booked
      ctx admitted where
  managed := by
    have flushed := @flush_flushed ctx mgr.dagState booked.managed.kept.indexed
    refine ⟨booked.managed.kept.flush, booked.managed.waiting.agree, fun ref suspended got => ?_⟩
    dsimp only
    rw [flushed.gcRound_eq]
    refine (booked.managed.waiting.waits ref suspended got).mono ?_
    exact fun anc above => (flushed.mem_iff above).mpr
  fetching := booked.fetching
  lacking := booked.lacking
  unheld ref lacked acc :=
    booked.unheld ref lacked (hasAccepted_flush booked.managed.kept.indexed acc)

end Operations

inductive ManagerAction where
  | tryAcceptBlocks (blocks : List VerifiedBlock)
  | tryAcceptCommittedBlocks (blocks : List VerifiedBlock)
  | tryFindBlocks (refs : List BlockRef)
  | tryUnsuspendBlocksForLatestGcRound
  | updateDagState (next : DagState)
  | flush

section Machine

open Lib.Machine

def perform (ctx : Context) (mgr : BlockManager) : ManagerAction → Except Panic BlockManager
  | .tryAcceptBlocks blocks => do
    let res ← mgr.tryAcceptBlocks ctx blocks
    pure res.2.2
  | .tryAcceptCommittedBlocks blocks => do
    let res ← mgr.tryAcceptCommittedBlocks ctx blocks
    pure res.2
  | .tryFindBlocks refs => pure (mgr.tryFindBlocks ctx refs).2
  | .tryUnsuspendBlocksForLatestGcRound => mgr.tryUnsuspendBlocksForLatestGcRound ctx
  | .updateDagState next => pure { mgr with dagState := next }
  | .flush => pure { mgr with dagState := mgr.dagState.flush ctx }

def step (ctx : Context) (mgr : BlockManager) (act : ManagerAction) : Option BlockManager :=
  (mgr.perform ctx act).toOption

/-- The manager is given admitted blocks. The other parts of the core set flags, add commits
and flush; blocks are accepted through the manager only. -/
def Admissible (ctx : Context) (admitted : Set VerifiedBlock) (mgr : BlockManager) :
    ManagerAction → Prop
  | .tryAcceptBlocks blocks => ∀ blk ∈ blocks, blk ∈ admitted
  | .tryAcceptCommittedBlocks blocks => ∀ blk ∈ blocks, blk ∈ admitted
  | .updateDagState next => SameBlocks ctx mgr.dagState next
  | _ => True

/-- What the books say to a reader. -/
structure Bookkeeping (ctx : Context) (mgr : BlockManager) : Prop where
  fetching : ∀ ref : BlockRef, ref ∈ mgr.missingBlocks ↔
    ref ∈ mgr.missingAncestors ∧ ref ∉ mgr.suspendedBlocks
  agree : ∀ child anc, mgr.Misses child anc ↔ mgr.Awaited anc child
  unaccepted : ∀ ref : BlockRef,
    ref ∈ mgr.suspendedBlocks ∨ ref ∈ mgr.missingBlocks →
      ¬ mgr.dagState.HasAccepted ctx ref ∧ mgr.dagState.containsBlock ctx ref = false
  lacking : ∀ (ref : BlockRef) (suspended : SuspendedBlock),
    mgr.suspendedBlocks[ref]? = some suspended → ∃ anc, anc ∈ suspended.missingAncestors

lemma Booked.bookkeeping (booked : mgr.Booked ctx admitted) : mgr.Bookkeeping ctx where
  fetching := booked.fetching
  agree child anc := by
    have agree := booked.managed.waiting.agree anc child
    rw [or_false] at agree
    exact agree.symm
  unaccepted ref lacked := by
    have unheld := booked.unheld ref
      (lacked.imp_right fun fetched => ((booked.fetching ref).mp fetched).1)
    refine ⟨unheld, ?_⟩
    by_contra known
    rw [Bool.not_eq_false] at known
    exact unheld (booked.managed.kept.hasAccepted_of_contains known)
  lacking := booked.lacking

lemma booked_new {st : DagState} (kept : Kept ctx admitted st) :
    (new st).Booked ctx admitted where
  managed := ⟨kept, by simp [new, Awaited, Misses], by simp [new]⟩
  fetching := by simp [new]
  lacking := by simp [new]
  unheld := by simp [new]

lemma Booked.perform (valid : ∀ blk ∈ admitted, ValidBlock ctx blk.block.inner)
    (refuses : Refuses ctx admitted err) (booked : mgr.Booked ctx admitted)
    {act : ManagerAction} (admissible : Admissible ctx admitted mgr act) :
    Meets err (fun next => next.Booked ctx admitted)
      (mgr.perform ctx act) := by
  cases act with
  | tryAcceptBlocks blocks =>
    exact (booked.tryAcceptBlocks valid refuses admissible).bind fun _ _ closed => closed
  | tryAcceptCommittedBlocks blocks =>
    exact (booked.tryAcceptCommittedBlocks refuses admissible).bind fun _ _ closed => closed
  | tryFindBlocks refs => exact booked.tryFindBlocks refs
  | tryUnsuspendBlocksForLatestGcRound =>
    exact booked.collectMissing valid refuses rfl (Nat.le_refl _)
  | updateDagState next => exact booked.update admissible
  | flush => exact booked.flush

lemma booked_of_run (valid : ∀ blk ∈ admitted, ValidBlock ctx blk.block.inner)
    {st : DagState} (kept : Kept ctx admitted st) {sched : List ManagerAction}
    (heeds : Heeds (step ctx) (Admissible ctx admitted) (new st) sched)
    (ran : run (step ctx) (new st) sched = some mgr) :
    mgr.Booked ctx admitted := by
  refine invariant ?_ (booked_new kept) heeds ran
  intro mgr act next booked admissible taken
  rw [step, toOption_eq_some] at taken
  exact (booked.perform valid (refuses_ownSlotTaken valid) admissible).of_ok taken

/-- Whatever the order of the operations, what is fetched is what is waited for and not
suspended, the two records of who waits for what agree, nothing suspended or fetched was
accepted, every suspended block waits for something, and no check of the manager fails: an
operation that stops was stopped by the DAG state, at a second block in an own slot. -/
theorem books_hold_throughout (valid : ∀ blk ∈ admitted, ValidBlock ctx blk.block.inner)
    (st : DagState) (kept : Kept ctx admitted st) (sched : List ManagerAction)
    (heeds : Heeds (step ctx) (Admissible ctx admitted) (new st) sched)
    (ran : run (step ctx) (new st) sched = some mgr) :
    mgr.Bookkeeping ctx ∧
      ∀ act, Admissible ctx admitted mgr act →
        ∀ panic, mgr.perform ctx act = .error panic → OwnSlotTaken panic := by
  have booked := booked_of_run valid kept heeds ran
  refine ⟨booked.bookkeeping, fun act admissible panic stopped => ?_⟩
  exact (booked.perform valid (refuses_ownSlotTaken valid) admissible).of_error stopped

/-- Blocks arrive before their ancestors, some of them in a certified commit; a block that
is only heard of is fetched. -/
def outOfOrder : List ManagerAction :=
  [.tryAcceptBlocks [testBlock 3 0 [0, 1, 2], testBlock 2 0 [0, 1, 2]],
    .tryFindBlocks [testRef 2 3], .tryAcceptCommittedBlocks [testBlock 1 1 [1, 0, 2]],
    .tryUnsuspendBlocksForLatestGcRound,
    .tryAcceptBlocks [testBlock 1 2 [2, 0, 1], testBlock 1 0 [0, 1, 2]], .flush]

theorem books_hold_throughout_outOfOrder : ∃ mgr,
    run (step (Context.newForTest 3)) (new .initial) outOfOrder = some mgr ∧
      mgr.missingBlocks.toList = [testRef 2 1, testRef 2 2, testRef 2 3] ∧
      mgr.suspendedBlocks.keys = [testRef 3 0] ∧
      mgr.Bookkeeping (Context.newForTest 3) ∧
      ∀ act, Admissible (Context.newForTest 3) {blk | blk ∈ threeRounds} mgr
        act → ∀ panic, mgr.perform (Context.newForTest 3) act = .error panic →
          OwnSlotTaken panic := by
  have verified : ∀ blk ∈ threeRounds,
      verifyBlock (Context.newForTest 3) blk.block = .ok () := by decide +kernel
  obtain ⟨mgr, ran, fetching, suspended⟩ := @exists_reached _ _
    (step (Context.newForTest 3)) (new .initial) outOfOrder (fun mgr =>
      mgr.missingBlocks.toList = [testRef 2 1, testRef 2 2, testRef 2 3] ∧
        mgr.suspendedBlocks.keys = [testRef 3 0]) _ (by decide +kernel)
  refine ⟨mgr, ran, fetching, suspended, books_hold_throughout
    (fun blk mem => validBlock_of_verifyBlock (verified blk mem)) _
    (initial_kept _ _) outOfOrder ?_ ran⟩
  have recv : ∀ blk ∈ [testBlock 3 0 [0, 1, 2], testBlock 2 0 [0, 1, 2],
      testBlock 1 1 [1, 0, 2], testBlock 1 2 [2, 0, 1], testBlock 1 0 [0, 1, 2]],
      blk ∈ threeRounds := by decide +kernel
  simp only [mem_cons, not_mem_nil, or_false, forall_eq_or_imp, forall_eq] at recv
  obtain ⟨third, second, committed, first, own⟩ := recv
  simp only [outOfOrder, Heeds, Admissible]
  simp [third, second, committed, first, own]

end Machine

end BlockManager

end Mysticeti

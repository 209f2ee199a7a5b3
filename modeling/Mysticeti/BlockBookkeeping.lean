import Mysticeti.BlockAcceptance

/-!
# The books of the block manager

Three collections describe what the manager lacks: the suspended blocks, the index of the
ancestors they wait for, and the references to fetch. `Booked` says how they hang together:
what is fetched is what is waited for and not suspended, a suspended block waits for
something, and nothing suspended or waited for was accepted.

While blocks are released the books are open: the references still to be processed are
waited for no more but not yet out of the index. `Clearing` is what the release loop keeps.
The checks of the manager follow, and only a second block in an own slot, which the DAG
state refuses, stops it.
-/

namespace Mysticeti

open List Lib.Outcome Lib.OrderedMap Lib.Log Std

namespace DagState

variable {ctx : Context} {admitted : Set VerifiedBlock} {st post : DagState}
  {ref : BlockRef}

/-- The block was accepted: it is cached, buffered, stored, or a genesis block. Unlike
`containsBlock` this does not depend on what was evicted. -/
def HasAccepted (ctx : Context) (st : DagState) (ref : BlockRef) : Prop :=
  ref ∈ st.recentBlocks ∨ (∃ blk ∈ st.blocksToWrite, blk.reference = ref) ∨
    ref ∈ st.store.blocks ∨ (genesisGet ctx ref).isSome

lemma Kept.hasAccepted_of_contains (kept : Kept ctx admitted st)
    (known : st.containsBlock ctx ref = true) :
    st.HasAccepted ctx ref := by
  rw [containsBlock] at known
  split at known
  · rename_i here
    rw [Bool.or_eq_true] at here
    rcases here with indexed | genesis
    · rw [← ExtTreeSet.mem_iff_contains, kept.indexed] at indexed
      exact .inl indexed.1
    · exact .inr (.inr (.inr genesis))
  · split at known
    · simp at known
    · split at known
      · simp at known
      · rw [Store.containsBlock, ← ExtTreeMap.mem_iff_contains] at known
        exact .inr (.inr (.inl known))

lemma Kept.contains_of_hasAccepted (kept : Kept ctx admitted st)
    (above : st.gcRound ctx < ref.round)
    (holds : st.HasAccepted ctx ref) :
    st.containsBlock ctx ref = true := by
  apply kept.indexed.containsBlock
  rcases holds with cached | ⟨blk, buffered, rfl⟩ | stored | genesis
  · exact cached
  · exact (kept.buffered blk buffered).2 above
  · obtain ⟨blk, got⟩ := getElem?_of_mem stored
    exact (kept.stored ref blk got).2.2 above
  · have round := round_of_genesisGet genesis
    lia

lemma hasAccepted_acceptBlock {blk : VerifiedBlock}
    (run : st.acceptBlock ctx blk = .ok post)
    (holds : post.HasAccepted ctx ref) :
    st.HasAccepted ctx ref ∨ blk.reference = ref := by
  obtain ⟨-, ⟨-, rfl⟩ | ⟨-, -, -, rfl⟩⟩ := acceptBlock_cases run
  · exact .inl holds
  · rcases holds with cached | ⟨other, buffered, rfl⟩ | stored | genesis
    · rcases mem_accepted.mp cached with same | pre
      · exact .inr same.symm
      · exact .inl (.inl pre)
    · have written : other ∈ st.blocksToWrite ∨ other = blk := by simpa [accepted] using buffered
      rcases written with pre | rfl
      · exact .inl (.inr (.inl ⟨other, pre, rfl⟩))
      · exact .inr rfl
    · exact .inl (.inr (.inr (.inl stored)))
    · exact .inl (.inr (.inr (.inr genesis)))

lemma hasAccepted_acceptBlocks {blocks : List VerifiedBlock}
    (run : st.acceptBlocks ctx blocks = .ok post)
    (holds : post.HasAccepted ctx ref) :
    st.HasAccepted ctx ref ∨ ∃ blk ∈ blocks, blk.reference = ref := by
  induction blocks generalizing st with
  | nil =>
    have same : st = post := Except.ok.inj run
    exact .inl (same ▸ holds)
  | cons blk rest ih =>
    rw [acceptBlocks, foldlM_cons, bind_eq_ok] at run
    obtain ⟨next, stepped, run⟩ := run
    rcases ih run with early | ⟨other, mem, same⟩
    · rcases hasAccepted_acceptBlock stepped early with pre | same
      · exact .inl pre
      · exact .inr ⟨blk, by simp, same⟩
    · exact .inr ⟨other, by simp [mem], same⟩

/-- The refusal of a second block in an own slot. -/
def OwnSlotTaken (panic : Panic) : Prop := ∃ ref, panic = .ownSlotOccupied ref

/-- The refusals of the DAG state when it is given admitted blocks. -/
def Refuses (ctx : Context) (admitted : Set VerifiedBlock) (err : Panic → Prop) : Prop :=
  ∀ (st : DagState) (blocks : List VerifiedBlock), Kept ctx admitted st →
    (∀ blk ∈ blocks, blk ∈ admitted) → Meets err (fun _ => True) (st.acceptBlocks ctx blocks)

lemma acceptBlock_meets {err : Panic → Prop} {blk : VerifiedBlock}
    (valid : ValidBlock ctx blk.block.inner)
    (own : st.containsBlock ctx blk.reference = false → blk.author = ctx.ownIndex →
      st.getUncommittedBlocksAtSlot blk.slot ≠ [] → err (.ownSlotOccupied blk.reference)) :
    Meets err (fun _ => True) (st.acceptBlock ctx blk) := by
  have pos : blk.round ≠ 0 := Nat.ne_of_gt valid.round_pos
  have author : blk.reference.author < ctx.committee.size := valid.author
  rw [acceptBlock, ensure_holds _ pos, ok_bind]
  split
  · trivial
  · rename_i unknown
    rw [Bool.not_eq_true] at unknown
    apply @Meets.bind _ _ _ _ _ _ (fun _ => True)
    · unfold ensure
      split
      · trivial
      · rename_i taken
        rw [Classical.not_imp] at taken
        exact own unknown taken.1 taken.2
    · intro _ _ _
      rw [updateBlockMetadata, ensure_holds _ author, ok_bind]
      trivial

lemma refuses_ownSlotTaken (valid : ∀ blk ∈ admitted, ValidBlock ctx blk.block.inner) :
    Refuses ctx admitted OwnSlotTaken := by
  intro st blocks _ inside
  apply Meets.foldlM trivial
  intro st blk mem _
  exact acceptBlock_meets (valid blk (inside blk mem)) fun _ _ _ => ⟨_, rfl⟩

/-- Only flags and commits change, and the garbage-collection round does not fall. -/
structure SameBlocks (ctx : Context) (pre post : DagState) : Prop where
  refs : post.recentRefsByAuthority = pre.recentRefsByAuthority
  blocks : ∀ ref : BlockRef, (post.recentBlocks[ref]?).map BlockInfo.block =
    (pre.recentBlocks[ref]?).map BlockInfo.block
  buffer : post.blocksToWrite = pre.blocksToWrite
  store : post.store = pre.store
  raised : pre.gcRound ctx ≤ post.gcRound ctx

namespace SameBlocks

lemma mem_iff (same : SameBlocks ctx st post) : ref ∈ post.recentBlocks ↔ ref ∈ st.recentBlocks :=
  mem_iff_of_blocks same.blocks ref

lemma hasAccepted_iff (same : SameBlocks ctx st post) :
    post.HasAccepted ctx ref ↔ st.HasAccepted ctx ref := by
  rw [HasAccepted, HasAccepted, same.mem_iff, same.buffer, same.store]

end SameBlocks

lemma hasAccepted_flush (indexed : st.Indexed)
    (holds : (st.flush ctx).HasAccepted ctx ref) :
    st.HasAccepted ctx ref := by
  have flushed := @flush_flushed ctx st indexed
  rcases holds with cached | ⟨blk, buffered, rfl⟩ | stored | genesis
  · obtain ⟨info, got⟩ := mem_recentBlocks.mp cached
    exact .inl (mem_recentBlocks.mpr ⟨info, flushed.found ref info got⟩)
  · rw [flushed.frame] at buffered
    simp at buffered
  · rw [flushed.frame, ← ExtTreeMap.isSome_getElem?_iff_mem, Option.isSome_iff_exists]
      at stored
    obtain ⟨blk, got⟩ := stored
    rcases getElem?_insertAll_cases got with ⟨written, keyed⟩ | pre
    · exact .inr (.inl ⟨blk, written, keyed⟩)
    · exact .inr (.inr (.inl (mem_of_getElem? pre)))
  · exact .inr (.inr (.inr genesis))

end DagState

namespace BlockManager

open DagState

variable {ctx : Context} {admitted : Set VerifiedBlock} {err : Panic → Prop}
  {mgr post : BlockManager} {root ref : BlockRef}
  {idx : ExtTreeMap BlockRef (ExtTreeSet BlockRef)}

/-- The books: what is fetched, what is waited for and what is suspended. -/
structure Booked (ctx : Context) (admitted : Set VerifiedBlock) (mgr : BlockManager) :
    Prop where
  managed : mgr.Managed ctx admitted
  fetching : ∀ ref : BlockRef, ref ∈ mgr.missingBlocks ↔
    ref ∈ mgr.missingAncestors ∧ ref ∉ mgr.suspendedBlocks
  lacking : ∀ (ref : BlockRef) (suspended : SuspendedBlock),
    mgr.suspendedBlocks[ref]? = some suspended → ∃ anc, anc ∈ suspended.missingAncestors
  unheld : ∀ ref : BlockRef,
    ref ∈ mgr.suspendedBlocks ∨ ref ∈ mgr.missingAncestors → ¬ mgr.dagState.HasAccepted ctx ref

/-- The books when the root is about to be released: it is no longer fetched or suspended,
but may still be waited for. -/
structure Rooted (ctx : Context) (admitted : Set VerifiedBlock) (root : BlockRef)
    (mgr : BlockManager) : Prop where
  managed : mgr.Managed ctx admitted
  fetching : ∀ ref : BlockRef, ref ∈ mgr.missingBlocks ↔
    ref ∈ mgr.missingAncestors ∧ ref ∉ mgr.suspendedBlocks ∧ ref ≠ root
  lacking : ∀ (ref : BlockRef) (suspended : SuspendedBlock),
    mgr.suspendedBlocks[ref]? = some suspended → ∃ anc, anc ∈ suspended.missingAncestors
  unheld : ∀ ref : BlockRef, ref ≠ root →
    ref ∈ mgr.suspendedBlocks ∨ ref ∈ mgr.missingAncestors → ¬ mgr.dagState.HasAccepted ctx ref
  released : root ∉ mgr.suspendedBlocks

section Release

variable {start : BlockManager} {acc child : BlockRef} {progress next : Unsuspending}
  {freed : List VerifiedBlock}

structure Clearing (start : BlockManager) (progress : Unsuspending) : Prop where
  keyed : ∀ (ref : BlockRef) (suspended : SuspendedBlock),
    progress.2.2.suspendedBlocks[ref]? = some suspended → suspended.block.reference = ref
  lacking : ∀ (ref : BlockRef) (suspended : SuspendedBlock),
    progress.2.2.suspendedBlocks[ref]? = some suspended → ∃ anc, anc ∈ suspended.missingAncestors
  fetching : ∀ ref : BlockRef, ref ∈ progress.2.2.missingBlocks ↔
    ref ∈ progress.2.2.missingAncestors ∧ ref ∉ progress.2.2.suspendedBlocks ∧ ref ∉ progress.1
  before : ∀ ref ∈ progress.2.2.suspendedBlocks, ref ∈ start.suspendedBlocks
  stays : ∀ ref ∈ start.suspendedBlocks, ref ∈ progress.2.2.suspendedBlocks ∨
    ref ∈ progress.2.1.map VerifiedBlock.reference
  gone : ∀ blk ∈ progress.2.1, blk.reference ∉ progress.2.2.suspendedBlocks ∧
    (blk.reference ∈ progress.2.2.missingAncestors → blk.reference ∈ progress.1)

lemma unsuspendChild_cases {toProcess : List BlockRef}
    (run : unsuspendChild acc (toProcess, freed, mgr) child = .ok next) :
    ∃ suspended, mgr.suspendedBlocks[child]? = some suspended ∧
      (next = (suspended.block.reference :: toProcess, freed ++ [suspended.block],
          { mgr with suspendedBlocks := mgr.suspendedBlocks.erase child }) ∨
        (∃ anc, anc ∈ suspended.missingAncestors.erase acc) ∧
          next = (toProcess, freed, { mgr with
            suspendedBlocks := mgr.suspendedBlocks.insert child
              ⟨suspended.block, suspended.missingAncestors.erase acc⟩ })) := by
  rw [unsuspendChild, bind_eq_ok] at run
  obtain ⟨res, tried, run⟩ := run
  have whole := tried
  rw [tryUnsuspendBlock] at tried
  obtain ⟨suspended, got, tried⟩ := expect_bind_eq_ok.mp tried
  obtain ⟨missed, -⟩ := ensure_bind_eq_ok.mp tried
  rw [tryUnsuspendBlock_ok got missed] at whole
  refine ⟨suspended, got, ?_⟩
  split at whole
  · obtain rfl := Except.ok.inj whole
    exact .inl (Except.ok.inj run).symm
  · rename_i waits
    obtain rfl := Except.ok.inj whole
    refine .inr ⟨?_, (Except.ok.inj run).symm⟩
    by_contra nothing
    apply waits
    rw [ExtTreeSet.isEmpty_iff]
    apply ExtTreeSet.ext_mem
    intro anc
    simpa using fun mem => nothing ⟨anc, mem⟩

lemma Clearing.unsuspend (clearing : Clearing start progress)
    (run : unsuspendChild acc progress child = .ok next) : Clearing start next := by
  obtain ⟨toProcess, freed, mgr⟩ := progress
  obtain ⟨keyed, lacking, fetching, pre, stays, gone⟩ := clearing
  dsimp only at keyed lacking fetching pre stays gone
  obtain ⟨suspended, got, rfl | ⟨remaining, rfl⟩⟩ := unsuspendChild_cases run
  · have childIs : suspended.block.reference = child := keyed child suspended got
    have has : child ∈ mgr.suspendedBlocks := mem_of_getElem? got
    constructor
    · intro ref other held
      exact keyed ref other (getElem?_of_erase held)
    · intro ref other held
      exact lacking ref other (getElem?_of_erase held)
    · intro ref
      rw [fetching, mem_eraseKey_iff, childIs, mem_cons]
      constructor
      · rintro ⟨awaited, free, idle⟩
        refine ⟨awaited, fun both => free both.2, ?_⟩
        rintro (rfl | pending)
        · exact free has
        · exact idle pending
      · rintro ⟨awaited, free, idle⟩
        rw [not_or] at idle
        exact ⟨awaited, fun held => free ⟨idle.1, held⟩, idle.2⟩
    · intro ref mem
      exact pre ref (mem_eraseKey_iff.mp mem).2
    · intro ref mem
      dsimp only
      rw [mem_eraseKey_iff, map_append, mem_append, map_singleton, mem_singleton, childIs]
      rcases stays ref mem with held | released
      · by_cases isChild : ref = child
        · exact .inr (.inr isChild)
        · exact .inl ⟨isChild, held⟩
      · exact .inr (.inl released)
    · intro blk mem
      dsimp only
      rw [mem_eraseKey_iff, childIs]
      rcases mem_append.mp mem with early | last
      · obtain ⟨free, pending⟩ := gone blk early
        exact ⟨fun both => free both.2, fun awaited => mem_cons_of_mem _ (pending awaited)⟩
      · rw [mem_singleton.mp last, childIs]
        exact ⟨fun both => both.1 rfl, fun _ => by simp⟩
  · have same : ∀ ref : BlockRef, ref ∈ mgr.suspendedBlocks.insert child
        ⟨suspended.block, suspended.missingAncestors.erase acc⟩ ↔
          ref ∈ mgr.suspendedBlocks := by
      intro ref
      rw [mem_insertKey_iff]
      constructor
      · rintro (rfl | held)
        · exact mem_of_getElem? got
        · exact held
      · exact .inr
    constructor
    · intro ref other held
      rcases getElem?_insert_cases held with ⟨rfl, rfl⟩ | ⟨-, old⟩
      · exact keyed ref suspended got
      · exact keyed ref other old
    · intro ref other held
      rcases getElem?_insert_cases held with ⟨rfl, rfl⟩ | ⟨-, old⟩
      · exact remaining
      · exact lacking ref other old
    · intro ref
      rw [same]
      exact fetching ref
    · intro ref mem
      exact pre ref ((same ref).mp mem)
    · intro ref mem
      rw [same]
      exact stays ref mem
    · intro blk mem
      dsimp only
      rw [same]
      exact gone blk mem

lemma Clearing.pop {toProcess : List BlockRef}
    (clearing : Clearing start (acc :: toProcess, freed, mgr))
    (popped : ∀ ref : BlockRef, ref ∈ idx ↔ ref ≠ acc ∧ ref ∈ mgr.missingAncestors) :
    Clearing start (toProcess, freed, { mgr with missingAncestors := idx }) where
  keyed := clearing.keyed
  lacking := clearing.lacking
  fetching ref := by
    have pre := clearing.fetching ref
    rw [mem_cons, not_or] at pre
    rw [pre, popped]
    tauto
  before := clearing.before
  stays := clearing.stays
  gone blk mem := by
    obtain ⟨free, pending⟩ := clearing.gone blk mem
    refine ⟨free, fun awaited => ?_⟩
    obtain ⟨ne, awaited⟩ := (popped blk.reference).mp awaited
    exact (mem_cons.mp (pending awaited)).resolve_left ne

lemma Clearing.release {fuel : Nat} (clearing : Clearing start progress)
    (run : unsuspendChildren fuel progress = .ok (freed, post)) :
    Clearing start ([], freed, post) := by
  induction fuel generalizing progress with
  | zero =>
    obtain ⟨toProcess, prev, mgr⟩ := progress
    cases toProcess with
    | nil =>
      rw [unsuspendChildren, Except.ok.injEq, Prod.mk.injEq] at run
      obtain ⟨rfl, rfl⟩ := run
      exact clearing
    | cons acc toProcess => simp [unsuspendChildren] at run
  | succ fuel ih =>
    obtain ⟨toProcess, prev, mgr⟩ := progress
    cases toProcess with
    | nil =>
      rw [unsuspendChildren, Except.ok.injEq, Prod.mk.injEq] at run
      obtain ⟨rfl, rfl⟩ := run
      exact clearing
    | cons acc toProcess =>
      rw [unsuspendChildren] at run
      cases got : mgr.missingAncestors[acc]? with
      | none =>
        simp only [got] at run
        refine ih (clearing.pop fun ref => ?_) run
        constructor
        · intro awaited
          refine ⟨?_, awaited⟩
          rintro rfl
          rw [← ExtTreeMap.isSome_getElem?_iff_mem, got] at awaited
          cases awaited
        · exact fun both => both.2
      | some kids =>
        simp only [got] at run
        rw [bind_eq_ok] at run
        obtain ⟨next, stepped, run⟩ := run
        refine ih ?_ run
        refine @foldlM_preserves _ _ _ _ _ (Clearing start) _ _ stepped (clearing.pop ?_) ?_
        · exact fun ref => mem_eraseKey_iff
        · intro progress child next _ clearing run
          exact clearing.unsuspend run

lemma Rooted.unsuspend (rooted : Rooted ctx admitted root mgr) :
    ∃ freed mid,
      tryUnsuspendChildrenBlocks mgr root = .ok (freed, mid) ∧
      Releasing ctx admitted root mgr (mgr.suspendedBlocks.size + 1)
        (fun _ _ => False) ([], freed, mid) ∧
      Clearing mgr ([], freed, mid) := by
  obtain ⟨freed, mid, released, releasing⟩ :=
    tryUnsuspendChildrenBlocks_ok (rooted.managed.awaitRoot root)
  refine ⟨freed, mid, released, releasing, Clearing.release ?_ released⟩
  constructor
  · exact fun ref suspended got => (rooted.managed.waiting.waits ref suspended got).keyed
  · exact rooted.lacking
  · simpa using rooted.fetching
  · exact fun _ mem => mem
  · exact fun _ mem => .inl mem
  · simp

lemma Rooted.release (refuses : Refuses ctx admitted err)
    (rooted : Rooted ctx admitted root mgr) {toAccept : List VerifiedBlock}
    (inside : ∀ blk ∈ toAccept, blk ∈ admitted)
    (alone : ∀ blk ∈ toAccept, blk.reference = root)
    (covered : mgr.dagState.gcRound ctx < root.round →
      Present mgr.dagState (toAccept.map VerifiedBlock.reference) root) :
    Meets err (fun res => res.2.Booked ctx admitted ∧
        res.2.dagState.gcRound ctx = mgr.dagState.gcRound ctx ∧
        ∀ key ∈ res.2.missingAncestors, key ∈ mgr.missingAncestors ∧ key ≠ root)
      (acceptWithChildren ctx mgr root toAccept) := by
  have waiting := rooted.managed.awaitRoot root
  obtain ⟨freed, mid, released, releasing, clearing⟩ := rooted.unsuspend
  have allInside : ∀ blk ∈ toAccept ++ freed, blk ∈ admitted := by
    intro blk mem
    rcases mem_append.mp mem with root | child
    · exact inside blk root
    · exact releasing.inside blk child
  have entering : Meets err (fun _ => True)
      (mid.dagState.acceptBlocks ctx (toAccept ++ freed)) :=
    refuses _ _ (releasing.sameState ▸ rooted.managed.kept) allInside
  cases run : mid.dagState.acceptBlocks ctx (toAccept ++ freed) with
  | error panic =>
    rw [acceptWithChildren, released, ok_bind]
    dsimp only
    rw [run, error_bind]
    exact entering.of_error run
  | ok dagState =>
    have whole : acceptWithChildren ctx mgr root toAccept =
        .ok (toAccept ++ freed, { mid with dagState }) := by
      rw [acceptWithChildren, released, ok_bind]
      dsimp only
      rw [run, ok_bind, pure_ok]
    obtain ⟨effect, narrowed⟩ := acceptWithChildren_accepted rooted.managed.kept waiting inside
      covered whole
    rw [whole]
    refine ⟨⟨effect.managed, ?_, clearing.lacking, ?_⟩, effect.entered.gcRound_eq, narrowed⟩
    · simpa using clearing.fetching
    · intro ref lacked holds
      have old : ref ∈ mgr.suspendedBlocks ∨ ref ∈ mgr.missingAncestors :=
        lacked.imp (clearing.before ref) fun awaited => (narrowed ref awaited).1
      have notRoot : ref ≠ root := by
        rintro rfl
        rcases lacked with suspended | awaited
        · exact rooted.released (clearing.before ref suspended)
        · exact (narrowed ref awaited).2 rfl
      rw [releasing.sameState] at run
      rcases hasAccepted_acceptBlocks run holds with pre | ⟨blk, mem, rfl⟩
      · exact rooted.unheld ref notRoot old pre
      · rcases mem_append.mp mem with isRoot | child
        · exact notRoot (alone blk isRoot)
        · obtain ⟨free, pending⟩ := clearing.gone blk child
          rcases lacked with suspended | awaited
          · exact free suspended
          · simpa using pending awaited

end Release

section Received

variable {blk : VerifiedBlock}

lemma of_missingOf (valid : ValidBlock ctx blk.block.inner)
    (kept : Kept ctx admitted mgr.dagState)
    (missing : ref ∈ missingOf ctx mgr.dagState blk) :
    ref ∈ blk.ancestors ∧ mgr.dagState.gcRound ctx < ref.round ∧
      ¬ mgr.dagState.HasAccepted ctx ref := by
  simp only [missingOf, mem_filter, Bool.or_eq_true, decide_eq_true_eq,
    Bool.not_eq_true'] at missing
  obtain ⟨⟨mem, old | above⟩, unknown⟩ := missing
  · have genesis := valid.ancestorGenesis ref mem old
    rw [containsBlock] at unknown
    simp [genesis] at unknown
  · refine ⟨mem, above, fun acc => ?_⟩
    rw [kept.contains_of_hasAccepted above acc] at unknown
    exact Bool.noConfusion unknown

/-- A received block leaves the books closed, or opens them as a root. A suspended block is
fetched no more; its missing ancestors are, unless suspended. -/
lemma Booked.tryAcceptOneBlock
    (valid : ∀ blk ∈ admitted, ValidBlock ctx blk.block.inner)
    (booked : mgr.Booked ctx admitted) (inside : blk ∈ admitted)
    {res : TryAcceptResult} (run : tryAcceptOneBlock ctx mgr blk = (res, post)) :
    (res = .accepted blk ∧ Rooted ctx admitted blk.reference post) ∨
      ((∀ acc, res ≠ .accepted acc) ∧ post.Booked ctx admitted) := by
  obtain ⟨managed, -, -⟩ := tryAcceptOneBlock_cases booked.managed inside run
  obtain ⟨rfl, rfl, -⟩ | ⟨rfl, rfl, -⟩ | ⟨noted, -⟩ := tryAcceptOneBlock_inv run
  · exact .inr ⟨by simp, booked⟩
  · exact .inr ⟨by simp, booked⟩
  have unaccepted : ¬ mgr.dagState.HasAccepted ctx blk.reference := by
    intro acc
    have known := booked.managed.kept.contains_of_hasAccepted noted.above acc
    rw [noted.unknown] at known
    exact Bool.noConfusion known
  obtain ⟨rfl, nothing, sameBlocks⟩ | ⟨⟨fetched, rfl⟩, something, blocks⟩ := noted.outcome
  · refine .inl ⟨rfl, managed, fun ref => ?_, ?_, fun ref _ lacked => ?_, ?_⟩
    · rw [noted.fetches, noted.index, sameBlocks, booked.fetching, nothing]
      simp only [not_mem_nil, false_and, or_false]
      tauto
    · rw [sameBlocks]
      exact booked.lacking
    · rw [noted.index, sameBlocks, nothing] at lacked
      rw [noted.sameState]
      exact booked.unheld ref (by simpa using lacked)
    · rw [sameBlocks]
      exact noted.free
  · have suspendedNow : ∀ ref : BlockRef, ref ∈ post.suspendedBlocks ↔
        ref = blk.reference ∨ ref ∈ mgr.suspendedBlocks := by
      intro ref
      rw [blocks, mem_insertKey_iff]
    refine .inr ⟨by simp, managed, fun ref => ?_, fun ref suspended got => ?_,
      fun ref lacked => ?_⟩
    · rw [suspendedNow, noted.fetches, noted.index, booked.fetching]
      tauto
    · rw [blocks] at got
      rcases getElem?_insert_cases got with ⟨rfl, rfl⟩ | ⟨-, got⟩
      · obtain ⟨anc, missing⟩ := exists_mem_of_ne_nil _ something
        refine ⟨anc, ?_⟩
        rw [mem_foldl_insert]
        exact .inl missing
      · exact booked.lacking ref suspended got
    · rw [suspendedNow, noted.index] at lacked
      rw [noted.sameState]
      rcases lacked with (rfl | suspended) | awaited | missing
      · exact unaccepted
      · exact booked.unheld ref (.inl suspended)
      · exact booked.unheld ref (.inr awaited)
      · exact (of_missingOf (valid blk inside) booked.managed.kept missing).2.2

lemma Booked.acceptReceived (valid : ∀ blk ∈ admitted, ValidBlock ctx blk.block.inner)
    (refuses : Refuses ctx admitted err) (booked : mgr.Booked ctx admitted)
    (inside : blk ∈ admitted)
    {acc : List VerifiedBlock} {missing : ExtTreeSet BlockRef} :
    Meets err (fun next : Accepting => next.2.2.Booked ctx admitted)
      (acceptReceived ctx (acc, missing, mgr) blk) := by
  rw [BlockManager.acceptReceived]
  dsimp only
  cases tried : BlockManager.tryAcceptOneBlock ctx mgr blk with
  | mk res mid =>
    obtain ⟨rfl, rooted⟩ | ⟨unreleased, closed⟩ := booked.tryAcceptOneBlock valid inside tried
    · apply (rooted.release refuses (by simpa using inside) (by simp) ?_).bind
      · exact fun _ _ closed => closed.1
      · exact fun _ => .inr (by simp)
    · cases res with
      | accepted released => exact absurd rfl (unreleased released)
      | suspended ancestorsToFetch => exact closed
      | processed => exact closed
      | skipped => exact closed

end Received

section Committed

variable {blk : VerifiedBlock}

lemma stopWaiting_keys {ancestors : List BlockRef} :
    root ∈ ancestors.foldl (stopWaiting ref) idx ↔ root ∈ idx := by
  induction ancestors generalizing idx with
  | nil => rfl
  | cons first rest ih =>
    rw [foldl_cons, ih, stopWaiting]
    cases got : idx[first]? with
    | none => rfl
    | some references =>
      dsimp only
      rw [mem_insertKey_iff]
      constructor
      · rintro (rfl | has)
        · exact mem_of_getElem? got
        · exact has
      · exact .inr

lemma Booked.accept {dagState : DagState} (booked : mgr.Booked ctx admitted)
    (inside : ∀ other ∈ [blk], other ∈ admitted)
    (entering : mgr.dagState.acceptBlocks ctx [blk] = .ok dagState)
    (taken : idx = mgr.suspendedBlocks[blk.reference]?.elim mgr.missingAncestors
      fun suspended => suspended.missingAncestors.toList.foldl (stopWaiting blk.reference)
        mgr.missingAncestors) :
    Rooted ctx admitted blk.reference ⟨dagState,
      mgr.suspendedBlocks.erase blk.reference, idx,
      mgr.missingBlocks.erase blk.reference⟩ := by
  obtain ⟨kept, entered⟩ := booked.managed.kept.acceptBlocks inside entering
  have keys : ∀ ref : BlockRef, ref ∈ idx ↔ ref ∈ mgr.missingAncestors := by
    intro ref
    rw [taken]
    cases mgr.suspendedBlocks[blk.reference]? with
    | none => rfl
    | some suspended => exact stopWaiting_keys
  constructor
  · exact booked.managed.unsuspend kept entered taken
  · intro ref
    dsimp only
    rw [keys, mem_erase_iff, mem_eraseKey_iff, booked.fetching]
    tauto
  · exact fun ref suspended got => booked.lacking ref suspended (getElem?_of_erase got)
  · intro ref ne lacked acc
    rcases hasAccepted_acceptBlocks entering acc with pre | ⟨other, mem, same⟩
    · exact booked.unheld ref (lacked.imp
        (fun suspended => (mem_eraseKey_iff.mp suspended).2) (keys ref).mp) pre
    · rw [mem_singleton.mp mem] at same
      exact ne same.symm
  · exact fun suspended => (mem_eraseKey_iff.mp suspended).1 rfl

lemma Booked.tryAcceptOneCommittedBlock (refuses : Refuses ctx admitted err)
    (booked : mgr.Booked ctx admitted) (inside : blk ∈ admitted) :
    Meets err (fun tried : TryAcceptResult × BlockManager =>
        tried = (.processed, mgr) ∨
          (tried.1 = .accepted blk ∧ Rooted ctx admitted blk.reference tried.2 ∧
            (tried.2.dagState.gcRound ctx < blk.round →
              blk.reference ∈ tried.2.dagState.recentBlocks)))
      (tryAcceptOneCommittedBlock ctx mgr blk) := by
  have only : ∀ other ∈ [blk], other ∈ admitted := by simpa using inside
  rw [BlockManager.tryAcceptOneCommittedBlock]
  dsimp only
  split
  · exact .inl rfl
  apply (refuses _ _ booked.managed.kept only).bind
  intro dagState entering _
  obtain ⟨-, entered⟩ := booked.managed.kept.acceptBlocks only entering
  refine .inr ⟨rfl, booked.accept only entering ?_, ?_⟩
  · cases mgr.suspendedBlocks[blk.reference]? <;> rfl
  · intro above
    exact entered.cached blk (by simp) (entered.gcRound_eq ▸ above)

lemma Booked.acceptCommitted (refuses : Refuses ctx admitted err)
    (booked : mgr.Booked ctx admitted) (inside : blk ∈ admitted)
    {acc : List VerifiedBlock} {missing : ExtTreeSet BlockRef} :
    Meets err
      (fun next : Accepting => next.2.1 = missing ∧ next.2.2.Booked ctx admitted)
      (acceptCommitted ctx (acc, missing, mgr) blk) := by
  rw [BlockManager.acceptCommitted]
  dsimp only
  apply (booked.tryAcceptOneCommittedBlock refuses inside).bind
  rintro ⟨res, mid⟩ - (same | ⟨rfl, rooted, there⟩)
  · obtain ⟨rfl, rfl⟩ := Prod.mk.inj same
    exact ⟨rfl, booked⟩
  · apply (rooted.release refuses (by simp) (by simp) fun above => .inl (there above)).bind
    exact fun _ _ closed => ⟨rfl, closed.1⟩

end Committed

end BlockManager

end Mysticeti

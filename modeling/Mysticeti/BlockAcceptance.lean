import Mysticeti.Suspension

/-!
# What the block manager accepts

A received block is accepted once its ancestors above the garbage-collection round are,
so received blocks and the blocks released with them never open a hole in the cache. A
block of a certified commit is accepted as it is. A batch of such blocks opens no hole
when each ancestor above the garbage-collection round of its blocks is there before or
comes in the batch: the batch is sorted by round, so ancestors come first.
-/

namespace Mysticeti

open List Lib.Outcome Lib.OrderedMap Lib.Log DagState Std

namespace BlockManager

variable {ctx : Context} {admitted : Set VerifiedBlock} {blocks : List VerifiedBlock}

/-- The blocks can be accepted in this order without opening a hole. -/
abbrev InOrder (ctx : Context) (st : DagState) : List VerifiedBlock → Prop :=
  Grown fun prev blk => ∀ anc ∈ blk.ancestors, st.gcRound ctx < anc.round →
    Present st (prev.map VerifiedBlock.reference) anc

lemma closed_acceptBlocks {st post : DagState} (kept : Kept ctx admitted st)
    (closed : st.CausallyClosed ctx) (inside : ∀ blk ∈ blocks, blk ∈ admitted)
    (ordered : InOrder ctx st blocks) (run : st.acceptBlocks ctx blocks = .ok post) :
    post.CausallyClosed ctx := by
  induction ordered generalizing post with
  | start =>
    have same : st = post := Except.ok.inj run
    exact same ▸ closed
  | @extend prev blk _ next ih =>
    rw [DagState.acceptBlocks, foldlM_append, bind_eq_ok] at run
    obtain ⟨mid, pre, run⟩ := run
    rw [foldlM_cons, bind_eq_ok] at run
    obtain ⟨final, stepped, run⟩ := run
    have same : final = post := Except.ok.inj run
    subst same
    have earlierInside : ∀ other ∈ prev, other ∈ admitted :=
      fun other mem => inside other (mem_append_left _ mem)
    obtain ⟨keptNow, entered⟩ := kept.acceptBlocks earlierInside pre
    apply (ih earlierInside pre).acceptBlock keptNow.indexed ?_ stepped
    intro anc mem above
    rw [entered.gcRound_eq] at above
    rcases next anc mem above with cached | here
    · exact entered.mem cached
    · obtain ⟨other, early, rfl⟩ := List.mem_map.mp here
      exact entered.cached other early above

lemma inOrder_append {st : DagState} {root : BlockRef} {kids : List VerifiedBlock}
    (ordered : InOrder ctx st blocks)
    (covered : st.gcRound ctx < root.round → Present st (blocks.map VerifiedBlock.reference) root)
    (chain : Grown (Follows ctx st root) kids) :
    InOrder ctx st (blocks ++ kids) := by
  induction chain with
  | start => simpa using ordered
  | extend _ next ih =>
    rw [← append_assoc]
    apply ih.extend
    intro anc mem above
    rw [map_append]
    rcases next anc mem above with cached | here
    · exact .inl cached
    rcases mem_cons.mp here with rfl | early
    · exact (covered above).mono fun _ root => mem_append_left _ root
    · exact .inr (mem_append_right _ early)

/-- Every block the manager keeps is admitted, and every suspended block waits for what is
not there. -/
structure Managed (ctx : Context) (admitted : Set VerifiedBlock) (mgr : BlockManager) :
    Prop where
  kept : Kept ctx admitted mgr.dagState
  waiting : mgr.Waiting ctx admitted (· ∈ mgr.dagState.recentBlocks) (fun _ _ => False)

lemma Managed.congr {mgr post : BlockManager} (managed : mgr.Managed ctx admitted)
    (sameState : post.dagState = mgr.dagState)
    (sameBlocks : post.suspendedBlocks = mgr.suspendedBlocks)
    (awaited : ∀ anc child, post.Awaited anc child ↔
      mgr.Awaited anc child) : post.Managed ctx admitted := by
  refine ⟨sameState ▸ managed.kept, fun anc child => ?_, ?_⟩
  · rw [awaited, Misses, sameBlocks]
    exact managed.waiting.agree anc child
  · rw [sameState, sameBlocks]
    exact managed.waiting.waits

lemma Managed.awaitRoot {mgr : BlockManager} (managed : mgr.Managed ctx admitted)
    (root : BlockRef) :
    mgr.Waiting ctx admitted (Present mgr.dagState [root]) (fun _ _ => False) :=
  ⟨managed.waiting.agree, fun ref suspended got =>
    (managed.waiting.waits ref suspended got).mono fun _ _ cached => .inl cached⟩

/-- The manager accepted these blocks. -/
structure Accepted (ctx : Context) (admitted : Set VerifiedBlock) (pre : BlockManager)
    (blocks : List VerifiedBlock) (post : BlockManager) : Prop where
  managed : post.Managed ctx admitted
  entered : Entered ctx pre.dagState blocks post.dagState
  inside : ∀ blk ∈ blocks, blk ∈ admitted

section Children

variable {mgr post : BlockManager} {ref : BlockRef}
  {toAccept acc : List VerifiedBlock}

lemma acceptWithChildren_cases (waiting : mgr.Waiting ctx admitted
      (Present mgr.dagState [ref]) (fun _ _ => False))
    (run : acceptWithChildren ctx mgr ref toAccept = .ok (acc, post)) :
    ∃ freed mid, Releasing ctx admitted ref mgr
        (mgr.suspendedBlocks.size + 1) (fun _ _ => False) ([], freed, mid) ∧
      mgr.dagState.acceptBlocks ctx (toAccept ++ freed) = .ok post.dagState ∧
      acc = toAccept ++ freed ∧
      post = { mid with dagState := post.dagState } := by
  obtain ⟨freed, mid, released, releasing⟩ := tryUnsuspendChildrenBlocks_ok waiting
  rw [acceptWithChildren, released, ok_bind, bind_eq_ok] at run
  obtain ⟨dagState, entered, run⟩ := run
  rw [pure_ok, Except.ok.injEq, Prod.mk.injEq] at run
  obtain ⟨rfl, rfl⟩ := run
  rw [releasing.sameState] at entered
  exact ⟨freed, mid, releasing, entered, rfl, rfl⟩

lemma acceptWithChildren_accepted (kept : Kept ctx admitted mgr.dagState)
    (waiting : mgr.Waiting ctx admitted (Present mgr.dagState [ref])
      (fun _ _ => False))
    (inside : ∀ blk ∈ toAccept, blk ∈ admitted)
    (covered : mgr.dagState.gcRound ctx < ref.round →
      Present mgr.dagState (toAccept.map VerifiedBlock.reference) ref)
    (run : acceptWithChildren ctx mgr ref toAccept = .ok (acc, post)) :
    Accepted ctx admitted mgr acc post ∧
      ∀ key ∈ post.missingAncestors, key ∈ mgr.missingAncestors ∧ key ≠ ref := by
  obtain ⟨freed, mid, releasing, entering, rfl, whole⟩ :=
    acceptWithChildren_cases waiting run
  have allInside : ∀ blk ∈ toAccept ++ freed, blk ∈ admitted := by
    intro blk mem
    rcases mem_append.mp mem with root | child
    · exact inside blk root
    · exact releasing.inside blk child
  obtain ⟨keptLater, entered⟩ := kept.acceptBlocks allInside entering
  have there : ∀ anc : BlockRef, mgr.dagState.gcRound ctx < anc.round →
      Present mgr.dagState (ref :: freed.map VerifiedBlock.reference) anc →
        anc ∈ post.dagState.recentBlocks := by
    have here : ∀ blocks : List VerifiedBlock,
        (∀ blk ∈ blocks, blk ∈ toAccept ++ freed) →
        ∀ anc ∈ blocks.map VerifiedBlock.reference,
          mgr.dagState.gcRound ctx < anc.round → anc ∈ post.dagState.recentBlocks := by
      rintro blocks among _ mem above
      obtain ⟨blk, inBlocks, rfl⟩ := List.mem_map.mp mem
      exact entered.cached blk (among blk inBlocks) above
    intro anc above has
    rcases has with cached | mem
    · exact entered.mem cached
    rcases mem_cons.mp mem with rfl | child
    · rcases covered above with cached | root
      · exact entered.mem cached
      · exact here toAccept (fun blk => mem_append_left _) anc root above
    · exact here freed (fun blk => mem_append_right _) anc child above
  refine ⟨⟨⟨keptLater, ?_⟩, entered, allInside⟩, ?_⟩
  · rw [whole]
    refine ⟨releasing.waiting.agree, fun other suspended got => ?_⟩
    have waits := releasing.waiting.waits other suspended got
    dsimp only at waits ⊢
    rw [releasing.sameState] at waits
    rw [entered.gcRound_eq]
    exact waits.mono there
  · intro key mem
    rw [whole] at mem
    obtain ⟨pre, isRoot⟩ := releasing.narrowed key mem
    exact ⟨pre, fun same => by simpa using isRoot same⟩

lemma acceptWithChildren_closed (kept : Kept ctx admitted mgr.dagState)
    (waiting : mgr.Waiting ctx admitted (Present mgr.dagState [ref])
      (fun _ _ => False))
    (inside : ∀ blk ∈ toAccept, blk ∈ admitted)
    (covered : mgr.dagState.gcRound ctx < ref.round →
      Present mgr.dagState (toAccept.map VerifiedBlock.reference) ref)
    (closed : mgr.dagState.CausallyClosed ctx)
    (ordered : InOrder ctx mgr.dagState toAccept)
    (run : acceptWithChildren ctx mgr ref toAccept = .ok (acc, post)) :
    post.dagState.CausallyClosed ctx := by
  obtain ⟨freed, mid, releasing, entering, rfl, -⟩ := acceptWithChildren_cases waiting run
  refine closed_acceptBlocks kept closed ?_ ?_ entering
  · intro blk mem
    rcases mem_append.mp mem with root | child
    · exact inside blk root
    · exact releasing.inside blk child
  · exact inOrder_append ordered covered releasing.ordered

end Children

section Received

variable {mgr : BlockManager} {blk : VerifiedBlock}

/-- Noting missing ancestors adds the pairs to the index, and the ancestors that are not
suspended to what is fetched. -/
lemma noteMissing_fold {ref : BlockRef} {missing : List BlockRef}
    {noted : ExtTreeSet BlockRef × BlockManager} :
    (missing.foldl (noteMissing ref) noted).2.dagState = noted.2.dagState ∧
      (missing.foldl (noteMissing ref) noted).2.suspendedBlocks = noted.2.suspendedBlocks ∧
      (∀ anc child, (missing.foldl (noteMissing ref) noted).2.Awaited anc child ↔
        noted.2.Awaited anc child ∨ (anc ∈ missing ∧ child = ref)) ∧
      (∀ key : BlockRef, key ∈ (missing.foldl (noteMissing ref) noted).2.missingAncestors ↔
        key ∈ noted.2.missingAncestors ∨ key ∈ missing) ∧
      ∀ key : BlockRef, key ∈ (missing.foldl (noteMissing ref) noted).2.missingBlocks ↔
        key ∈ noted.2.missingBlocks ∨ (key ∈ missing ∧ key ∉ noted.2.suspendedBlocks) := by
  induction missing generalizing noted with
  | nil => simp
  | cons first rest ih =>
    obtain ⟨fetched, mgr⟩ := noted
    have stepState : (noteMissing ref (fetched, mgr) first).2.dagState = mgr.dagState := by
      rw [noteMissing]
      split <;> rfl
    have stepBlocks : (noteMissing ref (fetched, mgr) first).2.suspendedBlocks =
        mgr.suspendedBlocks := by
      rw [noteMissing]
      split <;> rfl
    have stepIndex : (noteMissing ref (fetched, mgr) first).2.missingAncestors =
        mgr.missingAncestors.insert first
          (((mgr.missingAncestors[first]?).getD ∅).insert ref) := by
      rw [noteMissing]
      split <;> rfl
    have stepAwaited : ∀ anc child,
        (noteMissing ref (fetched, mgr) first).2.Awaited anc child ↔
          mgr.Awaited anc child ∨ (anc = first ∧ child = ref) := by
      intro anc child
      by_cases same : anc = first
      · subst same
        simp only [Awaited, stepIndex, ExtTreeMap.getElem?_insert_self, Option.some.injEq,
          exists_eq_left', ExtTreeSet.mem_insert, LawfulEqCmp.compare_eq_iff_eq, true_and]
        cases mgr.missingAncestors[anc]? with
        | none => simp [eq_comm]
        | some kids => simp [eq_comm, or_comm]
      · simp only [Awaited, stepIndex, getElem?_insert_of_ne same, same, false_and, or_false]
    have stepFetched : ∀ key : BlockRef,
        key ∈ (noteMissing ref (fetched, mgr) first).2.missingBlocks ↔
          key ∈ mgr.missingBlocks ∨ (key = first ∧ key ∉ mgr.suspendedBlocks) := by
      intro key
      rw [noteMissing]
      dsimp only
      split
      · rename_i suspended
        rw [← ExtTreeMap.mem_iff_contains] at suspended
        refine (or_iff_left ?_).symm
        rintro ⟨rfl, free⟩
        exact free suspended
      · rename_i free
        rw [← ExtTreeMap.mem_iff_contains] at free
        dsimp only
        rw [Lib.OrderedMap.mem_insert_iff, or_comm]
        refine or_congr_right (and_iff_left_of_imp ?_).symm
        rintro rfl
        exact free
    obtain ⟨sameState, sameBlocks, awaited, idx, fetches⟩ :=
      @ih (noteMissing ref (fetched, mgr) first)
    rw [foldl_cons]
    refine ⟨sameState.trans stepState, sameBlocks.trans stepBlocks, fun anc child => ?_,
      fun key => ?_, fun key => ?_⟩
    · rw [awaited, stepAwaited, mem_cons, or_assoc, or_and_right]
    · rw [idx, stepIndex, mem_insertKey_iff, mem_cons, or_assoc, or_left_comm]
    · rw [fetches, stepFetched, stepBlocks, mem_cons, or_assoc, or_and_right]

/-- What is noted of a block that is new and above the garbage-collection round. -/
structure Noted (ctx : Context) (mgr : BlockManager) (blk : VerifiedBlock)
    (res : TryAcceptResult) (post : BlockManager) : Prop where
  above : mgr.dagState.gcRound ctx < blk.round
  free : blk.reference ∉ mgr.suspendedBlocks
  unknown : mgr.dagState.containsBlock ctx blk.reference = false
  sameState : post.dagState = mgr.dagState
  index : ∀ ref : BlockRef, ref ∈ post.missingAncestors ↔
    ref ∈ mgr.missingAncestors ∨ ref ∈ missingOf ctx mgr.dagState blk
  fetches : ∀ ref : BlockRef, ref ∈ post.missingBlocks ↔
    ref ≠ blk.reference ∧ (ref ∈ mgr.missingBlocks ∨
      (ref ∈ missingOf ctx mgr.dagState blk ∧ ref ∉ mgr.suspendedBlocks))
  outcome : (res = .accepted blk ∧ missingOf ctx mgr.dagState blk = [] ∧
      post.suspendedBlocks = mgr.suspendedBlocks) ∨
    (∃ fetched, res = .suspended fetched) ∧ missingOf ctx mgr.dagState blk ≠ [] ∧
      post.suspendedBlocks = mgr.suspendedBlocks.insert blk.reference
        ⟨blk, (missingOf ctx mgr.dagState blk).foldl .insert ∅⟩

lemma tryAcceptOneBlock_inv {post : BlockManager} {res : TryAcceptResult}
    (run : tryAcceptOneBlock ctx mgr blk = (res, post)) :
    (res = .processed ∧ post = mgr ∧ (blk.reference ∈ mgr.suspendedBlocks ∨
      mgr.dagState.containsBlock ctx blk.reference = true)) ∨
    (res = .skipped ∧ post = mgr ∧ blk.round ≤ mgr.dagState.gcRound ctx) ∨
    Noted ctx mgr blk res post ∧
      ∀ anc child, post.Awaited anc child ↔ mgr.Awaited anc child ∨
        (anc ∈ missingOf ctx mgr.dagState blk ∧ child = blk.reference) := by
  rw [tryAcceptOneBlock] at run
  split at run
  · rename_i known
    rw [Bool.or_eq_true, ← ExtTreeMap.mem_iff_contains] at known
    obtain ⟨rfl, rfl⟩ := Prod.mk.inj run
    exact .inl ⟨rfl, rfl, known⟩
  rename_i unprocessed
  rw [Bool.not_eq_true, Bool.or_eq_false_iff] at unprocessed
  have free : blk.reference ∉ mgr.suspendedBlocks := by
    rw [ExtTreeMap.mem_iff_contains, unprocessed.1]
    simp
  split at run
  · rename_i old
    obtain ⟨rfl, rfl⟩ := Prod.mk.inj run
    exact .inr (.inl ⟨rfl, rfl, old⟩)
  rename_i young
  obtain ⟨sameState, sameBlocks, awaited, idx, fetches⟩ := @noteMissing_fold blk.reference
    (missingOf ctx mgr.dagState blk) (∅, mgr)
  have fetchesNow : ∀ key : BlockRef, key ∈ ((missingOf ctx mgr.dagState blk).foldl
      (noteMissing blk.reference) (∅, mgr)).2.missingBlocks.erase blk.reference ↔
        key ≠ blk.reference ∧ (key ∈ mgr.missingBlocks ∨
          (key ∈ missingOf ctx mgr.dagState blk ∧ key ∉ mgr.suspendedBlocks)) := by
    intro key
    rw [mem_erase_iff, fetches]
  dsimp only at run
  split at run
  · rename_i nothing
    obtain ⟨rfl, rfl⟩ := Prod.mk.inj run
    exact .inr (.inr ⟨⟨Nat.lt_of_not_le young, free, unprocessed.2, sameState, idx, fetchesNow,
      .inl ⟨rfl, List.isEmpty_iff.mp nothing, sameBlocks⟩⟩, awaited⟩)
  · rename_i something
    obtain ⟨rfl, rfl⟩ := Prod.mk.inj run
    refine .inr (.inr ⟨⟨Nat.lt_of_not_le young, free, unprocessed.2, sameState, idx, fetchesNow,
      .inr ⟨⟨_, rfl⟩, fun empty => something (List.isEmpty_iff.mpr empty), ?_⟩⟩, awaited⟩)
    dsimp only
    rw [sameBlocks]

lemma mem_of_not_missing (kept : Kept ctx admitted mgr.dagState) {anc : BlockRef}
    (mem : anc ∈ blk.ancestors)
    (above : mgr.dagState.gcRound ctx < anc.round)
    (there : anc ∉ missingOf ctx mgr.dagState blk) :
    anc ∈ mgr.dagState.recentBlocks := by
  apply kept.mem_of_contains above
  by_contra unknown
  apply there
  simp only [missingOf, mem_filter, Bool.or_eq_true, decide_eq_true_eq, Bool.not_eq_true']
  exact ⟨⟨mem, .inr above⟩, by simpa using unknown⟩

lemma Managed.suspend {post : BlockManager} (managed : mgr.Managed ctx admitted)
    (inside : blk ∈ admitted) (fresh : mgr.suspendedBlocks[blk.reference]? = none)
    (sameState : post.dagState = mgr.dagState)
    (blocks : post.suspendedBlocks = mgr.suspendedBlocks.insert blk.reference
      ⟨blk, (missingOf ctx mgr.dagState blk).foldl .insert ∅⟩)
    (awaited : ∀ anc child, post.Awaited anc child ↔
      mgr.Awaited anc child ∨ (anc ∈ missingOf ctx mgr.dagState blk ∧ child = blk.reference)) :
    post.Managed ctx admitted := by
  have here : ∀ anc : BlockRef,
      anc ∈ (missingOf ctx mgr.dagState blk).foldl .insert
        (∅ : ExtTreeSet BlockRef) ↔ anc ∈ missingOf ctx mgr.dagState blk := by
    intro anc
    rw [mem_foldl_insert]
    simp
  refine ⟨sameState ▸ managed.kept, fun anc child => ?_, fun ref suspended got => ?_⟩
  · have pre := managed.waiting.agree anc child
    simp only [or_false] at pre ⊢
    rw [awaited, pre]
    by_cases same : child = blk.reference
    · subst same
      simp [Misses, blocks, fresh, here]
    · simp only [Misses, blocks, getElem?_insert_of_ne same, same, and_false, or_false]
  · rw [blocks] at got
    rw [sameState]
    rcases getElem?_insert_cases got with ⟨rfl, rfl⟩ | ⟨-, got⟩
    · refine ⟨rfl, inside, fun anc mem => ?_, fun anc mem above => ?_⟩
      · exact mem_of_mem_filter (mem_of_mem_filter ((here anc).mp mem))
      · by_cases missing : anc ∈ missingOf ctx mgr.dagState blk
        · exact .inl ((here anc).mpr missing)
        · exact .inr (mem_of_not_missing managed.kept mem above missing)
    · exact managed.waiting.waits ref suspended got

lemma tryAcceptOneBlock_cases (managed : mgr.Managed ctx admitted)
    (inside : blk ∈ admitted) {res : TryAcceptResult} {post : BlockManager}
    (run : tryAcceptOneBlock ctx mgr blk = (res, post)) :
    post.Managed ctx admitted ∧ post.dagState = mgr.dagState ∧
      (∀ released, res = .accepted released →
        released = blk ∧ missingOf ctx mgr.dagState blk = []) := by
  obtain ⟨rfl, rfl, -⟩ | ⟨rfl, rfl, -⟩ | ⟨noted, awaited⟩ := tryAcceptOneBlock_inv run
  · exact ⟨managed, rfl, by simp⟩
  · exact ⟨managed, rfl, by simp⟩
  obtain ⟨rfl, nothing, sameBlocks⟩ | ⟨⟨fetched, rfl⟩, -, blocks⟩ := noted.outcome
  · refine ⟨managed.congr noted.sameState sameBlocks ?_, noted.sameState, by simp [nothing]⟩
    simp [awaited, nothing]
  · exact ⟨managed.suspend inside (ExtTreeMap.getElem?_eq_none noted.free) noted.sameState
      blocks awaited, noted.sameState, by simp⟩

lemma acceptReceived_accepted (managed : mgr.Managed ctx admitted)
    (inside : blk ∈ admitted) {acc : List VerifiedBlock}
    {missing : ExtTreeSet BlockRef} {post : Accepting}
    (run : acceptReceived ctx (acc, missing, mgr) blk = .ok post) :
    ∃ blocks, post.1 = acc ++ blocks ∧
      Accepted ctx admitted mgr blocks post.2.2 ∧
      (mgr.dagState.CausallyClosed ctx → post.2.2.dagState.CausallyClosed ctx) := by
  rw [acceptReceived] at run
  dsimp only at run
  split at run
  · rename_i released mid tried
    obtain ⟨kept, sameState, cleared⟩ := tryAcceptOneBlock_cases managed inside tried
    obtain ⟨rfl, nothing⟩ := cleared released rfl
    rw [bind_eq_ok] at run
    obtain ⟨⟨blocks, final⟩, entering, run⟩ := run
    rw [pure_ok, Except.ok.injEq] at run
    subst run
    have waiting := kept.awaitRoot released.reference
    have only : ∀ other ∈ [released], other ∈ admitted := by simpa using inside
    have covered : mid.dagState.gcRound ctx < released.reference.round →
        Present mid.dagState ([released].map VerifiedBlock.reference) released.reference :=
      fun _ => .inr (by simp)
    obtain ⟨effect, -⟩ := acceptWithChildren_accepted kept.kept waiting only covered entering
    refine ⟨blocks, rfl, ⟨effect.managed, sameState ▸ effect.entered, effect.inside⟩, ?_⟩
    intro closed
    refine acceptWithChildren_closed kept.kept waiting only covered (sameState.symm ▸ closed) ?_
      entering
    apply grown_singleton.mpr
    intro anc mem above
    rw [sameState] at above ⊢
    exact .inl (mem_of_not_missing managed.kept mem above (by simp [nothing]))
  all_goals
    rename_i tried
    obtain ⟨kept, sameState, -⟩ := tryAcceptOneBlock_cases managed inside tried
    rw [pure_ok, Except.ok.injEq] at run
    subst run
    refine ⟨[], by simp, ⟨kept, ?_, by simp⟩, fun closed => sameState.symm ▸ closed⟩
    exact sameState.symm ▸ .refl _

end Received

section Committed

variable {mgr : BlockManager} {blk : VerifiedBlock}
  {idx : ExtTreeMap BlockRef (ExtTreeSet BlockRef)}

lemma stopWaiting_fold {ref : BlockRef} {ancestors : List BlockRef}
    {anc child : BlockRef} :
    (∃ kids, (ancestors.foldl (stopWaiting ref) idx)[anc]? = some kids ∧ child ∈ kids) ↔
    (∃ kids, idx[anc]? = some kids ∧ child ∈ kids) ∧
      ¬ (anc ∈ ancestors ∧ child = ref) := by
  induction ancestors generalizing idx with
  | nil => simp
  | cons first rest ih =>
    have stepped : (∃ kids, (stopWaiting ref idx first)[anc]? = some kids ∧
        child ∈ kids) ↔ (∃ kids, idx[anc]? = some kids ∧ child ∈ kids) ∧
          ¬ (anc = first ∧ child = ref) := by
      rw [stopWaiting]
      cases got : idx[first]? with
      | none =>
        by_cases same : anc = first
        · subst same
          simp [got]
        · simp [same]
      | some kids =>
        by_cases same : anc = first
        · subst same
          simp only [got, ExtTreeMap.getElem?_insert_self, Option.some.injEq,
            exists_eq_left', mem_erase_iff, true_and]
          exact and_comm
        · simp [getElem?_insert_of_ne same, same]
    rw [foldl_cons, ih, stepped, mem_cons]
    tauto

lemma Managed.unsuspend {dagState : DagState} {missingBlocks : ExtTreeSet BlockRef}
    {ref : BlockRef} (managed : mgr.Managed ctx admitted)
    (kept : Kept ctx admitted dagState)
    (entered : Entered ctx mgr.dagState blocks dagState)
    (taken : idx = mgr.suspendedBlocks[ref]?.elim mgr.missingAncestors
      fun suspended =>
        suspended.missingAncestors.toList.foldl (stopWaiting ref) mgr.missingAncestors) :
    (BlockManager.mk dagState (mgr.suspendedBlocks.erase ref) idx
      missingBlocks).Managed ctx admitted := by
  refine ⟨kept, fun anc child => ?_, fun other suspended got => ?_⟩
  · have pre := managed.waiting.agree anc child
    simp only [or_false] at pre ⊢
    have awaited : (∃ kids, idx[anc]? = some kids ∧ child ∈ kids) ↔
        mgr.Awaited anc child ∧ child ≠ ref := by
      have unawaited := managed.waiting.agree anc ref
      simp only [or_false] at unawaited
      subst taken
      cases suspends : mgr.suspendedBlocks[ref]? with
      | none =>
        have never : ¬ mgr.Awaited anc ref := by
          rw [unawaited]
          simp [Misses, suspends]
        rw [Option.elim_none]
        constructor
        · intro here
          refine ⟨here, ?_⟩
          rintro rfl
          exact never here
        · exact fun both => both.1
      | some suspended =>
        rw [Option.elim_some, stopWaiting_fold, ExtTreeSet.mem_toList]
        constructor
        · rintro ⟨here, remains⟩
          refine ⟨here, ?_⟩
          rintro rfl
          obtain ⟨other, same, missed⟩ := unawaited.mp here
          rw [suspends, Option.some.injEq] at same
          exact remains ⟨same ▸ missed, rfl⟩
        · rintro ⟨here, ne⟩
          exact ⟨here, fun both => ne both.2⟩
    rw [Awaited, awaited, pre]
    by_cases same : child = ref
    · subst same
      simp [Misses]
    · simp only [Misses, getElem?_erase_of_ne same, same, ne_eq, not_false_eq_true, and_true]
  · have ne : other ≠ ref := by
      rintro rfl
      simp at got
    dsimp only at got ⊢
    rw [getElem?_erase_of_ne ne] at got
    rw [entered.gcRound_eq]
    exact (managed.waiting.waits other suspended got).mono fun _ _ cached => entered.mem cached

end Committed

end BlockManager

end Mysticeti

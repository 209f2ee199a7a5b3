import Mysticeti.CommitEvidence
import Mysticeti.CommitServing
import Mysticeti.Lib.Word

/-!
# Serving blocks to a peer

A peer asks for blocks by reference, and says up to which round it has the blocks of each
authority when it catches up. The answer has the blocks that were found and is then filled up,
either with their ancestors that the peer lacks or with the cached blocks of the same authors
below them. Rounds and commit indices are words of 32 bits; sums of them keep the remainder.
-/

namespace Mysticeti

open List Lib.Outcome Lib.OrderedMap Lib.Word Std

def nextRound (round : Round) : Round := wrap 32 (round + 1)

namespace DagState

variable (st : DagState) (auth : AuthorityIndex)

def getCachedBlocksInRange (startRound endRound : Round) (limit : Nat) :
    Except Panic (List VerifiedBlock) :=
  if endRound ≤ startRound ∨ limit = 0 then pure []
  else (((st.recentRefsByAuthority auth).toList.filter fun ref =>
      startRound ≤ ref.round && ref.round < endRound).take limit).mapM fun ref => do
    let info ← expect st.recentBlocks[ref]? (.blockShouldExist ref)
    pure info.block

def getCachedBlocks (start : Round) : Except Panic (List VerifiedBlock) :=
  st.getCachedBlocksInRange auth start (2 ^ 32 - 1) (2 ^ 64 - 1)

end DagState

def handleSubscribeBlocks (ctx : Context) (st : DagState) (lastReceived : Round) :
    Except Panic (List VerifiedBlock) :=
  st.getCachedBlocks ctx.ownIndex (nextRound lastReceived)

def batchEnd (commitSyncBatchSize : Nat) (start : CommitIndex) : CommitIndex :=
  wrapSub 32 (wrap 32 (start + commitSyncBatchSize)) 1

structure FetchLimits where
  maxBlocksPerSync : Nat
  maxBlocksPerFetch : Nat

structure RandomChoice where
  chooseMultiple : List BlockRef → Nat → List BlockRef
  length_le : ∀ refs count, (chooseMultiple refs count).length ≤ count
  subset : ∀ refs count, chooseMultiple refs count ⊆ refs

inductive FetchError where
  | invalidSizeOfHighestAcceptedRounds (count size : Nat)
  | invalidAuthorityIndex (idx : AuthorityIndex) (max : Nat)
  | unexpectedGenesisBlockRequested
  | panic (reason : Panic)
deriving DecidableEq, Repr

structure FetchRequest where
  blockRefs : List BlockRef
  highestAcceptedRounds : List Round
  breadthFirst : Bool

namespace BlockServing

def sortDedup (refs : List BlockRef) : List BlockRef := (ExtTreeSet.ofList refs).toList

def lowestMissingRounds (blocks : List VerifiedBlock) : ExtTreeMap AuthorityIndex Round :=
  blocks.foldl (fun rounds blk =>
    rounds.insert blk.author (min (rounds[blk.author]?.getD blk.round) blk.round)) ∅

section Handler

variable (ctx : Context) (st : DagState) (next : Round → Round) (limits : FetchLimits)
  (choice : RandomChoice)

def maxResponseNumBlocks (request : FetchRequest) : Nat :=
  if request.highestAcceptedRounds.isEmpty then limits.maxBlocksPerFetch
  else limits.maxBlocksPerSync

def validateRefs : List BlockRef → Except FetchError Unit
  | [] => pure ()
  | ref :: rest => do
    ensure (ctx.committee.isValidIndex ref.author)
      (.invalidAuthorityIndex ref.author ctx.committee.size)
    ensure (ref.round ≠ GENESIS_ROUND) .unexpectedGenesisBlockRequested
    validateRefs rest

def acceptedRound (top : List Round) (auth : AuthorityIndex) : Except FetchError Round :=
  expect top[auth]? (.panic (.authorityOutOfBounds auth))

def lacks (top : List Round) (ref : BlockRef) : Except FetchError Bool := do
  let acc ← acceptedRound top ref.author
  pure (decide (acc < ref.round))

def addAncestors (top : List Round) (blocks : List VerifiedBlock) :
    Except FetchError (List VerifiedBlock) := do
  let lacking ← selectM (lacks top) (blocks.flatMap VerifiedBlock.ancestors)
  let missing := sortDedup lacking
  let selected := limits.maxBlocksPerSync - blocks.length
  let missing := if selected < missing.length then choice.chooseMultiple missing selected
    else missing
  pure (blocks ++ missing.filterMap (st.getBlock ctx))

def addPredecessors (top : List Round) :
    List (AuthorityIndex × Round) → List VerifiedBlock → Except FetchError (List VerifiedBlock)
  | [], blocks => pure blocks
  | (auth, lowest) :: rest, blocks => do
    let acc ← acceptedRound top auth
    if lowest ≤ acc then addPredecessors top rest blocks
    else
      let missing ← (st.getCachedBlocksInRange auth (next acc) lowest
        (limits.maxBlocksPerSync - blocks.length)).mapError .panic
      if limits.maxBlocksPerSync ≤ (blocks ++ missing).length then
        pure ((blocks ++ missing).take limits.maxBlocksPerSync)
      else addPredecessors top rest (blocks ++ missing)

def handleFetchBlocks (request : FetchRequest) : Except FetchError (List VerifiedBlock) := do
  let top := request.highestAcceptedRounds
  ensure (top.isEmpty ∨ top.length = ctx.committee.size)
    (.invalidSizeOfHighestAcceptedRounds top.length ctx.committee.size)
  let blockRefs := request.blockRefs.take (maxResponseNumBlocks limits request)
  validateRefs ctx blockRefs
  if top.isEmpty then pure (blockRefs.filterMap (st.getBlock ctx))
  else
    let blocks := (sortDedup blockRefs).filterMap (st.getBlock ctx)
    if request.breadthFirst then addAncestors ctx st limits choice top blocks
    else addPredecessors st next limits top (lowestMissingRounds blocks).toList blocks

end Handler

/-- The request passes the checks; its rounds are words. -/
structure Valid (ctx : Context) (limits : FetchLimits) (request : FetchRequest) : Prop where
  sized : request.highestAcceptedRounds.isEmpty ∨
    request.highestAcceptedRounds.length = ctx.committee.size
  refs : ∀ ref ∈ request.blockRefs.take (maxResponseNumBlocks limits request),
    ref.author < ctx.committee.size ∧ ref.round ≠ 0

/-- The block is above the highest accepted round of its author. -/
def Lacking (top : List Round) (blk : VerifiedBlock) : Prop :=
  ∃ acc, top[blk.author]? = some acc ∧ acc < blk.round

/-- The block was asked for, or the peer lacks it and it is an ancestor or an earlier block of
the same author of one that was asked for. -/
def Relevant (ctx : Context) (st : DagState) (request : FetchRequest) (blk : VerifiedBlock) :
    Prop :=
  blk.reference ∈ request.blockRefs ∨ Lacking request.highestAcceptedRounds blk ∧
    ∃ got, st.Holds ctx got ∧ got.reference ∈ request.blockRefs ∧
      if request.breadthFirst then blk.reference ∈ got.ancestors
      else blk.author = got.author ∧ blk.round < got.round

section Answers

variable {ctx : Context} {st : DagState} {limits : FetchLimits} {choice : RandomChoice}
  {request : FetchRequest} {top : List Round} {blocks : List VerifiedBlock}

lemma mem_sortDedup {refs : List BlockRef} {ref : BlockRef} :
    ref ∈ sortDedup refs ↔ ref ∈ refs := by
  rw [sortDedup, ExtTreeSet.mem_toList, ExtTreeSet.mem_ofList]
  simp

lemma length_sortDedup_le (refs : List BlockRef) : (sortDedup refs).length ≤ refs.length := by
  rw [sortDedup, ExtTreeSet.length_toList]
  exact ExtTreeSet.size_ofList_le

lemma exists_of_lowestMissingRounds {entry : AuthorityIndex × Round}
    (here : entry ∈ (lowestMissingRounds blocks).toList) :
    ∃ blk ∈ blocks, blk.author = entry.1 ∧ blk.round = entry.2 := by
  rw [ExtTreeMap.mem_toList_iff_getElem?_eq_some] at here
  refine foldlRecOn blocks _ (motive := fun rounds : ExtTreeMap AuthorityIndex Round =>
    ∀ entry : AuthorityIndex × Round, rounds[entry.1]? = some entry.2 →
      ∃ blk ∈ blocks, blk.author = entry.1 ∧ blk.round = entry.2) ?_ ?_ entry here
  · simp
  intro rounds known blk mem entry got
  rcases getElem?_insert_cases got with ⟨same, lowest⟩ | ⟨-, prev⟩
  · rcases Nat.le_total (rounds[blk.author]?.getD blk.round) blk.round with least | least
    · cases held : rounds[blk.author]? with
      | none => exact ⟨blk, mem, same.symm, by rw [lowest, held]; simp⟩
      | some round =>
        rw [held, Option.getD_some] at least lowest
        rw [Nat.min_eq_left least] at lowest
        exact known entry (by rw [same, held, lowest])
    · exact ⟨blk, mem, same.symm, by rw [lowest, Nat.min_eq_right least]⟩
  · exact known entry prev

lemma getCachedBlocksInRange_ok (wf : st.WellFormed ctx) (indexed : st.Indexed)
    (auth : AuthorityIndex) (startRound endRound : Round) (limit : Nat) :
    ∃ missing, st.getCachedBlocksInRange auth startRound endRound limit = .ok missing ∧
      missing.length ≤ limit ∧
      ∀ blk ∈ missing, blk.author = auth ∧ startRound ≤ blk.round ∧ blk.round < endRound := by
  rw [DagState.getCachedBlocksInRange]
  split
  · exact ⟨[], rfl, Nat.zero_le _, by simp⟩
  · have cached : ∀ ref ∈ ((st.recentRefsByAuthority auth).toList.filter fun ref =>
        startRound ≤ ref.round && ref.round < endRound).take limit,
        ∃ info, st.recentBlocks[ref]? = some info ∧ info.block.reference = ref ∧
          ref.author = auth ∧ startRound ≤ ref.round ∧ ref.round < endRound := by
      intro ref mem
      obtain ⟨here, inRange⟩ := mem_filter.mp (mem_of_mem_take mem)
      obtain ⟨held, author⟩ := (indexed auth ref).mp (ExtTreeSet.mem_toList.mp here)
      obtain ⟨info, got⟩ := getElem?_of_mem held
      rw [Bool.and_eq_true, decide_eq_true_eq, decide_eq_true_eq] at inRange
      exact ⟨info, got, wf.keyed ref info got, author, inRange⟩
    refine ⟨_, @mapM_ok _ _ _ _ _ (fun ref => ((st.recentBlocks[ref]?).map BlockInfo.block).getD
      default) fun ref mem => ?_, ?_, ?_⟩
    · obtain ⟨info, got, -⟩ := cached ref mem
      rw [got]
      rfl
    · rw [length_map]
      exact length_take_le _ _
    · intro blk mem
      obtain ⟨ref, here, rfl⟩ := List.mem_map.mp mem
      obtain ⟨info, got, rfl, range⟩ := cached ref here
      rw [got]
      exact range

lemma lacks_ok {ref : BlockRef} (inside : ref.author < top.length) :
    lacks top ref = .ok (decide (top[ref.author] < ref.round)) := by
  rw [lacks, acceptedRound, getElem?_eq_getElem inside]
  rfl

/-- What the answer must have besides its size: it begins with the blocks found, and each of the
others is allowed. -/
def Extends (limit : Nat) (allowed : VerifiedBlock → Prop) (blocks answer : List VerifiedBlock) :
    Prop :=
  answer.length ≤ limit ∧ blocks <+: answer ∧ ∀ blk ∈ answer, blk ∈ blocks ∨ allowed blk

lemma addAncestors_ok (verified : st.Verified ctx) (few : blocks.length ≤ limits.maxBlocksPerSync)
    (authors : ∀ blk ∈ blocks, ∀ anc ∈ blk.ancestors, anc.author < top.length) :
    ∃ answer, addAncestors ctx st limits choice top blocks = .ok answer ∧
      Extends limits.maxBlocksPerSync (fun blk =>
        (∃ got ∈ blocks, blk.reference ∈ got.ancestors) ∧ Lacking top blk) blocks answer := by
  have inside : ∀ ref ∈ blocks.flatMap VerifiedBlock.ancestors, ref.author < top.length := by
    intro ref mem
    obtain ⟨blk, here, anc⟩ := mem_flatMap.mp mem
    exact authors blk here ref anc
  have selects := @selectM_ok _ _ _ (lacks top)
    (fun ref => decide (top[ref.author]?.getD 0 < ref.round)) fun ref mem => by
      rw [lacks_ok (inside ref mem), getElem?_eq_getElem (inside ref mem), Option.getD_some]
  rw [addAncestors, selects, ok_bind]
  refine ⟨_, rfl, ?_, prefix_append _ _, ?_⟩
  · rw [length_append]
    refine (Nat.add_le_add_left (length_filterMap_le _ _) _).trans ?_
    split
    · have := choice.length_le (sortDedup ((blocks.flatMap VerifiedBlock.ancestors).filter
        fun ref => decide (top[ref.author]?.getD 0 < ref.round)))
        (limits.maxBlocksPerSync - blocks.length)
      omega
    · omega
  · intro blk mem
    refine (mem_append.mp mem).imp_right fun added => ?_
    obtain ⟨ref, here, got⟩ := mem_filterMap.mp added
    have chosen : ref ∈ sortDedup ((blocks.flatMap VerifiedBlock.ancestors).filter
        fun ref => decide (top[ref.author]?.getD 0 < ref.round)) := by
      split at here
      · exact choice.subset _ _ here
      · exact here
    obtain ⟨linked, lacking⟩ := mem_filter.mp (mem_sortDedup.mp chosen)
    have same := verified.keyed ref blk got
    subst same
    rw [getElem?_eq_getElem (inside _ linked), Option.getD_some, decide_eq_true_eq] at lacking
    exact ⟨mem_flatMap.mp linked, _, getElem?_eq_getElem (inside _ linked), lacking⟩

lemma addPredecessors_ok (wf : st.WellFormed ctx) (indexed : st.Indexed)
    {entries : List (AuthorityIndex × Round)} (few : blocks.length ≤ limits.maxBlocksPerSync)
    (authors : ∀ entry ∈ entries, entry.1 < top.length) :
    ∃ answer, addPredecessors st (· + 1) limits top entries blocks = .ok answer ∧
      Extends limits.maxBlocksPerSync (fun blk => ∃ entry ∈ entries, blk.author = entry.1 ∧
        blk.round < entry.2 ∧ Lacking top blk) blocks answer := by
  induction entries generalizing blocks with
  | nil => exact ⟨blocks, rfl, few, prefix_rfl, fun blk mem => .inl mem⟩
  | cons entry rest ih =>
    obtain ⟨auth, lowest⟩ := entry
    have inside : auth < top.length := authors _ mem_cons_self
    have others : ∀ entry ∈ rest, entry.1 < top.length :=
      fun entry mem => authors entry (mem_cons_of_mem _ mem)
    rw [addPredecessors, acceptedRound, getElem?_eq_getElem inside, expect_some, ok_bind]
    split
    · obtain ⟨answer, run, short, begins, each⟩ := ih few others
      exact ⟨answer, run, short, begins, fun blk mem => (each blk mem).imp_right
        fun ⟨entry, here, other⟩ => ⟨entry, mem_cons_of_mem _ here, other⟩⟩
    · obtain ⟨missing, got, size, range⟩ := getCachedBlocksInRange_ok wf indexed auth
        (top[auth] + 1) lowest (limits.maxBlocksPerSync - blocks.length)
      have fits : (blocks ++ missing).length ≤ limits.maxBlocksPerSync := by
        rw [length_append]
        omega
      have fresh : ∀ blk ∈ missing, ∃ entry ∈ (auth, lowest) :: rest, blk.author = entry.1 ∧
          blk.round < entry.2 ∧ Lacking top blk := by
        intro blk mem
        obtain ⟨rfl, above, below⟩ := range blk mem
        exact ⟨_, mem_cons_self, rfl, below, _, getElem?_eq_getElem inside, above⟩
      rw [got]
      dsimp only [Except.mapError]
      rw [ok_bind]
      split
      · refine ⟨_, rfl, length_take_le _ _, ?_, fun blk mem => ?_⟩
        · rw [take_of_length_le fits]
          exact prefix_append _ _
        · exact (mem_append.mp (mem_of_mem_take mem)).imp_right (fresh blk)
      · obtain ⟨answer, run, short, begins, each⟩ := ih fits others
        refine ⟨answer, run, short, (prefix_append _ _).trans begins, fun blk mem => ?_⟩
        rcases each blk mem with here | ⟨entry, here, other⟩
        · exact (mem_append.mp here).imp_right (fresh blk)
        · exact .inr ⟨entry, mem_cons_of_mem _ here, other⟩

/-- The sum is exact where it is used, below the round of a block. -/
lemma addPredecessors_nextRound {entries : List (AuthorityIndex × Round)}
    (words : ∀ entry ∈ entries, entry.2 < 2 ^ 32) :
    addPredecessors st nextRound limits top entries blocks =
      addPredecessors st (· + 1) limits top entries blocks := by
  induction entries generalizing blocks with
  | nil => rfl
  | cons entry rest ih =>
    obtain ⟨auth, lowest⟩ := entry
    have word : lowest < 2 ^ 32 := words _ mem_cons_self
    have others := fun blocks => @ih blocks fun entry mem => words entry (mem_cons_of_mem _ mem)
    simp only [addPredecessors, others]
    refine bind_congr fun acc => ?_
    split
    case isTrue => rfl
    case isFalse below =>
      have exact : nextRound acc = acc + 1 := wrap_of_lt (by lia)
      rw [exact]

lemma validateRefs_eq_ok {refs : List BlockRef} : validateRefs ctx refs = .ok () ↔
    ∀ ref ∈ refs, ref.author < ctx.committee.size ∧ ref.round ≠ 0 := by
  induction refs with
  | nil => simp [validateRefs]
  | cons ref rest ih =>
    rw [validateRefs, ensure_bind_eq_ok, ensure_bind_eq_ok, ih, forall_mem_cons, and_assoc,
      Committee.isValidIndex, decide_eq_true_eq]
    rfl

/-- Only a reference of the request is refused, and that is no panic. -/
lemma validateRefs_within (refs : List BlockRef) :
    Within (fun err => ∀ reason, err ≠ .panic reason) (validateRefs ctx refs) := by
  induction refs with
  | nil => exact Within.ok ()
  | cons ref rest ih =>
    exact Within.bind (Within.ensure (by simp)) fun _ =>
      Within.bind (Within.ensure (by simp)) fun _ => ih

section

variable (wf : st.WellFormed ctx) (verified : st.Verified ctx) (indexed : st.Indexed)
include wf verified indexed

lemma handleFetchBlocks_ok (valid : Valid ctx limits request) :
    ∃ answer, handleFetchBlocks ctx st (· + 1) limits choice request = .ok answer ∧
      answer.length ≤ maxResponseNumBlocks limits request ∧
      (∀ blk ∈ answer, Relevant ctx st request blk) ∧
      ∀ ref ∈ request.blockRefs.take (maxResponseNumBlocks limits request),
        ∀ blk, st.getBlock ctx ref = some blk → blk ∈ answer := by
  have few : (request.blockRefs.take (maxResponseNumBlocks limits request)).length ≤
    maxResponseNumBlocks limits request := length_take_le _ _
  have wanted : ∀ ref ∈ request.blockRefs.take (maxResponseNumBlocks limits request),
      ref ∈ request.blockRefs := fun ref mem => mem_of_mem_take mem
  rw [handleFetchBlocks, ensure_holds _ valid.sized, ok_bind]
  have checked := validateRefs_eq_ok.mpr valid.refs
  have refs := valid.refs
  generalize request.blockRefs.take (maxResponseNumBlocks limits request) = asked at *
  dsimp only
  rw [checked, ok_bind]
  split
  case isTrue unsized =>
    refine ⟨_, rfl, (length_filterMap_le _ _).trans few, fun blk mem => ?_, fun ref mem blk got =>
      mem_filterMap.mpr ⟨ref, mem, got⟩⟩
    obtain ⟨ref, here, got⟩ := mem_filterMap.mp mem
    exact .inl (verified.keyed ref blk got ▸ wanted ref here)
  case isFalse sized =>
    have limit : maxResponseNumBlocks limits request = limits.maxBlocksPerSync := if_neg sized
    have size := valid.sized.resolve_left sized
    have got : ∀ blk ∈ (sortDedup asked).filterMap (st.getBlock ctx),
        st.Holds ctx blk ∧ blk.reference ∈ asked := by
      intro blk mem
      obtain ⟨ref, here, got⟩ := mem_filterMap.mp mem
      have same := verified.keyed ref blk got
      subst same
      exact ⟨got, mem_sortDedup.mp here⟩
    have all : ∀ ref ∈ asked, ∀ blk, st.getBlock ctx ref = some blk →
        blk ∈ (sortDedup asked).filterMap (st.getBlock ctx) :=
      fun ref mem blk got => mem_filterMap.mpr ⟨ref, mem_sortDedup.mpr mem, got⟩
    have short : ((sortDedup asked).filterMap (st.getBlock ctx)).length ≤ limits.maxBlocksPerSync :=
      (length_filterMap_le _ _).trans ((length_sortDedup_le _).trans (few.trans limit.le))
    generalize (sortDedup asked).filterMap (st.getBlock ctx) = blocks at *
    rw [limit]
    split
    case isTrue breadth =>
      obtain ⟨answer, run, size, begins, each⟩ := @addAncestors_ok ctx st limits choice
        request.highestAcceptedRounds blocks verified short fun blk mem anc here => by
          rw [size]
          exact (verified.valid blk.reference blk (Nat.pos_of_ne_zero (refs _ (got blk mem).2).2)
            (got blk mem).1).ancestorAuthor anc here
      refine ⟨answer, run, size, fun blk mem => ?_, fun ref mem blk held =>
        begins.subset (all ref mem blk held)⟩
      rcases each blk mem with here | ⟨⟨root, here, linked⟩, lacking⟩
      · exact .inl (wanted _ (got blk here).2)
      · exact .inr ⟨lacking, root, (got root here).1, wanted _ (got root here).2,
          by rwa [if_pos breadth]⟩
    case isFalse depth =>
      obtain ⟨answer, run, size, begins, each⟩ := @addPredecessors_ok ctx st limits
        request.highestAcceptedRounds blocks wf indexed (lowestMissingRounds blocks).toList
        short fun entry here => by
          obtain ⟨blk, mem, author, -⟩ := exists_of_lowestMissingRounds here
          rw [size, ← author]
          exact (refs _ (got blk mem).2).1
      refine ⟨answer, run, size, fun blk mem => ?_, fun ref mem blk held =>
        begins.subset (all ref mem blk held)⟩
      rcases each blk mem with here | ⟨entry, here, author, below, lacking⟩
      · exact .inl (wanted _ (got blk here).2)
      · obtain ⟨root, rooted, same, lowest⟩ := exists_of_lowestMissingRounds here
        exact .inr ⟨lacking, root, (got root rooted).1, wanted _ (got root rooted).2,
          by rw [if_neg depth, author, same, lowest]; exact ⟨rfl, below⟩⟩

end

lemma handleFetchBlocks_nextRound (verified : st.Verified ctx)
    (words : ∀ ref ∈ request.blockRefs, ref.round < 2 ^ 32) :
    handleFetchBlocks ctx st nextRound limits choice request =
      handleFetchBlocks ctx st (· + 1) limits choice request := by
  unfold handleFetchBlocks
  dsimp only
  rw [addPredecessors_nextRound]
  intro entry here
  obtain ⟨blk, mem, -, round⟩ := exists_of_lowestMissingRounds here
  obtain ⟨ref, asked, got⟩ := mem_filterMap.mp mem
  have same := verified.keyed ref blk got
  subst same
  exact round ▸ words _ (mem_of_mem_take (mem_sortDedup.mp asked))

/-- A valid request is answered within its limit, with what was asked for and found, and
otherwise only with what can help. -/
theorem handleFetchBlocks_answers (choice : RandomChoice) (wf : st.WellFormed ctx)
    (verified : st.Verified ctx) (indexed : st.Indexed) (valid : Valid ctx limits request)
    (words : ∀ ref ∈ request.blockRefs, ref.round < 2 ^ 32) :
    ∃ answer, handleFetchBlocks ctx st nextRound limits choice request = .ok answer ∧
      answer.length ≤ maxResponseNumBlocks limits request ∧
      (∀ blk ∈ answer, Relevant ctx st request blk) ∧
      ∀ ref ∈ request.blockRefs.take (maxResponseNumBlocks limits request),
        ∀ blk, st.getBlock ctx ref = some blk → blk ∈ answer := by
  rw [handleFetchBlocks_nextRound verified words]
  exact handleFetchBlocks_ok wf verified indexed valid

lemma handleFetchBlocks_no_panic (wf : st.WellFormed ctx) (verified : st.Verified ctx)
    (indexed : st.Indexed) (reason : Panic) :
    handleFetchBlocks ctx st (· + 1) limits choice request ≠ .error (.panic reason) := by
  intro panics
  by_cases sized : request.highestAcceptedRounds.isEmpty = true ∨
      request.highestAcceptedRounds.length = ctx.committee.size
  · have checks := @validateRefs_within ctx
      (request.blockRefs.take (maxResponseNumBlocks limits request))
    cases run : validateRefs ctx
        (request.blockRefs.take (maxResponseNumBlocks limits request)) with
    | ok =>
      obtain ⟨answer, ret, -⟩ := @handleFetchBlocks_ok ctx st limits choice request wf
        verified indexed ⟨sized, validateRefs_eq_ok.mp run⟩
      rw [ret] at panics
      cases panics
    | error err =>
      rw [handleFetchBlocks, ensure_holds _ sized, ok_bind] at panics
      dsimp only at panics
      rw [run, error_bind] at panics
      exact checks err run reason (Except.error.inj panics)
  · rw [handleFetchBlocks, ensure, if_neg sized] at panics
    cases panics

/-- The sums of the handlers are exact, and nothing panics, unless the subscriber names the last
round or the batch of commits reaches past the last index. -/
theorem sums_exact_iff (choice : RandomChoice) (limits : FetchLimits) (request : FetchRequest)
    (wf : st.WellFormed ctx) (verified : st.Verified ctx) (indexed : st.Indexed)
    (words : ∀ ref ∈ request.blockRefs, ref.round < 2 ^ 32) (lastReceived : Round)
    {commitSyncBatchSize : Nat} {start : CommitIndex} (pos : 0 < commitSyncBatchSize) :
    (nextRound lastReceived = lastReceived + 1 ∧
      wrap 32 (start + commitSyncBatchSize) = start + commitSyncBatchSize ∧
      batchEnd commitSyncBatchSize start + 1 = start + commitSyncBatchSize ∧
      handleFetchBlocks ctx st nextRound limits choice request =
        handleFetchBlocks ctx st (· + 1) limits choice request ∧
      (∀ reason, handleFetchBlocks ctx st nextRound limits choice request ≠
        .error (.panic reason)) ∧
      ∃ missed, handleSubscribeBlocks ctx st lastReceived = .ok missed) ↔
    lastReceived + 1 < 2 ^ 32 ∧ start + commitSyncBatchSize < 2 ^ 32 := by
  have same := @handleFetchBlocks_nextRound ctx st limits choice request verified words
  obtain ⟨missed, subscribed, -⟩ := getCachedBlocksInRange_ok wf indexed ctx.ownIndex
    (nextRound lastReceived) (2 ^ 32 - 1) (2 ^ 64 - 1)
  have quiet : ∀ reason, handleFetchBlocks ctx st nextRound limits choice request ≠
      .error (.panic reason) := by
    rw [same]
    exact handleFetchBlocks_no_panic wf verified indexed
  constructor
  · rintro ⟨next, batch, -⟩
    exact ⟨wrap_eq_self_iff.mp next, wrap_eq_self_iff.mp batch⟩
  · rintro ⟨next, batch⟩
    refine ⟨wrap_of_lt next, wrap_of_lt batch, ?_, same, quiet, missed, subscribed⟩
    rw [batchEnd, wrapSub_wrap (by lia) (by decide), wrap_of_lt (by lia)]
    lia

end Answers

lemma testState_indexed {ownIndex : Fin 4} {blocks : List VerifiedBlock} :
    (DagState.testState ownIndex blocks).Indexed := by
  unfold DagState.testState
  cases run : DagState.initial.acceptBlocks (Context.newForTest ownIndex) blocks with
  | error err => exact DagState.initial_indexed
  | ok st =>
    exact foldlM_preserves run DagState.initial_indexed fun st blk next _ indexed acc =>
      indexed.acceptBlock acc

def firstOnes : RandomChoice where
  chooseMultiple refs count := refs.take count
  length_le _ _ := length_take_le _ _
  subset _ _ := take_subset _ _

def oneBlock : FetchRequest := ⟨[testRef 3 0], [1, 1, 1, 1], true⟩

theorem handleFetchBlocks_answers_oneBlock :
    let ctx := Context.newForTest firstAuthority
    let st := DagState.testState firstAuthority DagState.threeRounds
    ∃ answer, handleFetchBlocks ctx st nextRound ⟨3, 3⟩ firstOnes oneBlock = .ok answer ∧
      answer.length = 3 ∧ ∀ blk ∈ answer, Relevant ctx st oneBlock blk := by
  intro ctx st
  have backed := @DagState.backed_of_unwritten ctx st (by decide +kernel)
  have wf : st.WellFormed ctx := DagState.testState_wellFormed (by decide +kernel)
  obtain ⟨answer, run, -, relevant, -⟩ := @handleFetchBlocks_answers ctx st ⟨3, 3⟩ oneBlock
    firstOnes wf (wf.verified backed.keyed backed.valid) testState_indexed
    ⟨.inr rfl, by decide +kernel⟩ (by decide +kernel)
  have counted : (handleFetchBlocks ctx st nextRound ⟨3, 3⟩ firstOnes oneBlock).map length =
      .ok 3 := by decide +kernel
  rw [run] at counted
  exact ⟨answer, run, Except.ok.inj counted, relevant⟩

theorem sums_exact_oneBlock :
    let ctx := Context.newForTest firstAuthority
    let st := DagState.testState firstAuthority DagState.threeRounds
    nextRound 2 = 3 ∧ ∃ missed, handleSubscribeBlocks ctx st 2 = .ok missed := by
  intro ctx st
  have backed := @DagState.backed_of_unwritten ctx st (by decide +kernel)
  have wf : st.WellFormed ctx := DagState.testState_wellFormed (by decide +kernel)
  obtain ⟨next, -, -, -, -, missed⟩ := (@sums_exact_iff ctx st firstOnes ⟨3, 3⟩ oneBlock wf
    (wf.verified backed.keyed backed.valid) testState_indexed (by decide +kernel) 2 100 1
    (by decide)).mpr (by decide)
  exact ⟨next, missed⟩

/-- After the last round all own blocks are sent again, and a batch that ends past the last
index ends before it begins. -/
theorem sums_wrap :
    let ctx := Context.newForTest firstAuthority
    let st := DagState.testState firstAuthority DagState.threeRounds
    nextRound (2 ^ 32 - 1) = 0 ∧
      (handleSubscribeBlocks ctx st (2 ^ 32 - 1)).map length = .ok 3 ∧
      st.getCachedBlocks ctx.ownIndex (2 ^ 32 - 1 + 1) = .ok [] ∧
      batchEnd 100 (2 ^ 32 - 50) = 49 := by
  decide +kernel

end BlockServing

end Mysticeti

import Mysticeti.TransactionCertifier

/-!
# The commit finalizer

Commits arrive one after the other and leave, in the same order, once each of their transactions is
finalized or rejected. A transaction without reject votes is finalized directly, one with a quorum
of them is rejected; the others are pending until a quorum of the blocks in the commits so far
accepts them, or a quorum rejects them, or a leader three rounds higher commits.

Other tasks add blocks to the certifier between any two of its accesses; what they do before each
of the next ones is a part of the state, `updates`. The tasks that process the pending blocks of a
commit in parallel read the same state, so that one loop stands for them.
-/

namespace Mysticeti

open Lib.Outcome Lib.OrderedMap Std

/-- For a transaction committed with a leader, the number of rounds after which a later
leader rejects it, if it is not finalized by then. -/
def INDIRECT_REJECT_DEPTH : Round := 3

inductive FinalizerPanic where
  /-- The commit does not follow the last one processed. -/
  | commitNotConsecutive (want actual : CommitIndex)
  | noPendingBlocks
  | commitNotFound (pos : Nat)
  /-- The commit was not processed through direct finalization. -/
  | pendingBlocksLeft
  /-- No vote info found for the block. -/
  | voteInfoNotFound (blk : BlockRef)
  /-- A pending transaction has no reject votes. -/
  | rejectVotesNotFound (blk : BlockRef) (transaction : TransactionIndex)
  /-- The block is either incorrectly collected or was not recovered. -/
  | blockStateNotFound (blk : BlockRef)
  /-- A block without ancestors. -/
  | noAncestor (blk : BlockRef)
  /-- Pending should not be after current. -/
  | pendingAfterCurrent (pending current : CommitIndex)
  /-- The garbage-collection round of a commit is unknown. -/
  | gcRoundNotFound (commit : CommitIndex)
  | commitIndexMismatch (got want : CommitIndex)
  /-- The certifier cannot collect higher than the DAG state. -/
  | certifierGcTooHigh (gcRound dagStateGcRound : Round)
  /-- A traversal ran longer than the bound the model gives it. -/
  | outOfFuel
deriving DecidableEq, Repr

abbrev TransactionSet := ExtTreeMap BlockRef (ExtTreeSet TransactionIndex)

def TransactionSet.extend (txs : TransactionSet) (blockRef : BlockRef)
    (indices : List TransactionIndex) : TransactionSet :=
  txs.insert blockRef (indices.foldl (fun known idx => known.insert idx)
    ((txs[blockRef]?).getD ∅))

structure CommitState where
  commit : CommittedSubDag
  /-- All blocks of the commit with their numbers of transactions, before direct
  finalization; empty afterwards. -/
  pendingBlocks : ExtTreeMap BlockRef Nat
  pendingTransactions : TransactionSet
  rejectedTransactions : TransactionSet

namespace CommitState

def new (commit : CommittedSubDag) : Except FinalizerPanic CommitState := do
  let pendingBlocks : ExtTreeMap BlockRef Nat := commit.blocks.foldl (fun pending blk =>
    pending.insert blk.reference blk.block.inner.transactions.length) ∅
  ensure (pendingBlocks.isEmpty = false) .noPendingBlocks
  pure { commit, pendingBlocks, pendingTransactions := ∅, rejectedTransactions := ∅ }

variable (st : CommitState)

def removePendingTransactions (blockRef : BlockRef)
    (txs : List TransactionIndex) : CommitState :=
  match st.pendingTransactions[blockRef]? with
  | none => st
  | some pending =>
    let left := txs.foldl (fun pending idx => pending.erase idx) pending
    if left.isEmpty then
      { st with pendingTransactions := st.pendingTransactions.erase blockRef }
    else { st with pendingTransactions := st.pendingTransactions.insert blockRef left }

def rejectTransactions (blockRef : BlockRef)
    (txs : List TransactionIndex) : CommitState :=
  { st with
    rejectedTransactions := st.rejectedTransactions.extend blockRef txs }

def movePendingTransactions (moved : BlockRef × List TransactionIndex) : CommitState :=
  (st.removePendingTransactions moved.1 moved.2).rejectTransactions moved.1 moved.2

/-- A transaction with a quorum of reject votes is rejected, one with fewer is pending. -/
def settle (comm : Committee) (blockRef : BlockRef) (st : CommitState)
    (vote : TransactionIndex × Stake) : CommitState :=
  if vote.2 < comm.quorumThreshold then
    { st with
      pendingTransactions := st.pendingTransactions.extend blockRef [vote.1] }
  else st.rejectTransactions blockRef [vote.1]

end CommitState

structure BlockState where
  block : VerifiedBlock
  children : ExtTreeSet BlockRef
  rejectVotes : TransactionSet
  /-- The committed blocks that reach this one along first ancestors of its author. -/
  originDescendants : List BlockRef
  commitIndex : CommitIndex

def BlockState.new (blk : VerifiedBlock) (commitIndex : CommitIndex) : BlockState :=
  { block := blk
    children := ∅
    rejectVotes := blk.block.inner.transactionVotes.foldl (fun votes blockVotes =>
      votes.insert blockVotes.blockRef (blockVotes.rejects.foldl
        (fun known idx => known.insert idx) ∅)) ∅
    originDescendants := []
    commitIndex }

abbrev BlockMap := ExtTreeMap BlockRef BlockState

structure CommitFinalizer where
  /-- The protocol value `consensus_skip_gced_accept_votes`. -/
  skipGcedAcceptVotes : Bool
  certifier : CertifierState
  /-- What other tasks do to the certifier before each of its next accesses. -/
  updates : List (List CertifierUpdate)
  lastProcessedCommit : Option CommitIndex
  pendingCommits : List CommitState
  blocks : BlockMap

def calculateGcRound (ctx : Context) (commitRound : Round) : Round :=
  commitRound - ctx.protocolConfig.gcDepth

namespace CommitFinalizer

def new (skipGcedAcceptVotes : Bool) (certifier : CertifierState)
    (updates : List (List CertifierUpdate)) : CommitFinalizer :=
  { skipGcedAcceptVotes
    certifier
    updates
    lastProcessedCommit := none
    pendingCommits := []
    blocks := ∅ }

variable (ctx : Context)

def yield (fin : CommitFinalizer) : CommitFinalizer :=
  { fin with
    certifier := (fin.updates.headD []).foldl
      (fun certifier update => (update.apply ctx.committee certifier).1) fin.certifier
    updates := fin.updates.tail }

def getRejectVotes (fin : CommitFinalizer) (blockRef : BlockRef) :
    Except FinalizerPanic (List (TransactionIndex × Stake) × CommitFinalizer) := do
  let fin := fin.yield ctx
  let votes ← expect (fin.certifier.getRejectVotes blockRef) (.voteInfoNotFound blockRef)
  pure (votes, fin)

section Direct

def settleBlock (settled : CommitFinalizer × CommitState) (blockRef : BlockRef) :
    Except FinalizerPanic (CommitFinalizer × CommitState) := do
  let (votes, fin) ← settled.1.getRejectVotes ctx blockRef
  pure (fin, votes.foldl (CommitState.settle ctx.committee blockRef) settled.2)

def tryDirectFinalizeCommit (fin : CommitFinalizer) (pos : Nat) :
    Except FinalizerPanic CommitFinalizer := do
  let commitState ← expect fin.pendingCommits[pos]? (.commitNotFound pos)
  ensure (commitState.pendingBlocks.isEmpty = false) .noPendingBlocks
  let (fin, commitState) ← commitState.pendingBlocks.keys.foldlM (settleBlock ctx)
    (fin, { commitState with pendingBlocks := ∅ })
  pure { fin with pendingCommits := fin.pendingCommits.set pos commitState }

def waitsForCertificate (commitState lastCommitState : CommitState) : Bool :=
  !commitState.commit.decidedWithLocalBlocks &&
    lastCommitState.commit.leader.round < commitState.commit.leader.round + DEFAULT_WAVE_LENGTH

def tryDirectFinalizeCommits : List Nat → CommitFinalizer → Except FinalizerPanic CommitFinalizer
  | [], fin => pure fin
  | pos :: rest, fin => do
    let commitState ← expect fin.pendingCommits[pos]? (.commitNotFound pos)
    if commitState.pendingBlocks.isEmpty then tryDirectFinalizeCommits rest fin
    else
      let lastCommitState ← expect fin.pendingCommits.getLast? (.commitNotFound pos)
      if waitsForCertificate commitState lastCommitState then pure fin
      else
        let fin ← tryDirectFinalizeCommit ctx fin pos
        tryDirectFinalizeCommits rest fin

end Direct

section Links

def blocksByRound (commit : CommittedSubDag) : List VerifiedBlock :=
  commit.blocks.insertionSort fun left right => left.round ≤ right.round

def linkAncestor (blockRef : BlockRef) (blocks : BlockMap) (anc : BlockRef) : BlockMap :=
  match blocks[anc]? with
  | none => blocks
  | some st => blocks.insert anc { st with children := st.children.insert blockRef }

def linkBlock (commitIndex : CommitIndex) (blocks : BlockMap) (blk : VerifiedBlock) : BlockMap :=
  let linked := blk.ancestors.foldl (linkAncestor blk.reference) blocks
  if linked.contains blk.reference then linked
  else linked.insert blk.reference (.new blk commitIndex)

def linkBlocksInLastCommit (fin : CommitFinalizer) : Except FinalizerPanic CommitFinalizer := do
  let commitState ← expect fin.pendingCommits.getLast? (.commitNotFound 0)
  pure { fin with
    blocks := (blocksByRound commitState.commit).foldl
      (linkBlock commitState.commit.commitRef.index) fin.blocks }

def firstAncestor (st : BlockState) : Except FinalizerPanic BlockRef :=
  expect st.block.ancestors.head? (.noAncestor st.block.reference)

/-- Walk down the first ancestors of a block, as far as they have its author and a state, and
note the block as a descendant of each. -/
def noteOriginDescendant (blockRef : BlockRef) :
    Nat → BlockRef → BlockMap → Except FinalizerPanic BlockMap
  | 0, _, _ => .error .outOfFuel
  | fuel + 1, originAncestor, blocks =>
    if originAncestor.author ≠ blockRef.author then pure blocks
    else
      match blocks[originAncestor]? with
      | none => pure blocks
      | some st => do
        let next ← firstAncestor st
        noteOriginDescendant blockRef fuel next (blocks.insert originAncestor
          { st with originDescendants := st.originDescendants ++ [blockRef] })

def appendOriginDescendants (blocks : BlockMap) (blk : VerifiedBlock) :
    Except FinalizerPanic BlockMap := do
  let st ← expect blocks[blk.reference]? (.blockStateNotFound blk.reference)
  let originAncestor ← firstAncestor st
  noteOriginDescendant blk.reference (blk.round + 1) originAncestor blocks

def appendOriginDescendantsFromLastCommit (fin : CommitFinalizer) :
    Except FinalizerPanic CommitFinalizer := do
  let commitState ← expect fin.pendingCommits.getLast? (.commitNotFound 0)
  let blocks ← (blocksByRound commitState.commit).foldlM appendOriginDescendants fin.blocks
  pure { fin with blocks }

end Links

section Indirect

def rejectedNow (blockRef : BlockRef) (votes : List (TransactionIndex × Stake))
    (pending : ExtTreeSet TransactionIndex) :
    Except FinalizerPanic (List TransactionIndex) :=
  pending.toList.foldlM (fun rejected idx => do
    let vote ← expect (votes.find? fun vote => vote.1 = idx)
      (.rejectVotesNotFound blockRef idx)
    if vote.2 < ctx.committee.quorumThreshold then pure rejected
    else pure (rejected ++ [idx])) []

def checkPendingBlock
    (checked : CommitFinalizer × List (BlockRef × List TransactionIndex))
    (entry : BlockRef × ExtTreeSet TransactionIndex) :
    Except FinalizerPanic (CommitFinalizer × List (BlockRef × List TransactionIndex)) := do
  let (votes, fin) ← checked.1.getRejectVotes ctx entry.1
  let rejected ← rejectedNow ctx entry.1 votes entry.2
  if rejected.isEmpty then pure (fin, checked.2)
  else pure (fin, checked.2 ++ [(entry.1, rejected)])

def checkPendingTransactionsInFirstCommit (fin : CommitFinalizer) :
    Except FinalizerPanic CommitFinalizer := do
  let commitState ← expect fin.pendingCommits[0]? (.commitNotFound 0)
  let (fin, rejected) ← commitState.pendingTransactions.toList.foldlM
    (checkPendingBlock ctx) (fin, [])
  let commitState := rejected.foldl CommitState.movePendingTransactions commitState
  pure { fin with pendingCommits := fin.pendingCommits.set 0 commitState }

def gcedTransactionVotesForPendingBlock (gcRounds : List (CommitIndex × Round))
    (pendingBlockRound : Round) (pendingCommitIndex currentCommitIndex : CommitIndex) :
    Except FinalizerPanic Bool := do
  ensure (pendingCommitIndex ≤ currentCommitIndex)
    (.pendingAfterCurrent pendingCommitIndex currentCommitIndex)
  if pendingCommitIndex = currentCommitIndex then pure false
  else
    let (commitIndex, gcRound) ← expect
      gcRounds[currentCommitIndex - 1 - pendingCommitIndex]? (.gcRoundNotFound currentCommitIndex)
    ensure (commitIndex = currentCommitIndex - 1)
      (.commitIndexMismatch commitIndex currentCommitIndex)
    pure (decide (pendingBlockRound ≤ gcRound))

structure VoteSearch where
  acceptVotes : ExtTreeMap TransactionIndex StakeAggregator
  finalizedTransactions : List TransactionIndex
  toVisitBlocks : ExtTreeSet BlockRef
  visited : ExtTreeSet BlockRef
  ignored : ExtTreeSet BlockRef

/-- The vote of one block on one transaction, with the transactions it finalizes. -/
def countAccept (author : AuthorityIndex) (rejects : ExtTreeSet TransactionIndex)
    (counted : ExtTreeMap TransactionIndex StakeAggregator × List TransactionIndex)
    (entry : TransactionIndex × StakeAggregator) :
    ExtTreeMap TransactionIndex StakeAggregator × List TransactionIndex :=
  if rejects.contains entry.1 then counted
  else
    let (stake, final) := entry.2.add author ctx.committee
    (counted.1.insert entry.1 stake, if final then counted.2 ++ [entry.1] else counted.2)

/-- The vote of one block on the transactions that are not finalized yet. -/
def countAccepts (author : AuthorityIndex) (rejects : ExtTreeSet TransactionIndex)
    (search : VoteSearch) : VoteSearch :=
  let (acceptVotes, newlyFinalized) :=
    search.acceptVotes.toList.foldl (countAccept ctx author rejects) (search.acceptVotes, [])
  { search with
    acceptVotes := newlyFinalized.foldl (fun votes idx => votes.erase idx) acceptVotes
    finalizedTransactions := search.finalizedTransactions ++ newlyFinalized }

def visitChildren (st : BlockState) (search : VoteSearch) : VoteSearch :=
  { search with
    toVisitBlocks := (st.children.toList.filter fun child =>
        !search.visited.contains child).foldl (fun blocks child => blocks.insert child)
      search.toVisitBlocks }

section Search

variable (skipGcedAcceptVotes : Bool) (blocks : BlockMap) (gcRounds : List (CommitIndex × Round))
  (pendingBlockRef : BlockRef) (pendingCommitIndex : CommitIndex)

/-- Visit a block, and count its votes unless it is an origin descendant of a counted one.
The search is over when no transaction is left. -/
def visitBlock (search : VoteSearch) (currBlockRef : BlockRef) :
    Except FinalizerPanic (VoteSearch × Bool) := do
  let st ← expect blocks[currBlockRef]? (.blockStateNotFound currBlockRef)
  let votesGced ← gcedTransactionVotesForPendingBlock gcRounds pendingBlockRef.round
    pendingCommitIndex st.commitIndex
  if search.ignored.contains currBlockRef then pure (visitChildren st search, false)
  else
    let marked := { search with
      ignored := st.originDescendants.foldl (fun blocks blk => blocks.insert blk)
        (search.ignored.insert currBlockRef) }
    if skipGcedAcceptVotes && votesGced then pure (marked, false)
    else
      let counted := countAccepts ctx currBlockRef.author
        ((st.rejectVotes[pendingBlockRef]?).getD ∅) marked
      if counted.acceptVotes.isEmpty then pure (counted, true)
      else pure (visitChildren st counted, false)

/-- Visit blocks in the order of their references, each once. -/
def searchVotes : Nat → VoteSearch → Except FinalizerPanic (List TransactionIndex)
  | 0, _ => .error .outOfFuel
  | fuel + 1, search =>
    match search.toVisitBlocks.min? with
    | none => pure search.finalizedTransactions
    | some currBlockRef =>
      let popped := { search with toVisitBlocks := search.toVisitBlocks.erase currBlockRef }
      if search.visited.contains currBlockRef then searchVotes fuel popped
      else do
        let (search, finished) ← visitBlock ctx skipGcedAcceptVotes blocks gcRounds
          pendingBlockRef pendingCommitIndex
          { popped with visited := search.visited.insert currBlockRef } currBlockRef
        if finished then pure search.finalizedTransactions else searchVotes fuel search

end Search

def tryIndirectFinalizePendingTransactionsInBlock (skipGcedAcceptVotes : Bool)
    (blocks : BlockMap) (gcRounds : List (CommitIndex × Round)) (pendingBlockRef : BlockRef)
    (pendingTransactions : ExtTreeSet TransactionIndex) :
    Except FinalizerPanic (List TransactionIndex) :=
  if pendingTransactions.isEmpty then pure []
  else do
    let st ← expect blocks[pendingBlockRef]? (.blockStateNotFound pendingBlockRef)
    searchVotes ctx skipGcedAcceptVotes blocks gcRounds pendingBlockRef st.commitIndex
      (blocks.size + 2)
      { acceptVotes := pendingTransactions.toList.foldl (fun votes idx => votes.insert idx .new) ∅
        finalizedTransactions := []
        toVisitBlocks := st.children
        visited := ∅
        ignored := ∅ }

variable (fin : CommitFinalizer)

def pendingGcRounds : List (CommitIndex × Round) :=
  fin.pendingCommits.map fun st =>
    (st.commit.commitRef.index, calculateGcRound ctx st.commit.leader.round)

def tryIndirectFinalizePendingTransactionsInFirstCommit :
    Except FinalizerPanic CommitFinalizer := do
  let commitState ← expect fin.pendingCommits[0]? (.commitNotFound 0)
  let finalized ← commitState.pendingTransactions.toList.foldlM (fun finalized entry => do
    let indices ← tryIndirectFinalizePendingTransactionsInBlock ctx
      fin.skipGcedAcceptVotes fin.blocks (fin.pendingGcRounds ctx)
      entry.1 entry.2
    if indices.isEmpty then pure finalized
    else pure (finalized ++ [(entry.1, indices)])) []
  let commitState := finalized.foldl (fun (st : CommitState) entry =>
    st.removePendingTransactions entry.1 entry.2) commitState
  pure { fin with pendingCommits := fin.pendingCommits.set 0 commitState }

def tryIndirectRejectPendingTransactionsInFirstCommit : Except FinalizerPanic CommitFinalizer := do
  let commitState ← expect fin.pendingCommits[0]? (.commitNotFound 0)
  let lastCommitState ← expect fin.pendingCommits.getLast? (.commitNotFound 0)
  if commitState.commit.leader.round + INDIRECT_REJECT_DEPTH ≤
      lastCommitState.commit.leader.round then do
    ensure commitState.pendingBlocks.isEmpty .pendingBlocksLeft
    let rejected := commitState.pendingTransactions.toList.foldl (fun (st : CommitState) entry =>
      st.rejectTransactions entry.1 entry.2.toList)
      { commitState with pendingTransactions := ∅ }
    pure { fin with pendingCommits := fin.pendingCommits.set 0 rejected }
  else pure fin

def tryIndirectFinalizeFirstCommit : Except FinalizerPanic CommitFinalizer := do
  let commitState ← expect fin.pendingCommits[0]? (.commitNotFound 0)
  ensure commitState.pendingBlocks.isEmpty .pendingBlocksLeft
  let fin ← checkPendingTransactionsInFirstCommit ctx fin
  let fin ← tryIndirectFinalizePendingTransactionsInFirstCommit ctx fin
  tryIndirectRejectPendingTransactionsInFirstCommit fin

end Indirect

section Output

def setRejected (commit : CommittedSubDag)
    (entry : BlockRef × ExtTreeSet TransactionIndex) : CommittedSubDag :=
  { commit with
    rejectedTransactionsByBlock := List.orderedInsert
      (fun left right => (compare left.1 right.1).isLE = true) (entry.1, entry.2.toList)
      (commit.rejectedTransactionsByBlock.filter fun other => other.1 ≠ entry.1) }

def finalizedCommit (st : CommitState) : CommittedSubDag :=
  st.rejectedTransactions.toList.foldl setRejected st.commit

/-- Commits leave from the front as long as nothing in them is pending. -/
def popFrom : List CommitState → BlockMap → List CommittedSubDag × List CommitState × BlockMap
  | [], blocks => ([], [], blocks)
  | st :: rest, blocks =>
    if !st.pendingBlocks.isEmpty || !st.pendingTransactions.isEmpty then
      ([], st :: rest, blocks)
    else
      let commit := finalizedCommit st
      let (finalized, pending, blocks) := popFrom rest
        (commit.blocks.foldl (fun blocks blk => blocks.erase blk.reference) blocks)
      (commit :: finalized, pending, blocks)

variable (fin : CommitFinalizer)

def popFinalizedCommits : List CommittedSubDag × CommitFinalizer :=
  let (finalized, pendingCommits, blocks) := popFrom fin.pendingCommits fin.blocks
  (finalized, { fin with pendingCommits, blocks })

def tryIndirectFinalizeCommits :
    Nat → CommitFinalizer → Except FinalizerPanic (List CommittedSubDag × CommitFinalizer)
  | 0, _ => .error .outOfFuel
  | fuel + 1, fin =>
    match fin.pendingCommits with
    | first :: _ :: _ =>
      if !first.pendingBlocks.isEmpty then pure ([], fin)
      else do
        let fin ← tryIndirectFinalizeFirstCommit ctx fin
        let (popped, fin) := fin.popFinalizedCommits
        if popped.isEmpty then pure ([], fin)
        else
          let (finalized, fin) ← tryIndirectFinalizeCommits fuel fin
          pure (popped ++ finalized, fin)
    | _ => pure ([], fin)

def processCommit (committedSubDag : CommittedSubDag) :
    Except FinalizerPanic (List CommittedSubDag × CommitFinalizer) := do
  if let some last := fin.lastProcessedCommit then
    ensure (last + 1 = committedSubDag.commitRef.index)
      (.commitNotConsecutive (last + 1) committedSubDag.commitRef.index)
  let commitState ← CommitState.new committedSubDag
  let fin := { fin with
    lastProcessedCommit := some committedSubDag.commitRef.index
    pendingCommits := fin.pendingCommits ++ [commitState] }
  let fin ← tryDirectFinalizeCommits ctx
    (List.range fin.pendingCommits.length) fin
  let (direct, fin) := fin.popFinalizedCommits
  if fin.pendingCommits.isEmpty then pure (direct, fin)
  else
    let fin ← fin.linkBlocksInLastCommit
    let fin ← fin.appendOriginDescendantsFromLastCommit
    let (indirect, fin) ← tryIndirectFinalizeCommits ctx
      (fin.pendingCommits.length + 1) fin
    pure (direct ++ indirect, fin)

def tryUpdateGcRound (dagStateGcRound : Round)
    (lastFinalizedCommitRound : Round) : Except FinalizerPanic CommitFinalizer := do
  let gcRound := calculateGcRound ctx lastFinalizedCommitRound
  ensure (gcRound ≤ dagStateGcRound) (.certifierGcTooHigh gcRound dagStateGcRound)
  let fin := fin.yield ctx
  pure { fin with certifier := fin.certifier.updateGcRound gcRound }

/-- The body of the loop in `run`: what is sent on for a commit that is received. The last
argument is the garbage-collection round of the DAG state at that time. -/
def receive (committedSubDag : CommittedSubDag)
    (dagStateGcRound : Round) :
    Except FinalizerPanic (List CommittedSubDag × CommitFinalizer) := do
  let alreadyFinalized := !ctx.protocolConfig.mysticetiFastpath ||
    committedSubDag.recoveredRejectedTransactions
  let (finalizedCommits, fin) ←
    if !alreadyFinalized then fin.processCommit ctx committedSubDag
    else pure ([committedSubDag], fin)
  match finalizedCommits.getLast? with
  | none => pure ([], fin)
  | some last =>
    let fin ← fin.tryUpdateGcRound ctx dagStateGcRound last.leader.round
    pure (finalizedCommits, fin)

end Output

end CommitFinalizer

end Mysticeti

import Mysticeti.BlockVerifier
import Mysticeti.LeaderScoring

/-!
# The state of the DAG

`DagState` caches the recent blocks of every authority with their commit and
inclusion flags, buffers what the next flush will persist, and remembers the last
commit, from which the garbage-collection round follows. The functions below are the
operations of the implementation in its order of effects; metrics, logging and the
wall-clock fields that only feed metrics are left out.

Vectors with one entry for each authority are functions of the authority index; a
write at an index outside the committee is the panic the implementation's indexing
would be.
-/

namespace Mysticeti

open Lib.Outcome Lib.OrderedMap Std

/-- Advances with the rounds in which a quorum of blocks was accepted. -/
structure ThresholdClock where
  aggregator : StakeAggregator
  round : Round

namespace ThresholdClock

def new (round : Round) : ThresholdClock := ⟨StakeAggregator.new, round⟩

def addBlock (ctx : Context) (clock : ThresholdClock) (blk : BlockRef) : ThresholdClock × Bool :=
  match compare blk.round clock.round with
  | .lt => (clock, false)
  | .eq =>
    let (agg, final) := clock.aggregator.add blk.author ctx.committee
    if final then (⟨StakeAggregator.new, blk.round + 1⟩, true)
    else (⟨agg, clock.round⟩, false)
  | .gt =>
    let (agg, final) := StakeAggregator.new.add blk.author ctx.committee
    (⟨agg, if final then blk.round + 1 else blk.round⟩, true)

end ThresholdClock

structure BlockInfo where
  block : VerifiedBlock
  committed : Bool
  included : Bool

def BlockInfo.new (blk : VerifiedBlock) : BlockInfo := ⟨blk, false, false⟩

structure DagState where
  recentBlocks : ExtTreeMap BlockRef BlockInfo
  recentRefsByAuthority : AuthorityIndex → ExtTreeSet BlockRef
  thresholdClock : ThresholdClock
  evictedRounds : AuthorityIndex → Round
  highestAcceptedRound : Round
  lastCommit : Option TrustedCommit
  lastCommittedRounds : AuthorityIndex → Round
  scoringSubdag : ScoringSubdag
  pendingCommitVotes : List CommitVote
  blocksToWrite : List VerifiedBlock
  commitsToWrite : List TrustedCommit
  commitInfoToWrite : List (CommitRef × CommitInfo)
  finalizedCommitsToWrite : List (CommitRef × RejectedTransactions)
  store : Store

namespace DagState

def initial : DagState where
  recentBlocks := ∅
  recentRefsByAuthority := fun _ => ∅
  thresholdClock := ThresholdClock.new 1
  evictedRounds := fun _ => 0
  highestAcceptedRound := 0
  lastCommit := none
  lastCommittedRounds := fun _ => 0
  scoringSubdag := ScoringSubdag.new
  pendingCommitVotes := []
  blocksToWrite := []
  commitsToWrite := []
  commitInfoToWrite := []
  finalizedCommitsToWrite := []
  store := Store.empty

section Queries

variable (ctx : Context) (st : DagState)

def lastCommitIndex : CommitIndex := (st.lastCommit.map TrustedCommit.index).getD 0

def lastCommitDigest : CommitDigest :=
  (st.lastCommit.map TrustedCommit.digest).getD CommitDigest.MIN

def lastCommitTimestampMs : BlockTimestampMs := (st.lastCommit.map TrustedCommit.timestampMs).getD 0

def lastCommitRound : Round := (st.lastCommit.map TrustedCommit.round).getD 0

def gcRound : Round := st.lastCommitRound - ctx.protocolConfig.gcDepth

/-- Looks in genesis for round zero, else in the cache, else in the store. -/
def getBlock (ref : BlockRef) : Option VerifiedBlock :=
  if ref.round = GENESIS_ROUND then genesisGet ctx ref
  else match st.recentBlocks[ref]? with
    | some info => some info.block
    | none => st.store.readBlock ref

def getUncommittedBlocksAtSlot (slot : Slot) : List VerifiedBlock :=
  (scan st.recentBlocks fun ref =>
    ref.round = slot.round && ref.author = slot.authority).map BlockInfo.block

def getUncommittedBlocksAtRound (round : Round) : Except Panic (List VerifiedBlock) := do
  ensure (st.lastCommitRound < round) (.roundHasCommittedBlocks round)
  pure ((scan st.recentBlocks fun ref => ref.round = round).map BlockInfo.block)

/-- Replace every reference above the earlier round by the ancestors of its block,
from the greatest reference down. -/
def descendTo (earlierRound : Round) :
    Nat → ExtTreeSet BlockRef → Except Panic (ExtTreeSet BlockRef)
  | fuel, linked =>
    match last linked with
    | none => .ok linked
    | some top =>
      if top.round ≤ earlierRound then .ok linked
      else match fuel with
        | 0 => .error .outOfFuel
        | fuel + 1 => do
          let blk ← expect (st.getBlock ctx top) (.blockShouldExist top)
          descendTo earlierRound fuel (blk.ancestors.foldl .insert (linked.erase top))

def ancestorsAtRound (laterBlock : VerifiedBlock) (earlierRound : Round) :
    Except Panic (List VerifiedBlock) := do
  let linked ← st.descendTo ctx earlierRound
    (st.recentBlocks.size + st.store.blocks.size)
    (laterBlock.ancestors.foldl .insert ∅)
  (linked.toList.filter fun ref => earlierRound ≤ ref.round).mapM fun ref =>
    expect (st.getBlock ctx ref) (.blockShouldExist ref)

def getLastBlockForAuthority (auth : AuthorityIndex) : Except Panic VerifiedBlock :=
  match last (st.recentRefsByAuthority auth) with
  | some ref => do
    let info ← expect st.recentBlocks[ref]? (.notInDagState ref)
    pure info.block
  | none =>
    expect ((genesisBlocks ctx).find? fun blk => blk.author = auth)
      (.authorityOutOfBounds auth)

def getLastProposedBlock : Except Panic VerifiedBlock :=
  st.getLastBlockForAuthority ctx ctx.ownIndex

/-- Whether the block was accepted. A reference above the last cached one of its
author is known to be missing without a look at the store. -/
def containsBlock (ref : BlockRef) : Bool :=
  let recentRefs := st.recentRefsByAuthority ref.author
  if recentRefs.contains ref || (genesisGet ctx ref).isSome then true
  else match last recentRefs with
    | none => false
    | some top => if top.round < ref.round then false else st.store.containsBlock ref

def isCommitted (ref : BlockRef) : Except Panic Bool := do
  let info ← expect st.recentBlocks[ref]? (.notCachedToQuery ref)
  pure info.committed

end Queries

section Accept

variable (ctx : Context)

variable (st : DagState)

def updateBlockMetadata (blk : VerifiedBlock) : Except Panic DagState := do
  let ref := blk.reference
  ensure (ref.author < ctx.committee.size) (.authorityOutOfBounds ref.author)
  pure { st with
    recentBlocks := st.recentBlocks.insert ref (BlockInfo.new blk)
    recentRefsByAuthority := Function.update st.recentRefsByAuthority ref.author
      ((st.recentRefsByAuthority ref.author).insert ref)
    thresholdClock := (st.thresholdClock.addBlock ctx ref).1
    highestAcceptedRound := max st.highestAcceptedRound blk.round }

def acceptBlock (blk : VerifiedBlock) : Except Panic DagState := do
  ensure (blk.round ≠ 0) .genesisAccepted
  if st.containsBlock ctx blk.reference then
    pure st
  else do
    ensure (blk.author = ctx.ownIndex → st.getUncommittedBlocksAtSlot blk.slot = [])
      (.ownSlotOccupied blk.reference)
    let updated ← st.updateBlockMetadata ctx blk
    pure { updated with blocksToWrite := updated.blocksToWrite ++ [blk] }

def acceptBlocks (blocks : List VerifiedBlock) : Except Panic DagState :=
  blocks.foldlM (acceptBlock ctx) st

end Accept

section Flags

def setCommitted (st : DagState) (ref : BlockRef) : Except Panic (Bool × DagState) := do
  let info ← expect st.recentBlocks[ref]? (.notCachedToCommit ref)
  if info.committed then
    pure (false, st)
  else
    pure (true, { st with
      recentBlocks := st.recentBlocks.insert ref { info with committed := true } })

def linkTargets (gcRound : Round) :
    Nat → List BlockRef → List BlockRef → DagState → Except Panic (List BlockRef × DagState)
  | _, [], linked, st => .ok (linked, st)
  | 0, _ :: _, _, _ => .error .outOfFuel
  | fuel + 1, target :: targets, linked, st =>
    if target.round ≤ gcRound then linkTargets gcRound fuel targets linked st
    else do
      let info ← expect st.recentBlocks[target]? (.notInDagState target)
      if info.included then linkTargets gcRound fuel targets linked st
      else
        linkTargets gcRound fuel (targets ++ info.block.ancestors) (linked ++ [target])
          { st with
            recentBlocks := st.recentBlocks.insert target { info with included := true } }

/-- Mark a block and its history above the garbage-collection round as included in an
own proposal; returns the newly marked references. -/
def linkCausalHistory (ctx : Context) (st : DagState) (root : BlockRef) :
    Except Panic (List BlockRef × DagState) :=
  linkTargets (st.gcRound ctx)
    ((st.recentBlocks.toList.map fun entry => entry.2.block.ancestors.length).sum + 1)
    [root] [] st

end Flags

section Commits

variable (ctx : Context)

def raiseCommittedRound (rounds : AuthorityIndex → Round) (blk : BlockRef) :
    Except Panic (AuthorityIndex → Round) := do
  ensure (blk.author < ctx.committee.size) (.authorityOutOfBounds blk.author)
  pure (Function.update rounds blk.author (max (rounds blk.author) blk.round))

def raiseCommittedRounds (rounds : AuthorityIndex → Round) (blocks : List BlockRef) :
    Except Panic (AuthorityIndex → Round) :=
  blocks.foldlM (raiseCommittedRound ctx) rounds

def checkSuccessor (lastCommit : Option TrustedCommit) (commit : TrustedCommit) :
    Except Panic Unit :=
  match lastCommit with
  | some last => do
    ensure (commit.index = last.index + 1) (.commitIndexSkipped (last.index + 1) commit.index)
    ensure (last.timestampMs ≤ commit.timestampMs)
      (.commitTimestampDecreased last.timestampMs commit.timestampMs)
  | none => ensure (commit.index = 1) (.commitIndexSkipped 1 commit.index)

variable (st : DagState)

def addCommit (commit : TrustedCommit) : Except Panic DagState := do
  if st.lastCommit.any (fun last => commit.index ≤ last.index) then
    pure st
  else do
    checkSuccessor st.lastCommit commit
    let rounds ← raiseCommittedRounds ctx st.lastCommittedRounds commit.blocks
    pure { st with
      lastCommit := some commit
      lastCommittedRounds := rounds
      pendingCommitVotes := st.pendingCommitVotes ++ [commit.reference]
      commitsToWrite := st.commitsToWrite ++ [commit] }

def addCommitInfo (scores : ReputationScores) : Except Panic DagState := do
  ensure st.scoringSubdag.isEmpty .scoringSubdagNotEmpty
  let last ← expect st.lastCommit .lastCommitUnset
  pure { st with
    commitInfoToWrite := st.commitInfoToWrite ++
      [(last.reference, ⟨st.lastCommittedRounds, scores⟩)] }

def addFinalizedCommit (commit : CommitRef)
    (rejected : RejectedTransactions) : DagState :=
  { st with finalizedCommitsToWrite := st.finalizedCommitsToWrite ++ [(commit, rejected)] }

def addScoringSubdags (subdags : List CommittedSubDag) : Except Panic DagState := do
  let scoringSubdag ← st.scoringSubdag.addSubdags ctx subdags
  pure { st with scoringSubdag }

def clearScoringSubdag : DagState := { st with scoringSubdag := ScoringSubdag.new }

def takeCommitVotes (limit : Nat) : List CommitVote × DagState :=
  (st.pendingCommitVotes.take limit,
    { st with pendingCommitVotes := st.pendingCommitVotes.drop limit })

end Commits

section Flush

variable (ctx : Context)

def evictionRound (lastRound gcRound cachedRounds : Round) : Round :=
  min gcRound (lastRound - cachedRounds)

variable (st : DagState)

def calculateAuthorityEvictionRound (auth : AuthorityIndex) : Round :=
  evictionRound (((last (st.recentRefsByAuthority auth)).map BlockRef.round).getD
    GENESIS_ROUND) (st.gcRound ctx) ctx.dagStateCachedRounds

/-- Drop the cached blocks of one authority up to its eviction round. The references
are ordered by round, so the ones dropped are the first ones. -/
def evict (auth : AuthorityIndex) : DagState :=
  let round := st.calculateAuthorityEvictionRound ctx auth
  let refs := st.recentRefsByAuthority auth
  { st with
    recentBlocks := (refs.toList.filter fun ref => ref.round ≤ round).foldl
      .erase st.recentBlocks
    recentRefsByAuthority := Function.update st.recentRefsByAuthority auth
      (refs.filter fun ref => round < ref.round)
    evictedRounds := Function.update st.evictedRounds auth round }

/-- Persist the buffers in one batch, then clean the cache. -/
def flush : DagState :=
  if st.blocksToWrite.isEmpty && st.commitsToWrite.isEmpty &&
      st.commitInfoToWrite.isEmpty && st.finalizedCommitsToWrite.isEmpty then
    st
  else
    ctx.committee.indices.foldl (evict ctx)
      { st with
        blocksToWrite := []
        commitsToWrite := []
        commitInfoToWrite := []
        finalizedCommitsToWrite := []
        store := st.store.write ⟨st.blocksToWrite, st.commitsToWrite,
          st.commitInfoToWrite, st.finalizedCommitsToWrite⟩ }

end Flush

end DagState

end Mysticeti

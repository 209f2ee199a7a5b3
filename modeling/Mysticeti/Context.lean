import Mysticeti.Committee

/-!
# What every component of a node is given

The context fixes the committee, this node's place in it, the protocol limits and
the node's parameters. Signature checking and hashing happen in libraries outside
the repository; they enter as functions, and results that need a property of them
(no two blocks in play with one digest, say) name it as a hypothesis.

The panics of the consensus core are collected in one type, one constructor for
each assertion, `expect` or explicit panic, with the values its message prints.
A computation of a component is `Except Panic`; a theorem that says a component
returns says that none of them fires.
-/

namespace Mysticeti

/-- The protocol values the modelled code reads. Every protocol version in use
sets a positive garbage-collection depth. -/
structure ProtocolConfig where
  gcDepth : Nat
  gcDepth_pos : 0 < gcDepth
  mysticetiFastpath : Bool
  mysticetiNumLeadersPerRound : Option Nat
  maxTransactionSizeBytes : Nat
  maxNumTransactionsInBlock : Nat
  maxTransactionsInBlockBytes : Nat

structure Crypto where
  verifyBlockSignature : Block → Bytes → Bytes → Bool
  blockDigest : SignedBlock → BlockDigest
  commitDigest : Commit → CommitDigest

structure Context where
  committee : Committee
  ownIndex : AuthorityIndex
  ownIndex_valid : ownIndex < committee.size
  epochStartTimestampMs : BlockTimestampMs
  protocolConfig : ProtocolConfig
  dagStateCachedRounds : Round
  crypto : Crypto

variable (ctx : Context) (author : AuthorityIndex)

/-- Attach the digest of the serialised signed block. -/
def VerifiedBlock.newVerified (signed : SignedBlock) : VerifiedBlock :=
  ⟨signed, ctx.crypto.blockDigest signed⟩

/-- Attach the digest of the serialised commit. -/
def TrustedCommit.newTrusted (commit : Commit) : TrustedCommit :=
  ⟨commit, ctx.crypto.commitDigest commit⟩

def genesisBlock : VerifiedBlock :=
  VerifiedBlock.newVerified ctx
    ⟨{ epoch := ctx.committee.epoch
       round := GENESIS_ROUND
       author := author
       timestampMs := ctx.epochStartTimestampMs
       ancestors := []
       transactions := []
       commitVotes := []
       transactionVotes := []
       epochChangeProposal := none
       epochChangeVotes := [] }, []⟩

def genesisBlocks : List VerifiedBlock := ctx.committee.indices.map (genesisBlock ctx)

def genesisGet (ref : BlockRef) : Option VerifiedBlock :=
  (genesisBlocks ctx).find? (fun blk => blk.reference = ref)

@[simp] lemma genesisBlock_round : (genesisBlock ctx author).round = 0 := rfl

@[simp] lemma genesisBlock_author : (genesisBlock ctx author).author = author := rfl

@[simp] lemma genesisBlock_ancestors : (genesisBlock ctx author).ancestors = [] := rfl

variable {ctx : Context}

lemma mem_genesisBlocks {blk : VerifiedBlock} :
    blk ∈ genesisBlocks ctx ↔ ∃ author < ctx.committee.size, genesisBlock ctx author = blk := by
  simp [genesisBlocks, Committee.indices]

variable {ref : BlockRef}

lemma genesisGet_eq_some {blk : VerifiedBlock}
    (got : genesisGet ctx ref = some blk) :
    blk.reference = ref ∧ blk ∈ genesisBlocks ctx := by
  have matched := List.find?_some got
  exact ⟨by simpa using matched, List.mem_of_find?_eq_some got⟩

lemma genesisGet_isSome :
    (genesisGet ctx ref).isSome ↔ ∃ blk ∈ genesisBlocks ctx, blk.reference = ref := by
  simp [genesisGet, List.find?_isSome]

lemma round_of_genesisGet (got : (genesisGet ctx ref).isSome) : ref.round = 0 := by
  obtain ⟨blk, mem, same⟩ := genesisGet_isSome.mp got
  obtain ⟨author, _, rfl⟩ := mem_genesisBlocks.mp mem
  rw [← same, VerifiedBlock.reference_round, genesisBlock_round]

section Testing

/-- Four authorities of stake one, no limits on transactions, and the block timestamp in
the place of a digest. -/
def Context.newForTest (ownIndex : Fin 4) : Context where
  committee :=
    { epoch := 0
      authorities := List.replicate 4 ⟨1, [], "localhost", [], [], []⟩
      nonempty := by decide
      representable := by decide
      staked := by decide }
  ownIndex := ownIndex
  ownIndex_valid := ownIndex.isLt
  epochStartTimestampMs := 0
  protocolConfig := ⟨60, by decide, true, some 1, 0, 0, 0⟩
  dagStateCachedRounds := 500
  crypto :=
    { verifyBlockSignature := fun _ _ _ => true
      blockDigest := fun signed => signed.inner.timestampMs
      commitDigest := fun commit =>
        commit.blocks.foldl (fun digest blk => 10 * digest + blk.author + 1) 0 }

def Context.withStakes (stakes : List Stake) (nonempty : stakes ≠ [])
    (representable : stakes.length < 2 ^ 32 - 1) (staked : stakes.sum ≠ 0) : Context :=
  { Context.newForTest 0 with
    committee :=
      { epoch := 0
        authorities := stakes.map fun stake => ⟨stake, [], "localhost", [], [], []⟩
        nonempty := by simpa using nonempty
        representable := by simpa using representable
        staked := by simpa [List.map_map, Function.comp_def] using staked }
    ownIndex := 0
    ownIndex_valid := Committee.size_pos _ }

def firstAuthority : Fin 4 := 0

variable (round : Round) (author : AuthorityIndex)

def testRef : BlockRef := ⟨round, author, round⟩

def TestBlock.build (timestampMs : BlockTimestampMs)
    (ancestors : List BlockRef) : VerifiedBlock :=
  VerifiedBlock.newVerified (Context.newForTest 0)
    ⟨{ epoch := 0, round, author, timestampMs, ancestors, transactions := [], commitVotes := []
       transactionVotes := [], epochChangeProposal := none, epochChangeVotes := [] }, []⟩

def testBlock (parents : List AuthorityIndex) : VerifiedBlock :=
  TestBlock.build round author round (parents.map (testRef (round - 1)))

def votingBlock (ancestors : List BlockRef)
    (txs : List Transaction) (transactionVotes : List BlockTransactionVotes) :
    VerifiedBlock :=
  VerifiedBlock.newVerified (Context.newForTest 0)
    ⟨{ epoch := 0, round, author, timestampMs := round, ancestors, transactions := txs
       commitVotes := [], transactionVotes, epochChangeProposal := none
       epochChangeVotes := [] }, []⟩

end Testing

/-- The ways the consensus core stops a node. -/
inductive Panic where
  /-- A vector with one entry for each authority was read out of bounds. -/
  | authorityOutOfBounds (idx : AuthorityIndex)
  /-- Genesis block should not be accepted into DAG. -/
  | genesisAccepted
  /-- Attempted to add a block to own slot where a block already exists. -/
  | ownSlotOccupied (blk : BlockRef)
  /-- The round has committed blocks. -/
  | roundHasCommittedBlocks (round : Round)
  /-- The block should exist in DAG. -/
  | blockShouldExist (blk : BlockRef)
  /-- The block was not found in cache to set as committed. -/
  | notCachedToCommit (blk : BlockRef)
  /-- Commit status queried for a block not in cached data. -/
  | notCachedToQuery (blk : BlockRef)
  /-- The block is not in DAG state. -/
  | notInDagState (blk : BlockRef)
  /-- A commit index was skipped. -/
  | commitIndexSkipped (want actual : CommitIndex)
  /-- Commit timestamps do not monotonically increment. -/
  | commitTimestampDecreased (previous next : BlockTimestampMs)
  /-- The scoring sub-dag should be empty when scores are recorded. -/
  | scoringSubdagNotEmpty
  /-- Last commit should already be set. -/
  | lastCommitUnset
  /-- A block was attempted to be committed twice. -/
  | committedTwice (blk : BlockRef)
  /-- We should have all uncommitted blocks in dag state. -/
  | missingUncommittedBlock (blk : BlockRef)
  /-- We should have all blocks in dag state. -/
  | missingParentBlock (blk : BlockRef)
  /-- Cannot compute median timestamp for the leader's ancestors. -/
  | noMedianTimestamp (leader : BlockRef)
  /-- No blocks at or below the GC round should be committed. -/
  | garbageCommitted (gcRound : Round)
  /-- A duplicate vote was found for a leader. -/
  | duplicateVote (vote : BlockRef)
  /-- We should have the block referenced in the commit data. -/
  | blockNotInStorage (blk : BlockRef)
  /-- Leader block must be in the sub-dag. -/
  | leaderNotInSubDag (leader : BlockRef)
  /-- Block not found in storage while looking for the supported block of a slot. -/
  | supportNotFound (blk : BlockRef)
  /-- Block not found in storage, and is not below the GC round. -/
  | voteNotFound (blk : BlockRef) (gcRound : Round)
  /-- More than one candidate for the leader. -/
  | moreThanOneCandidate (leader : Slot)
  /-- More than one certified leader. -/
  | moreThanOneCertified (leader : Slot)
  /-- Block should be in suspended map. -/
  | notSuspended (blk : BlockRef)
  /-- The reference should be present in the missing dependencies of the block. -/
  | dependencyNotMissing (blk dependency : BlockRef)
  /-- Did not expect to suspend or skip a committed block. -/
  | committedBlockSuspended (blk : BlockRef)
  /-- No missing blocks should be returned for committed blocks. -/
  | missingForCommitted
  /-- A block that is collected as garbage should not be suspended. -/
  | garbageSuspended (blk : BlockRef)
  /-- A commit range was extended to an earlier commit. -/
  | commitRangeShrunk
  /-- Commit range should be set when scores are calculated. -/
  | commitRangeUnset
  /-- The stake threshold for swapping leaders is out of its range. -/
  | swapStakeThresholdOutOfRange (swapStakeThreshold : Nat)
  /-- The number of scored authorities is not the committee size. -/
  | scoresNotOfCommitteeSize (scored size : Nat)
  /-- Committed subdags count exceeds the number of commits per schedule. -/
  | subdagCountExceedsSchedule
  /-- The new LeaderSwapTable has an invalid CommitRange. -/
  | invalidCommitRange
  /-- Swap for multi-leader case not implemented yet. -/
  | swapMultiLeader
  /-- There should be at least one good node available. -/
  | noGoodNode
  /-- More stake was to be included again than is tracked as excluded. -/
  | excludedStakeUnderflow
  /-- An ancestor was moved to the state it is in. -/
  | notAStateTransition
  /-- After a schedule change there should be commits until the next one. -/
  | noCommitsUntilUpdate
  /-- The limit of selected certified leaders should be greater than zero. -/
  | limitNotPositive
  /-- Certified commit should have at least one block. -/
  | certifiedCommitEmpty
  /-- Last block of the committed sub dag should be the leader of the commit. -/
  | certifiedLeaderNotLast (leader : BlockRef)
  /-- A traversal ran longer than the bound the model gives it. The source has no
  such bound; no run below reaches it. -/
  | outOfFuel
deriving DecidableEq, Repr

end Mysticeti

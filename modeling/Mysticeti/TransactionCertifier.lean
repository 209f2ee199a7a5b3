import Mysticeti.Context
import Mysticeti.Lib.OrderedMap

/-!
# The transaction certifier

For every block that a node received, and for every block that is voted on, the certifier keeps the
reject votes on its transactions, the accept votes on the block and the node's own reject votes.
Blocks are added when they are received, the node's own ones also when they are proposed; a block
is certified once, when a quorum accepted it and each of its transactions is rejected by a quorum
or accepted by a quorum in spite of the votes against it. The finalizer reads the reject votes and
moves the garbage-collection round.
-/

namespace Mysticeti

open Lib.OrderedMap Std

namespace StakeAggregator

/-- Count a vote, once for each authority, and report whether it was counted. -/
def addUnique (agg : StakeAggregator) (vote : AuthorityIndex) (comm : Committee) :
    StakeAggregator × Bool :=
  if agg.votes.contains vote then (agg, false)
  else (⟨agg.votes.insert vote, agg.stake + comm.stake vote⟩, true)

def reachedThreshold (agg : StakeAggregator) (comm : Committee) : Bool :=
  comm.reachedQuorum agg.stake

lemma addUnique_counts {comm : Committee} {agg : StakeAggregator}
    {voters : Finset AuthorityIndex} (counts : Counts comm agg voters)
    (vote : AuthorityIndex) :
    Counts comm (agg.addUnique vote comm).1 (insert vote voters) := by
  have same : (agg.addUnique vote comm).1 = (agg.add vote comm).1 := by
    unfold addUnique add
    split
    · rfl
    · rfl
  rw [same]
  exact (add_counts counts vote).1

end StakeAggregator

structure VoteInfo where
  block : Option VerifiedBlock
  ownRejectTxnVotes : List TransactionIndex
  acceptBlockVotes : StakeAggregator
  rejectTxnVotes : ExtTreeMap TransactionIndex StakeAggregator
  isCertified : Bool

structure CertifiedBlock where
  block : VerifiedBlock
  rejected : List TransactionIndex
deriving DecidableEq, Repr

namespace VoteInfo

def empty : VoteInfo :=
  { block := none
    ownRejectTxnVotes := []
    acceptBlockVotes := .new
    rejectTxnVotes := ∅
    isCertified := false }

variable (comm : Committee)

/-- The transactions rejected by a quorum, if all others that have reject votes are accepted
by a quorum even without the authorities that voted against them. -/
def rejectedByQuorum (info : VoteInfo) : Option (List TransactionIndex) :=
  info.rejectTxnVotes.toList.foldlM (fun rejected entry =>
    if entry.2.reachedThreshold comm then some (rejected ++ [entry.1])
    else if info.acceptBlockVotes.stake - entry.2.stake < comm.quorumThreshold then none
    else some rejected) []

def takeCertifiedOutput (info : VoteInfo) : VoteInfo × Option CertifiedBlock :=
  if info.isCertified then (info, none)
  else
    match info.block with
    | none => (info, none)
    | some blk =>
      if !info.acceptBlockVotes.reachedThreshold comm then (info, none)
      else
        match info.rejectedByQuorum comm with
        | none => (info, none)
        | some rejected => ({ info with isCertified := true }, some ⟨blk, rejected⟩)

def reject (author : AuthorityIndex) (info : VoteInfo)
    (rejects : List TransactionIndex) : VoteInfo :=
  { info with
    rejectTxnVotes := rejects.foldl (fun votes idx =>
      votes.insert idx (((votes[idx]?).getD .new).addUnique author comm).1)
      info.rejectTxnVotes }

end VoteInfo

/-- The votes on each block, and the highest round that is collected. -/
structure CertifierState where
  votes : ExtTreeMap BlockRef VoteInfo
  gcRound : Round

namespace CertifierState

def new : CertifierState := ⟨∅, GENESIS_ROUND⟩

variable (comm : Committee)

variable (st : CertifierState)

def info (ref : BlockRef) : VoteInfo := (st.votes[ref]?).getD .empty

def addBlockVotes (author : AuthorityIndex) (added : CertifierState × List CertifiedBlock)
    (blockVotes : BlockTransactionVotes) : CertifierState × List CertifiedBlock :=
  let (st, certifiedBlocks) := added
  if blockVotes.blockRef.round ≤ st.gcRound then (st, certifiedBlocks)
  else
    let voted := (st.info blockVotes.blockRef).reject comm author blockVotes.rejects
    let (voted, output) := voted.takeCertifiedOutput comm
    ({ st with votes := st.votes.insert blockVotes.blockRef voted },
      certifiedBlocks ++ output.toList)

def addVotedBlock (votedBlock : VerifiedBlock)
    (rejectTxnVotes : List TransactionIndex) : CertifierState × List CertifiedBlock :=
  if votedBlock.round ≤ st.gcRound then (st, [])
  else
    let voted := st.info votedBlock.reference
    if voted.block.isSome then (st, [])
    else
      let st := { st with
        votes := st.votes.insert votedBlock.reference
          { voted with block := some votedBlock, ownRejectTxnVotes := rejectTxnVotes } }
      votedBlock.block.inner.transactionVotes.foldl
        (addBlockVotes comm votedBlock.author) (st, [])

def addVotedBlocks (votedBlocks : List (VerifiedBlock × List TransactionIndex)) :
    CertifierState × List CertifiedBlock :=
  votedBlocks.foldl (fun added voted =>
    let (st, certifiedBlocks) := addVotedBlock comm added.1 voted.1 voted.2
    (st, added.2 ++ certifiedBlocks)) (st, [])

def acceptTarget (votingBlock : VerifiedBlock) (added : CertifierState × List CertifiedBlock)
    (targetAncestor : BlockRef) : CertifierState × List CertifiedBlock :=
  if targetAncestor.round + 1 ≠ votingBlock.round then added
  else
    match added.1.votes[targetAncestor]? with
    | none => added
    | some target =>
      let acc := { target with
        acceptBlockVotes := (target.acceptBlockVotes.addUnique votingBlock.author comm).1 }
      let (acc, output) := acc.takeCertifiedOutput comm
      ({ added.1 with votes := added.1.votes.insert targetAncestor acc },
        added.2 ++ output.toList)

def acceptFrom (proposedBlock : VerifiedBlock) (added : CertifierState × List CertifiedBlock)
    (votingAncestor : BlockRef) : CertifierState × List CertifiedBlock :=
  if votingAncestor.round + 1 ≠ proposedBlock.round then added
  else
    match (added.1.votes[votingAncestor]?).bind VoteInfo.block with
    | none => added
    | some votingBlock => votingBlock.ancestors.foldl (acceptTarget comm votingBlock) added

def addProposedBlock (proposedBlock : VerifiedBlock) : CertifierState × List CertifiedBlock :=
  if proposedBlock.round ≤ st.gcRound + 2 then (st, [])
  else if !st.votes.contains proposedBlock.reference then (st, [])
  else proposedBlock.ancestors.foldl (acceptFrom comm proposedBlock) (st, [])

/-- The transactions of a block that have reject votes, with the stake against each; none if
nothing is known about the block. -/
def getRejectVotes (blockRef : BlockRef) : Option (List (TransactionIndex × Stake)) :=
  (st.votes[blockRef]?).map fun voted =>
    voted.rejectTxnVotes.toList.map fun entry => (entry.1, entry.2.stake)

def dropCollected (gcRound : Round) :
    List BlockRef → ExtTreeMap BlockRef VoteInfo → ExtTreeMap BlockRef VoteInfo
  | [], votes => votes
  | ref :: rest, votes =>
    if ref.round ≤ gcRound then dropCollected gcRound rest (votes.erase ref)
    else votes

def updateGcRound (gcRound : Round) : CertifierState :=
  ⟨dropCollected gcRound st.votes.keys st.votes, gcRound⟩

end CertifierState

/-- What other tasks of a node do to the certifier: blocks are received and voted on, and an
own block is proposed. -/
inductive CertifierUpdate where
  | addVotedBlocks (votedBlocks : List (VerifiedBlock × List TransactionIndex))
  | addProposedBlock (proposedBlock : VerifiedBlock)

namespace CertifierUpdate

/-- The certifier after an update, with the blocks it certifies. -/
def apply (comm : Committee) (st : CertifierState) :
    CertifierUpdate → CertifierState × List CertifiedBlock
  | .addVotedBlocks votedBlocks => st.addVotedBlocks comm votedBlocks
  | .addProposedBlock proposedBlock => st.addProposedBlock comm proposedBlock

end CertifierUpdate

end Mysticeti

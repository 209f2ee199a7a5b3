import Mysticeti.DagState

/-!
# The linearizer

A committed leader is turned into a commit: the sub-dag is the leader, every cached block of the
leader's round that is not yet committed, and the uncommitted history of the leader above the
garbage-collection round. The list is sorted by round and author, the commit takes the next index
and the digest of its predecessor, and its timestamp is the stake-weighted median of the leader's
parents, never below the previous one.

The work list of the implementation is a vector used as a stack; here its top is the head of the
list.
-/

namespace Mysticeti

open Lib.Outcome Lib.OrderedMap

/-- Round, then authority: the order of the blocks in a commit. -/
def subDagOrder (left right : VerifiedBlock) : Prop :=
  left.round < right.round ∨ (left.round = right.round ∧ left.author ≤ right.author)

instance : DecidableRel subDagOrder := fun _ _ => inferInstanceAs (Decidable (_ ∨ _))

instance : Std.Total subDagOrder := ⟨fun left right => by unfold subDagOrder; lia⟩

instance : IsTrans VerifiedBlock subDagOrder :=
  ⟨fun first second third pre post => by unfold subDagOrder at *; lia⟩

def sortSubDagBlocks (blocks : List VerifiedBlock) : List VerifiedBlock :=
  blocks.insertionSort subDagOrder

/-- The first timestamp at which more than half of the stake is accumulated; the last
one when there is none. -/
def medianTimestampsInner (totalStake : Stake) :
    Stake → BlockTimestampMs → List (BlockTimestampMs × Stake) → BlockTimestampMs
  | _, last, [] => last
  | cumulative, _, (timestamp, stake) :: rest =>
    if totalStake / 2 < cumulative + stake then timestamp
    else medianTimestampsInner totalStake (cumulative + stake) timestamp rest

def medianTimestampByStake (ctx : Context) (blocks : List VerifiedBlock) :
    Option BlockTimestampMs :=
  let timestamps := blocks.map fun blk => (blk.timestampMs, ctx.committee.stake blk.author)
  let totalStake := (timestamps.map Prod.snd).sum
  if timestamps.isEmpty then none
  else if totalStake < ctx.committee.quorumThreshold then none
  else some (medianTimestampsInner totalStake 0 0
    (timestamps.insertionSort fun left right => left.1 ≤ right.1))

namespace Linearizer

variable (ctx : Context)

variable (st : DagState) (leader : VerifiedBlock)

def calculateCommitTimestamp
    (lastCommitTimestampMs : BlockTimestampMs) : Except Panic BlockTimestampMs := do
  let parents := leader.ancestors.filter fun anc => anc.round = leader.round - 1
  let blocks ← parents.mapM fun parent =>
    expect (st.getBlock ctx parent) (.missingParentBlock parent)
  let timestamp ← expect (medianTimestampByStake ctx blocks)
    (.noMedianTimestamp leader.reference)
  pure (max timestamp lastCommitTimestampMs)

def commitRoundBlock (collected : List VerifiedBlock × DagState) (blk : VerifiedBlock) :
    Except Panic (List VerifiedBlock × DagState) := do
  let committed ← collected.2.isCommitted blk.reference
  if committed then pure collected
  else do
    let (newly, st) ← collected.2.setCommitted blk.reference
    pure (if newly then collected.1 ++ [blk] else collected.1, st)

def commitRoundBlocks (blocks : List VerifiedBlock) :
    Except Panic (List VerifiedBlock × DagState) :=
  blocks.foldlM commitRoundBlock ([], st)

def commitLeaderRound (gcRound : Round) (st : DagState) (leader : VerifiedBlock) :
    Except Panic (List VerifiedBlock × DagState) :=
  if gcRound < leader.round then do
    let blocks ← st.getUncommittedBlocksAtRound leader.round
    commitRoundBlocks st blocks
  else pure ([], st)

def pushAncestor (pending : List VerifiedBlock × DagState) (anc : VerifiedBlock) :
    Except Panic (List VerifiedBlock × DagState) := do
  let (newly, st) ← pending.2.setCommitted anc.reference
  ensure newly (.committedTwice anc.reference)
  pure (anc :: pending.1, st)

def pushAncestors (buffer : List VerifiedBlock) (st : DagState)
    (ancestors : List VerifiedBlock) : Except Panic (List VerifiedBlock × DagState) :=
  ancestors.foldlM pushAncestor (buffer, st)

def uncommittedAncestors (gcRound : Round) (st : DagState) (blk : VerifiedBlock) :
    Except Panic (List VerifiedBlock) := do
  let refs ← selectM (fun anc =>
    if gcRound < anc.round then do
      let committed ← st.isCommitted anc
      pure (!committed)
    else pure false) blk.ancestors
  refs.mapM fun anc => expect (st.getBlock ctx anc) (.missingUncommittedBlock anc)

/-- The depth-first traversal of the leader's uncommitted history. -/
def visitBuffer (gcRound : Round) :
    Nat → List VerifiedBlock → List VerifiedBlock → DagState →
      Except Panic (List VerifiedBlock × DagState)
  | _, [], toCommit, st => .ok (toCommit, st)
  | 0, _ :: _, _, _ => .error .outOfFuel
  | fuel + 1, blk :: buffer, toCommit, st => do
    let toCommit :=
      if toCommit.any fun other => other.reference = blk.reference then toCommit
      else toCommit ++ [blk]
    let ancestors ← uncommittedAncestors ctx gcRound st blk
    let (buffer, st) ← pushAncestors buffer st ancestors
    visitBuffer gcRound fuel buffer toCommit st

def linearizeSubDag : Except Panic (List VerifiedBlock × DagState) := do
  let gcRound := st.gcRound ctx
  let (newly, st) ← st.setCommitted leader.reference
  ensure newly (.committedTwice leader.reference)
  let (toCommit, st) ← commitLeaderRound gcRound st leader
  let (toCommit, st) ←
    visitBuffer ctx gcRound (st.recentBlocks.size + 1) [leader] toCommit st
  ensure (toCommit.all fun blk => gcRound < blk.round) (.garbageCommitted gcRound)
  pure (sortSubDagBlocks toCommit, st)

def nextCommit (timestampMs : BlockTimestampMs)
    (blocks : List VerifiedBlock) : TrustedCommit :=
  TrustedCommit.newTrusted ctx
    { index := st.lastCommitIndex + 1
      previousDigest := st.lastCommitDigest
      timestampMs := timestampMs
      leader := leader.reference
      blocks := blocks.map VerifiedBlock.reference }

def collectSubDagAndCommit : Except Panic (CommittedSubDag × TrustedCommit × DagState) := do
  let (toCommit, lined) ← linearizeSubDag ctx st leader
  let timestampMs ← calculateCommitTimestamp ctx lined leader
    st.lastCommitTimestampMs
  let commit := nextCommit ctx st leader timestampMs toCommit
  pure (CommittedSubDag.new leader.reference toCommit timestampMs commit.reference, commit,
    lined)

def commitLeader (collected : List CommittedSubDag × DagState) (leader : VerifiedBlock) :
    Except Panic (List CommittedSubDag × DagState) := do
  let (subDag, commit, st) ← collectSubDagAndCommit ctx collected.2 leader
  let st ← st.addCommit ctx commit
  pure (collected.1 ++ [subDag], st)

def handleCommit (leaders : List VerifiedBlock) : Except Panic (List CommittedSubDag × DagState) :=
  leaders.foldlM (commitLeader ctx) ([], st)

end Linearizer

end Mysticeti

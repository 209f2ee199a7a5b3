import Mysticeti.DagState

/-!
# The base committer

The commit rule for one leader slot. A block of the next round votes for a leader block
it links to; a block of the decision round certifies a leader block when a quorum of its
ancestors votes for it. The direct rule skips a slot that a quorum of the voting round
blames, and commits a block that a quorum of the decision round certifies. The indirect
rule takes the first committed leader after the decision round as an anchor and commits
what some certificate in the anchor's history certifies.

The leader election mixes stake and an external random generator; it enters as a
function of the round and the leader offset.
-/

namespace Mysticeti

open Lib.Outcome Lib.OrderedMap

inductive LeaderStatus where
  | commit (blk : VerifiedBlock)
  | skip (slot : Slot)
  | undecided (slot : Slot)
deriving DecidableEq

inductive DecidedLeader where
  | commit (blk : VerifiedBlock) (direct : Bool)
  | skip (slot : Slot)
deriving DecidableEq

inductive Decision where
  | direct
  | indirect
  | certified
deriving DecidableEq

namespace LeaderStatus

def round : LeaderStatus → Round
  | commit blk => blk.round
  | skip leader => leader.round
  | undecided leader => leader.round

def isDecided : LeaderStatus → Bool
  | commit _ => true
  | skip _ => true
  | undecided _ => false

def intoDecidedLeader (status : LeaderStatus) (direct : Bool) : Option DecidedLeader :=
  match status with
  | commit blk => some (.commit blk direct)
  | skip slot => some (.skip slot)
  | undecided _ => none

end LeaderStatus

namespace DecidedLeader

def slot : DecidedLeader → Slot
  | commit blk _ => blk.slot
  | skip slot => slot

def intoCommittedBlock : DecidedLeader → Option VerifiedBlock
  | commit blk _ => some blk
  | skip _ => none

end DecidedLeader

abbrev LeaderElection := Round → Nat → AuthorityIndex

structure BaseCommitterOptions where
  waveLength : Nat
  leaderOffset : Nat
  roundOffset : Nat
deriving DecidableEq, Repr

abbrev Votes := Std.ExtTreeMap BlockRef Bool

namespace BaseCommitter

section Waves

variable (options : BaseCommitterOptions)

def leaderRound (wave : Nat) : Round := wave * options.waveLength + options.roundOffset

def decisionRound (wave : Nat) : Round :=
  wave * options.waveLength + options.waveLength - 1 + options.roundOffset

def waveNumber (round : Round) : Nat := (round - options.roundOffset) / options.waveLength

def electLeader (election : LeaderElection) (round : Round) : Option Slot :=
  if leaderRound options (waveNumber options round) ≠ round then none
  else some ⟨round, election round options.leaderOffset⟩

end Waves

variable (ctx : Context) (st : DagState)

def supportedAmong (descend : VerifiedBlock → Except Panic (Option BlockRef))
    (leaderSlot : Slot) : List BlockRef → Except Panic (Option BlockRef)
  | [] => .ok none
  | anc :: rest =>
    if anc.slot = leaderSlot then .ok (some anc)
    else if anc.round ≤ leaderSlot.round then supportedAmong descend leaderSlot rest
    else do
      let blk ← expect (st.getBlock ctx anc) (.supportNotFound anc)
      match ← descend blk with
      | some support => .ok (some support)
      | none => supportedAmong descend leaderSlot rest

def findSupportedBlock (leaderSlot : Slot) : Nat → VerifiedBlock → Except Panic (Option BlockRef)
  | 0, _ => .error .outOfFuel
  | fuel + 1, source =>
    if source.round < leaderSlot.round then .ok none
    else supportedAmong ctx st (findSupportedBlock leaderSlot fuel) leaderSlot
      source.ancestors

def isVote (potentialVote leaderBlock : VerifiedBlock) : Except Panic Bool := do
  let supported ← findSupportedBlock ctx st leaderBlock.slot (potentialVote.round + 1)
    potentialVote
  pure (supported = some leaderBlock.reference)

def lookupVote (leaderBlock : VerifiedBlock) (allVotes : Votes) (ref : BlockRef) :
    Except Panic (Bool × Votes) :=
  match allVotes[ref]? with
  | some vote => .ok (vote, allVotes)
  | none =>
    match st.getBlock ctx ref with
    | some potentialVote => do
      let vote ← isVote ctx st potentialVote leaderBlock
      pure (vote, allVotes.insert ref vote)
    | none => do
      ensure (ref.round ≤ st.gcRound ctx)
        (.voteNotFound ref (st.gcRound ctx))
      pure (false, allVotes.insert ref false)

/-- The loop of `isCertificate` over the ancestors of the potential certificate. -/
def countVotes (leaderBlock : VerifiedBlock) :
    List BlockRef → StakeAggregator → Votes → Except Panic (Bool × Votes)
  | [], _, allVotes => .ok (false, allVotes)
  | ref :: rest, agg, allVotes => do
    let (vote, allVotes) ← lookupVote ctx st leaderBlock allVotes ref
    if vote then
      let (agg, final) := agg.add ref.author ctx.committee
      if final then .ok (true, allVotes)
      else countVotes leaderBlock rest agg allVotes
    else countVotes leaderBlock rest agg allVotes

def isCertificate (potentialCertificate leaderBlock : VerifiedBlock) (allVotes : Votes) :
    Except Panic (Bool × Votes) :=
  countVotes ctx st leaderBlock potentialCertificate.ancestors StakeAggregator.new allVotes

def anyCertificate (leaderBlock : VerifiedBlock) : List VerifiedBlock → Votes → Except Panic Bool
  | [], _ => .ok false
  | blk :: rest, allVotes => do
    let (cert, allVotes) ← isCertificate ctx st blk leaderBlock allVotes
    if cert then .ok true else anyCertificate leaderBlock rest allVotes

def countBlames (leader : AuthorityIndex) : List VerifiedBlock → StakeAggregator → Bool
  | [], _ => false
  | votingBlock :: rest, agg =>
    if votingBlock.ancestors.all fun anc => anc.author ≠ leader then
      let (agg, final) := agg.add votingBlock.author ctx.committee
      if final then true else countBlames leader rest agg
    else countBlames leader rest agg

def enoughLeaderBlame (votingRound : Round) (leader : AuthorityIndex) : Except Panic Bool := do
  let votingBlocks ← st.getUncommittedBlocksAtRound votingRound
  pure (countBlames ctx leader votingBlocks StakeAggregator.new)

/-- The loop of `enoughLeaderSupport` over the decision blocks. -/
def countCertificates (leaderBlock : VerifiedBlock) :
    List VerifiedBlock → StakeAggregator → Votes → Except Panic Bool
  | [], _, _ => .ok false
  | decisionBlock :: rest, agg, allVotes => do
    let (cert, allVotes) ← isCertificate ctx st decisionBlock leaderBlock allVotes
    if cert then
      let (agg, final) := agg.add decisionBlock.author ctx.committee
      if final then .ok true else countCertificates leaderBlock rest agg allVotes
    else countCertificates leaderBlock rest agg allVotes

def enoughLeaderSupport (decisionRound : Round) (leaderBlock : VerifiedBlock) :
    Except Panic Bool := do
  let decisionBlocks ← st.getUncommittedBlocksAtRound decisionRound
  let totalStake := (decisionBlocks.map fun blk => ctx.committee.stake blk.author).sum
  if !ctx.committee.reachedQuorum totalStake then .ok false
  else countCertificates ctx st leaderBlock decisionBlocks StakeAggregator.new ∅

variable (options : BaseCommitterOptions)

def tryDirectDecide (leader : Slot) : Except Panic LeaderStatus := do
  if ← enoughLeaderBlame ctx st (leader.round + 1) leader.authority then
    .ok (.skip leader)
  else do
    let decisionRound := decisionRound options (waveNumber options leader.round)
    let supported ← selectM (enoughLeaderSupport ctx st decisionRound)
      (st.getUncommittedBlocksAtSlot leader)
    ensure (supported.length ≤ 1) (.moreThanOneCandidate leader)
    .ok ((supported.getLast?.map LeaderStatus.commit).getD (.undecided leader))

def decideLeaderFromAnchor (anchor : VerifiedBlock)
    (leaderSlot : Slot) : Except Panic LeaderStatus := do
  let decisionRound := decisionRound options (waveNumber options leaderSlot.round)
  let potentialCertificates ← st.ancestorsAtRound ctx anchor decisionRound
  let certified ← selectM
    (fun leaderBlock => anyCertificate ctx st leaderBlock potentialCertificates ∅)
    (st.getUncommittedBlocksAtSlot leaderSlot)
  ensure (certified.length ≤ 1) (.moreThanOneCertified leaderSlot)
  .ok ((certified.getLast?.map LeaderStatus.commit).getD (.skip leaderSlot))

def decideFromAnchors (options : BaseCommitterOptions) (leaderSlot : Slot) :
    List LeaderStatus → Except Panic LeaderStatus
  | [] => .ok (.undecided leaderSlot)
  | .commit anchor :: _ => decideLeaderFromAnchor ctx st options anchor leaderSlot
  | .skip _ :: rest => decideFromAnchors options leaderSlot rest
  | .undecided _ :: _ => .ok (.undecided leaderSlot)

def tryIndirectDecide (leaderSlot : Slot)
    (leaders : List LeaderStatus) : Except Panic LeaderStatus :=
  decideFromAnchors ctx st options leaderSlot
    (leaders.filter fun status => leaderSlot.round + options.waveLength ≤ status.round)

end BaseCommitter

end Mysticeti

import Mysticeti.BaseCommitter
import Mysticeti.Lib.Word

/-!
# The leader schedule

After a number of commits the reputation scores of the authorities are calculated from the
votes that those commits contain, and a new table of leaders to swap is installed. The table
of a new schedule has to be calculated from as many commits as the one before it, and from
those right after them.

The order of authorities with equal scores is shuffled with a generator seeded by the commit
index; the shuffle enters as a function. So do the election by stake and the choice of the
good node that takes the place of a bad leader, which are random and seeded by the round.

Stakes are 64-bit words without overflow checks.
-/

namespace Mysticeti

open Lib.Outcome Lib.Word

namespace CommitRange

def isEqualSize (range other : CommitRange) : Bool := range.size == other.size

def isNextRange (range other : CommitRange) : Bool := range.stop == other.start

end CommitRange

def ReputationScores.highestScore (scores : ReputationScores) : Nat :=
  scores.scoresPerAuthority.max?.getD 0

def ReputationScores.authoritiesByScore (ctx : Context) (scores : ReputationScores) :
    Except Panic (List (AuthorityIndex × Nat)) :=
  scores.scoresPerAuthority.zipIdx.mapM fun entry => do
    ensure (entry.2 < ctx.committee.size) (.authorityOutOfBounds entry.2)
    pure (entry.2, entry.1)

structure LeaderSwapTable where
  goodNodes : List (AuthorityIndex × String × Stake)
  badNodes : Std.ExtTreeMap AuthorityIndex (String × Stake)
  reputationScoresDesc : List (AuthorityIndex × Nat)
  reputationScores : ReputationScores

namespace LeaderSwapTable

/-- The table of a schedule without scores. -/
def empty : LeaderSwapTable := ⟨[], ∅, [], ⟨⟨0, 0⟩, []⟩⟩

variable (ctx : Context)
  (shuffle : CommitIndex → List (AuthorityIndex × Nat) → List (AuthorityIndex × Nat))
  (swapStakeThreshold : Nat)

def stakeProduct (comm : Committee) (percentage : Nat) : Stake :=
  wrap 64 (percentage * comm.totalStake)

def stakeLimit (comm : Committee) (percentage : Nat) : Stake :=
  stakeProduct comm percentage / 100

/-- The first authorities whose stake together does not pass the threshold, in percent of the
total stake. -/
def retrieveFirstNodes : Stake → List (AuthorityIndex × Nat) →
    Except Panic (List (AuthorityIndex × String × Stake))
  | _, [] => .ok []
  | stake, (idx, _) :: rest => do
    let auth ← expect ctx.committee.authorities[idx]? (.authorityOutOfBounds idx)
    if stakeLimit ctx.committee swapStakeThreshold < wrap 64 (stake + auth.stake) then
      pure []
    else do
      let others ← retrieveFirstNodes (wrap 64 (stake + auth.stake)) rest
      pure ((idx, auth.hostname, auth.stake) :: others)

def new (commitIndex : CommitIndex) (scores : ReputationScores) : Except Panic LeaderSwapTable := do
  ensure (swapStakeThreshold ≤ 33) (.swapStakeThresholdOutOfRange swapStakeThreshold)
  if scores.scoresPerAuthority.isEmpty then pure empty
  else do
    let byScore ← scores.authoritiesByScore ctx
    ensure (byScore.length = ctx.committee.size)
      (.scoresNotOfCommitteeSize byScore.length ctx.committee.size)
    let descending := (shuffle commitIndex byScore).insertionSort fun left right => right.2 ≤ left.2
    let goodNodes ← retrieveFirstNodes ctx swapStakeThreshold 0 descending
    let badNodes ← retrieveFirstNodes ctx swapStakeThreshold 0 descending.reverse
    pure
      { goodNodes
        badNodes := badNodes.foldl (fun nodes node => nodes.insert node.1 node.2) ∅
        reputationScoresDesc := descending
        reputationScores := scores }

/-- The good node that takes the place of a bad leader. The choice is a position for the round,
the offset and the number of good nodes. -/
def swap (choose : Round → Nat → Nat → Nat) (table : LeaderSwapTable) (leader : AuthorityIndex)
    (leaderRound : Round) (leaderOffset : Nat) : Except Panic (Option AuthorityIndex) :=
  if leader ∈ table.badNodes then do
    ensure (leaderOffset = 0) .swapMultiLeader
    let pos := choose leaderRound leaderOffset table.goodNodes.length
    let node ← expect table.goodNodes[pos % table.goodNodes.length]? .noGoodNode
    pure (some node.1)
  else .ok none

end LeaderSwapTable

structure LeaderSchedule where
  leaderSwapTable : LeaderSwapTable
  numCommitsPerSchedule : Nat

namespace LeaderSchedule

variable (ctx : Context)
  (shuffle : CommitIndex → List (AuthorityIndex × Nat) → List (AuthorityIndex × Nat))
  (swapStakeThreshold : Nat)

/-- The schedule with the table of the last recorded scores. -/
def fromStore (numCommitsPerSchedule : Nat) (st : DagState) : Except Panic LeaderSchedule := do
  let leaderSwapTable ← match st.store.readLastCommitInfo with
    | none => .ok LeaderSwapTable.empty
    | some (ref, info) =>
      LeaderSwapTable.new ctx shuffle swapStakeThreshold ref.index
        info.reputationScores
  pure ⟨leaderSwapTable, numCommitsPerSchedule⟩

variable (sched : LeaderSchedule)

def commitsUntilLeaderScheduleUpdate (st : DagState) : Except Panic Nat := do
  ensure (st.scoringSubdag.scoredSubdagsCount ≤ sched.numCommitsPerSchedule)
    .subdagCountExceedsSchedule
  pure (sched.numCommitsPerSchedule - st.scoringSubdag.scoredSubdagsCount)

def electLeader (stakeBased : LeaderElection) (choose : Round → Nat → Nat → Nat)
    (sched : LeaderSchedule) (round : Round) (leaderOffset : Nat) :
    Except Panic AuthorityIndex := do
  let leader := stakeBased round leaderOffset
  let swapped ← sched.leaderSwapTable.swap choose leader round leaderOffset
  pure (swapped.getD leader)

/-- Unless the schedule is new, the range of a new table follows the range of the old one and
has its size. -/
def updateLeaderSwapTable (table : LeaderSwapTable) : Except Panic LeaderSchedule := do
  let old := sched.leaderSwapTable.reputationScores.commitRange
  let new := table.reputationScores.commitRange
  ensure (old ≠ ⟨0, 0⟩ → old.isNextRange new && old.isEqualSize new) .invalidCommitRange
  pure { sched with leaderSwapTable := table }

/-- Calculate the scores of the commits since the last change, record them, and install the
table they give. -/
def updateLeaderScheduleV2 (st : DagState) : Except Panic (LeaderSchedule × DagState) := do
  let scores ← st.scoringSubdag.calculateDistributedVoteScores ctx
  let range ← expect st.scoringSubdag.commitRange .commitRangeUnset
  let recorded ← st.clearScoringSubdag.addCommitInfo scores
  let table ← LeaderSwapTable.new ctx shuffle swapStakeThreshold range.last scores
  let updated ← sched.updateLeaderSwapTable table
  pure (updated, recorded)

end LeaderSchedule

end Mysticeti

import Mysticeti.LeaderSchedule
import Mysticeti.Recovery

/-!
# The assertions on the leader schedule

Some assertions of the code say that the windows of the leader schedule fit together. The code
that accepts blocks, linearizes leaders, marks histories, or builds a table from scores
contains none of them: whatever it stops at is another panic. Only the scoring of sub-dags, the
change of the schedule and the choice of certified leaders do.
-/

namespace Mysticeti

open Lib.Outcome

def Panic.ofSchedule : Panic → Bool
  | .scoringSubdagNotEmpty => true
  | .lastCommitUnset => true
  | .commitRangeShrunk => true
  | .commitRangeUnset => true
  | .subdagCountExceedsSchedule => true
  | .invalidCommitRange => true
  | .noCommitsUntilUpdate => true
  | .limitNotPositive => true
  | _ => false

/-- Stopping at anything but an assertion on the schedule. -/
def Panic.Elsewhere (panic : Panic) : Prop := panic.ofSchedule = false

namespace DagState

variable {ctx : Context} {st : DagState}

lemma setCommitted_within {ref : BlockRef} : Within Panic.Elsewhere (st.setCommitted ref) := by
  refine .bind (.expect rfl) fun info => ?_
  split
  · exact .ok _
  · exact .ok _

lemma updateBlockMetadata_within {blk : VerifiedBlock} :
    Within Panic.Elsewhere (st.updateBlockMetadata ctx blk) :=
  .bind (.ensure rfl) fun _ => .ok _

lemma acceptBlock_within {blk : VerifiedBlock} :
    Within Panic.Elsewhere (st.acceptBlock ctx blk) := by
  refine .bind (.ensure rfl) fun _ => ?_
  split
  · exact .ok _
  · exact .bind (.ensure rfl) fun _ => .bind updateBlockMetadata_within fun _ => .ok _

lemma linkTargets_within {gcRound : Round} {fuel : Nat} {targets linked : List BlockRef} :
    Within Panic.Elsewhere (linkTargets gcRound fuel targets linked st) := by
  induction fuel generalizing targets linked st with
  | zero =>
    cases targets with
    | nil => exact .ok _
    | cons target rest => exact .error rfl
  | succ fuel ih =>
    cases targets with
    | nil => exact .ok _
    | cons target rest =>
      unfold linkTargets
      split
      · exact ih
      · refine .bind (.expect rfl) fun info => ?_
        split
        · exact ih
        · exact ih

lemma raiseCommittedRounds_within {rounds : AuthorityIndex → Round} {blocks : List BlockRef} :
    Within Panic.Elsewhere (raiseCommittedRounds ctx rounds blocks) :=
  .foldlM fun _ _ => .bind (.ensure rfl) fun _ => .ok _

lemma addCommit_within {commit : TrustedCommit} :
    Within Panic.Elsewhere (st.addCommit ctx commit) := by
  unfold addCommit
  split
  · exact .ok _
  · refine .bind ?_ fun _ => .bind raiseCommittedRounds_within fun _ => .ok _
    unfold checkSuccessor
    split
    · exact .bind (.ensure rfl) fun _ => .ensure rfl
    · exact .ensure rfl

variable {store : Store}

lemma replayCommit_within {commit : TrustedCommit}
    {replayed : (AuthorityIndex → Round) × List CommittedSubDag} :
    Within Panic.Elsewhere (replayCommit ctx store replayed commit) := by
  refine .bind raiseCommittedRounds_within fun _ => .bind ?_ fun _ => .ok _
  exact .bind (.mapM fun _ => .expect rfl) fun _ => .bind (.ensure rfl) fun _ => .ok _

lemma replayCommits_within : Within Panic.Elsewhere (replayCommits ctx store) := by
  unfold replayCommits
  split
  · exact .ok _
  · exact .foldlM fun _ _ => replayCommit_within

lemma recoverCommitted_within {gcRound : Round} {idx : CommitIndex} :
    Within Panic.Elsewhere (recoverCommitted gcRound idx st) := by
  induction idx generalizing st with
  | zero => exact .ok _
  | succ idx ih =>
    unfold recoverCommitted
    split
    · exact .ok _
    · split
      · exact .ok _
      · refine .bind (.foldlM fun _ _ => ?_) fun _ => ih
        exact .bind setCommitted_within fun _ => .bind (.ensure rfl) fun _ => .ok _

lemma new_within (scoring : ∀ rounds subdags, replayCommits ctx store = .ok (rounds, subdags) →
      Within Panic.Elsewhere (ScoringSubdag.new.addSubdags ctx subdags)) :
    Within Panic.Elsewhere (new ctx store) := by
  unfold new
  cases replayed : replayCommits ctx store with
  | error panic => exact .error (replayCommits_within panic replayed)
  | ok res =>
    rw [ok_bind]
    refine .bind (scoring res.1 res.2 replayed) fun scored => ?_
    refine .bind (.foldlM fun _ _ => .foldlM fun _ _ => updateBlockMetadata_within) fun loaded => ?_
    refine .bind recoverCommitted_within fun flagged => .foldlM fun _ _ => ?_
    exact .bind linkTargets_within fun _ => .ok _

end DagState

namespace Linearizer

variable {ctx : Context} {st : DagState} {gcRound : Round}

lemma commitLeaderRound_within {leader : VerifiedBlock} :
    Within Panic.Elsewhere (commitLeaderRound gcRound st leader) := by
  unfold commitLeaderRound
  split
  · refine .bind (.bind (.ensure rfl) fun _ => .ok _) fun blocks => ?_
    refine .foldlM fun collected blk => ?_
    refine .bind (.bind (.expect rfl) fun _ => .ok _) fun committed => ?_
    split
    · exact .ok _
    · exact .bind DagState.setCommitted_within fun _ => .ok _
  · exact .ok _

lemma uncommittedAncestors_within {blk : VerifiedBlock} :
    Within Panic.Elsewhere (uncommittedAncestors ctx gcRound st blk) := by
  refine .bind (.selectM fun anc _ => ?_) fun refs => .mapM fun _ => .expect rfl
  split
  · exact .bind (.bind (.expect rfl) fun _ => .ok _) fun _ => .ok _
  · exact .ok _

lemma visitBuffer_within {fuel : Nat} {buffer toCommit : List VerifiedBlock} :
    Within Panic.Elsewhere (visitBuffer ctx gcRound fuel buffer toCommit st) := by
  induction fuel generalizing buffer toCommit st with
  | zero =>
    cases buffer with
    | nil => exact .ok _
    | cons blk rest => exact .error rfl
  | succ fuel ih =>
    cases buffer with
    | nil => exact .ok _
    | cons blk rest =>
      refine .bind uncommittedAncestors_within fun ancestors => .bind (.foldlM fun _ _ => ?_)
        fun _ => ih
      exact .bind DagState.setCommitted_within fun _ => .bind (.ensure rfl) fun _ => .ok _

lemma commitLeader_within {collected : List CommittedSubDag} {leader : VerifiedBlock} :
    Within Panic.Elsewhere (commitLeader ctx (collected, st) leader) := by
  have lined : Within Panic.Elsewhere (linearizeSubDag ctx st leader) := by
    refine .bind DagState.setCommitted_within fun _ => .bind (.ensure rfl) fun _ => ?_
    refine .bind commitLeaderRound_within fun _ => .bind visitBuffer_within fun _ => ?_
    exact .bind (.ensure rfl) fun _ => .ok _
  have timestamped : ∀ later : DagState, Within Panic.Elsewhere
      (calculateCommitTimestamp ctx later leader st.lastCommitTimestampMs) := fun later =>
    .bind (.mapM fun _ => .expect rfl) fun _ => .bind (.expect rfl) fun _ => .ok _
  refine .bind (.bind lined fun _ => .bind (timestamped _) fun _ => .ok _) fun _ => ?_
  exact .bind DagState.addCommit_within fun _ => .ok _

end Linearizer

namespace LeaderSwapTable

variable {ctx : Context} {swapStakeThreshold : Nat}
  {shuffle : CommitIndex → List (AuthorityIndex × Nat) → List (AuthorityIndex × Nat)}

lemma retrieveFirstNodes_within {stake : Stake} {auths : List (AuthorityIndex × Nat)} :
    Within Panic.Elsewhere
      (retrieveFirstNodes ctx swapStakeThreshold stake auths) := by
  induction auths generalizing stake with
  | nil => exact .ok _
  | cons entry rest ih =>
    refine .bind (.expect rfl) fun auth => ?_
    split
    · exact .ok _
    · exact .bind ih fun _ => .ok _

lemma new_within {commitIndex : CommitIndex} {scores : ReputationScores} :
    Within Panic.Elsewhere (new ctx shuffle swapStakeThreshold commitIndex scores) := by
  refine .bind (.ensure rfl) fun _ => ?_
  split
  · exact .ok _
  · refine .bind (.mapM fun _ => .bind (.ensure rfl) fun _ => .ok _) fun byScore => ?_
    refine .bind (.ensure rfl) fun _ => .bind retrieveFirstNodes_within fun _ => ?_
    exact .bind retrieveFirstNodes_within fun _ => .ok _

end LeaderSwapTable

end Mysticeti

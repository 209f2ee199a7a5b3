import Mysticeti.AncestorState
import Mysticeti.TransactionCertifier

/-!
# Stake arithmetic

Stakes and scores are 64-bit words, and a release build does not check for overflow. The
constructor of a committee doubles the quorum threshold, the leader schedule and the ancestor
states multiply the total stake with a percentage, and scores add up stakes over many blocks.
Each result is exact precisely when it fits. The constructor does not notice an overflow of the
doubled threshold: the difference it compares with wraps around once more and comes out right.
-/

namespace Mysticeti

open Lib.Word Lib.Quorum LeaderSwapTable AncestorStateManager

namespace Committee

section Words

variable (auths : List Authority)

def wordTotal : Stake :=
  (auths.map Authority.stake).foldl (fun total stake => wrap 64 (total + stake)) 0

def wordFaultTolerance : Stake := (wordTotal auths - 1) / 3

def wordQuorumThreshold : Stake := wordTotal auths - wordFaultTolerance auths

def doubledQuorum : Stake := wrap 64 (2 * wordQuorumThreshold auths)

/-- What the constructor asserts about the numbers it computed. -/
def AssertionsHold : Prop :=
  wordTotal auths ≠ 0 ∧
    wordTotal auths < wrapSub 64 (doubledQuorum auths) (wordFaultTolerance auths)
deriving Decidable

lemma wordTotal_eq : wordTotal auths = wrap 64 (auths.map Authority.stake).sum := by
  have folded := @foldl_wrap_add 64 0 (auths.map Authority.stake)
  rwa [wrap_zero, Nat.zero_add] at folded

end Words

def newWords (epoch : Epoch) (auths : List Authority) : Option Committee :=
  if allowed : auths ≠ [] ∧ auths.length < 2 ^ 32 - 1 ∧ AssertionsHold auths then
    some
      { epoch
        authorities := auths
        nonempty := allowed.1
        representable := allowed.2.1
        staked := fun none => allowed.2.2.1 (by rw [wordTotal_eq, none, wrap_zero]) }
  else none

variable {epoch : Epoch} {auths : List Authority} {comm : Committee}

lemma authorities_of_newWords (built : newWords epoch auths = some comm) :
    comm.authorities = auths := by
  unfold newWords at built
  split at built
  · exact Option.some.inj built ▸ rfl
  · cases built

end Committee

namespace StakeAggregator

inductive Call where
  | add (vote : AuthorityIndex)
  | addUnique (vote : AuthorityIndex)
  | clear
deriving DecidableEq

variable (comm : Committee) (calls : List Call)

def perform (agg : StakeAggregator) : Call → StakeAggregator
  | .add vote => (agg.add vote comm).1
  | .addUnique vote => (agg.addUnique vote comm).1
  | .clear => ⟨∅, 0⟩

def Call.vote : Call → Option AuthorityIndex
  | .add vote | .addUnique vote => some vote
  | .clear => none

def afterCalls : StakeAggregator := calls.foldl (perform comm) new

def addedSinceClear : Finset AuthorityIndex :=
  ((calls.rtakeWhile (· ≠ .clear)).filterMap Call.vote).toFinset

lemma afterCalls_counts :
    Counts comm (afterCalls comm calls) (addedSinceClear calls) := by
  induction calls using List.reverseRecOn with
  | nil => exact new_counts comm
  | append_singleton calls call ih =>
    have voted : ∀ vote, call.vote = some vote → call ≠ .clear →
        addedSinceClear (calls ++ [call]) = insert vote (addedSinceClear calls) := by
      intro vote named counted
      rw [addedSinceClear, List.rtakeWhile_concat_pos _ _ _ (by simpa using counted),
        List.filterMap_append, List.toFinset_append, Finset.union_comm]
      simp [named, addedSinceClear]
    rw [afterCalls, List.foldl_concat]
    cases call with
    | add vote => rw [voted vote rfl (by simp)]; exact (add_counts ih vote).1
    | addUnique vote => rw [voted vote rfl (by simp)]; exact addUnique_counts ih vote
    | clear =>
      have cleared : addedSinceClear (calls ++ [.clear]) = ∅ := by
        rw [addedSinceClear, List.rtakeWhile_concat_neg _ _ _ (by simp)]
        rfl
      rw [cleared]
      exact new_counts comm

/-- With a total stake that can be doubled, an aggregator holds the stake of the authorities added
since it was cleared, a word, and two that reach the quorum threshold count common authorities
with more stake than may be faulty. -/
theorem quorums_share_honest_stake {epoch : Epoch} {auths : List Authority}
    {comm : Committee} (fits : 2 * (auths.map Authority.stake).sum < 2 ^ 64)
    (built : Committee.newWords epoch auths = some comm) {left right : List Call}
    (leftKnown : ∀ call ∈ left, ∀ vote ∈ call.vote, vote < comm.size)
    (rightKnown : ∀ call ∈ right, ∀ vote ∈ call.vote, vote < comm.size) :
    ((∀ auth, auth ∈ (afterCalls comm left).votes ↔ auth ∈ addedSinceClear left) ∧
      (afterCalls comm left).stake = weigh comm.stake (addedSinceClear left) ∧
      (afterCalls comm left).stake < 2 ^ 64) ∧
    ((afterCalls comm left).reachedThreshold comm = true →
      (afterCalls comm right).reachedThreshold comm = true →
      ((auths.map Authority.stake).sum - 1) / 3 <
        weigh comm.stake (addedSinceClear left ∩ addedSinceClear right)) := by
  have total : comm.totalStake = (auths.map Authority.stake).sum := by
    rw [Committee.totalStake, Committee.authorities_of_newWords built]
  have inside : ∀ {calls : List Call},
      (∀ call ∈ calls, ∀ vote ∈ call.vote, vote < comm.size) →
      addedSinceClear calls ⊆ comm.everyone := by
    intro calls known auth added
    rw [addedSinceClear, List.mem_toFinset, List.mem_filterMap] at added
    obtain ⟨call, recent, named⟩ := added
    exact Finset.mem_range.mpr (known call (List.rtakeWhile_suffix _ _ |>.subset recent) _ named)
  have leftCounts := afterCalls_counts comm left
  have rightCounts := afterCalls_counts comm right
  refine ⟨⟨leftCounts.members, leftCounts.total, ?_⟩, fun leftReached rightReached => ?_⟩
  · have bounded := @weigh_mono _ comm.stake _ _ (inside leftKnown)
    rw [comm.weigh_everyone, ← leftCounts.total] at bounded
    lia
  · rw [reachedThreshold, Committee.reachedQuorum, decide_eq_true_eq] at leftReached rightReached
    have overlap := @overlap_weight _ comm.stake _ _ _ _ (inside leftKnown) (inside rightKnown)
    have intersects := comm.quorum_intersects
    rw [comm.weigh_everyone, ← leftCounts.total, ← rightCounts.total] at overlap
    rw [← total, ← Committee.faultTolerance]
    lia

/-- Votes of three and of three others of four authorities, one repeated and one cleared. -/
theorem quorums_share_honest_stake_four :
    let comm := (Context.newForTest firstAuthority).committee
    1 < weigh comm.stake
      (addedSinceClear [.add 3, .clear, .add 0, .addUnique 1, .add 1, .add 2] ∩
        addedSinceClear [.add 1, .add 2, .addUnique 3]) := by
  have built : Committee.newWords 0 (Context.newForTest firstAuthority).committee.authorities =
      some (Context.newForTest firstAuthority).committee := by
    rw [Committee.newWords, dif_pos (by decide +kernel)]
    rfl
  exact (quorums_share_honest_stake (by decide) built (by decide) (by decide)).2
    (by decide +kernel) (by decide +kernel)

end StakeAggregator

namespace ScoringSubdag

def distributedVotesScoresWords (ctx : Context) (scoring : ScoringSubdag) : List Nat :=
  ctx.committee.indices.map fun auth =>
    ((scoring.votes.toList.filter fun entry => entry.1.author = auth).map
      fun entry => entry.2.stake).foldl (fun score stake => wrap 64 (score + stake)) 0

lemma distributedVotesScoresWords_eq (ctx : Context) (scoring : ScoringSubdag) :
    scoring.distributedVotesScoresWords ctx =
      (scoring.distributedVotesScores ctx).map (wrap 64) := by
  rw [distributedVotesScoresWords, distributedVotesScores, List.map_map]
  apply List.map_congr_left
  intro auth _
  have folded := @foldl_wrap_add 64 0 ((scoring.votes.toList.filter fun entry =>
    entry.1.author = auth).map fun entry => entry.2.stake)
  rwa [wrap_zero, Nat.zero_add] at folded

end ScoringSubdag

/-- The multiple of the highest score, computed with words from scores that are computed with
words, is exact when it fits, and only then. -/
lemma scoreProduct_exact_iff (ctx : Context) (scoring : ScoringSubdag) (range : CommitRange) :
    scoreProduct ⟨range, scoring.distributedVotesScoresWords ctx⟩ =
        ReputationScores.highestScore ⟨range, scoring.distributedVotesScores ctx⟩ *
          SCORE_EXCLUSION_THRESHOLD_PERCENTAGE ↔
      ReputationScores.highestScore ⟨range, scoring.distributedVotesScores ctx⟩ *
          SCORE_EXCLUSION_THRESHOLD_PERCENTAGE < 2 ^ 64 := by
  constructor
  · intro exact
    rw [← exact]
    exact wrap_lt 64 _
  · intro fits
    have scores : scoring.distributedVotesScoresWords ctx = scoring.distributedVotesScores ctx := by
      have each : ∀ score ∈ scoring.distributedVotesScores ctx, wrap 64 score = score := by
        intro score mem
        have below : score ≤ ReputationScores.highestScore
            ⟨range, scoring.distributedVotesScores ctx⟩ := List.le_max?_getD_of_mem mem
        apply wrap_of_lt
        rw [SCORE_EXCLUSION_THRESHOLD_PERCENTAGE] at fits
        lia
      rw [scoring.distributedVotesScoresWords_eq, List.map_congr_left each, List.map_id']
    rw [scoreProduct, scores, wrap_of_lt fits]

/-- Stake arithmetic is exact precisely when no result overflows: for every list of authorities
whose stakes add up to a word and that the constructor accepts, every threshold of the leader
schedule and every scoring sub-dag. -/
theorem stake_arithmetic_exact_iff {ctx : Context} {epoch : Epoch}
    {auths : List Authority} (fits : (auths.map Authority.stake).sum < 2 ^ 64)
    (acc : Committee.newWords epoch auths = some ctx.committee) {limit : Nat}
    (small : limit ≤ 33) (scoring : ScoringSubdag) (range : CommitRange) :
    (Committee.doubledQuorum auths = 2 * ctx.committee.quorumThreshold ∧
      stakeProduct ctx.committee limit = limit * ctx.committee.totalStake ∧
      stakeProduct ctx.committee (excludedNodesStakeThresholdPercentage limit) =
        2 * limit / 3 * ctx.committee.totalStake ∧
      scoreProduct ⟨range, scoring.distributedVotesScoresWords ctx⟩ =
        ReputationScores.highestScore ⟨range, scoring.distributedVotesScores ctx⟩ *
          SCORE_EXCLUSION_THRESHOLD_PERCENTAGE) ↔
    (2 * ctx.committee.quorumThreshold < 2 ^ 64 ∧
      limit * ctx.committee.totalStake < 2 ^ 64 ∧
      ReputationScores.highestScore ⟨range, scoring.distributedVotesScores ctx⟩ *
          SCORE_EXCLUSION_THRESHOLD_PERCENTAGE < 2 ^ 64) := by
  have total : Committee.wordTotal auths = ctx.committee.totalStake := by
    rw [Committee.wordTotal_eq, wrap_of_lt fits, Committee.totalStake,
      Committee.authorities_of_newWords acc]
  have doubled : Committee.doubledQuorum auths =
      wrap 64 (2 * ctx.committee.quorumThreshold) := by
    rw [Committee.doubledQuorum, Committee.wordQuorumThreshold, Committee.wordFaultTolerance, total]
    rfl
  have percentage : excludedNodesStakeThresholdPercentage limit = 2 * limit / 3 := by
    rw [excludedNodesStakeThresholdPercentage, wrap_of_lt (by lia)]
  rw [doubled, wrap_eq_self_iff, percentage, stakeProduct, wrap_eq_self_iff, stakeProduct,
    wrap_eq_self_iff, scoreProduct_exact_iff]
  refine and_congr_right fun _ => and_congr_right fun product => and_iff_right ?_
  have lower : 2 * limit / 3 * ctx.committee.totalStake ≤
      limit * ctx.committee.totalStake := Nat.mul_le_mul_right _ (by lia)
  exact Nat.lt_of_le_of_lt lower product

theorem stake_arithmetic_exact_four :
    stakeProduct (Context.newForTest 0).committee 30 = 120 ∧
      Committee.doubledQuorum (Context.newForTest 0).committee.authorities = 6 := by
  have acc : Committee.newWords 0 (Context.newForTest 0).committee.authorities =
      some (Context.newForTest 0).committee := by
    rw [Committee.newWords, dif_pos (by decide +kernel)]
    rfl
  obtain ⟨doubled, product, -⟩ := (stake_arithmetic_exact_iff (by decide) acc
    (show 30 ≤ 33 by decide) ScoringSubdag.new ⟨0, 0⟩).mpr (by decide +kernel)
  exact ⟨product, doubled⟩

/-- Four authorities of stake `2 ^ 58`: the constructor accepts them, but thirty percent of
their stake come out as fourteen. -/
theorem stake_product_overflows :
    let comm := (Context.withStakes (List.replicate 4 (2 ^ 58)) (by decide) (by decide)
      (by decide)).committee
    (Committee.newWords 0 comm.authorities).isSome = true ∧
      30 * comm.totalStake = 30 * 2 ^ 60 ∧ stakeProduct comm 30 = 14 * 2 ^ 60 := by
  decide +kernel

end Mysticeti

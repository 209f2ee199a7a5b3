import Mysticeti.Storage

/-!
# Scoring of committed sub-dags

The scoring sub-dag accumulates, over the commits since the last leader schedule
change, the votes for committed leaders and the stake of the blocks that build on
each vote. Sub-dags are added one commit at a time; a block that links to a leader of
the previous round is a new vote, and a block that links to a vote adds its author's
stake to it.
-/

namespace Mysticeti

open Lib.Outcome

structure ScoringSubdag where
  commitRange : Option CommitRange
  leaders : Finset BlockRef
  votes : Std.ExtTreeMap BlockRef StakeAggregator

namespace ScoringSubdag

def new : ScoringSubdag := ⟨none, ∅, ∅⟩

variable (ctx : Context) (scoring : ScoringSubdag)

def addLink (blk : VerifiedBlock) (scoring : ScoringSubdag)
    (anc : BlockRef) : Except Panic ScoringSubdag := do
  if anc.round ≠ blk.round - 1 then
    pure scoring
  else
    let votes ←
      if anc ∈ scoring.leaders then do
        ensure (blk.reference ∉ scoring.votes) (.duplicateVote blk.reference)
        pure (scoring.votes.insert blk.reference StakeAggregator.new)
      else pure scoring.votes
    pure { scoring with
      votes := votes.modify anc fun stake => (stake.add blk.author ctx.committee).1 }

def addBlock (blk : VerifiedBlock) : Except Panic ScoringSubdag :=
  blk.ancestors.foldlM (addLink ctx blk) scoring

def addSubdag (dag : CommittedSubDag) : Except Panic ScoringSubdag := do
  let commitRange ← match scoring.commitRange with
    | none => pure (CommitRange.new dag.commitRef.index dag.commitRef.index)
    | some range => range.extendTo dag.commitRef.index
  dag.blocks.foldlM (addBlock ctx)
    { scoring with
      commitRange := some commitRange
      leaders := insert dag.leader scoring.leaders }

def addSubdags (subdags : List CommittedSubDag) : Except Panic ScoringSubdag :=
  subdags.foldlM (addSubdag ctx) scoring

def distributedVotesScores : List Nat :=
  ctx.committee.indices.map fun auth =>
    ((scoring.votes.toList.filter fun entry => entry.1.author = auth).map
      fun entry => entry.2.stake).sum

def calculateDistributedVoteScores : Except Panic ReputationScores := do
  let commitRange ← expect scoring.commitRange .commitRangeUnset
  pure ⟨commitRange, scoring.distributedVotesScores ctx⟩

def scoredSubdagsCount : Nat := (scoring.commitRange.map CommitRange.size).getD 0

def isEmpty (scoring : ScoringSubdag) : Bool :=
  decide (scoring.leaders = ∅) && scoring.votes.isEmpty && scoring.commitRange.isNone

end ScoringSubdag

end Mysticeti

import Mysticeti.BaseCommitter

/-!
# The universal committer

Applies the base committers to every undecided round, from the highest round down, so
that a slot without a direct decision can use the decisions above it. The result is the
longest decided prefix. With pipelining there is one committer for every round of a wave,
so every round has a leader.
-/

namespace Mysticeti

open Lib.Outcome

namespace UniversalCommitterBuilder

/-- The committers in order of round offset, then leader offset. -/
def build (waveLength numberOfLeaders : Nat) (pipeline : Bool) : List BaseCommitterOptions :=
  (List.range (if pipeline then waveLength else 1)).flatMap fun roundOffset =>
    (List.range numberOfLeaders).map fun leaderOffset => ⟨waveLength, leaderOffset, roundOffset⟩

end UniversalCommitterBuilder

namespace UniversalCommitter

variable (ctx : Context) (election : LeaderElection) (st : DagState)

/-- Apply one committer to each pair of a round and a committer in turn, with the statuses
of the later slots at hand. -/
def decideSlots (lastDecided : Slot) :
    List (Round × BaseCommitterOptions) → List (LeaderStatus × Decision) →
      Except Panic (List (LeaderStatus × Decision))
  | [], leaders => .ok leaders
  | (round, options) :: rest, leaders =>
    match BaseCommitter.electLeader options election round with
    | none => decideSlots lastDecided rest leaders
    | some slot =>
      if slot = lastDecided then .ok leaders
      else do
        let status ← BaseCommitter.tryDirectDecide ctx st options slot
        if status.isDecided then decideSlots lastDecided rest ((status, .direct) :: leaders)
        else do
          let status ← BaseCommitter.tryIndirectDecide ctx st options slot
            (leaders.map Prod.fst)
          decideSlots lastDecided rest ((status, .indirect) :: leaders)

def decidedSequence : List (LeaderStatus × Decision) → List DecidedLeader
  | [] => []
  | (leader, decision) :: rest =>
    if leader.round = GENESIS_ROUND then decidedSequence rest
    else match leader.intoDecidedLeader (decision = .direct) with
      | none => []
      | some decided => decided :: decidedSequence rest

/-- The first round to decide. With one leader per round, no second leader of the round of
the last decided slot is considered. -/
def firstRound (lastDecided : Slot) : Round :=
  match ctx.protocolConfig.mysticetiNumLeadersPerRound with
  | some 1 => lastDecided.round + 1
  | _ => lastDecided.round

def roundsToDecide (lastDecided : Slot) : List Round :=
  (List.range' (firstRound ctx lastDecided)
    (st.highestAcceptedRound - 2 + 1 - firstRound ctx lastDecided)).reverse

def tryDecide (committers : List BaseCommitterOptions) (lastDecided : Slot) :
    Except Panic (List DecidedLeader) := do
  let leaders ← decideSlots ctx election st lastDecided
    ((roundsToDecide ctx st lastDecided).flatMap fun round =>
      committers.reverse.map fun options => (round, options)) []
  pure (decidedSequence leaders)

end UniversalCommitter

end Mysticeti

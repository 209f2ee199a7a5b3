import Mysticeti.ConsensusNode

/-!
# Triggers of the epoch change in the commit loop

The commit loop counts the blocks of the commits it processes and, from the configured number
on, asks the epoch transition manager after every commit for a proposal of the next epoch and
for this node's vote on it. Only the loop that is started with the node has the manager; a loop
that is started by a transition counts for nobody. A commit that waited in the buffer, and one
past the barrier, is not counted.

Creating the proposal takes the start of the epoch from the executor, under the lock of the
epoch change manager; the vote takes the lock anew, and other tasks may come between. An error
of either ends the loop. The index of the commit is reported after the vote only.

Beside the fields of the implementation a counter keeps the blocks its loop handled in any way
and how often it asked for a transition.
-/

namespace Mysticeti

open Option EpochChangeManager Lib.Machine

/-- What the creation of a proposal finds: the clock, and the answer of the executor to the
question for the start of the epoch. -/
structure TriggerAnswers where
  nowMs : Nat
  nowSeconds : Nat
  epochStart : Option BlockTimestampMs

structure BlockCounter where
  managed : Bool
  direct : Bool
  blocksInCurrentEpoch : Nat
  handledBlocks : Nat
  triggers : Nat
  /-- The proposal to be voted on, and the commit index to be reported then. -/
  voting : Option (EpochChangeProposal × CommitIndex)
  stopped : Option EpochChangeRefusal
deriving DecidableEq, Repr

namespace BlockCounter

def new (managed : Bool) : BlockCounter := ⟨managed, false, 0, 0, 0, none, none⟩

variable (counter : BlockCounter)

def goesOn : Bool := counter.voting.isNone && counter.stopped.isNone

def pass (blocks : Nat) : BlockCounter :=
  { counter with handledBlocks := counter.handledBlocks + blocks }

def count (blocks : Nat) : BlockCounter :=
  { counter.pass blocks with
    blocksInCurrentEpoch := counter.blocksInCurrentEpoch + if counter.direct then blocks else 0 }

/-- After this many blocks of a processed commit the loop asks for a transition. -/
def Reaches (period : Option Nat) (blocks : Nat) : Prop :=
  counter.direct = true ∧ 0 < blocks ∧ counter.managed = true ∧
    ∃ limit ∈ period, limit ≤ counter.blocksInCurrentEpoch + blocks
deriving Decidable

end BlockCounter

def skippedBlocks (pre post : CommitProcessor) (dag : CommittedSubDag) : Nat :=
  if post.nextExpectedIndex = pre.nextExpectedIndex then 0 else dag.blocks.length

def LoopPoint.processed : LoopPoint → Option CommittedSubDag
  | .processing dag => some dag
  | _ => none

namespace Worker

def skipsOnReceive (worker : Worker) (barrier : CommitIndex) (dag : CommittedSubDag) : Nat :=
  skippedBlocks worker.processor (worker.processor.receive barrier dag).1 dag

def skipsOnDrain (worker : Worker) (barrier : CommitIndex) : Nat :=
  match worker.processor.resume barrier,
      worker.processor.pendingCommits[worker.processor.nextExpectedIndex]? with
  | some (post, _), some pending => skippedBlocks worker.processor post pending
  | _, _ => 0

end Worker

structure TriggerNode where
  node : ConsensusNode
  suiEpoch : Epoch
  ownIndex : AuthorityIndex
  keyPair : ProtocolKeyPair
  blocksPerEpoch : Option Nat
  counters : List BlockCounter

inductive TriggerAction where
  | receive (pos : Nat) (dag : CommittedSubDag)
  | resume (pos : Nat) (ans : TriggerAnswers)
  | vote (pos : Nat) (nowMs : Nat)
  | node (action : NodeAction)

namespace TriggerNode

def new (config : NodeConfig) (comm : Committee) (epochTimestampMs : BlockTimestampMs)
    (ownIndex : AuthorityIndex) (keyPair : ProtocolKeyPair) (period : Option Nat) :
    TriggerNode :=
  { node := .new config comm epochTimestampMs
    suiEpoch := 0
    ownIndex, keyPair, blocksPerEpoch := period
    counters := [.new true] }

def manager (st : TriggerNode) : EpochChangeManager := st.node.epochChange.manager

def setManager (st : TriggerNode) (mgr : EpochChangeManager) : TriggerNode :=
  { st with node := { st.node with
      epochChange := { st.node.epochChange with manager := mgr } } }

def setCounter (st : TriggerNode) (pos : Nat) (counter : BlockCounter) : TriggerNode :=
  { st with counters := st.counters.set pos counter }

section Steps

variable (crypto : EpochCrypto) (codec : TransactionCodec)

variable (st : TriggerNode)

/-- `create_epoch_change_proposal_integrated`: without an answer of the executor the clock is
the start of the epoch. -/
def createEpochChangeProposal (ans : TriggerAnswers) (newEpoch : Epoch)
    (commitIndex : CommitIndex) :
    EpochChangeManager × Except EpochChangeRefusal EpochChangeProposal :=
  st.manager.proposeEpochChangeToTargetEpoch crypto ans.nowSeconds newEpoch
    (ans.epochStart.getD ans.nowMs) commitIndex st.ownIndex st.keyPair

def autoVoteOnProposal (nowMs : Nat) (prop : EpochChangeProposal) :
    EpochChangeManager × Except EpochChangeRefusal EpochChangeVote :=
  st.manager.voteOnProposal crypto nowMs prop st.ownIndex st.keyPair

def receive (st : TriggerNode) (pos : Nat) (dag : CommittedSubDag) : Option TriggerNode :=
  match st.node.workers[pos]?, st.counters[pos]? with
  | some worker, some counter =>
    if counter.goesOn then
      (st.node.receive codec pos dag).map fun node =>
        { st with node }.setCounter pos
          { counter.pass (worker.skipsOnReceive st.node.transitionBarrier dag) with
            direct := true }
    else none
  | _, _ => none

def trigger (pos : Nat) (counter : BlockCounter)
    (reported : CommitIndex) (ans : TriggerAnswers) : TriggerNode :=
  let called := { counter with triggers := counter.triggers + 1 }
  match st.createEpochChangeProposal crypto ans (st.suiEpoch + 1) 0 with
  | (mgr, .error err) =>
    (st.setManager mgr).setCounter pos { called with stopped := some err }
  | (mgr, .ok prop) =>
    (st.setManager mgr).setCounter pos
      { called with voting := some (prop, reported) }

/-- A commit was processed: its blocks are counted, and a transition is asked for. -/
def finish (node : ConsensusNode) (pos : Nat) (counter : BlockCounter)
    (dag : CommittedSubDag) (ans : TriggerAnswers) : TriggerNode :=
  let blocks := dag.blocks.length
  if counter.Reaches st.blocksPerEpoch blocks then
    { st with
      node := { node with currentCommitIndex := st.node.currentCommitIndex } }.trigger crypto
        pos (counter.count blocks) node.currentCommitIndex ans
  else { st with node }.setCounter pos (counter.count blocks)

/-- The loop goes on. A commit from the buffer is not counted, and one past the barrier is
handled at once. -/
def resume (st : TriggerNode) (pos : Nat) (ans : TriggerAnswers) : Option TriggerNode :=
  match st.node.workers[pos]?, st.counters[pos]? with
  | some worker, some counter =>
    if counter.goesOn then
      (st.node.resume codec pos).map fun node =>
        match worker.processor.point.processed with
        | some dag => st.finish crypto node pos counter dag ans
        | none =>
          { st with node }.setCounter pos
            { counter.pass (worker.skipsOnDrain st.node.transitionBarrier) with
              direct := false }
    else none
  | _, _ => none

def vote (st : TriggerNode) (pos : Nat) (nowMs : Nat) : Option TriggerNode :=
  match st.counters[pos]? with
  | none => none
  | some counter =>
    match counter.voting with
    | none => none
    | some (prop, reported) =>
      match st.autoVoteOnProposal crypto nowMs prop with
      | (mgr, .error err) =>
        some ((st.setManager mgr).setCounter pos
          { counter with voting := none, stopped := some err })
      | (mgr, .ok vote) =>
        some ({ st with node := { st.node with
            epochChange := { manager := mgr, cast := st.node.epochChange.cast ++ [vote] }
            currentCommitIndex := reported } }.setCounter pos
          { counter with voting := none })

def suiEpochAfter : NodeAction → Epoch
  | .proceed =>
    match st.node.transition with
    | .validated prop => prop.newEpoch
    | _ => st.suiEpoch
  | _ => st.suiEpoch

/-- A transition starts a loop without the manager. -/
def countersAfter : NodeAction → List BlockCounter
  | .proceed =>
    if st.node.transition = .barrierReset then st.counters ++ [.new false]
    else st.counters
  | _ => st.counters

def act : NodeAction → Option TriggerNode
  | .receive _ _ => none
  | .resume _ => none
  | action =>
    (st.node.step crypto codec action).map fun node =>
      { st with
        node
        suiEpoch := st.suiEpochAfter action
        counters := st.countersAfter action }

def step : TriggerAction → Option TriggerNode
  | .receive pos dag => st.receive codec pos dag
  | .resume pos ans => st.resume crypto codec pos ans
  | .vote pos nowMs => st.vote crypto pos nowMs
  | .node action => st.act crypto codec action

/-- What a step can do: a commit loop takes in a commit or passes over one, finishes one, or
votes; or the node does something else. -/
inductive Stepped (st : TriggerNode) : TriggerAction → TriggerNode → Prop where
  | receive {pos : Nat} {dag : CommittedSubDag} {counter : BlockCounter}
      {worker : Worker} {node : ConsensusNode}
      (got : st.counters[pos]? = some counter)
      (works : st.node.workers[pos]? = some worker) :
      Stepped st (.receive pos dag) ({ st with node }.setCounter pos
        { counter.pass (worker.skipsOnReceive st.node.transitionBarrier dag) with
          direct := true })
  | pass {pos : Nat} {ans : TriggerAnswers} {counter : BlockCounter}
      {worker : Worker} {node : ConsensusNode}
      (got : st.counters[pos]? = some counter)
      (works : st.node.workers[pos]? = some worker)
      (passes : worker.processor.point.processed = none) :
      Stepped st (.resume pos ans) ({ st with node }.setCounter pos
        { counter.pass (worker.skipsOnDrain st.node.transitionBarrier) with direct := false })
  | finish {pos : Nat} {ans : TriggerAnswers} {counter : BlockCounter}
      {worker : Worker} {node : ConsensusNode} {dag : CommittedSubDag}
      (got : st.counters[pos]? = some counter)
      (works : st.node.workers[pos]? = some worker)
      (processes : worker.processor.point.processed = some dag)
      (sameManager : node.epochChange = st.node.epochChange) :
      Stepped st (.resume pos ans)
        (st.finish crypto node pos counter dag ans)
  | voted {pos nowMs : Nat} {counter : BlockCounter} {prop : EpochChangeProposal}
      {reported : CommitIndex} {node : ConsensusNode}
      (got : st.counters[pos]? = some counter)
      (voting : counter.voting = some (prop, reported))
      (acc : ∃ vote, (st.autoVoteOnProposal crypto nowMs prop).2 = .ok vote) :
      Stepped st (.vote pos nowMs)
        ({ st with node }.setCounter pos { counter with voting := none })
  | refused {pos nowMs : Nat} {counter : BlockCounter} {prop : EpochChangeProposal}
      {reported : CommitIndex} {node : ConsensusNode} {err : EpochChangeRefusal}
      (got : st.counters[pos]? = some counter)
      (voting : counter.voting = some (prop, reported))
      (refused : (st.autoVoteOnProposal crypto nowMs prop).2 = .error err) :
      Stepped st (.vote pos nowMs) ({ st with node }.setCounter pos
        { counter with voting := none, stopped := some err })
  | act {action : NodeAction} {node : ConsensusNode} :
      Stepped st (.node action)
        { st with
          node
          suiEpoch := st.suiEpochAfter action
          counters := st.countersAfter action }

variable {crypto codec} {st next : TriggerNode} {action : TriggerAction}

lemma stepped_of_resume {pos : Nat} {ans : TriggerAnswers}
    (resumed : st.resume crypto codec pos ans = some next) :
    st.Stepped crypto (.resume pos ans) next := by
  unfold resume at resumed
  split at resumed
  case h_2 => cases resumed
  case h_1 worker counter works got =>
    rw [ite_none_right_eq_some, map_eq_some_iff] at resumed
    obtain ⟨_, node, nodeResumed, rfl⟩ := resumed
    split
    case h_1 dag processes =>
      refine .finish got works processes ?_
      rw [ConsensusNode.resume, works] at nodeResumed
      obtain ⟨_, _, rfl⟩ := map_eq_some_iff.mp nodeResumed
      rfl
    case h_2 passes => exact .pass got works passes

lemma stepped_of_vote {pos nowMs : Nat}
    (voted : st.vote crypto pos nowMs = some next) :
    st.Stepped crypto (.vote pos nowMs) next := by
  unfold vote at voted
  split at voted
  case h_1 => cases voted
  case h_2 counter got =>
    split at voted
    case h_1 => cases voted
    case h_2 prop reported voting =>
      split at voted
      case h_1 mgr err refused =>
        obtain rfl := some.inj voted
        exact .refused got voting (congrArg Prod.snd refused)
      case h_2 mgr vote acc =>
        obtain rfl := some.inj voted
        exact .voted got voting ⟨vote, congrArg Prod.snd acc⟩

lemma stepped_of_step (taken : st.step crypto codec action = some next) :
    st.Stepped crypto action next := by
  cases action with
  | receive pos dag =>
    rw [step, receive] at taken
    split at taken
    case h_2 => cases taken
    case h_1 worker counter works got =>
      rw [ite_none_right_eq_some, map_eq_some_iff] at taken
      obtain ⟨_, node, _, rfl⟩ := taken
      exact .receive got works
  | resume pos ans => exact stepped_of_resume taken
  | vote pos nowMs => exact stepped_of_vote taken
  | node action =>
    rw [step] at taken
    unfold act at taken
    split at taken
    case h_1 => cases taken
    case h_2 => cases taken
    case h_3 =>
      obtain ⟨node, _, rfl⟩ := map_eq_some_iff.mp taken
      exact .act

end Steps

end TriggerNode

end Mysticeti

import Mysticeti.CommitProcessor
import Mysticeti.ExecutorClient
import Mysticeti.EpochQuorum

/-!
# A node through its epochs

A node runs one commit processor for each epoch it has been in; the processor of a finished epoch
goes on until its channel is drained. All of them read one transition barrier and report to one
commit index. Each has its own executor client, or none.

`transition_to_epoch` holds the node while it runs, so that transactions are not checked for
acceptance meanwhile, but the processors go on between its parts: the validation of the proposal,
the barrier, the switch of the epoch, the reset of the commit index and of the barrier, and the
start of the new processor. It may return an error between any two of them. The proposal and the
commit index it is called with were read earlier, and are arbitrary.
-/

namespace Mysticeti

open Option EpochChangeManager

structure NodeConfig where
  executorReadEnabled : Bool
  executorCommitEnabled : Bool
deriving DecidableEq, Repr

/-- A call of `send_committed_subdag`: the commit, and the index it is executed at. -/
structure SentBlock where
  epoch : Epoch
  commitIndex : CommitIndex
  globalExecIndex : Nat
deriving DecidableEq, Repr

/-- The call an effect of a processor is, if it is one. -/
def CommitEffect.sentBlock : CommitEffect → Option SentBlock
  | .send dag epoch globalExecIndex => some ⟨epoch, dag.commitRef.index, globalExecIndex⟩
  | _ => none

/-- The commit index an effect reports, if it does. -/
def CommitEffect.notified : CommitEffect → Option CommitIndex
  | .notify idx => some idx
  | _ => none

/-- What an effect of a processor does to its executor client. -/
def CommitEffect.callOn (codec : TransactionCodec) (client : ExecutorRun) :
    CommitEffect → ExecutorRun
  | .send dag epoch globalExecIndex =>
    client.sendCommittedSubdag globalExecIndex
      { data := convertToProtobuf codec dag epoch globalExecIndex
        epoch
        commitIndex := dag.commitRef.index }
  | _ => client

/-- The task of a commit processor, with what it did so far and its executor client. -/
structure Worker where
  processor : CommitProcessor
  trace : List CommitEffect
  client : ExecutorRun

namespace Worker

def new (epoch : Epoch) (lastExec : Nat) (attached : Bool) (client : ExecutorRun) :
    Worker :=
  { processor := .new epoch lastExec attached
    trace := []
    client }

def perform (codec : TransactionCodec) (worker : Worker)
    (res : CommitProcessor × List CommitEffect) : Worker :=
  { processor := res.1
    trace := worker.trace ++ res.2
    client := res.2.foldl (CommitEffect.callOn codec) worker.client }

end Worker

inductive TransitionPoint where
  | idle
  | validated (prop : EpochChangeProposal)
  | shutting (prop : EpochChangeProposal) (newLastGlobalExecIndex : Nat)
  | switched
  | commitIndexReset
  | barrierReset
deriving DecidableEq, Repr

structure ConsensusNode where
  config : NodeConfig
  epochChange : EpochRun
  currentEpoch : Epoch
  lastGlobalExecIndex : Nat
  transitionBarrier : CommitIndex
  currentCommitIndex : CommitIndex
  lastTransitionHash : Option Bytes
  authorityRunning : Bool
  transition : TransitionPoint
  workers : List Worker
  /-- The calls of `send_committed_subdag` in the order they were made. -/
  sent : List SentBlock

/-- A processor receives a sub-dag or goes on; its executor client goes on; an operation of
the epoch change manager is called; a transaction is checked for acceptance; the transition
to an epoch is called, goes on or fails. -/
inductive NodeAction where
  | receive (pos : Nat) (dag : CommittedSubDag)
  | resume (pos : Nat)
  | client (pos : Nat) (act : ExecutorAction)
  | manage (act : EpochAction)
  | checkTransactionAcceptance
  | transitionToEpoch (now : Nat) (prop : EpochChangeProposal)
      (current : CommitIndex)
  | proceed
  | fail

namespace ConsensusNode

/-- The node as `new_with_registry_and_service` starts it: in epoch 0, with nothing
executed, whatever is in its storage. -/
def new (config : NodeConfig) (comm : Committee) (epochTimestampMs : BlockTimestampMs) :
    ConsensusNode :=
  { config
    epochChange := .new 0 comm epochTimestampMs
    currentEpoch := 0
    lastGlobalExecIndex := 0
    transitionBarrier := 0
    currentCommitIndex := 0
    lastTransitionHash := none
    authorityRunning := true
    transition := .idle
    workers := [.new 0 0 true (.new config.executorReadEnabled
      (config.executorReadEnabled && config.executorCommitEnabled))]
    sent := [] }

section Steps

variable (crypto : EpochCrypto) (codec : TransactionCodec)

variable (node : ConsensusNode)

def record (pos : Nat) (worker : Worker)
    (res : CommitProcessor × List CommitEffect) : ConsensusNode :=
  { node with
    workers := node.workers.set pos (worker.perform codec res)
    currentCommitIndex :=
      (res.2.filterMap CommitEffect.notified).getLast?.getD node.currentCommitIndex
    sent := node.sent ++ res.2.filterMap CommitEffect.sentBlock }

def receive (node : ConsensusNode) (pos : Nat) (dag : CommittedSubDag) : Option ConsensusNode :=
  match node.workers[pos]? with
  | none => none
  | some worker =>
    if worker.processor.point = .receiving then
      some (node.record codec pos worker
        (worker.processor.receive node.transitionBarrier dag))
    else none

def resume (node : ConsensusNode) (pos : Nat) : Option ConsensusNode :=
  match node.workers[pos]? with
  | none => none
  | some worker =>
    (worker.processor.resume node.transitionBarrier).map (node.record codec pos worker)

/-- A call on an executor client goes on, or the executor answers it. Calls begin only in
`process_commit`. -/
def client (node : ConsensusNode) (pos : Nat) (act : ExecutorAction) : Option ConsensusNode :=
  match node.workers[pos]?, act with
  | none, _ => none
  | some _, .call _ _ => none
  | some worker, act =>
    (worker.client.step act).map fun client =>
      { node with workers := node.workers.set pos { worker with client } }

lemma eq_of_client {node next : ConsensusNode} {pos : Nat} {act : ExecutorAction}
    (taken : node.client pos act = some next) :
    ∃ worker client, node.workers[pos]? = some worker ∧
      (∀ idx blk, act ≠ .call idx blk) ∧ worker.client.step act = some client ∧
      next = { node with workers := node.workers.set pos { worker with client } } := by
  unfold ConsensusNode.client at taken
  cases got : node.workers[pos]? with
  | none => simp [got] at taken
  | some worker =>
    cases act with
    | call idx blk => simp [got] at taken
    | advance call succeeds =>
      simp only [got] at taken
      obtain ⟨client, acted, rfl⟩ := map_eq_some_iff.mp taken
      exact ⟨worker, client, rfl, by simp, acted, rfl⟩
    | answer last =>
      simp only [got] at taken
      obtain ⟨client, acted, rfl⟩ := map_eq_some_iff.mp taken
      exact ⟨worker, client, rfl, by simp, acted, rfl⟩

lemma getElem?_set_worker {workers : List Worker} {pos other : Nat}
    {worker replaced got : Worker} (pre : workers[pos]? = some worker)
    (has : (workers.set pos replaced)[other]? = some got) :
    (other = pos ∧ got = replaced) ∨ (other ≠ pos ∧ workers[other]? = some got) := by
  by_cases same : pos = other
  · subst same
    rw [List.getElem?_set_self (List.getElem?_eq_some_iff.mp pre).1] at has
    exact .inl ⟨rfl, (some.inj has).symm⟩
  · rw [List.getElem?_set_ne same] at has
    exact .inr ⟨fun equal => same equal.symm, has⟩

def manage (act : EpochAction) : Option ConsensusNode :=
  (node.epochChange.step crypto act).map fun epochChange => { node with epochChange }

def transitionCommitIndex (prop : EpochChangeProposal) : CommitIndex :=
  saturatingAdd prop.proposalCommitIndex 10

/-- The barrier is set early, when a proposal for the next epoch has a quorum and its commit
index is reached. -/
def checkTransactionAcceptance : ConsensusNode :=
  let mgr := node.epochChange.manager
  if !node.authorityRunning then node
  else if mgr.allPendingProposals.any fun prop => node.currentEpoch + 1 < prop.newEpoch then node
  else if node.lastTransitionHash.isSome then node
  else if 0 < node.transitionBarrier then node
  else
    match mgr.allPendingProposals.find? fun prop =>
        prop.newEpoch == node.currentEpoch + 1 &&
          mgr.checkProposalQuorum crypto prop == some true &&
          prop.proposalCommitIndex ≤ node.currentCommitIndex with
    | some prop => { node with transitionBarrier := transitionCommitIndex prop }
    | none => node

/-- `transition_to_epoch` up to its first suspension. A call with the hash of the last
transition does nothing; one that is refused still leaves its hash. -/
def transitionToEpoch (now : Nat)
    (prop : EpochChangeProposal) (current : CommitIndex) : ConsensusNode :=
  let proposalHash := hashProposal crypto prop
  if node.lastTransitionHash = some proposalHash then node
  else
    let called := { node with lastTransitionHash := some proposalHash }
    let barrierReached := transitionCommitIndex prop ≤ current
    let quorumReached := node.epochChange.manager.checkProposalQuorum crypto prop = some true
    let timeoutReached := timeoutSeconds ≤ now - prop.createdAtSeconds
    let isCatchupMode := maxEpochLagForQuorum < prop.newEpoch - node.currentEpoch
    if ¬ barrierReached ∧ ¬ (timeoutReached ∧ quorumReached) then called
    else if ¬ quorumReached ∧ ¬ isCatchupMode then called
    else { called with transition := .validated prop }

lemma checkTransactionAcceptance_eq :
    node.checkTransactionAcceptance crypto = { node with
      transitionBarrier := (node.checkTransactionAcceptance crypto).transitionBarrier } := by
  unfold checkTransactionAcceptance
  dsimp only
  repeat' split
  all_goals rfl

lemma transitionToEpoch_eq (now : Nat)
    (prop : EpochChangeProposal) (current : CommitIndex) :
    ∃ lastTransitionHash transition,
      node.transitionToEpoch crypto now prop current =
        { node with lastTransitionHash, transition } := by
  unfold transitionToEpoch
  dsimp only
  split
  · exact ⟨node.lastTransitionHash, node.transition, rfl⟩
  · split
    · exact ⟨some (hashProposal crypto prop), node.transition, rfl⟩
    · split
      · exact ⟨some (hashProposal crypto prop), node.transition, rfl⟩
      · exact ⟨some (hashProposal crypto prop), .validated prop, rfl⟩

/-- The transition goes on from the point it is suspended at. -/
def proceed : Option ConsensusNode :=
  match node.transition with
  | .idle => none
  | .validated prop =>
    let raised := { node with transitionBarrier := transitionCommitIndex prop }
    if node.config.executorReadEnabled then
      some { raised with
        transition := .shutting prop (calculateGlobalExecIndex node.currentEpoch
          (transitionCommitIndex prop) node.lastGlobalExecIndex) }
    else some { raised with transition := .idle }
  | .shutting prop newLastGlobalExecIndex =>
    some { node with
      authorityRunning := false
      currentEpoch := prop.newEpoch
      lastGlobalExecIndex := newLastGlobalExecIndex
      epochChange := { node.epochChange with
        manager := node.epochChange.manager.resetForNewEpoch prop.newEpoch
          prop.newEpochTimestampMs }
      transition := .switched }
  | .switched => some { node with currentCommitIndex := 0, transition := .commitIndexReset }
  | .commitIndexReset => some { node with transitionBarrier := 0, transition := .barrierReset }
  | .barrierReset =>
    some { node with
      authorityRunning := true
      workers := node.workers ++ [.new node.currentEpoch node.lastGlobalExecIndex
        node.config.executorCommitEnabled (.new true true)]
      lastTransitionHash := none
      transition := .idle }

def step : NodeAction → Option ConsensusNode
  | .receive pos dag => node.receive codec pos dag
  | .resume pos => node.resume codec pos
  | .client pos act => node.client pos act
  | .manage act => node.manage crypto act
  | .checkTransactionAcceptance =>
    if node.transition = .idle then some (node.checkTransactionAcceptance crypto) else none
  | .transitionToEpoch now prop current =>
    if node.transition = .idle then
      some (node.transitionToEpoch crypto now prop current)
    else none
  | .proceed => node.proceed
  | .fail => if node.transition = .idle then none else some { node with transition := .idle }

def barrierAfter : NodeAction → CommitIndex
  | .checkTransactionAcceptance => (node.checkTransactionAcceptance crypto).transitionBarrier
  | .proceed =>
    match node.transition with
    | .validated prop => transitionCommitIndex prop
    | .commitIndexReset => 0
    | _ => node.transitionBarrier
  | _ => node.transitionBarrier

/-- What a step can do: a processor or a client takes a step, a new processor starts, or
processors, clients and calls stay as they are while the barrier may be written. -/
inductive Stepped (node : ConsensusNode) : NodeAction → ConsensusNode → Prop where
  | receive {pos : Nat} {dag : CommittedSubDag} {worker : Worker}
      (got : node.workers[pos]? = some worker)
      (waits : worker.processor.point = .receiving) :
      Stepped node (.receive pos dag) (node.record codec pos worker
        (worker.processor.receive node.transitionBarrier dag))
  | resume {pos : Nat} {worker : Worker} {res : CommitProcessor × List CommitEffect}
      (got : node.workers[pos]? = some worker)
      (resumed : worker.processor.resume node.transitionBarrier = some res) :
      Stepped node (.resume pos) (node.record codec pos worker res)
  | client {pos : Nat} {act : ExecutorAction} {worker : Worker} {client : ExecutorRun}
      (got : node.workers[pos]? = some worker)
      (underway : ∀ idx blk, act ≠ .call idx blk)
      (acted : worker.client.step act = some client) :
      Stepped node (.client pos act)
        { node with workers := node.workers.set pos { worker with client } }
  | start (point : node.transition = .barrierReset) :
      Stepped node .proceed { node with
        authorityRunning := true
        workers := node.workers ++ [.new node.currentEpoch node.lastGlobalExecIndex
          node.config.executorCommitEnabled (.new true true)]
        lastTransitionHash := none
        transition := .idle }
  | stay {act : NodeAction} {next : ConsensusNode} (workers : next.workers = node.workers)
      (sent : next.sent = node.sent)
      (barrier : next.transitionBarrier = node.barrierAfter crypto act) :
      Stepped node act next

lemma stepped_of_step {node next : ConsensusNode} {act : NodeAction}
    (taken : node.step crypto codec act = some next) :
    node.Stepped crypto codec act next := by
  cases act with
  | receive pos dag =>
    rw [step, receive] at taken
    split at taken
    case h_1 => cases taken
    case h_2 worker got =>
      rw [ite_none_right_eq_some] at taken
      obtain ⟨waits, recv⟩ := taken
      obtain rfl := some.inj recv
      exact .receive got waits
  | resume pos =>
    rw [step, resume] at taken
    split at taken
    case h_1 => cases taken
    case h_2 worker got =>
      obtain ⟨res, resumed, rfl⟩ := map_eq_some_iff.mp taken
      exact .resume got resumed
  | client pos act =>
    obtain ⟨worker, client, got, underway, acted, rfl⟩ := eq_of_client taken
    exact .client got underway acted
  | manage act =>
    obtain ⟨epochChange, _, rfl⟩ := map_eq_some_iff.mp taken
    exact .stay rfl rfl rfl
  | checkTransactionAcceptance =>
    rw [step, ite_none_right_eq_some] at taken
    obtain ⟨_, acc⟩ := taken
    obtain rfl := some.inj acc
    rw [checkTransactionAcceptance_eq]
    exact .stay rfl rfl rfl
  | transitionToEpoch now prop current =>
    rw [step, ite_none_right_eq_some] at taken
    obtain ⟨_, called⟩ := taken
    obtain rfl := some.inj called
    obtain ⟨hash, point, same⟩ :=
      transitionToEpoch_eq crypto node now prop current
    rw [same]
    exact .stay rfl rfl rfl
  | proceed =>
    rw [step, proceed] at taken
    cases point : node.transition with
    | idle => simp [point] at taken
    | validated prop =>
      simp only [point] at taken
      split at taken
      · cases taken
        exact .stay rfl rfl (by rw [barrierAfter, point])
      · cases taken
        exact .stay rfl rfl (by rw [barrierAfter, point])
    | shutting prop base =>
      simp only [point, some.injEq] at taken
      subst taken
      exact .stay rfl rfl (by rw [barrierAfter, point])
    | switched =>
      simp only [point, some.injEq] at taken
      subst taken
      exact .stay rfl rfl (by rw [barrierAfter, point])
    | commitIndexReset =>
      simp only [point, some.injEq] at taken
      subst taken
      exact .stay rfl rfl (by rw [barrierAfter, point])
    | barrierReset =>
      simp only [point, some.injEq] at taken
      subst taken
      exact .start point
  | fail =>
    rw [step, ite_none_left_eq_some] at taken
    obtain ⟨_, failed⟩ := taken
    obtain rfl := some.inj failed
    exact .stay rfl rfl rfl

end Steps

end ConsensusNode

namespace NodeAction

def handleCommit (pos : Nat) (idx : CommitIndex) : List NodeAction :=
  [.receive pos (.singleTransaction idx), .resume pos, .resume pos]

/-- A call on a client connects, writes the block that is expected and returns. -/
def deliver (pos call : Nat) : List NodeAction :=
  List.replicate 7 (.client pos (.advance call true))

def executeCommits (pos count : Nat) : List NodeAction :=
  (List.range count).flatMap fun call => handleCommit pos (call + 1) ++ deliver pos call

/-- A proposal arrives, and the votes of three members of the four. -/
def approve (prop : EpochChangeProposal) : List NodeAction :=
  .manage (.processProposal 0 prop) ::
    [0, 1, 2].map fun voter => .manage (.processVote (.ofMember prop voter))

def transition (now : Nat) (prop : EpochChangeProposal)
    (current : CommitIndex) : List NodeAction :=
  .transitionToEpoch now prop current :: List.replicate 5 .proceed

end NodeAction

/-- What the client of a processor wrote to the executor: the index, the epoch and the commit
of each block. -/
def ConsensusNode.writtenBy (node : ConsensusNode) (pos : Nat) : List (Nat × Epoch × CommitIndex) :=
  (node.workers[pos]?.map fun worker => worker.client.written.map fun entry =>
    (entry.1, entry.2.epoch, entry.2.commitIndex)).getD []

end Mysticeti

import Mysticeti.ConsensusNode
import Mysticeti.ValidatorCommittee

/-!
# A call of the transition to an epoch

`transition_to_epoch` as one call, with what it reads and writes outside the node: the epoch
known to the manager of the reconfiguration, the committee the consensus authority is started
with, and the answers it waits for. It marks the proposal before it checks it, takes over the
epoch of the proposal in several places one after the other, and may return an error between
any two of them; nothing is taken back.

The committee of the new epoch comes from the executor. The place of this node in it does not:
the node keeps the index it found at startup, and the epoch change manager keeps the committee
it was created with.
-/

namespace Mysticeti

open EpochChangeManager Lib.Machine Lib.Outcome

inductive TransactionAcceptance where
  | initializing
  | catchingUp (currentEpoch : Epoch) (epochs : List Epoch)
  | transitioning (currentEpoch : Epoch)
  | barrierPhase (barrier current : CommitIndex)
  | barrierPending (barrier current : CommitIndex)
  | ready
deriving DecidableEq, Repr

namespace TransactionAcceptance

def accepted : TransactionAcceptance → Bool
  | ready => true
  | _ => false

def queued : TransactionAcceptance → Bool
  | barrierPhase _ _ => true
  | barrierPending _ _ => true
  | _ => false

end TransactionAcceptance

inductive TransitionError where
  | mustWait (transitionCommitIndex current : CommitIndex)
  | quorumNotReached (epochLag : Nat)
  | alreadyReconfiguring
  | executorReadNotEnabled
  | invalidValidator (error : ValidatorError)
  | directoryNotCreated
deriving DecidableEq, Repr

/-- How a call ends: at once, because the proposal is marked; with the new epoch; with an
error; or in the panic of a committee that would not be one. -/
inductive TransitionOutcome where
  | alreadyDone
  | completed
  | failed (error : TransitionError)
  | panicked
deriving DecidableEq, Repr

/-- What a call finds around it: the clock, the first list of validators of the executor that
is not empty, and whether the directory of the new epoch can be created. -/
structure TransitionAnswers where
  nowSeconds : Nat
  validators : List ValidatorInfo
  directoryCreated : Bool

namespace ConsensusNode

variable (crypto : EpochCrypto)

def acceptance (node : ConsensusNode) : TransactionAcceptance :=
  let mgr := node.epochChange.manager
  let ahead := mgr.allPendingProposals.filter fun prop => node.currentEpoch + 1 < prop.newEpoch
  if !node.authorityRunning then .initializing
  else if !ahead.isEmpty then
    .catchingUp node.currentEpoch (ahead.map EpochChangeProposal.newEpoch)
  else if node.lastTransitionHash.isSome then .transitioning node.currentEpoch
  else if 0 < node.transitionBarrier then
    .barrierPhase node.transitionBarrier node.currentCommitIndex
  else
    match mgr.allPendingProposals.find? fun prop =>
        prop.newEpoch == node.currentEpoch + 1 &&
          mgr.checkProposalQuorum crypto prop == some true &&
          prop.proposalCommitIndex ≤ node.currentCommitIndex with
    | some prop => .barrierPending (transitionCommitIndex prop) node.currentCommitIndex
    | none => .ready

def checkTransition (node : ConsensusNode) (now : Nat) (prop : EpochChangeProposal)
    (current : CommitIndex) : Except TransitionError Unit := do
  let quorumReached := node.epochChange.manager.checkProposalQuorum crypto prop = some true
  let timeoutReached := timeoutSeconds ≤ now - prop.createdAtSeconds
  let epochLag := prop.newEpoch - node.currentEpoch
  ensure (transitionCommitIndex prop ≤ current ∨ (timeoutReached ∧ quorumReached))
    (.mustWait (transitionCommitIndex prop) current)
  ensure (quorumReached ∨ maxEpochLagForQuorum < epochLag) (.quorumNotReached epochLag)

lemma transitionToEpoch_of_check {node : ConsensusNode} {now : Nat}
    {prop : EpochChangeProposal} {current : CommitIndex}
    (unmarked : node.lastTransitionHash ≠ some (hashProposal crypto prop)) :
    (∀ error, node.checkTransition crypto now prop current = .error error →
      node.transitionToEpoch crypto now prop current =
        { node with lastTransitionHash := some (hashProposal crypto prop) }) ∧
    (node.checkTransition crypto now prop current = .ok () →
      node.transitionToEpoch crypto now prop current =
        { node with
          lastTransitionHash := some (hashProposal crypto prop)
          transition := .validated prop }) := by
  unfold checkTransition transitionToEpoch
  dsimp only
  rw [if_neg unmarked]
  constructor
  · intro error refused
    by_cases waits : transitionCommitIndex prop ≤ current ∨
        (timeoutSeconds ≤ now - prop.createdAtSeconds ∧
          node.epochChange.manager.checkProposalQuorum crypto prop = some true)
    · rw [ensure_holds _ waits, ok_bind] at refused
      rw [if_neg (by tauto), if_pos]
      by_contra agreed
      rw [ensure_holds _ (by tauto)] at refused
      cases refused
    · rw [if_pos (by tauto)]
  · intro passed
    rw [ensure_bind_eq_ok, ensure_eq_ok] at passed
    obtain ⟨waited, agreed⟩ := passed
    rw [if_neg (by tauto), if_neg (by tauto)]

end ConsensusNode

def fourValidators : List ValidatorInfo :=
  [.onPort 9001 "node-0" 'a', .onPort 9002 "node-1" 'b', .onPort 9003 "node-2" 'c',
    .onPort 9004 "node-3" 'd']

def keyOf (key : Char) : Bytes := List.replicate 32 (UInt8.ofNat key.toNat)

def firstProposal : EpochChangeProposal where
  newEpoch := 1
  newEpochTimestampMs := 0
  proposalCommitIndex := 0
  proposerValue := 0
  signatureBytes := EpochCrypto.transparent.sign (keyOf 'a') (proposalMessage 1 0 0 0)
  createdAtSeconds := 0

def approval (voter : AuthorityIndex) (key : Char) : EpochChangeVote where
  proposalHash := hashProposal .transparent firstProposal
  voterValue := voter
  approve := true
  signatureBytes := EpochCrypto.transparent.sign (keyOf key)
    (voteMessage (hashProposal .transparent firstProposal) true 1)

structure EpochNode where
  node : ConsensusNode
  ownIndex : AuthorityIndex
  protocolKey : Bytes
  suiEpoch : Epoch
  /-- A reconfiguration holds the execution lock. -/
  reconfiguring : Bool
  /-- The index and the committee the consensus authority was last started with. -/
  started : AuthorityIndex × Committee

namespace EpochNode

open ConsensusNode

variable (crypto : EpochCrypto) (codec : ValidatorCodec)

/-- A node after its start in epoch 0. -/
def new (config : NodeConfig) (comm : Committee) (epochTimestampMs : BlockTimestampMs)
    (ownIndex : AuthorityIndex) (protocolKey : Bytes) : EpochNode :=
  { node := .new config comm epochTimestampMs
    ownIndex, protocolKey
    suiEpoch := 0
    reconfiguring := false
    started := (ownIndex, comm) }

variable (st : EpochNode) (prop : EpochChangeProposal)

def marked : EpochNode :=
  { st with
    node := { st.node with lastTransitionHash := some (hashProposal crypto prop) } }

def raised : EpochNode :=
  { st with
    suiEpoch := prop.newEpoch
    node := { st.node with transitionBarrier := transitionCommitIndex prop } }

/-- The old authority is stopped, and the node and its manager are in the new epoch. -/
def switched : EpochNode :=
  { st with
    node := { st.node with
      authorityRunning := false
      currentEpoch := prop.newEpoch
      lastGlobalExecIndex := calculateGlobalExecIndex st.node.currentEpoch
        (transitionCommitIndex prop) st.node.lastGlobalExecIndex
      epochChange := { st.node.epochChange with
        manager := st.node.epochChange.manager.resetForNewEpoch prop.newEpoch
          prop.newEpochTimestampMs }
      currentCommitIndex := 0 } }

def restarted (comm : Committee) : EpochNode :=
  { st with
    started := (st.ownIndex, comm)
    node := { st.node with
      transitionBarrier := 0
      authorityRunning := true
      workers := st.node.workers ++ [.new st.node.currentEpoch
        st.node.lastGlobalExecIndex st.node.config.executorCommitEnabled (.new true true)]
      lastTransitionHash := none } }

def transitionToEpoch (ans : TransitionAnswers)
    (prop : EpochChangeProposal) (current : CommitIndex) :
    EpochNode × TransitionOutcome :=
  if st.node.lastTransitionHash = some (hashProposal crypto prop) then
    (st, .alreadyDone)
  else
    let called := st.marked crypto prop
    match st.node.checkTransition crypto ans.nowSeconds prop current with
    | .error error => (called, .failed error)
    | .ok () =>
      if st.reconfiguring then (called, .failed .alreadyReconfiguring)
      else if !st.node.config.executorReadEnabled then
        (called.raised prop, .failed .executorReadNotEnabled)
      else
        match codec.listedAuthorities ans.validators with
        | .error error => (called.raised prop, .failed (.invalidValidator error))
        | .ok auths =>
          match Committee.new prop.newEpoch auths with
          | none => (called.raised prop, .panicked)
          | some comm =>
            let switched := (called.raised prop).switched prop
            if ans.directoryCreated then (switched.restarted comm, .completed)
            else (switched, .failed .directoryNotCreated)

/-- What a call can do: it marks the proposal and stops at an error, or goes through. -/
inductive Called (st : EpochNode) (ans : TransitionAnswers)
    (prop : EpochChangeProposal) (current : CommitIndex) :
    EpochNode × TransitionOutcome → Prop where
  | alreadyDone (isMarked : st.node.lastTransitionHash = some (hashProposal crypto prop)) :
      Called st ans prop current (st, .alreadyDone)
  | refused {error : TransitionError}
      (unmarked : st.node.lastTransitionHash ≠ some (hashProposal crypto prop))
      (checked : st.node.checkTransition crypto ans.nowSeconds prop current =
        .error error) :
      Called st ans prop current
        (st.marked crypto prop, .failed error)
  | locked (unmarked : st.node.lastTransitionHash ≠ some (hashProposal crypto prop))
      (checked : st.node.checkTransition crypto ans.nowSeconds prop current =
        .ok ()) :
      Called st ans prop current
        (st.marked crypto prop, .failed .alreadyReconfiguring)
  | disabled (unmarked : st.node.lastTransitionHash ≠ some (hashProposal crypto prop))
      (checked : st.node.checkTransition crypto ans.nowSeconds prop current =
        .ok ()) (disabled : st.node.config.executorReadEnabled = false) :
      Called st ans prop current
        ((st.marked crypto prop).raised prop, .failed .executorReadNotEnabled)
  | noCommittee {outcome : TransitionOutcome}
      (unmarked : st.node.lastTransitionHash ≠ some (hashProposal crypto prop))
      (checked : st.node.checkTransition crypto ans.nowSeconds prop current =
        .ok ()) (enabled : st.node.config.executorReadEnabled = true)
      (ended : outcome ≠ .alreadyDone ∧ outcome ≠ .completed) :
      Called st ans prop current
        ((st.marked crypto prop).raised prop, outcome)
  | noDirectory (unmarked : st.node.lastTransitionHash ≠ some (hashProposal crypto prop))
      (checked : st.node.checkTransition crypto ans.nowSeconds prop current =
        .ok ()) (enabled : st.node.config.executorReadEnabled = true) :
      Called st ans prop current
        (((st.marked crypto prop).raised prop).switched prop, .failed .directoryNotCreated)
  | completed {auths : List Authority} {comm : Committee}
      (unmarked : st.node.lastTransitionHash ≠ some (hashProposal crypto prop))
      (checked : st.node.checkTransition crypto ans.nowSeconds prop current =
        .ok ()) (enabled : st.node.config.executorReadEnabled = true)
      (here : codec.listedAuthorities ans.validators = .ok auths)
      (built : Committee.new prop.newEpoch auths = some comm) :
      Called st ans prop current
        ((((st.marked crypto prop).raised prop).switched prop).restarted comm, .completed)

section Calls

variable {crypto codec} {st : EpochNode} {ans : TransitionAnswers}
  {prop : EpochChangeProposal} {current : CommitIndex}

lemma called (crypto : EpochCrypto) (codec : ValidatorCodec) (st : EpochNode)
    (ans : TransitionAnswers) (prop : EpochChangeProposal)
    (current : CommitIndex) :
    st.Called crypto codec ans prop current
      (st.transitionToEpoch crypto codec ans prop current) := by
  unfold transitionToEpoch
  split
  case isTrue isMarked => exact .alreadyDone isMarked
  case isFalse unmarked =>
    dsimp only
    split
    case h_1 error refused => exact .refused unmarked refused
    case h_2 checked =>
      split
      case isTrue => exact .locked unmarked checked
      case isFalse =>
        split
        case isTrue disabled => exact .disabled unmarked checked (by simpa using disabled)
        case isFalse enabled =>
          simp only [Bool.not_eq_true, Bool.not_eq_false'] at enabled
          split
          case h_1 error refused => exact .noCommittee unmarked checked enabled (by simp)
          case h_2 auths here =>
            split
            case h_1 => exact .noCommittee unmarked checked enabled (by simp)
            case h_2 comm built =>
              split
              · exact .completed unmarked checked enabled here built
              · exact .noDirectory unmarked checked enabled

/-- The authority was started with this node's key at its index, and the manager verifies
proposals and votes with the authorities of that committee. -/
def CommitteesConsistent (st : EpochNode) : Prop :=
  (st.started.2.authorities[st.started.1]?).map Authority.protocolKey = some st.protocolKey ∧
  st.node.epochChange.manager.committee.authorities = st.started.2.authorities
deriving Decidable

/-- A call that returns an error leaves the epoch, the base index, the barrier, the mark, the
epoch of the reconfiguration and the answer to clients as they were, and a later call with the
same proposal tries again. -/
structure Retryable (crypto : EpochCrypto) (codec : ValidatorCodec)
    (prop : EpochChangeProposal) (st post : EpochNode) : Prop where
  epoch : post.node.currentEpoch = st.node.currentEpoch
  base : post.node.lastGlobalExecIndex = st.node.lastGlobalExecIndex
  barrier : post.node.transitionBarrier = st.node.transitionBarrier
  hash : post.node.lastTransitionHash = st.node.lastTransitionHash
  suiEpoch : post.suiEpoch = st.suiEpoch
  accepted : (post.node.acceptance crypto).accepted = (st.node.acceptance crypto).accepted
  queued : (post.node.acceptance crypto).queued = (st.node.acceptance crypto).queued
  attempts : ∀ laterAnswers laterCommitIndex,
    (post.transitionToEpoch crypto codec laterAnswers prop laterCommitIndex).2 ≠ .alreadyDone

lemma marked_of_failed {error : TransitionError}
    (failed : (st.transitionToEpoch crypto codec ans prop current).2 =
      .failed error) :
    st.node.lastTransitionHash ≠ some (hashProposal crypto prop) ∧
    (st.transitionToEpoch crypto codec ans prop
      current).1.node.lastTransitionHash = some (hashProposal crypto prop) := by
  have res := called crypto codec st ans prop current
  generalize st.transitionToEpoch crypto codec ans prop current = ended
    at res failed
  cases res with
  | alreadyDone | completed => cases failed
  | refused unmarked | locked unmarked | disabled unmarked | noCommittee unmarked
  | noDirectory unmarked => exact ⟨unmarked, rfl⟩

lemma alreadyDone_of_marked
    (isMarked : st.node.lastTransitionHash = some (hashProposal crypto prop)) :
    st.transitionToEpoch crypto codec ans prop current = (st, .alreadyDone) := by
  rw [transitionToEpoch, if_pos isMarked]

end Calls

def startup (config : NodeConfig) (validators : List ValidatorInfo) (nodeId : Nat)
    (protocolKey : Bytes) (epochTimestampMs : BlockTimestampMs) : Option EpochNode := do
  let auths ← (codec.startupAuthorities false validators).toOption
  let comm ← Committee.new 0 auths
  let ownIndex ← comm.authorities.findIdx? fun auth => auth.hostname == s!"node-{nodeId}"
  pure (.new config comm epochTimestampMs ownIndex protocolKey)

def approvedByThree : Option EpochNode := do
  let st ← startup .ofTcp ⟨true, true⟩ fourValidators 0 (keyOf 'a') 0
  let node ← run (step .transparent .plain) st.node
    (.manage (.processProposal 0 firstProposal) ::
      ['a', 'b', 'c'].zipIdx.map fun mem => .manage (.processVote (approval mem.2 mem.1)))
  pure { st with node }

def answered (validators : List ValidatorInfo) : TransitionAnswers := ⟨0, validators, true⟩

def callFirst (st : EpochNode) (validators : List ValidatorInfo)
    (current : CommitIndex) : EpochNode × TransitionOutcome :=
  st.transitionToEpoch .transparent .ofTcp (answered validators) firstProposal
    current

def fiveValidators : List ValidatorInfo := .onPort 9000 "node-4" 'e' :: fourValidators

end EpochNode

end Mysticeti

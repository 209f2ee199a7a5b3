import Mysticeti.CommitProcessor

/-!
# Epochs counted by checkpoints

The commit loop makes a checkpoint of each commit that it takes from the channel in order; one that
waited in the buffer, and one past the barrier, has none. A checkpoint at which the blocks so far
reach the boundary of the epoch is the last of its epoch, and the node whose index is the epoch
modulo four, or the one after it, then raises its own count of epochs. The others keep theirs, and
the choice depends on the count itself, so that node 0 stops at epoch 1, node 1 at epoch 2, and
every other node at epoch 0.

The executor is asked to change the epoch too; the count goes up whatever it answers.
-/

namespace Mysticeti

structure EndOfEpochData where
  nextEpochCommittee : List (AuthorityIndex × Nat)
  nextEpochProtocolVersion : Nat
  epochStartTimestampMs : BlockTimestampMs
deriving DecidableEq, Repr

structure Checkpoint where
  sequenceNumber : Nat
  epoch : Epoch
  commitIndex : CommitIndex
  timestampMs : BlockTimestampMs
  blockCount : Nat
  endOfEpochData : Option EndOfEpochData
deriving DecidableEq, Repr

structure CheckpointManager where
  checkpoints : Std.ExtTreeMap Nat Checkpoint
  currentEpoch : Epoch
  lastSequenceNumber : Nat
  totalBlocksProcessed : Nat
  blocksPerEpoch : Nat

namespace CheckpointManager

def new (period : Nat) : CheckpointManager :=
  { checkpoints := ∅
    currentEpoch := 0
    lastSequenceNumber := 0
    totalBlocksProcessed := 0
    blocksPerEpoch := period }

def getNextEpochCommittee : List (AuthorityIndex × Nat) :=
  [(0, 1000), (1, 1000), (2, 1000), (3, 1000)]

variable (mgr : CheckpointManager)

def shouldCreateEndOfEpochCheckpoint (nowMs : BlockTimestampMs)
    (sequenceNumber : Nat) : Option EndOfEpochData :=
  let epochBoundary := (mgr.currentEpoch + 1) * mgr.blocksPerEpoch
  if epochBoundary ≤ sequenceNumber then some ⟨getNextEpochCommittee, 1, nowMs⟩ else none

def createCheckpoint (nowMs : BlockTimestampMs)
    (commitIndex : CommitIndex) (blockCount : Nat) : Checkpoint × CheckpointManager :=
  let sequenceNumber := mgr.totalBlocksProcessed + blockCount
  let checkpoint : Checkpoint :=
    { sequenceNumber
      epoch := mgr.currentEpoch
      commitIndex
      timestampMs := nowMs
      blockCount
      endOfEpochData := mgr.shouldCreateEndOfEpochCheckpoint nowMs sequenceNumber }
  (checkpoint,
    { mgr with
      checkpoints := mgr.checkpoints.insert sequenceNumber checkpoint
      lastSequenceNumber := sequenceNumber
      totalBlocksProcessed := sequenceNumber })

def advanceEpoch : CheckpointManager := { mgr with currentEpoch := mgr.currentEpoch + 1 }

end CheckpointManager

structure CheckpointEpochChangeData where
  checkpointSequence : Nat
  commitIndex : CommitIndex
  newEpoch : Epoch
  epochStartTimestampMs : BlockTimestampMs
  nextEpochCommittee : List (AuthorityIndex × Nat)
deriving DecidableEq, Repr

/-- What happens outside of the node while a commit is handled: the clock, and the answer of the
executor to `advance_epoch`. -/
structure CheckpointAnswers where
  nowMs : BlockTimestampMs
  advanceEpoch : Option (Epoch × BlockTimestampMs)

/-- A failure of the executor is logged and not returned. -/
def submitCheckpointEpochChangeTransaction (enabled : Bool) (ans : CheckpointAnswers) :
    Except String Unit :=
  if enabled then
    match ans.advanceEpoch with
    | some _ => .ok ()
    | none => .ok ()
  else .ok ()

structure CheckpointEpochTransitionManager where
  checkpointManager : CheckpointManager
  executorEnabled : Bool
  ownIndex : AuthorityIndex
  submitted : List CheckpointEpochChangeData

namespace CheckpointEpochTransitionManager

def new (period : Nat) (executorEnabled : Bool) (ownIndex : AuthorityIndex) :
    CheckpointEpochTransitionManager :=
  ⟨.new period, executorEnabled, ownIndex, []⟩

def createEpochChangeTransaction (mgr : CheckpointEpochTransitionManager)
    (ans : CheckpointAnswers) (checkpoint : Checkpoint) (endOfEpochData : EndOfEpochData)
    (commitIndex : CommitIndex) : CheckpointEpochTransitionManager :=
  let asked := { mgr with
    submitted := mgr.submitted ++
      [{ checkpointSequence := checkpoint.sequenceNumber
         commitIndex
         newEpoch := checkpoint.epoch + 1
         epochStartTimestampMs := endOfEpochData.epochStartTimestampMs
         nextEpochCommittee := endOfEpochData.nextEpochCommittee }] }
  match submitCheckpointEpochChangeTransaction mgr.executorEnabled ans with
  | .ok () => { asked with checkpointManager := mgr.checkpointManager.advanceEpoch }
  | .error _ => asked

def leads (ownIndex : AuthorityIndex) (epoch : Epoch) : Bool :=
  ownIndex = epoch % 4 || ownIndex = (epoch + 1) % 4

def processCommitAndCheckEpochTransition (mgr : CheckpointEpochTransitionManager)
    (ans : CheckpointAnswers) (dag : CommittedSubDag) (commitIndex : CommitIndex) :
    CheckpointEpochTransitionManager :=
  let (checkpoint, checkpointManager) :=
    mgr.checkpointManager.createCheckpoint ans.nowMs commitIndex dag.blocks.length
  let created := { mgr with checkpointManager }
  match checkpoint.endOfEpochData with
  | none => created
  | some endOfEpochData =>
    if leads mgr.ownIndex checkpointManager.currentEpoch then
      created.createEpochChangeTransaction ans checkpoint endOfEpochData commitIndex
    else created

end CheckpointEpochTransitionManager

structure CheckpointLoop where
  processor : CommitProcessor
  manager : CheckpointEpochTransitionManager

namespace CheckpointLoop

open List Option CommitProcessor CheckpointEpochTransitionManager

variable {barrier : CommitIndex}

def new (epoch : Epoch) (lastExec : Nat) (executorClient : Bool)
    (period : Nat) (ownIndex : AuthorityIndex) : CheckpointLoop :=
  ⟨.new epoch lastExec executorClient, .new period executorClient ownIndex⟩

/-- The sub-dag is the expected one and not past the barrier. -/
def takesUp (barrier : CommitIndex) (proc : CommitProcessor) (dag : CommittedSubDag) : Bool :=
  dag.commitRef.index = proc.nextExpectedIndex &&
    !pastBarrier (proc.observe barrier).barrierSnapshot proc.nextExpectedIndex

def processorAfter (barrier : CommitIndex) (proc : CommitProcessor)
    (dag : CommittedSubDag) : CommitProcessor :=
  (CommitProcessor.handle barrier (proc, []) dag).1

def handle (barrier : CommitIndex) (loop : CheckpointLoop)
    (arrival : CommittedSubDag × CheckpointAnswers) : CheckpointLoop :=
  { processor := processorAfter barrier loop.processor arrival.1
    manager :=
      if takesUp barrier loop.processor arrival.1 then
        loop.manager.processCommitAndCheckEpochTransition arrival.2 arrival.1
          loop.processor.nextExpectedIndex
      else loop.manager }

def handleAll (barrier : CommitIndex) (loop : CheckpointLoop)
    (arrivals : List (CommittedSubDag × CheckpointAnswers)) : CheckpointLoop :=
  arrivals.foldl (handle barrier) loop

def checkpointed (barrier : CommitIndex) : CommitProcessor → List CommittedSubDag → List Nat
  | _, [] => []
  | proc, dag :: rest =>
    (if takesUp barrier proc dag then [dag.blocks.length] else []) ++
      checkpointed barrier (processorAfter barrier proc dag) rest

lemma checkpointed_prefix (barrier : CommitIndex) (proc : CommitProcessor)
    (subdags : List CommittedSubDag) (count : Nat) :
    ∃ later, checkpointed barrier proc subdags =
      checkpointed barrier proc (subdags.take count) ++ later := by
  induction subdags generalizing proc count with
  | nil => exact ⟨[], by rw [take_nil, append_nil]⟩
  | cons dag rest ih =>
    cases count with
    | zero => exact ⟨_, rfl⟩
    | succ count =>
      obtain ⟨later, split⟩ := ih (processorAfter barrier proc dag) count
      exact ⟨later, by rw [take_succ_cons, checkpointed, checkpointed, split, append_assoc]⟩

section Epochs

variable {period : Nat} {counts : List Nat}

/-- Some checkpoint ended the first epoch. -/
def FirstEnded (period : Nat) (counts : List Nat) : Prop :=
  counts ≠ [] ∧ period ≤ counts.sum
deriving Decidable

def SecondEnded (period : Nat) (counts : List Nat) : Prop :=
  FirstEnded period counts.dropLast ∧ 2 * period ≤ counts.sum
deriving Decidable

lemma firstEnded_append {later : List Nat} (ended : FirstEnded period counts) :
    FirstEnded period (counts ++ later) := by
  refine ⟨append_ne_nil_of_left_ne_nil ended.1 later, ?_⟩
  rw [sum_append]
  exact Nat.le_add_right_of_le ended.2

lemma firstEnded_concat {count : Nat} :
    FirstEnded period (counts ++ [count]) ↔ period ≤ counts.sum + count := by
  simp [FirstEnded]

lemma secondEnded_concat {count : Nat} :
    SecondEnded period (counts ++ [count]) ↔
      FirstEnded period counts ∧ 2 * period ≤ counts.sum + count := by
  simp [SecondEnded]

lemma SecondEnded.first (ended : SecondEnded period counts) :
    FirstEnded period counts := by
  rcases eq_nil_or_concat' counts with rfl | ⟨prev, last, rfl⟩
  · exact ended.1
  · exact firstEnded_append (secondEnded_concat.mp ended).1

lemma secondEnded_append {later : List Nat} (ended : SecondEnded period counts) :
    SecondEnded period (counts ++ later) := by
  induction later using reverseRecOn with
  | nil => rwa [append_nil]
  | append_singleton later last ih =>
    rw [← append_assoc, secondEnded_concat]
    exact ⟨ih.first, Nat.le_add_right_of_le ih.2⟩

def countedEpoch (period : Nat) (counts : List Nat) (ownIndex : AuthorityIndex) : Epoch :=
  if 2 ≤ ownIndex then 0
  else if ¬ FirstEnded period counts then 0
  else if ownIndex = 0 then 1
  else if SecondEnded period counts then 2
  else 1

lemma submitted_ok (enabled : Bool) (ans : CheckpointAnswers) :
    submitCheckpointEpochChangeTransaction enabled ans = .ok () := by
  unfold submitCheckpointEpochChangeTransaction
  split
  · split <;> rfl
  · rfl

lemma processCommit_spec (mgr : CheckpointEpochTransitionManager)
    (ans : CheckpointAnswers) (dag : CommittedSubDag) (commitIndex : CommitIndex) :
    (mgr.processCommitAndCheckEpochTransition ans dag commitIndex).ownIndex = mgr.ownIndex ∧
      (mgr.processCommitAndCheckEpochTransition ans dag
          commitIndex).checkpointManager.blocksPerEpoch =
        mgr.checkpointManager.blocksPerEpoch ∧
      (mgr.processCommitAndCheckEpochTransition ans dag
          commitIndex).checkpointManager.totalBlocksProcessed =
        mgr.checkpointManager.totalBlocksProcessed + dag.blocks.length ∧
      (mgr.processCommitAndCheckEpochTransition ans dag
          commitIndex).checkpointManager.currentEpoch =
        if (mgr.checkpointManager.currentEpoch + 1) *
              mgr.checkpointManager.blocksPerEpoch ≤
            mgr.checkpointManager.totalBlocksProcessed + dag.blocks.length ∧
          leads mgr.ownIndex mgr.checkpointManager.currentEpoch then
          mgr.checkpointManager.currentEpoch + 1
        else mgr.checkpointManager.currentEpoch := by
  unfold processCommitAndCheckEpochTransition CheckpointManager.createCheckpoint
    CheckpointManager.shouldCreateEndOfEpochCheckpoint
  by_cases reached : (mgr.checkpointManager.currentEpoch + 1) *
      mgr.checkpointManager.blocksPerEpoch ≤
        mgr.checkpointManager.totalBlocksProcessed + dag.blocks.length
  · by_cases leader : leads mgr.ownIndex mgr.checkpointManager.currentEpoch = true
    · simp [reached, leader, createEpochChangeTransaction, submitted_ok,
        CheckpointManager.advanceEpoch]
    · simp [reached, leader]
  · simp [reached]

/-- The manager has made these checkpoints. -/
structure Tracks (period : Nat) (ownIndex : AuthorityIndex) (counts : List Nat)
    (mgr : CheckpointEpochTransitionManager) : Prop where
  own : mgr.ownIndex = ownIndex
  perEpoch : mgr.checkpointManager.blocksPerEpoch = period
  total : mgr.checkpointManager.totalBlocksProcessed = counts.sum
  epoch : mgr.checkpointManager.currentEpoch = countedEpoch period counts ownIndex

lemma countedEpoch_concat (period : Nat) (counts : List Nat) (count : Nat)
    (ownIndex : AuthorityIndex) :
    let epoch := countedEpoch period counts ownIndex
    countedEpoch period (counts ++ [count]) ownIndex =
      if (epoch + 1) * period ≤ counts.sum + count ∧ leads ownIndex epoch then epoch + 1
      else epoch := by
  have grows : FirstEnded period counts → period ≤ counts.sum + count :=
    fun ended => Nat.le_add_right_of_le ended.2
  have stays : SecondEnded period counts → FirstEnded period counts ∧
      2 * period ≤ counts.sum + count :=
    fun ended => ⟨ended.first, Nat.le_add_right_of_le ended.2⟩
  simp only [countedEpoch, firstEnded_concat, secondEnded_concat]
  by_cases high : 2 ≤ ownIndex
  · have follower : leads ownIndex 0 = false := by
      simp only [leads, Bool.or_eq_false_iff, decide_eq_false_iff_not]
      lia
    simp [high, follower]
  · by_cases first : FirstEnded period counts
    · have reached := grows first
      obtain rfl | rfl : ownIndex = 0 ∨ ownIndex = 1 := by lia
      · -- node 0 does not lead the second epoch
        simp [first, reached, leads]
      · by_cases second : SecondEnded period counts
        · simp [first, reached, second, (stays second).2, leads]
        · simp [first, reached, second, leads]
    · have unfinished : ¬ SecondEnded period counts := fun ended => first ended.first
      obtain rfl | rfl : ownIndex = 0 ∨ ownIndex = 1 := by lia
      · by_cases reached : period ≤ counts.sum + count <;> simp [first, reached, leads]
      · by_cases reached : period ≤ counts.sum + count <;> simp [first, reached, leads]

lemma Tracks.process {mgr : CheckpointEpochTransitionManager} {ownIndex : AuthorityIndex}
    (tracks : Tracks period ownIndex counts mgr) (ans : CheckpointAnswers)
    (dag : CommittedSubDag) (commitIndex : CommitIndex) :
    Tracks period ownIndex (counts ++ [dag.blocks.length])
      (mgr.processCommitAndCheckEpochTransition ans dag commitIndex) := by
  obtain ⟨sameIndex, sameLength, total, epoch⟩ := processCommit_spec mgr ans dag commitIndex
  rw [tracks.total] at total epoch
  rw [tracks.epoch, tracks.perEpoch, tracks.own] at epoch
  refine ⟨sameIndex.trans tracks.own, sameLength.trans tracks.perEpoch, ?_, ?_⟩
  · rw [total, sum_append, sum_singleton]
  · rw [epoch, countedEpoch_concat]

lemma Tracks.handleAll {ownIndex : AuthorityIndex} {loop : CheckpointLoop}
    (tracks : Tracks period ownIndex counts loop.manager)
    (arrivals : List (CommittedSubDag × CheckpointAnswers)) :
    Tracks period ownIndex
      (counts ++ checkpointed barrier loop.processor (arrivals.map Prod.fst))
      (loop.handleAll barrier arrivals).manager := by
  induction arrivals generalizing loop counts with
  | nil =>
    rw [map_nil, checkpointed, append_nil]
    exact tracks
  | cons arrival rest ih =>
    rw [map_cons, checkpointed, ← append_assoc]
    refine @ih _ (loop.handle barrier arrival) ?_
    unfold handle
    split
    · exact tracks.process arrival.2 arrival.1 loop.processor.nextExpectedIndex
    · rw [append_nil]
      exact tracks

lemma tracks_new (period : Nat) (executorClient : Bool) (ownIndex : AuthorityIndex) :
    Tracks period ownIndex [] (.new period executorClient ownIndex) := by
  refine ⟨rfl, rfl, rfl, ?_⟩
  have unfinished : ¬ FirstEnded period [] := fun ended => ended.1 rfl
  simp [countedEpoch, unfinished, CheckpointEpochTransitionManager.new, CheckpointManager.new]

lemma countedEpoch_eq_iff (first second : AuthorityIndex) :
    countedEpoch period counts first = countedEpoch period counts second ↔
      first = second ∨ (2 ≤ first ∧ 2 ≤ second) ∨ ¬ FirstEnded period counts ∨
        (first < 2 ∧ second < 2 ∧ ¬ SecondEnded period counts) := by
  have implies : SecondEnded period counts → FirstEnded period counts :=
    SecondEnded.first
  unfold countedEpoch
  split_ifs <;> grind

end Epochs

section Clients

def withClient (executorClient : Bool) (proc : CommitProcessor) : CommitProcessor :=
  { proc with executorClient }

variable (executorClient : Bool) (proc : CommitProcessor)

lemma takeUp_withClient (point : LoopPoint) (dag : CommittedSubDag) :
    ((withClient executorClient proc).takeUp barrier point dag).1 =
      withClient executorClient (proc.takeUp barrier point dag).1 := by
  simp only [takeUp, observe_eq, withClient]
  by_cases past : pastBarrier (if 0 < barrier then barrier else proc.barrierSnapshot)
      proc.nextExpectedIndex = true
  · rw [if_pos past, if_pos past]
  · rw [if_neg past, if_neg past]

lemma resume_withClient :
    ((withClient executorClient proc).resume barrier).map Prod.fst =
      (proc.resume barrier).map fun res => withClient executorClient res.1 := by
  obtain ⟨next, pendingCommits, epoch, last, client, snapshot, point⟩ := proc
  cases point with
  | receiving => rfl
  | processing dag => rfl
  | draining =>
    rw [resume, resume]
    dsimp only [withClient]
    cases pendingCommits[next]? with
    | none => rfl
    | some pending =>
      exact congrArg some (takeUp_withClient executorClient
        ⟨next, pendingCommits.erase next, epoch, last, client, snapshot, .draining⟩ .draining
        pending)

lemma settle_withClient (fuel : Nat) (effects others : List CommitEffect) :
    (settle barrier fuel (withClient executorClient proc, effects)).1 =
      withClient executorClient (settle barrier fuel (proc, others)).1 := by
  induction fuel generalizing proc effects others with
  | zero => rfl
  | succ fuel ih =>
    have resumed := @resume_withClient barrier executorClient proc
    rw [settle, settle]
    cases own : proc.resume barrier with
    | none =>
      rw [own, map_none, map_eq_none_iff] at resumed
      rw [resumed]
    | some res =>
      rw [own, map_some, map_eq_some_iff] at resumed
      obtain ⟨other, got, same⟩ := resumed
      obtain ⟨next, more⟩ := other
      dsimp only at same
      rw [got, same]
      exact ih _ _ _

lemma processorAfter_withClient (dag : CommittedSubDag) :
    processorAfter barrier (withClient executorClient proc) dag =
      withClient executorClient (processorAfter barrier proc dag) := by
  have recv : ((withClient executorClient proc).receive barrier dag).1 =
      withClient executorClient (proc.receive barrier dag).1 := by
    have sameNext : (withClient executorClient proc).nextExpectedIndex =
        proc.nextExpectedIndex := rfl
    rw [CommitProcessor.receive, CommitProcessor.receive, sameNext]
    split
    · exact takeUp_withClient executorClient proc .receiving dag
    · split <;> rfl
  change (settle barrier
    (2 * ((withClient executorClient proc).receive barrier dag).1.pendingCommits.size + 2)
    (((withClient executorClient proc).receive barrier dag).1, _)).1 = _
  rw [recv]
  exact settle_withClient _ _ _ _ _

lemma checkpointed_withClient (subdags : List CommittedSubDag) :
    checkpointed barrier (withClient executorClient proc) subdags =
      checkpointed barrier proc subdags := by
  induction subdags generalizing proc with
  | nil => rfl
  | cons dag rest ih =>
    have same : takesUp barrier (withClient executorClient proc) dag =
        takesUp barrier proc dag := by
      rw [takesUp, takesUp, observe_eq, observe_eq]
      rfl
    rw [checkpointed, checkpointed, same, processorAfter_withClient, ih]

end Clients

/-- Two nodes that receive the same sub-dags count the same epochs exactly when they are the
same node, or neither is node 0 or 1, or no epoch has ended, or they are nodes 0 and 1 and the
second epoch has not ended. -/
theorem epochs_agree_iff (barrier : CommitIndex) (epoch : Epoch) (lastExec : Nat)
    (period : Nat) (first second : AuthorityIndex) (firstClient secondClient : Bool)
    (arrivals : List (CommittedSubDag × CheckpointAnswers × CheckpointAnswers)) :
    (∀ count,
      ((new epoch lastExec firstClient period first).handleAll barrier
        ((arrivals.take count).map fun arrival => (arrival.1, arrival.2.1))
        ).manager.checkpointManager.currentEpoch =
      ((new epoch lastExec secondClient period second).handleAll barrier
        ((arrivals.take count).map fun arrival => (arrival.1, arrival.2.2))
        ).manager.checkpointManager.currentEpoch) ↔
      first = second ∨ (2 ≤ first ∧ 2 ≤ second) ∨
      ¬ FirstEnded period (checkpointed barrier
        (.new epoch lastExec firstClient) (arrivals.map Prod.fst)) ∨
      (first < 2 ∧ second < 2 ∧
        ¬ SecondEnded period (checkpointed barrier
          (.new epoch lastExec firstClient) (arrivals.map Prod.fst))) := by
  have counted : ∀ (client : Bool) (own : AuthorityIndex) (count : Nat)
      (ans : CheckpointAnswers × CheckpointAnswers → CheckpointAnswers),
      ((new epoch lastExec client period own).handleAll barrier
        ((arrivals.take count).map fun arrival => (arrival.1, ans arrival.2))
        ).manager.checkpointManager.currentEpoch =
      countedEpoch period (checkpointed barrier
        (.new epoch lastExec firstClient) ((arrivals.take count).map Prod.fst)) own := by
    intro client own count ans
    have tracks := @Tracks.handleAll barrier _ _ _
      (new epoch lastExec client period own) (tracks_new _ client own)
      ((arrivals.take count).map fun arrival => (arrival.1, ans arrival.2))
    rw [tracks.epoch, nil_append, List.map_map]
    exact congrArg (countedEpoch period · own)
      (checkpointed_withClient client (.new epoch lastExec firstClient) _)
  simp only [counted firstClient first _ Prod.fst, counted secondClient second _ Prod.snd,
    countedEpoch_eq_iff]
  constructor
  · intro each
    have final := each arrivals.length
    rwa [take_length] at final
  · intro final count
    obtain ⟨later, split⟩ := checkpointed_prefix barrier
      (.new epoch lastExec firstClient) (arrivals.map Prod.fst) count
    rw [← map_take] at split
    rw [split] at final
    -- what has not ended after all arrivals had not ended before
    rcases final with same | high | early | ⟨low, lowToo, early⟩
    · exact .inl same
    · exact .inr (.inl high)
    · exact .inr (.inr (.inl fun ended => early (firstEnded_append ended)))
    · exact .inr (.inr (.inr ⟨low, lowToo, fun ended => early (secondEnded_append ended)⟩))

section Testing

/-- Of two nodes of four, node 0 ends the first epoch with the first block, and node 2 never
does. -/
theorem leader_alone_counts_epoch :
    ((new 0 0 true 1 0).handleAll 0 [(.singleTransaction 1, ⟨0, some (1, 0)⟩)]
      ).manager.checkpointManager.currentEpoch = 1 ∧
    ((new 0 0 true 1 2).handleAll 0 [(.singleTransaction 1, ⟨0, some (1, 0)⟩)]
      ).manager.checkpointManager.currentEpoch = 0 := by
  decide +kernel

end Testing

end CheckpointLoop

end Mysticeti

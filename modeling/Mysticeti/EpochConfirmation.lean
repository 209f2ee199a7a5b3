import Mysticeti.CheckpointEpochs
import Mysticeti.Lib.Machine

/-!
# Epochs the executor has confirmed

At the end of an epoch the node asks the executor to advance, and then advances its own count.
A failed request is logged and reported as a success, and a disabled client sends none and
reports a success too, so the count advances in any case. It never runs ahead of the executor
exactly in the runs in which every request at the end of an epoch is sent and answered.
-/

namespace Mysticeti

open Lib.Machine

/-- A commit with what happens outside while it is handled. -/
structure CheckpointArrival where
  answers : CheckpointAnswers
  subdag : CommittedSubDag
  commitIndex : CommitIndex

/-- A manager with the epochs that the executor confirmed since the count last went up, and the
epochs that the count went up to without that. -/
structure ConfirmedEpochs where
  manager : CheckpointEpochTransitionManager
  confirmed : List Epoch
  unconfirmed : List Epoch

namespace ConfirmedEpochs

open CheckpointEpochTransitionManager

def new (period : Nat) (executorEnabled : Bool) (ownIndex : AuthorityIndex) :
    ConfirmedEpochs :=
  ⟨.new period executorEnabled ownIndex, [], []⟩

def isAnswered (mgr : CheckpointEpochTransitionManager) (arrival : CheckpointArrival) : Bool :=
  mgr.executorEnabled && arrival.answers.advanceEpoch.isSome

/-- The epochs that the executor is asked for in a step. -/
def requested (pre post : CheckpointEpochTransitionManager) : List Epoch :=
  (post.submitted.drop pre.submitted.length).map CheckpointEpochChangeData.newEpoch

def step (run : ConfirmedEpochs) (arrival : CheckpointArrival) : Option ConfirmedEpochs :=
  let manager := run.manager.processCommitAndCheckEpochTransition arrival.answers arrival.subdag
    arrival.commitIndex
  let confirmed := run.confirmed ++
    if isAnswered run.manager arrival then requested run.manager manager else []
  let epoch := manager.checkpointManager.currentEpoch
  some (if epoch = run.manager.checkpointManager.currentEpoch then { run with manager, confirmed }
    else
      { manager
        confirmed := []
        unconfirmed := if epoch ∈ confirmed then run.unconfirmed else run.unconfirmed ++ [epoch] })

/-- The blocks of the commit reach the end of the epoch, and the node leads its change. -/
def Ends (run : ConfirmedEpochs) (arrival : CheckpointArrival) : Prop :=
  let checkpoints := run.manager.checkpointManager
  (checkpoints.currentEpoch + 1) * checkpoints.blocksPerEpoch ≤
      checkpoints.totalBlocksProcessed + arrival.subdag.blocks.length ∧
    leads run.manager.ownIndex checkpoints.currentEpoch

variable {run : ConfirmedEpochs} {arrival : CheckpointArrival}

lemma process_of_ends (ends : run.Ends arrival) :
    let post := run.manager.processCommitAndCheckEpochTransition arrival.answers arrival.subdag
      arrival.commitIndex
    post.checkpointManager.currentEpoch = run.manager.checkpointManager.currentEpoch + 1 ∧
      requested run.manager post = [run.manager.checkpointManager.currentEpoch + 1] := by
  obtain ⟨final, leader⟩ := ends
  simp [processCommitAndCheckEpochTransition, CheckpointManager.createCheckpoint,
    CheckpointManager.shouldCreateEndOfEpochCheckpoint, final, leader,
    createEpochChangeTransaction, CheckpointLoop.submitted_ok, CheckpointManager.advanceEpoch,
    requested]

lemma process_of_not_ends (goesOn : ¬ run.Ends arrival) :
    let post := run.manager.processCommitAndCheckEpochTransition arrival.answers arrival.subdag
      arrival.commitIndex
    post.checkpointManager.currentEpoch = run.manager.checkpointManager.currentEpoch ∧
      requested run.manager post = [] := by
  unfold Ends at goesOn
  dsimp only at goesOn
  unfold processCommitAndCheckEpochTransition CheckpointManager.createCheckpoint
    CheckpointManager.shouldCreateEndOfEpochCheckpoint
  by_cases final : (run.manager.checkpointManager.currentEpoch + 1) *
      run.manager.checkpointManager.blocksPerEpoch ≤
        run.manager.checkpointManager.totalBlocksProcessed + arrival.subdag.blocks.length
  · have follower : ¬ leads run.manager.ownIndex run.manager.checkpointManager.currentEpoch :=
      fun leader => goesOn ⟨final, leader⟩
    simp [final, follower, requested]
  · simp [final, requested]

lemma step_of_ends (clean : run.confirmed = []) (ends : run.Ends arrival) :
    ∃ next, step run arrival = some next ∧ next.confirmed = [] ∧
      next.unconfirmed = run.unconfirmed ++
        if isAnswered run.manager arrival then []
        else [run.manager.checkpointManager.currentEpoch + 1] := by
  obtain ⟨epoch, asked⟩ := process_of_ends ends
  refine ⟨_, rfl, ?_⟩
  rw [epoch, asked, clean, if_neg (Nat.succ_ne_self _)]
  by_cases answered : isAnswered run.manager arrival = true
  · simp [answered]
  · simp [answered]

lemma step_of_not_ends (goesOn : ¬ run.Ends arrival) :
    ∃ next, step run arrival = some next ∧ next.confirmed = run.confirmed ∧
      next.unconfirmed = run.unconfirmed := by
  obtain ⟨epoch, asked⟩ := process_of_not_ends goesOn
  refine ⟨_, rfl, ?_⟩
  rw [epoch, asked, if_pos rfl]
  simp

/-- At the end of an epoch the request is sent and answered. -/
def Confirms (run : ConfirmedEpochs) (arrival : CheckpointArrival) : Prop :=
  run.Ends arrival → isAnswered run.manager arrival = true

lemma clean_step {next : ConfirmedEpochs} (clean : run.confirmed = [])
    (taken : step run arrival = some next) : next.confirmed = [] := by
  by_cases ends : run.Ends arrival
  · obtain ⟨other, same, none, -⟩ := step_of_ends clean ends
    cases same.symm.trans taken
    exact none
  · obtain ⟨other, same, kept, -⟩ := step_of_not_ends ends
    cases same.symm.trans taken
    exact kept.trans clean

lemma unconfirmed_step_iff {next : ConfirmedEpochs} (clean : run.confirmed = [])
    (none : run.unconfirmed = []) (taken : step run arrival = some next) :
    next.unconfirmed = [] ↔ run.Confirms arrival := by
  by_cases ends : run.Ends arrival
  · obtain ⟨other, same, -, counted⟩ := step_of_ends clean ends
    cases same.symm.trans taken
    rw [counted, none, List.nil_append, Confirms]
    by_cases answered : isAnswered run.manager arrival = true
    · simp [answered]
    · simp [answered, ends]
  · obtain ⟨other, same, -, kept⟩ := step_of_not_ends ends
    cases same.symm.trans taken
    exact iff_of_true (kept.trans none) fun final => absurd final ends

lemma run_total (start : ConfirmedEpochs) (arrivals : List CheckpointArrival) :
    ∃ finish, Lib.Machine.run step start arrivals = some finish := by
  induction arrivals generalizing start with
  | nil => exact ⟨start, rfl⟩
  | cons arrival rest ih =>
    obtain ⟨finish, ran⟩ := ih _
    exact ⟨finish, run_cons_eq_some.mpr ⟨_, rfl, ran⟩⟩

end ConfirmedEpochs

end Mysticeti

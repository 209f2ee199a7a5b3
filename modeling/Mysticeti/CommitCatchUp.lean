import Mysticeti.CommitSyncRun

/-!
# Waiting for the consumer

Commits are fetched ahead of the consumer only up to a threshold, measured from the highest commit
that the consumer reported to a monitor. The commit processor of a MetaNode process handles
commits in order but reports none, so the monitor stays where the process started it. From then on
the guard measures the distance from the start and not from what was handled.
-/

namespace Mysticeti

open List Option Lib.Machine Lib.OrderedMap

/-- The actions of a MetaNode process, in which nothing is reported to the monitor. -/
def SyncAction.ByMetaNode : SyncAction → Prop
  | .setHighestHandledCommit _ => False
  | _ => True

instance : DecidablePred SyncAction.ByMetaNode := fun act =>
  match act with
  | .setHighestHandledCommit _ => isFalse id
  | .tick _ => isTrue trivial
  | .fetched _ _ => isTrue trivial
  | .processFirst => isTrue trivial
  | .coreTakes _ => isTrue trivial
  | .commitLocally _ => isTrue trivial
  | .consume _ => isTrue trivial

section Scheduling

variable {params : CommitSyncParameters}
  {quorumCommitIndex localCommitIndex highestHandledIndex : CommitIndex}

lemma effectiveBatchSize_eq_zero_iff :
    effectiveBatchSize params quorumCommitIndex localCommitIndex = 0 ↔
      params.commitSyncBatchSize = 0 := by
  simp only [effectiveBatchSize]
  split_ifs <;> lia

lemma mem_foldl_schedule {batchSize : Nat} {ends : List CommitIndex} {syncer : CommitSyncer}
    {range : CommitRange} (pending : range ∈ syncer.pendingFetches) :
    range ∈ (ends.foldl (CommitSyncer.schedule batchSize) syncer).pendingFetches := by
  induction ends generalizing syncer with
  | nil => exact pending
  | cons prevEnd rest ih => exact ih (mem_insert_iff.mpr (.inr pending))

lemma schedules_iff {batchSize : Nat} {post quorum limit : CommitIndex}
    {syncer : CommitSyncer} (empty : syncer.pendingFetches.toList = []) :
    ((CommitSyncer.previousEnds batchSize post quorum limit).foldl
        (CommitSyncer.schedule batchSize) syncer).pendingFetches.toList ≠ [] ↔
      post + batchSize ≤ quorum ∧ post + batchSize ≤ limit := by
  rw [CommitSyncer.previousEnds, range'_succ, takeWhile_cons]
  split
  case isTrue fits =>
    refine iff_of_true ?_ (by simpa using fits)
    have added : CommitRange.new (post + 1) (post + batchSize) ∈
        (syncer.schedule batchSize post).pendingFetches := mem_insert_iff.mpr (.inl rfl)
    rw [foldl_cons]
    exact ne_nil_of_mem (Std.ExtTreeSet.mem_toList.mpr (mem_foldl_schedule added))
  case isFalse tooFar =>
    refine iff_of_false (fun scheduled => scheduled empty) ?_
    simpa using tooFar

end Scheduling

namespace SyncNode

variable {params : CommitSyncParameters} {node : SyncNode}

lemma step_monitor {act : SyncAction} {next : SyncNode} (byMetaNode : act.ByMetaNode)
    (taken : step params node act = some next) :
    next.highestHandledCommit = node.highestHandledCommit := by
  cases act with
  | tick quorumCommitIndex =>
    simp only [step] at taken
    split at taken
    case h_2 => cases taken
    case h_1 =>
      split at taken
      case h_2 => cases taken
      case h_1 => exact (some.inj taken) ▸ rfl
  | fetched range commits =>
    simp only [step] at taken
    split at taken
    case h_2 => cases taken
    case h_1 =>
      obtain ⟨_, taken⟩ := ite_none_right_eq_some.mp taken
      obtain ⟨_, _, rfl⟩ := map_eq_some_iff.mp taken
      rfl
  | processFirst =>
    simp only [step] at taken
    split at taken
    case h_2 => cases taken
    case h_1 =>
      obtain rfl := some.inj taken
      unfold processFirst
      split
      · rfl
      · split <;> rfl
  | coreTakes commitsUntilUpdate =>
    simp only [step] at taken
    split at taken
    case h_2 => cases taken
    case h_1 =>
      split at taken
      case h_2 => cases taken
      case h_1 => exact (some.inj taken) ▸ rfl
  | commitLocally count => exact (some.inj taken) ▸ rfl
  | consume count =>
    obtain ⟨_, taken⟩ := ite_none_right_eq_some.mp taken
    exact (some.inj taken) ▸ rfl
  | setHighestHandledCommit idx => exact byMetaNode.elim

lemma run_monitor {start : SyncNode} {sched : List SyncAction}
    (byMetaNode : ∀ act ∈ sched, act.ByMetaNode)
    (ran : run (step params) start sched = some node) :
    node.highestHandledCommit = start.highestHandledCommit :=
  @invariant _ _ (step params) (fun _ act => act.ByMetaNode) _ _ _
    (fun st => st.highestHandledCommit = start.highestHandledCommit)
    (fun _ _ _ kept byMetaNode taken => (step_monitor byMetaNode taken).trans kept)
    rfl (heeds_of_forall byMetaNode) ran

lemma InSync.highest_le (inSync : InSync node) (empty : node.ranges = []) :
    node.syncer.highest ≤ node.syncer.syncedCommitIndex := by
  by_contra above
  have counted := inSync.covered.covers node.syncer.highest (Nat.lt_of_not_le above)
    (Nat.le_refl _)
  rw [empty] at counted
  exact absurd counted (by simp)

/-- In every run of a MetaNode process, with no range pending, requested, fetched or handed over,
a range is scheduled exactly when the batch after the last commit ends below the quorum and within
the threshold, whatever the consumer handled. -/
theorem catch_up_continues_iff {lastIdx quorumCommitIndex : CommitIndex}
    {sched : List SyncAction} (byMetaNode : ∀ act ∈ sched, act.ByMetaNode)
    (ran : run (step params) (start lastIdx 0) sched = some node)
    (nothing : node.ranges = []) :
    (∃ post, node.syncer.tryScheduleOnce params quorumCommitIndex node.lastCommitIndex
        node.highestHandledCommit = .ok post ∧ post.pendingFetches.toList ≠ []) ↔
      0 < params.commitSyncBatchSize ∧
        max node.syncer.syncedCommitIndex node.lastCommitIndex +
          effectiveBatchSize params quorumCommitIndex node.lastCommitIndex ≤ quorumCommitIndex ∧
        max node.syncer.syncedCommitIndex node.lastCommitIndex +
          effectiveBatchSize params quorumCommitIndex node.lastCommitIndex ≤
            effectiveThreshold params quorumCommitIndex node.lastCommitIndex := by
  have monitor : node.highestHandledCommit = 0 := run_monitor byMetaNode ran
  have covered := (run_inSync ran).highest_le nothing
  have next : max (max node.syncer.syncedCommitIndex node.lastCommitIndex)
      (node.syncer.highestScheduledIndex.getD 0) =
        max node.syncer.syncedCommitIndex node.lastCommitIndex :=
    Nat.max_eq_left (Nat.le_trans covered (Nat.le_max_left _ _))
  have empty : node.syncer.pendingFetches.toList = [] := (append_eq_nil_iff.mp nothing).1
  simp only [CommitSyncer.tryScheduleOnce, next, monitor, Nat.zero_add]
  by_cases zero : params.commitSyncBatchSize = 0
  · rw [if_pos (effectiveBatchSize_eq_zero_iff.mpr zero)]
    refine iff_of_false ?_ (fun fits => absurd zero (Nat.pos_iff_ne_zero.mp fits.1))
    rintro ⟨_, failed, _⟩
    cases failed
  · rw [if_neg (fun size => zero (effectiveBatchSize_eq_zero_iff.mp size))]
    simp only [Except.ok.injEq, exists_eq_left']
    refine Iff.trans (schedules_iff empty) ?_
    exact (and_iff_right (Nat.pos_of_ne_zero zero)).symm

theorem catch_up_continues_iff_four :
    (∃ post, (start 0 0).syncer.tryScheduleOnce ⟨2, 2, 4, 4⟩ 4 0 0 = .ok post ∧
        post.pendingFetches.toList ≠ []) ↔
      0 < 2 ∧ max 0 0 + effectiveBatchSize ⟨2, 2, 4, 4⟩ 4 0 ≤ 4 ∧
        max 0 0 + effectiveBatchSize ⟨2, 2, 4, 4⟩ 4 0 ≤ effectiveThreshold ⟨2, 2, 4, 4⟩ 4 0 :=
  @catch_up_continues_iff ⟨2, 2, 4, 4⟩ (start 0 0) 0 4 [] (by simp) rfl rfl

/-- A node with the default parameters of MetaNode. The consumer has handled all thirty thousand
commits, the quorum is a thousand ahead, and nothing is scheduled. -/
theorem handled_commits_still_throttle : ∃ node,
    run (step ⟨200, 16, 64, 4⟩) (start 0 0)
      [.commitLocally 30000, .consume 30000, .tick 30000] = some node ∧
    (node.ranges = [] ∧ node.syncer.syncedCommitIndex = 30000 ∧
      node.handledByConsumer = 30000 ∧
      node.syncer.syncedCommitIndex +
        effectiveBatchSize ⟨200, 16, 64, 4⟩ 31000 node.lastCommitIndex ≤ 31000 ∧
      (node.syncer.tryScheduleOnce ⟨200, 16, 64, 4⟩ 31000 node.lastCommitIndex
        node.highestHandledCommit).toOption.map (fun post => post.pendingFetches.toList) =
          some []) :=
  exists_reached (by decide +kernel)

end SyncNode

end Mysticeti

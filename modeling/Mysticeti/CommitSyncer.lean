import Mysticeti.CommitVerification
import Mysticeti.Lib.Machine

/-!
# Catching up on commits

The commit syncer fetches ranges of commits that a quorum has reached and this node has not. A
range is pending, then in flight as a request to a peer, then fetched, and is handed to Core when
no commit before it is missing. Core runs in a thread of its own and commits from its own DAG
meanwhile, so the steps of the two interleave: while the syncer waits for Core to take a batch,
Core may commit first.

Shares of a lag are compared without rounding, which agrees with the floating-point comparison of
the source for indices of 32 bits.
-/

namespace Mysticeti

open Lib.OrderedMap Std

namespace CommitRange

/-- Ranges compare by their first index, then by their last. -/
def order : CommitRange → CommitRange → Ordering := compareLex (compareOn start) (compareOn stop)

instance : Ord CommitRange := ⟨order⟩

instance : TransOrd CommitRange :=
  inferInstanceAs (TransCmp (compareLex (compareOn start) (compareOn stop)))

instance : LawfulEqOrd CommitRange where
  eq_of_compare {left right} same := by
    have parts : compare left.start right.start = .eq ∧ compare left.stop right.stop = .eq := by
      simpa only [compare, order, compareLex, compareOn, Ordering.then_eq_eq] using same
    obtain ⟨starts, stops⟩ := parts
    cases left
    cases right
    simp only [mk.injEq]
    exact ⟨LawfulEqOrd.eq_of_compare starts, LawfulEqOrd.eq_of_compare stops⟩

def contains (range : CommitRange) (idx : CommitIndex) : Bool :=
  range.start ≤ idx && idx < range.stop

end CommitRange

structure CommitSyncParameters where
  commitSyncBatchSize : Nat
  commitSyncParallelFetches : Nat
  commitSyncBatchesAhead : Nat
  committeeSize : Nat

namespace CommitSyncParameters

def unhandledCommitsThreshold (params : CommitSyncParameters) : CommitIndex :=
  params.commitSyncBatchSize * params.commitSyncBatchesAhead

end CommitSyncParameters

/-- More than fifty commits, or five percent, behind the quorum. -/
def shouldBeInSyncMode (quorum lag : CommitIndex) : Bool :=
  50 < lag || 5 * quorum < 100 * lag

/-- More than two hundred commits, or ten percent, behind the quorum. -/
def isSevereLag (quorum lag : CommitIndex) : Bool :=
  200 < lag || 10 * quorum < 100 * lag

def effectiveBatchSize (params : CommitSyncParameters)
    (quorum localCommitIndex : CommitIndex) : Nat :=
  let lag := quorum - localCommitIndex
  let baseBatchSize := params.commitSyncBatchSize
  if shouldBeInSyncMode quorum lag then
    if isSevereLag quorum lag then baseBatchSize * 2
    else baseBatchSize + baseBatchSize / 2
  else baseBatchSize

/-- In sync mode twice as many commits may be unhandled. -/
def effectiveThreshold (params : CommitSyncParameters)
    (quorum localCommitIndex : CommitIndex) : CommitIndex :=
  if shouldBeInSyncMode quorum (quorum - localCommitIndex) then
    params.unhandledCommitsThreshold * 2
  else params.unhandledCommitsThreshold

structure CommitSyncer where
  inflightFetches : List CommitRange
  pendingFetches : ExtTreeSet CommitRange
  fetchedRanges : ExtTreeMap CommitRange (List CertifiedCommit)
  highestScheduledIndex : Option CommitIndex
  syncedCommitIndex : CommitIndex
  isSyncMode : Bool

inductive SyncPanic where
  /-- A range was stepped through in batches of size zero. -/
  | zeroStep
  /-- Certified commits validation failed. -/
  | unexpectedCertifiedCommitIndex (expectedCommitIndex commitIndex : CommitIndex)
  | zeroLimit
deriving DecidableEq, Repr

namespace CommitSyncer

def new (lastIdx : CommitIndex) : CommitSyncer where
  inflightFetches := []
  pendingFetches := ∅
  fetchedRanges := ∅
  highestScheduledIndex := none
  syncedCommitIndex := lastIdx
  isSyncMode := false

def schedule (batchSize : Nat) (syncer : CommitSyncer) (prevEnd : CommitIndex) : CommitSyncer :=
  { syncer with
    pendingFetches := syncer.pendingFetches.insert (.new (prevEnd + 1) (prevEnd + batchSize))
    highestScheduledIndex := some (prevEnd + batchSize) }

/-- The ends of the ranges before those to schedule: whole batches up to the quorum, as long as
the consumer is not too far behind. -/
def previousEnds (batchSize : Nat) (fetchAfterIndex quorum limit : CommitIndex) :
    List CommitIndex :=
  (List.range' fetchAfterIndex ((quorum - fetchAfterIndex) / batchSize + 1)
    batchSize).takeWhile fun prevEnd =>
      prevEnd + batchSize ≤ quorum && prevEnd + batchSize ≤ limit

variable (params : CommitSyncParameters)

def tryScheduleOnce (quorum localCommitIndex highestHandledIndex : CommitIndex)
    (syncer : CommitSyncer) : Except SyncPanic CommitSyncer :=
  let lag := quorum - localCommitIndex
  let updated : CommitSyncer :=
    { syncer with
      syncedCommitIndex := max syncer.syncedCommitIndex localCommitIndex
      isSyncMode := shouldBeInSyncMode quorum lag }
  let fetchAfterIndex := max updated.syncedCommitIndex (updated.highestScheduledIndex.getD 0)
  let batchSize := effectiveBatchSize params quorum localCommitIndex
  if batchSize = 0 then .error .zeroStep
  else
    .ok ((previousEnds batchSize fetchAfterIndex quorum
      (highestHandledIndex +
        effectiveThreshold params quorum localCommitIndex)).foldl
      (schedule batchSize) updated)

def targetParallelFetches (syncer : CommitSyncer) : Nat :=
  let baseParallelFetches := params.commitSyncParallelFetches
  let effectiveParallelFetches :=
    if syncer.isSyncMode then
      min (baseParallelFetches + baseParallelFetches / 2) params.committeeSize
    else baseParallelFetches
  max (min (min effectiveParallelFetches (params.committeeSize * 2 / 3))
    (params.commitSyncBatchesAhead - syncer.fetchedRanges.size)) 1

/-- Pending ranges are requested from the first on, while slots are free. -/
def tryStartFetches (syncer : CommitSyncer) : CommitSyncer :=
  let started := syncer.pendingFetches.toList.take
    (targetParallelFetches params syncer - syncer.inflightFetches.length)
  { syncer with
    pendingFetches := started.foldl .erase syncer.pendingFetches
    inflightFetches := syncer.inflightFetches ++ started }

/-- What is done with a result before fetched ranges are processed: the rest of a partial result
is requested again, and commits that are synced already are dropped. -/
def storeFetchResult (targetEnd commitStart commitEnd lastIdx : CommitIndex)
    (certifiedCommits : List CertifiedCommit) (syncer : CommitSyncer) : CommitSyncer :=
  let syncedCommitIndex := max syncer.syncedCommitIndex lastIdx
  { syncer with
    pendingFetches :=
      if commitEnd < targetEnd then syncer.pendingFetches.insert (.new (commitEnd + 1) targetEnd)
      else syncer.pendingFetches
    syncedCommitIndex
    fetchedRanges :=
      if syncedCommitIndex < commitEnd then
        syncer.fetchedRanges.insert (.new commitStart commitEnd) certifiedCommits
      else syncer.fetchedRanges }

end CommitSyncer

section Core

def filterNewCommits (lastIdx : CommitIndex) (commits : List CertifiedCommit) :
    Except SyncPanic (List CertifiedCommit) :=
  let kept := commits.filter fun certified => lastIdx < certified.commit.index
  match kept with
  | [] => .ok []
  | first :: rest =>
    if first.commit.index = lastIdx + 1 then .ok (first :: rest)
    else .error (.unexpectedCertifiedCommitIndex (lastIdx + 1) first.commit.index)

/-- The loop of `try_commit` while certified commits are left: as many are committed as fit before
the leader schedule changes, each as the next commit. At least one is taken in each iteration, so
their number bounds the iterations. -/
def commitCertified (commitsUntilUpdate : CommitIndex → Nat) :
    Nat → List CertifiedCommit → CommitIndex → Except SyncPanic CommitIndex
  | 0, _, lastIdx => .ok lastIdx
  | _ + 1, [], lastIdx => .ok lastIdx
  | bound + 1, certified :: rest, lastIdx =>
    let limit := commitsUntilUpdate lastIdx
    if limit = 0 then .error .zeroLimit
    else
      let toCommit := (certified :: rest).take limit
      commitCertified commitsUntilUpdate bound ((certified :: rest).drop limit)
        (lastIdx + toCommit.length)

/-- The last commit index after a batch. Commits that the decision rule adds afterwards are steps
of their own. -/
def addCertifiedCommits (commitsUntilUpdate : CommitIndex → Nat) (lastIdx : CommitIndex)
    (commits : List CertifiedCommit) : Except SyncPanic CommitIndex := do
  let kept ← filterNewCommits lastIdx commits
  commitCertified commitsUntilUpdate kept.length kept lastIdx

end Core

/-- What the syncer is doing: waiting for a tick or a result, processing fetched ranges, or waiting
for Core to take a batch. -/
inductive SyncPhase where
  | selecting
  | processing
  | handing (range : CommitRange) (commits : List CertifiedCommit)

/-- The syncer with Core's last commit, the monitor of the consumer, and the last commit that the
consumer handled. -/
structure SyncNode where
  syncer : CommitSyncer
  phase : SyncPhase
  lastCommitIndex : CommitIndex
  highestHandledCommit : CommitIndex
  handledByConsumer : CommitIndex

inductive SyncAction where
  /-- The timer fires, with the quorum index of the vote monitor. -/
  | tick (quorum : CommitIndex)
  | fetched (range : CommitRange) (commits : List CertifiedCommit)
  | processFirst
  | coreTakes (commitsUntilUpdate : CommitIndex → Nat)
  | commitLocally (count : Nat)
  | consume (count : Nat)
  | setHighestHandledCommit (idx : CommitIndex)

/-- The commits of a request for a range, as verification lets them through. -/
def FetchedIn (range : CommitRange) (commits : List CertifiedCommit) : Prop :=
  (commits.map CertifiedCommit.commit).head?.map TrustedCommit.index = some range.start ∧
    (commits.map CertifiedCommit.commit).IsChain
      (fun prev later => later.index = prev.index + 1) ∧
    ∀ certified ∈ commits, certified.commit.index ≤ range.last
deriving Decidable

namespace SyncNode

def start (lastIdx replayAfterCommitIndex : CommitIndex) : SyncNode where
  syncer := .new lastIdx
  phase := .selecting
  lastCommitIndex := lastIdx
  highestHandledCommit := replayAfterCommitIndex
  handledByConsumer := replayAfterCommitIndex

variable (params : CommitSyncParameters) (node : SyncNode)

/-- The end of the processing loop: the syncer starts requests and waits again. -/
def finish : SyncNode :=
  { node with syncer := node.syncer.tryStartFetches params, phase := .selecting }

def processFirst : SyncNode :=
  match node.syncer.fetchedRanges.toList with
  | [] => node.finish params
  | (range, commits) :: _ =>
    if range.start ≤ node.syncer.syncedCommitIndex + 1 then
      { node with
        syncer := { node.syncer with fetchedRanges := node.syncer.fetchedRanges.erase range }
        phase :=
          if range.last ≤ node.syncer.syncedCommitIndex then .processing
          else .handing range commits }
    else node.finish params

def commitEnds (commits : List CertifiedCommit) : Option (CommitIndex × CommitIndex) :=
  match commits.head?, commits.getLast? with
  | some first, some last => some (first.commit.index, last.commit.index)
  | _, _ => none

def step : SyncAction → Option SyncNode
  | .tick quorum =>
    match node.phase with
    | .selecting =>
      match node.syncer.tryScheduleOnce params quorum node.lastCommitIndex
        node.highestHandledCommit with
      | .ok syncer => some ({ node with syncer }.finish params)
      | .error _ => none
    | _ => none
  | .fetched range commits =>
    match node.phase with
    | .selecting =>
      if range ∈ node.syncer.inflightFetches ∧ FetchedIn range commits then
        (commitEnds commits).map fun ends =>
          { node with
            syncer := { node.syncer with
              inflightFetches := node.syncer.inflightFetches.erase range }.storeFetchResult
                range.last ends.1 ends.2 node.lastCommitIndex commits
            phase := .processing }
      else none
    | _ => none
  | .processFirst =>
    match node.phase with
    | .processing => some (node.processFirst params)
    | _ => none
  | .coreTakes commitsUntilUpdate =>
    match node.phase with
    | .handing range commits =>
      match addCertifiedCommits commitsUntilUpdate node.lastCommitIndex commits with
      | .ok lastIdx =>
        some { node with
          syncer := { node.syncer with
            syncedCommitIndex := max node.syncer.syncedCommitIndex range.last }
          phase := .processing
          lastCommitIndex := lastIdx }
      | .error _ => none
    | _ => none
  | .commitLocally count => some { node with lastCommitIndex := node.lastCommitIndex + count }
  | .consume count =>
    if node.handledByConsumer + count ≤ node.lastCommitIndex then
      some { node with handledByConsumer := node.handledByConsumer + count }
    else none
  | .setHighestHandledCommit idx => some { node with highestHandledCommit := idx }

end SyncNode

end Mysticeti

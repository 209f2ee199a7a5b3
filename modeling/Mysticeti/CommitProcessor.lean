import Mysticeti.Types
import Mysticeti.Lib.Machine

/-!
# The commit processor

The commit processor takes finalized sub-dags from a channel in any order, handles them
in the order of their indices and hands them to the executor. Between two suspension
points of its task nothing else runs, so the model cuts the loop there: one step receives
a sub-dag, one step runs `process_commit`, one step looks for the next buffered sub-dag.
Each step reads the shared transition barrier at most once, and other tasks may write it
between the steps.

A processor without a transition barrier behaves as one whose barrier stays zero. Commit
indices are counted without wrapping: they would need more than `2 ^ 32` commits in an
epoch. What a step does outside the processor is returned as a list of effects.
-/

namespace Mysticeti

def calculateGlobalExecIndex (epoch : Epoch) (commitIndex : CommitIndex)
    (lastExec : Nat) : Nat :=
  if epoch = 0 then
    if lastExec > commitIndex * 10 then lastExec + commitIndex
    else commitIndex
  else lastExec + commitIndex

namespace VerifiedBlock

def transactions (verified : VerifiedBlock) : List Transaction := verified.block.inner.transactions

end VerifiedBlock

def CommittedSubDag.transactionData (dag : CommittedSubDag) : List Bytes :=
  dag.blocks.flatMap fun blk => blk.transactions.map Transaction.data

/-- What a step of the processor does to its surroundings: it enters `process_commit`,
calls `send_committed_subdag`, appends to the queue of transactions for the next epoch,
or reports the handled index. -/
inductive CommitEffect where
  | process (dag : CommittedSubDag) (globalExecIndex : Nat)
  | send (dag : CommittedSubDag) (epoch : Epoch) (globalExecIndex : Nat)
  | requeue (dag : CommittedSubDag) (transactions : List Bytes)
  | notify (idx : CommitIndex)
deriving DecidableEq, Repr

/-- Where the task stands: waiting for the channel, about to run `process_commit` for a
sub-dag that passed the check of the loop, or about to look for the next buffered one. -/
inductive LoopPoint where
  | receiving
  | processing (dag : CommittedSubDag)
  | draining
deriving DecidableEq, Repr

structure CommitProcessor where
  nextExpectedIndex : CommitIndex
  pendingCommits : Std.ExtTreeMap CommitIndex CommittedSubDag
  currentEpoch : Epoch
  lastGlobalExecIndex : Nat
  executorClient : Bool
  /-- The last positive barrier seen by the loop. -/
  barrierSnapshot : CommitIndex
  point : LoopPoint

def CommittedSubDag.singleTransaction (idx : CommitIndex) : CommittedSubDag :=
  CommittedSubDag.new default
    [{ (default : VerifiedBlock) with
      block := { inner := { (default : Block) with transactions := [⟨[idx.toUInt8]⟩] }
                 signature := [] } }] 0 ⟨idx, 0⟩

namespace CommitProcessor

def new (currentEpoch : Epoch) (lastExec : Nat) (executorClient : Bool) :
    CommitProcessor :=
  { nextExpectedIndex := 1
    pendingCommits := ∅
    currentEpoch, lastGlobalExecIndex := lastExec, executorClient
    barrierSnapshot := 0
    point := .receiving }

def pastBarrier (barrier idx : CommitIndex) : Bool := 0 < barrier && barrier < idx

variable (barrier : CommitIndex) (proc : CommitProcessor)

/-- The loop remembers a positive barrier, so that a reset to zero does not undo it. The
effective barrier is the snapshot afterwards. -/
def observe : CommitProcessor :=
  if 0 < barrier then { proc with barrierSnapshot := barrier } else proc

lemma observe_eq (barrier : CommitIndex) :
    proc.observe barrier = { proc with
      barrierSnapshot := if 0 < barrier then barrier else proc.barrierSnapshot } := by
  unfold observe
  split <;> rfl

/-- The check of the loop before a commit is processed. A commit past the barrier is
skipped and its transactions are queued for the next epoch; the task goes on at `resume`. -/
def takeUp (resume : LoopPoint) (proc : CommitProcessor)
    (dag : CommittedSubDag) : CommitProcessor × List CommitEffect :=
  let observed := proc.observe barrier
  let idx := observed.nextExpectedIndex
  if pastBarrier observed.barrierSnapshot idx then
    ({ observed with nextExpectedIndex := idx + 1, point := resume },
      [.requeue dag dag.transactionData, .notify idx])
  else
    ({ observed with point := .processing dag },
      [.process dag
        (calculateGlobalExecIndex observed.currentEpoch idx observed.lastGlobalExecIndex)])

/-- A sub-dag arrives. The expected one is taken up at once, and when it is past the
barrier the loop goes back to the channel; a later one is stored, an earlier one dropped. -/
def receive (dag : CommittedSubDag) : CommitProcessor × List CommitEffect :=
  if dag.commitRef.index = proc.nextExpectedIndex then
    proc.takeUp barrier .receiving dag
  else if proc.nextExpectedIndex < dag.commitRef.index then
    ({ proc with
      pendingCommits := proc.pendingCommits.insert dag.commitRef.index dag }, [])
  else (proc, [])

def processCommit (dag : CommittedSubDag) : List CommitEffect :=
  if pastBarrier barrier dag.commitRef.index then [.requeue dag dag.transactionData]
  else if proc.executorClient then
    [.send dag proc.currentEpoch (calculateGlobalExecIndex proc.currentEpoch
      proc.nextExpectedIndex proc.lastGlobalExecIndex)]
  else []

/-- The task goes on from a suspension point inside the handling of a commit. -/
def resume : Option (CommitProcessor × List CommitEffect) :=
  match proc.point with
  | .receiving => none
  | .processing dag =>
    some ({ proc with
        nextExpectedIndex := proc.nextExpectedIndex + 1
        point := .draining },
      proc.processCommit barrier dag ++ [.notify proc.nextExpectedIndex])
  | .draining =>
    match proc.pendingCommits[proc.nextExpectedIndex]? with
    | none => some ({ proc with point := .receiving }, [])
    | some pending =>
      some (takeUp barrier .draining { proc with
        pendingCommits := proc.pendingCommits.erase proc.nextExpectedIndex } pending)

/-- Run the task until it waits for the channel again, with the effects so far. -/
def settle (barrier : CommitIndex) : Nat → CommitProcessor × List CommitEffect →
    CommitProcessor × List CommitEffect
  | 0, st => st
  | fuel + 1, (proc, effects) =>
    match proc.resume barrier with
    | none => (proc, effects)
    | some (next, more) => settle barrier fuel (next, effects ++ more)

/-- Receive one sub-dag under a barrier that does not change and do all that follows from
it. Every buffered commit takes two steps at most. -/
def handle (st : CommitProcessor × List CommitEffect)
    (dag : CommittedSubDag) : CommitProcessor × List CommitEffect :=
  let (next, more) := st.1.receive barrier dag
  settle barrier (2 * next.pendingCommits.size + 2) (next, st.2 ++ more)

def handleAll (arrivals : List CommittedSubDag)
    (proc : CommitProcessor) : CommitProcessor × List CommitEffect :=
  arrivals.foldl (handle barrier) (proc, [])

end CommitProcessor

end Mysticeti

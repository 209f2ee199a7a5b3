import Mysticeti.CommitDelivery
import Mysticeti.ConsensusNode
import Mysticeti.Withholding

/-!
# Execution indices across epochs

The base of a new epoch is computed from the commit index of the proposal, while the
processor of the old epoch sends what it receives. The indices handed to the executor go on
without gap or repetition if, whenever the processor of a new epoch starts, its base is the
number of commits sent so far and no earlier processor sends any more: each has withheld a
commit, or waits on a channel that is closed.
-/

namespace Mysticeti

open List Lib.Machine BarrierRun

def CommitEffect.isRequeue : CommitEffect → Bool
  | .requeue _ _ => true
  | _ => false

namespace CommitProcessor

variable {barrier : CommitIndex} {proc : CommitProcessor}

/-- What a step of the task can do: it sends nothing and stays at its index, it withholds a
commit, or it hands the commit it is processing to the executor client, if there is one. -/
inductive StepKind (proc : CommitProcessor) :
    CommitProcessor × List CommitEffect → Prop where
  | quiet {res : CommitProcessor × List CommitEffect}
      (next : res.1.nextExpectedIndex = proc.nextExpectedIndex)
      (silent : res.2.filterMap CommitEffect.sentBlock = [])
      (unheld : res.2.any CommitEffect.isRequeue = false) : StepKind proc res
  | withheld {res : CommitProcessor × List CommitEffect}
      (next : res.1.nextExpectedIndex = proc.nextExpectedIndex + 1)
      (silent : res.2.filterMap CommitEffect.sentBlock = [])
      (held : res.2.any CommitEffect.isRequeue = true) : StepKind proc res
  | sent {res : CommitProcessor × List CommitEffect} (dag : CommittedSubDag)
      (point : proc.point = .processing dag)
      (next : res.1.nextExpectedIndex = proc.nextExpectedIndex + 1)
      (sends : res.2.filterMap CommitEffect.sentBlock =
        if proc.executorClient then
          [⟨proc.currentEpoch, dag.commitRef.index, calculateGlobalExecIndex
            proc.currentEpoch proc.nextExpectedIndex proc.lastGlobalExecIndex⟩]
        else [])
      (unheld : res.2.any CommitEffect.isRequeue = false) : StepKind proc res

lemma takeUp_kind {point : LoopPoint} {dag : CommittedSubDag} :
    SameSettings proc (proc.takeUp barrier point dag).1 ∧
      StepKind proc (proc.takeUp barrier point dag) := by
  unfold takeUp
  rw [observe_eq]
  dsimp only
  generalize (if 0 < barrier then barrier else proc.barrierSnapshot) = effective
  split
  · exact ⟨⟨rfl, rfl, rfl⟩, .withheld rfl rfl rfl⟩
  · exact ⟨⟨rfl, rfl, rfl⟩, .quiet rfl rfl rfl⟩

lemma receive_kind {dag : CommittedSubDag} :
    SameSettings proc (proc.receive barrier dag).1 ∧
      StepKind proc (proc.receive barrier dag) := by
  unfold receive
  split
  · exact takeUp_kind
  · split
    · exact ⟨⟨rfl, rfl, rfl⟩, .quiet rfl rfl rfl⟩
    · exact ⟨⟨rfl, rfl, rfl⟩, .quiet rfl rfl rfl⟩

variable {res : CommitProcessor × List CommitEffect}

lemma resume_kind (resumed : proc.resume barrier = some res) :
    SameSettings proc res.1 ∧ StepKind proc res := by
  unfold resume at resumed
  split at resumed
  case h_1 => cases resumed
  case h_2 dag point =>
    cases resumed
    refine ⟨⟨rfl, rfl, rfl⟩, ?_⟩
    unfold processCommit
    split
    · exact .withheld rfl rfl rfl
    · refine .sent dag point rfl ?_ ?_
      · cases proc.executorClient <;> rfl
      · cases proc.executorClient <;> rfl
  case h_3 =>
    split at resumed
    · cases resumed
      exact ⟨⟨rfl, rfl, rfl⟩, .quiet rfl rfl rfl⟩
    · cases resumed
      have kind := @takeUp_kind barrier { proc with
        pendingCommits := proc.pendingCommits.erase proc.nextExpectedIndex } .draining
      obtain ⟨cfg, kind⟩ := kind
      refine ⟨⟨cfg.1, cfg.2, cfg.3⟩, ?_⟩
      cases kind with
      | quiet next silent unheld => exact .quiet next silent unheld
      | withheld next silent held => exact .withheld next silent held
      | sent dag point next sends unheld => exact .sent dag point next sends unheld

end CommitProcessor

namespace Worker

/-- The processor skipped a commit past the barrier. -/
def hasWithheld (worker : Worker) : Bool := worker.trace.any CommitEffect.isRequeue

def view (worker : Worker) (barrier : CommitIndex) : BarrierRun :=
  ⟨barrier, worker.processor, worker.trace⟩

lemma hasWithheld_iff {worker : Worker} {barrier : CommitIndex} :
    worker.hasWithheld = true ↔ ∃ dag, (worker.view barrier).Withheld dag := by
  rw [hasWithheld, List.any_eq_true]
  constructor
  · rintro ⟨effect, listed, requeued⟩
    cases effect with
    | requeue dag txs => exact ⟨dag, txs, listed⟩
    | process dag idx => cases requeued
    | send dag epoch idx => cases requeued
    | notify idx => cases requeued
  · rintro ⟨dag, txs, listed⟩
    exact ⟨.requeue dag txs, listed, rfl⟩

end Worker

namespace ConsensusNode

/-- Under this barrier every processor that withheld a commit withholds the next one too. -/
def KeepsClosed (node : ConsensusNode) (barrier : CommitIndex) : Prop :=
  ∀ worker ∈ node.workers, worker.hasWithheld = true → Closes worker.processor barrier

/-- The conditions under which the indices go on. A write of the barrier does not reopen a
processor that withheld a commit. The processor of a new epoch starts with the number of
commits sent as its base, when every earlier processor has withheld a commit or waits; the
latter receives nothing any more. -/
def Continues (crypto : EpochCrypto) (node : ConsensusNode) (act : NodeAction) : Prop :=
  node.KeepsClosed (node.barrierAfter crypto act) ∧
    match act with
    | .receive pos _ => pos + 1 = node.workers.length ∨
        ∀ worker ∈ node.workers[pos]?, worker.hasWithheld = true
    | .proceed => node.transition = .barrierReset →
        0 < node.currentEpoch ∧ node.lastGlobalExecIndex = node.sent.length ∧
          ∀ worker ∈ node.workers, worker.hasWithheld = true ∨ worker.processor.point = .receiving
    | _ => True

/-- What holds in every state: the indices sent are consecutive, an earlier processor has
stopped sending, and the current one, as long as it sends, is at the index after the last
one sent. -/
structure Sequenced (node : ConsensusNode) : Prop where
  indices : node.sent.map SentBlock.globalExecIndex = List.range' 1 node.sent.length
  barred : ∀ worker ∈ node.workers, Barred (worker.view node.transitionBarrier)
  retired : ∀ pos worker, node.workers[pos]? = some worker →
    pos + 1 ≠ node.workers.length → worker.hasWithheld = true ∨ worker.processor.point = .receiving
  current : ∀ pos worker, node.workers[pos]? = some worker →
    pos + 1 = node.workers.length → worker.processor.executorClient = true →
      (worker.processor.currentEpoch = 0 → worker.processor.lastGlobalExecIndex = 0) ∧
        (worker.hasWithheld = false → node.sent.length + 1 =
          worker.processor.lastGlobalExecIndex + worker.processor.nextExpectedIndex)

lemma new_sequenced (config : NodeConfig) (comm : Committee)
    (epochTimestampMs : BlockTimestampMs) :
    Sequenced (new config comm epochTimestampMs) where
  indices := rfl
  barred := by
    intro worker mem
    obtain rfl : worker = _ := mem_singleton.mp mem
    exact new_barred 0 0 true
  retired := by
    intro pos worker got notLast
    have inside := (List.getElem?_eq_some_iff.mp got).1
    change pos < 1 at inside
    change pos + 1 ≠ 1 at notLast
    omega
  current := by
    intro pos worker got _ _
    have mem := List.mem_of_getElem? got
    obtain rfl : worker = _ := mem_singleton.mp mem
    exact ⟨fun _ => rfl, fun _ => rfl⟩

lemma calculateGlobalExecIndex_eq {epoch : Epoch} {idx : CommitIndex} {base : Nat}
    (genesis : epoch = 0 → base = 0) :
    calculateGlobalExecIndex epoch idx base = base + idx := by
  unfold calculateGlobalExecIndex
  split
  · rename_i first
    rw [genesis first]
    simp
  · rfl

section Steps

variable {crypto : EpochCrypto} {codec : TransactionCodec} {node : ConsensusNode}

lemma hasWithheld_perform {worker : Worker} :
    (worker.perform codec res).hasWithheld =
      (worker.hasWithheld || res.2.any CommitEffect.isRequeue) := by
  rw [Worker.hasWithheld, Worker.perform, any_append]
  rfl

variable (sequenced : Sequenced node)

include sequenced

lemma Sequenced.stay {next : ConsensusNode} (workers : next.workers = node.workers)
    (sent : next.sent = node.sent) (closed : node.KeepsClosed next.transitionBarrier) :
    Sequenced next where
  indices := by
    rw [sent]
    exact sequenced.indices
  barred := by
    intro worker mem
    rw [workers] at mem
    have guarded : (worker.view node.transitionBarrier).Guarded
        (.write next.transitionBarrier) := by
      intro withheld
      exact closed worker mem (Worker.hasWithheld_iff.mpr withheld)
    exact (sequenced.barred worker mem).step guarded rfl
  retired := by
    rw [workers]
    exact sequenced.retired
  current := by
    rw [workers, sent]
    exact sequenced.current

lemma Sequenced.record {pos : Nat} {worker : Worker}
    (got : node.workers[pos]? = some worker)
    (barred : Barred ((worker.view node.transitionBarrier).record res))
    (cfg : CommitProcessor.SameSettings worker.processor res.1)
    (kind : CommitProcessor.StepKind worker.processor res)
    (acts : pos + 1 = node.workers.length ∨ worker.hasWithheld = true) :
    Sequenced (node.record codec pos worker res) := by
  have mem : worker ∈ node.workers := List.mem_of_getElem? got
  have prev := sequenced.barred worker mem
  -- a retired processor, or one that withheld a commit, has nothing to process
  have unsent : worker.hasWithheld = true → res.2.filterMap CommitEffect.sentBlock = [] := by
    intro held
    obtain ⟨withheld, isWithheld⟩ := (@Worker.hasWithheld_iff worker
      node.transitionBarrier).mp held
    cases kind with
    | quiet next silent unheld => exact silent
    | withheld next silent held => exact silent
    | sent dag point next sends unheld =>
      exact absurd point ((prev.closed withheld isWithheld).2 dag)
  constructor
  · -- the index sent, if any, follows the last one
    change (node.sent ++ _).map SentBlock.globalExecIndex = range' 1 (node.sent ++ _).length
    rw [map_append, length_append, sequenced.indices]
    cases kind with
    | quiet next silent unheld => simp [silent]
    | withheld next silent held => simp [silent]
    | sent dag point next sends unheld =>
      cases attached : worker.processor.executorClient with
      | false => simp [sends, attached]
      | true =>
        rw [attached] at sends
        have last : pos + 1 = node.workers.length := by
          rcases acts with last | held
          · exact last
          · have none := unsent held
            rw [sends] at none
            cases none
        have open_ : worker.hasWithheld = false := by
          by_contra held
          have none := unsent (by simpa using held)
          rw [sends] at none
          cases none
        obtain ⟨genesis, follows⟩ := sequenced.current pos worker got last attached
        rw [sends, if_pos rfl, calculateGlobalExecIndex_eq genesis, ← follows open_]
        simp only [map_cons, map_nil, length_cons, length_nil, Nat.zero_add]
        rw [range'_concat, Nat.one_mul, Nat.add_comm 1]
  · intro other has
    obtain ⟨idx, there⟩ := List.getElem?_of_mem has
    obtain ⟨_, rfl⟩ | ⟨_, pre⟩ := getElem?_set_worker got there
    · exact barred
    · exact sequenced.barred other (List.mem_of_getElem? pre)
  · intro idx other there notLast
    rw [ConsensusNode.record, length_set] at notLast
    obtain ⟨rfl, rfl⟩ | ⟨_, pre⟩ := getElem?_set_worker got there
    · left
      rw [hasWithheld_perform]
      rcases acts with last | held
      · exact absurd last notLast
      · rw [held, Bool.true_or]
    · exact sequenced.retired idx other pre notLast
  · intro idx other there last attached
    rw [ConsensusNode.record, length_set] at last
    obtain ⟨rfl, rfl⟩ | ⟨ne, pre⟩ := getElem?_set_worker got there
    · have attachedBefore : worker.processor.executorClient = true := by
        rw [← cfg.executorClient]
        exact attached
      obtain ⟨genesis, follows⟩ := sequenced.current idx worker got last attachedBefore
      change (res.1.currentEpoch = 0 → res.1.lastGlobalExecIndex = 0) ∧ _
      rw [cfg.currentEpoch, cfg.lastGlobalExecIndex]
      refine ⟨genesis, fun unheld => ?_⟩
      rw [hasWithheld_perform, Bool.or_eq_false_iff] at unheld
      have pre := follows unheld.1
      change (node.sent ++ _).length + 1 = res.1.lastGlobalExecIndex + res.1.nextExpectedIndex
      rw [cfg.lastGlobalExecIndex, length_append]
      cases kind with
      | quiet next silent _ =>
        rw [silent, next, length_nil]
        exact pre
      | withheld next silent held =>
        rw [held] at unheld
        cases unheld.2
      | sent dag point next sends _ =>
        rw [sends, if_pos attachedBefore, next, length_singleton]
        lia
    · -- some other processor is the current one, so this one has withheld a commit
      have held : worker.hasWithheld = true := by
        rcases acts with isLast | held
        · exact absurd (by omega) ne
        · exact held
      change (_ → _) ∧ (_ → (node.sent ++ _).length + 1 = _)
      rw [unsent held, append_nil]
      exact sequenced.current idx other pre last attached

lemma Sequenced.start (positive : 0 < node.currentEpoch)
    (base : node.lastGlobalExecIndex = node.sent.length)
    (stopped : ∀ worker ∈ node.workers,
      worker.hasWithheld = true ∨ worker.processor.point = .receiving) (attached : Bool)
    (client : ExecutorRun) :
    Sequenced { node with workers := node.workers ++
      [.new node.currentEpoch node.lastGlobalExecIndex attached client] } := by
  have cases : ∀ pos worker, (node.workers ++ [Worker.new node.currentEpoch
      node.lastGlobalExecIndex attached client])[pos]? = some worker →
      (node.workers[pos]? = some worker ∧ pos < node.workers.length) ∨
        (pos = node.workers.length ∧ worker = .new node.currentEpoch
          node.lastGlobalExecIndex attached client) := by
    intro pos worker got
    rw [getElem?_append] at got
    split at got
    · rename_i inside
      exact .inl ⟨got, inside⟩
    · rename_i outside
      have bound := (List.getElem?_eq_some_iff.mp got).1
      have here : pos - node.workers.length = 0 := by simpa using bound
      rw [here] at got
      exact .inr ⟨by omega, (Option.some.inj got).symm⟩
  constructor
  · exact sequenced.indices
  · intro worker mem
    rcases mem_append.mp mem with pre | fresh
    · exact sequenced.barred worker pre
    · obtain rfl : worker = _ := mem_singleton.mp fresh
      have unguarded : (BarrierRun.new node.currentEpoch node.lastGlobalExecIndex
          attached).Guarded (.write node.transitionBarrier) := by
        rintro ⟨dag, txs, listed⟩
        cases listed
      exact (new_barred node.currentEpoch node.lastGlobalExecIndex attached).step unguarded rfl
  · intro pos worker got notLast
    rcases cases pos worker got with ⟨pre, _⟩ | ⟨here, _⟩
    · exact stopped worker (List.mem_of_getElem? pre)
    · rw [length_append, length_singleton, here] at notLast
      exact absurd rfl notLast
  · intro pos worker got last _
    rw [length_append, length_singleton] at last
    rcases cases pos worker got with ⟨_, inside⟩ | ⟨_, rfl⟩
    · omega
    · refine ⟨fun zero => absurd zero (Nat.ne_of_gt positive), fun _ => ?_⟩
      change node.sent.length + 1 = node.lastGlobalExecIndex + 1
      rw [base]

lemma Sequenced.client {pos : Nat} {worker : Worker}
    (got : node.workers[pos]? = some worker) (client : ExecutorRun) :
    Sequenced { node with workers := node.workers.set pos { worker with client } } := by
  have same : ∀ (other : Nat) (changed : Worker),
      (node.workers.set pos { worker with client })[other]? = some changed →
      ∃ pre : Worker, node.workers[other]? = some pre ∧
        changed.processor = pre.processor ∧ changed.trace = pre.trace := by
    intro other changed there
    obtain ⟨rfl, rfl⟩ | ⟨_, pre⟩ := getElem?_set_worker got there
    · exact ⟨worker, got, rfl, rfl⟩
    · exact ⟨changed, pre, rfl, rfl⟩
  constructor
  · exact sequenced.indices
  · intro other has
    obtain ⟨idx, there⟩ := List.getElem?_of_mem has
    obtain ⟨pre, got, sameProcessor, sameTrace⟩ := same idx other there
    rw [Worker.view, sameProcessor, sameTrace]
    exact sequenced.barred pre (List.mem_of_getElem? got)
  · intro idx other there notLast
    obtain ⟨pre, got, sameProcessor, sameTrace⟩ := same idx other there
    rw [Worker.hasWithheld, sameProcessor, sameTrace]
    rw [length_set] at notLast
    exact sequenced.retired idx pre got notLast
  · intro idx other there last
    obtain ⟨pre, got, sameProcessor, sameTrace⟩ := same idx other there
    rw [Worker.hasWithheld, sameProcessor, sameTrace]
    rw [length_set] at last
    exact sequenced.current idx pre got last

lemma Sequenced.step {next : ConsensusNode} {act : NodeAction}
    (continues : node.Continues crypto act)
    (taken : node.step crypto codec act = some next) : Sequenced next := by
  obtain ⟨closed, continues⟩ := continues
  cases stepped_of_step crypto codec taken with
  | @receive pos dag worker got waits =>
    have barred := sequenced.barred worker (List.mem_of_getElem? got)
    have guarded : (worker.view node.transitionBarrier).Guarded (.receive dag) := trivial
    obtain ⟨cfg, kind⟩ :=
      @CommitProcessor.receive_kind node.transitionBarrier worker.processor dag
    apply sequenced.record got (barred.step guarded (if_pos waits)) cfg kind
    exact continues.imp_right (· worker got)
  | @resume pos worker res got resumed =>
    have barred := sequenced.barred worker (List.mem_of_getElem? got)
    have guarded : (worker.view node.transitionBarrier).Guarded .resume := trivial
    have kept : Barred ((worker.view node.transitionBarrier).record res) :=
      barred.step guarded (Option.map_eq_some_iff.mpr ⟨res, resumed, rfl⟩)
    obtain ⟨cfg, kind⟩ := CommitProcessor.resume_kind resumed
    apply sequenced.record got kept cfg kind
    by_cases last : pos + 1 = node.workers.length
    · exact .inl last
    · right
      obtain held | waits := sequenced.retired pos worker got last
      · exact held
      · rw [CommitProcessor.resume, waits] at resumed
        cases resumed
  | @client pos act worker client got underway acted => exact sequenced.client got client
  | start point =>
    obtain ⟨positive, base, stopped⟩ := continues point
    have started := sequenced.start positive base stopped node.config.executorCommitEnabled
      (.new true true)
    exact ⟨started.indices, started.barred, started.retired, started.current⟩
  | stay workers sent barrier => exact sequenced.stay workers sent (barrier ▸ closed)

end Steps

instance (proc : CommitProcessor) (val : CommitIndex) : Decidable (Closes proc val) :=
  inferInstanceAs (Decidable (_ ∨ _))

instance (node : ConsensusNode) (barrier : CommitIndex) : Decidable (node.KeepsClosed barrier) :=
  inferInstanceAs (Decidable (∀ worker ∈ node.workers, _))

instance (crypto : EpochCrypto) (node : ConsensusNode) (act : NodeAction) :
    Decidable (node.Continues crypto act) := by
  unfold Continues
  cases act <;> infer_instance

end ConsensusNode

end Mysticeti

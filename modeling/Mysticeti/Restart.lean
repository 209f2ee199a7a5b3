import Mysticeti.ExecutionIndices

/-!
# Restarting the process

A node that is started again begins in epoch 0 with nothing executed, on the storage of
epoch 0, however many epochs it was in before. The commits of epoch 0 get their old indices;
the indices of later epochs are free again for the commits of epoch 0 that were withheld. If
the first life stayed in epoch 0, and the second one leaves it only after it has sent as many
commits, then nothing is executed at an index that had another commit before.
-/

namespace Mysticeti

open List Lib.Machine BarrierRun

namespace ConsensusNode

/-- The epoch and the base of each processor. -/
def settings (node : ConsensusNode) : List (Epoch × Nat) :=
  node.workers.map fun worker =>
    (worker.processor.currentEpoch, worker.processor.lastGlobalExecIndex)

/-- The indices go on, and a new epoch starts only after a number of commits were sent. -/
def Follows (crypto : EpochCrypto) (bound : Nat) (node : ConsensusNode)
    (act : NodeAction) : Prop :=
  node.Continues crypto act ∧ (node.transition = .barrierReset → bound ≤ node.sent.length)
deriving Decidable

/-- What holds in every state of such a run: each commit sent belongs to a processor, the
first of which is the one of epoch 0; the base of the others is large. -/
structure Traced (bound : Nat) (node : ConsensusNode) : Prop where
  sequenced : Sequenced node
  origin : ∃ rest, node.settings = (0, 0) :: rest ∧
    ∀ setting ∈ rest, 0 < setting.1 ∧ bound ≤ setting.2
  started : ∀ worker ∈ node.workers, 1 ≤ worker.processor.nextExpectedIndex
  belongs : ∀ blk ∈ node.sent, ∃ setting ∈ node.settings, blk.epoch = setting.1 ∧
    blk.globalExecIndex = setting.2 + blk.commitIndex ∧ 1 ≤ blk.commitIndex

lemma new_traced (bound : Nat) (config : NodeConfig) (comm : Committee)
    (epochTimestampMs : BlockTimestampMs) :
    Traced bound (new config comm epochTimestampMs) where
  sequenced := new_sequenced config comm epochTimestampMs
  origin := ⟨[], rfl, by simp⟩
  started := by
    intro worker mem
    obtain rfl : worker = _ := mem_singleton.mp mem
    exact Nat.le_refl 1
  belongs := by simp [new]

section Steps

variable {crypto : EpochCrypto} {codec : TransactionCodec} {bound : Nat} {node : ConsensusNode}

lemma settings_set {pos : Nat} {worker replaced : Worker}
    (got : node.workers[pos]? = some worker)
    (same : (replaced.processor.currentEpoch, replaced.processor.lastGlobalExecIndex) =
      (worker.processor.currentEpoch, worker.processor.lastGlobalExecIndex)) :
    (node.workers.set pos replaced).map (fun worker =>
      (worker.processor.currentEpoch, worker.processor.lastGlobalExecIndex)) =
      node.settings := by
  rw [map_set]
  apply ext_getElem?
  intro other
  by_cases here : pos = other
  · subst here
    have inside := (List.getElem?_eq_some_iff.mp got).1
    rw [getElem?_set_self (by simpa using inside), settings, getElem?_map, got]
    exact congrArg some same
  · rw [getElem?_set_ne here]
    rfl

variable (traced : Traced bound node)

include traced

lemma Traced.genesis {worker : Worker} (mem : worker ∈ node.workers) :
    worker.processor.currentEpoch = 0 → worker.processor.lastGlobalExecIndex = 0 := by
  intro zero
  obtain ⟨rest, origin, later⟩ := traced.origin
  have listed : (worker.processor.currentEpoch, worker.processor.lastGlobalExecIndex) ∈
      node.settings := List.mem_map_of_mem mem
  rw [origin, mem_cons] at listed
  rcases listed with first | other
  · exact (Prod.mk.inj first).2
  · have positive := (later _ other).1
    rw [zero] at positive
    cases positive

variable {next : ConsensusNode}

lemma Traced.of_same (sequenced : Sequenced next)
    (workers : next.workers = node.workers) (sent : next.sent = node.sent) :
    Traced bound next where
  sequenced := sequenced
  origin := by
    rw [settings, workers]
    exact traced.origin
  started := by
    rw [workers]
    exact traced.started
  belongs := by
    rw [settings, workers, sent]
    exact traced.belongs

lemma Traced.record {pos : Nat} {worker : Worker}
    {res : CommitProcessor × List CommitEffect}
    (sequenced : Sequenced (node.record codec pos worker res))
    (got : node.workers[pos]? = some worker)
    (same : CommitProcessor.SameSettings worker.processor res.1)
    (kind : CommitProcessor.StepKind worker.processor res) :
    Traced bound (node.record codec pos worker res) := by
  have mem : worker ∈ node.workers := List.mem_of_getElem? got
  have sameSettings : (node.record codec pos worker res).settings = node.settings := by
    refine settings_set got ?_
    change (res.1.currentEpoch, res.1.lastGlobalExecIndex) = _
    rw [same.currentEpoch, same.lastGlobalExecIndex]
  refine ⟨sequenced, sameSettings ▸ traced.origin, ?_, ?_⟩
  · intro other has
    obtain ⟨idx, there⟩ := List.getElem?_of_mem has
    obtain ⟨_, rfl⟩ | ⟨_, pre⟩ := getElem?_set_worker got there
    · have counted := traced.started worker mem
      change 1 ≤ res.1.nextExpectedIndex
      cases kind with
      | quiet next _ _ => lia
      | withheld next _ _ => lia
      | sent dag _ next _ _ => lia
    · exact traced.started other (List.mem_of_getElem? pre)
  · rw [sameSettings]
    intro blk listed
    rcases mem_append.mp listed with pre | now
    · exact traced.belongs blk pre
    · cases kind with
      | quiet next silent _ =>
        rw [silent] at now
        cases now
      | withheld next silent _ =>
        rw [silent] at now
        cases now
      | sent dag point next sends _ =>
        rw [sends] at now
        split at now
        · obtain rfl := mem_singleton.mp now
          have want := (traced.sequenced.barred worker mem).expected dag point
          refine ⟨_, List.mem_map_of_mem mem, rfl, ?_, ?_⟩
          · rw [calculateGlobalExecIndex_eq (traced.genesis mem), want]
            rfl
          · rw [want]
            exact traced.started worker mem
        · cases now

lemma Traced.start (sequenced : Sequenced next)
    (positive : 0 < node.currentEpoch) (enough : bound ≤ node.lastGlobalExecIndex)
    {attached : Bool} {client : ExecutorRun}
    (workers : next.workers = node.workers ++
      [.new node.currentEpoch node.lastGlobalExecIndex attached client])
    (sent : next.sent = node.sent) : Traced bound next := by
  have extended : next.settings =
      node.settings ++ [(node.currentEpoch, node.lastGlobalExecIndex)] := by
    rw [settings, workers, map_append]
    rfl
  obtain ⟨rest, origin, later⟩ := traced.origin
  refine ⟨sequenced, ⟨rest ++ [(node.currentEpoch, node.lastGlobalExecIndex)], ?_, ?_⟩, ?_, ?_⟩
  · rw [extended, origin, cons_append]
  · intro setting mem
    rcases mem_append.mp mem with pre | fresh
    · exact later setting pre
    · rw [mem_singleton.mp fresh]
      exact ⟨positive, enough⟩
  · intro worker mem
    rw [workers] at mem
    rcases mem_append.mp mem with pre | fresh
    · exact traced.started worker pre
    · rw [mem_singleton.mp fresh]
      exact Nat.le_refl 1
  · intro blk listed
    rw [sent] at listed
    obtain ⟨setting, mem, facts⟩ := traced.belongs blk listed
    exact ⟨setting, extended ▸ mem_append_left _ mem, facts⟩

lemma Traced.client {pos : Nat} {worker : Worker}
    (got : node.workers[pos]? = some worker) (client : ExecutorRun) :
    Traced bound { node with workers := node.workers.set pos { worker with client } } := by
  have sameSettings : ({ node with
      workers := node.workers.set pos { worker with client } } : ConsensusNode).settings =
      node.settings :=
    settings_set got rfl
  refine ⟨traced.sequenced.client got client, sameSettings ▸ traced.origin, ?_,
    sameSettings ▸ traced.belongs⟩
  intro other has
  obtain ⟨idx, there⟩ := List.getElem?_of_mem has
  obtain ⟨_, rfl⟩ | ⟨_, pre⟩ := getElem?_set_worker got there
  · exact traced.started worker (List.mem_of_getElem? got)
  · exact traced.started other (List.mem_of_getElem? pre)

lemma Traced.step {act : NodeAction}
    (follows : node.Follows crypto bound act)
    (taken : node.step crypto codec act = some next) : Traced bound next := by
  have sequenced : Sequenced next := traced.sequenced.step follows.1 taken
  cases stepped_of_step crypto codec taken with
  | @receive pos dag worker got waits =>
    obtain ⟨same, kind⟩ :=
      @CommitProcessor.receive_kind node.transitionBarrier worker.processor dag
    exact traced.record sequenced got same kind
  | @resume pos worker res got resumed =>
    obtain ⟨same, kind⟩ := CommitProcessor.resume_kind resumed
    exact traced.record sequenced got same kind
  | @client pos act worker client got underway acted => exact traced.client got client
  | start point =>
    obtain ⟨positive, base, _⟩ := follows.1.2 point
    have large : bound ≤ node.lastGlobalExecIndex := base ▸ follows.2 point
    exact traced.start sequenced positive large rfl rfl
  | stay workers sent barrier => exact traced.of_same sequenced workers sent

lemma Traced.alone (alone : node.workers.length = 1) {blk : SentBlock}
    (listed : blk ∈ node.sent) :
    blk.epoch = 0 ∧ blk.globalExecIndex = blk.commitIndex := by
  obtain ⟨rest, origin, _⟩ := traced.origin
  have single : rest = [] := by
    have length : node.settings.length = 1 := by rw [settings, length_map, alone]
    rw [origin, length_cons] at length
    exact eq_nil_of_length_eq_zero (Nat.succ.inj length)
  obtain ⟨setting, mem, epoch, idx, _⟩ := traced.belongs blk listed
  rw [origin, single] at mem
  obtain rfl := mem_singleton.mp mem
  exact ⟨epoch, by rw [idx, Nat.zero_add]⟩

lemma Traced.mem_indices {idx : Nat} :
    (∃ blk ∈ node.sent, blk.globalExecIndex = idx) ↔ 1 ≤ idx ∧ idx ≤ node.sent.length := by
  rw [← List.mem_map, traced.sequenced.indices, mem_range'_1]
  omega

end Steps

/-- Ten commits of epoch 0 and one of epoch 1 are executed; commit 11 of epoch 0 is withheld
before the transition. -/
def firstLife : List NodeAction :=
  NodeAction.executeCommits 0 10 ++ NodeAction.approve (.ofMember 0 0 0) ++
    [.checkTransactionAcceptance, .receive 0 (.singleTransaction 11)] ++
    NodeAction.transition 0 (.ofMember 0 0 0) 11 ++ [.client 1 (.answer (some 10))] ++
    NodeAction.executeCommits 1 1

end ConsensusNode

end Mysticeti

import Mysticeti.ExecutionIndices
import Mysticeti.ExecutorStream

/-!
# Acknowledged blocks across epochs

`send_committed_subdag` returns without an error when the block is in the send buffer, sent
or not. The processor of a new epoch gets a client with an empty buffer, and nobody flushes
the buffer of the old one any more. A block is kept across the change of the epoch if, when
the new processor starts, the executor has said that it has every block the old client
still holds, and the old processor sends nothing afterwards.
-/

namespace Mysticeti

open List Lib.Machine

namespace ExecutorRun

def acknowledged (st : ExecutorRun) : List (Nat × BufferedBlock) :=
  ((st.submitted.zip st.calls).filter fun entry => entry.2 = .returned).map Prod.fst

/-- The blocks passed in and not written, with those a call has taken from the buffer. -/
def pending (st : ExecutorRun) : List (Nat × BufferedBlock) :=
  st.client.sendBuffer.toList ++ st.calls.filterMap FlushPoint.held

variable {st : ExecutorRun} {entry : Nat × BufferedBlock}

lemma mem_pending :
    entry ∈ st.pending ↔ st.client.sendBuffer[entry.1]? = some entry.2 ∨
      some entry ∈ st.calls.map FlushPoint.held := by
  rw [pending, mem_append, ← Std.ExtTreeMap.mem_toList_iff_getElem?_eq_some,
    mem_filterMap, List.mem_map]

lemma submitted_of_acknowledged (ret : entry ∈ st.acknowledged) : entry ∈ st.submitted := by
  obtain ⟨⟨passed, point⟩, here, rfl⟩ := List.mem_map.mp ret
  exact (of_mem_zip (mem_of_mem_filter here)).1

lemma Placed.written_or_pending (placed : Placed st) (passed : entry ∈ st.submitted) :
    entry ∈ st.written ∨ entry ∈ st.pending :=
  (mem_append.mp (placed.placed.mem_iff.mpr passed)).symm

lemma grows_of_step {next : ExecutorRun} {act : ExecutorAction}
    (underway : ∀ idx blk, act ≠ .call idx blk)
    (taken : st.step act = some next) :
    next.submitted = st.submitted ∧ st.written ⊆ next.written ∧ st.answers ⊆ next.answers := by
  cases stepped_of_step taken with
  | call idx blk => exact absurd rfl (underway idx blk)
  | answer lastBlockNumber =>
    unfold initializeFromGo
    split
    · split
      all_goals exact ⟨rfl, List.Subset.refl _, subset_append_left _ _⟩
    · exact ⟨rfl, List.Subset.refl _, List.Subset.refl _⟩
  | write got => exact ⟨rfl, subset_append_left _ _, List.Subset.refl _⟩
  | move _ _ _ _ _ => exact ⟨rfl, List.Subset.refl _, List.Subset.refl _⟩
  | take _ _ => exact ⟨rfl, List.Subset.refl _, List.Subset.refl _⟩
  | count _ => exact ⟨rfl, List.Subset.refl _, List.Subset.refl _⟩
  | restore _ => exact ⟨rfl, List.Subset.refl _, List.Subset.refl _⟩

variable {idx : Nat} {blk : BufferedBlock}

lemma answers_sendCommittedSubdag : (st.sendCommittedSubdag idx blk).answers = st.answers := by
  unfold sendCommittedSubdag
  split
  all_goals rfl

lemma written_sendCommittedSubdag : (st.sendCommittedSubdag idx blk).written = st.written := by
  unfold sendCommittedSubdag
  split
  all_goals rfl

lemma submitted_sendCommittedSubdag
    (passed : entry ∈ (st.sendCommittedSubdag idx blk).submitted) :
    entry ∈ st.submitted ∨ entry.1 = idx := by
  unfold sendCommittedSubdag at passed
  split at passed
  · obtain pre | now := mem_append.mp passed
    · exact .inl pre
    · obtain rfl := mem_singleton.mp now
      exact .inr rfl
  · exact .inl passed

end ExecutorRun

lemma CommitEffect.foldl_callOn {codec : TransactionCodec} {effects : List CommitEffect}
    {client : ExecutorRun} :
    (effects.filterMap CommitEffect.sentBlock = [] →
      effects.foldl (CommitEffect.callOn codec) client = client) ∧
    ∀ sent, effects.filterMap CommitEffect.sentBlock = [sent] → ∃ blk,
      effects.foldl (CommitEffect.callOn codec) client =
        client.sendCommittedSubdag sent.globalExecIndex blk := by
  induction effects generalizing client with
  | nil => exact ⟨fun _ => rfl, by simp⟩
  | cons effect rest ih =>
    cases effect with
    | send dag epoch idx =>
      refine ⟨by simp [CommitEffect.sentBlock], ?_⟩
      intro sent only
      simp only [filterMap_cons, CommitEffect.sentBlock, List.cons.injEq] at only
      obtain ⟨rfl, nothing⟩ := only
      rw [foldl_cons]
      exact ⟨_, ih.1 nothing⟩
    | process dag idx => exact ih
    | notify idx => exact ih
    | requeue dag txs => exact ih

namespace Worker

open ExecutorRun ConsensusNode

/-- Each block of the client is in one place, and has the index of a commit before the one
the processor expects. -/
structure Sound (worker : Worker) : Prop where
  placed : Placed worker.client
  genesis : worker.processor.currentEpoch = 0 → worker.processor.lastGlobalExecIndex = 0
  numbered : ∀ entry ∈ worker.client.submitted,
    ∃ idx < worker.processor.nextExpectedIndex, entry.1 = worker.processor.lastGlobalExecIndex + idx

lemma new_sound {epoch : Epoch} {base : Nat} (genesis : epoch = 0 → base = 0)
    (attached enabled canCommit : Bool) :
    (Worker.new epoch base attached (.new enabled canCommit)).Sound where
  placed := new_placed enabled canCommit
  genesis := genesis
  numbered := by simp [Worker.new, ExecutorRun.new]

variable {codec : TransactionCodec} {worker : Worker} {res : CommitProcessor × List CommitEffect}

/-- What a step of the processor does to its client: nothing, or one call with the index of
the commit that was expected. -/
lemma client_perform (kind : CommitProcessor.StepKind worker.processor res) :
    ((worker.perform codec res).client = worker.client ∧
      worker.processor.nextExpectedIndex ≤ res.1.nextExpectedIndex) ∨
    res.2.filterMap CommitEffect.sentBlock ≠ [] ∧
      worker.processor.nextExpectedIndex < res.1.nextExpectedIndex ∧
      ∃ blk, (worker.perform codec res).client =
        worker.client.sendCommittedSubdag (calculateGlobalExecIndex
          worker.processor.currentEpoch worker.processor.nextExpectedIndex
          worker.processor.lastGlobalExecIndex) blk := by
  cases kind with
  | quiet next silent _ => exact .inl ⟨CommitEffect.foldl_callOn.1 silent, by lia⟩
  | withheld next silent _ => exact .inl ⟨CommitEffect.foldl_callOn.1 silent, by lia⟩
  | sent dag point next sends _ =>
    cases attached : worker.processor.executorClient with
    | false =>
      rw [attached] at sends
      exact .inl ⟨CommitEffect.foldl_callOn.1 sends, by lia⟩
    | true =>
      rw [attached] at sends
      refine .inr ⟨by simp [sends], by lia, ?_⟩
      exact CommitEffect.foldl_callOn.2 _ sends

lemma Sound.perform (sound : worker.Sound)
    (cfg : CommitProcessor.SameSettings worker.processor res.1)
    (kind : CommitProcessor.StepKind worker.processor res) :
    (worker.perform codec res).Sound := by
  have genesis : res.1.currentEpoch = 0 → res.1.lastGlobalExecIndex = 0 := by
    rw [cfg.currentEpoch, cfg.lastGlobalExecIndex]
    exact sound.genesis
  -- an index of a commit before the expected one stays that
  have kept : worker.processor.nextExpectedIndex ≤ res.1.nextExpectedIndex →
      ∀ entry ∈ worker.client.submitted, ∃ idx < res.1.nextExpectedIndex,
        entry.1 = res.1.lastGlobalExecIndex + idx := by
    intro later entry passed
    obtain ⟨idx, low, same⟩ := sound.numbered entry passed
    rw [cfg.lastGlobalExecIndex]
    exact ⟨idx, low.trans_le later, same⟩
  obtain ⟨same, later⟩ | ⟨_, later, blk, called⟩ := @client_perform codec _ _ kind
  · refine ⟨same ▸ sound.placed, genesis, ?_⟩
    rw [same]
    exact kept later
  · rw [calculateGlobalExecIndex_eq sound.genesis] at called
    refine ⟨?_, genesis, ?_⟩
    · rw [called]
      apply sound.placed.call
      intro repeated
      obtain ⟨entry, passed, equal⟩ := List.mem_map.mp repeated
      obtain ⟨idx, low, own⟩ := sound.numbered entry passed
      lia
    · rw [called]
      intro entry passed
      obtain pre | now := submitted_sendCommittedSubdag passed
      · exact kept later.le entry pre
      · refine ⟨_, later, ?_⟩
        rw [now]
        exact congrArg (· + _) cfg.lastGlobalExecIndex.symm

end Worker

namespace ConsensusNode

open ExecutorRun EpochChangeManager

/-- What the executor said its last block is, over all clients. -/
def answers (node : ConsensusNode) : List Nat :=
  node.workers.flatMap fun worker => worker.client.answers

/-- A processor of an earlier epoch sends nothing. When the one of a new epoch starts, the
executor has said that it has every block the client of the old one still holds. -/
def HandsOver (node : ConsensusNode) : NodeAction → Prop
  | .resume pos => pos + 1 = node.workers.length ∨
      ∀ worker ∈ node.workers[pos]?,
        ∀ res ∈ worker.processor.resume node.transitionBarrier,
          res.2.filterMap CommitEffect.sentBlock = []
  | .proceed => node.transition = .barrierReset → 0 < node.currentEpoch ∧
      ∀ worker ∈ node.workers.getLast?, ∀ entry ∈ worker.client.pending,
        ∃ last ∈ node.answers, entry.1 ≤ last
  | _ => True

/-- What holds in every state: the clients are sound, and what was passed to the client of an
earlier epoch was written or is a block the executor has. -/
structure Retained (node : ConsensusNode) : Prop where
  sound : ∀ worker ∈ node.workers, worker.Sound
  settled : ∀ pos worker, node.workers[pos]? = some worker →
    pos + 1 ≠ node.workers.length → ∀ entry ∈ worker.client.submitted,
      entry ∈ worker.client.written ∨ ∃ last ∈ node.answers, entry.1 ≤ last

lemma new_retained (config : NodeConfig) (comm : Committee)
    (epochTimestampMs : BlockTimestampMs) :
    Retained (new config comm epochTimestampMs) where
  sound := by
    intro worker mem
    obtain rfl : worker = _ := mem_singleton.mp mem
    exact Worker.new_sound (fun _ => rfl) true _ _
  settled := by
    intro pos worker got notLast
    have inside := (List.getElem?_eq_some_iff.mp got).1
    change pos < 1 at inside
    change pos + 1 ≠ 1 at notLast
    omega

section Steps

variable {crypto : EpochCrypto} {codec : TransactionCodec} {node : ConsensusNode}

lemma answers_subset_set {pos : Nat} {worker replaced : Worker}
    (got : node.workers[pos]? = some worker)
    (kept : worker.client.answers ⊆ replaced.client.answers) :
    node.answers ⊆ (node.workers.set pos replaced).flatMap
      fun worker => worker.client.answers := by
  intro last known
  obtain ⟨other, mem, here⟩ := mem_flatMap.mp known
  obtain ⟨idx, there⟩ := List.getElem?_of_mem mem
  have inside := (List.getElem?_eq_some_iff.mp got).1
  rw [mem_flatMap]
  by_cases same : idx = pos
  · subst same
    obtain rfl := Option.some.inj (got.symm.trans there)
    exact ⟨replaced, List.mem_of_getElem? (getElem?_set_self inside), kept here⟩
  · refine ⟨other, List.mem_of_getElem? (i := idx) ?_, here⟩
    rw [getElem?_set_ne fun equal => same equal.symm]
    exact there

lemma Retained.replace (retained : Retained node) {pos : Nat} {worker replaced : Worker}
    (got : node.workers[pos]? = some worker) (sound : replaced.Sound)
    (answers : worker.client.answers ⊆ replaced.client.answers)
    (written : worker.client.written ⊆ replaced.client.written)
    (passed : pos + 1 ≠ node.workers.length →
      replaced.client.submitted = worker.client.submitted) {next : ConsensusNode}
    (workers : next.workers = node.workers.set pos replaced) : Retained next := by
  have known : node.answers ⊆ next.answers := by
    rw [ConsensusNode.answers.eq_def next, workers]
    exact answers_subset_set got answers
  constructor
  · intro other mem
    rw [workers] at mem
    obtain ⟨idx, there⟩ := List.getElem?_of_mem mem
    obtain ⟨_, rfl⟩ | ⟨_, pre⟩ := getElem?_set_worker got there
    · exact sound
    · exact retained.sound other (List.mem_of_getElem? pre)
  · intro idx other there notLast entry here
    rw [workers] at there
    rw [workers, length_set] at notLast
    obtain ⟨rfl, rfl⟩ | ⟨_, pre⟩ := getElem?_set_worker got there
    · rw [passed notLast] at here
      obtain wrote | ⟨last, answered, low⟩ := retained.settled idx worker got notLast entry here
      · exact .inl (written wrote)
      · exact .inr ⟨last, known answered, low⟩
    · obtain wrote | ⟨last, answered, low⟩ := retained.settled idx other pre notLast entry here
      · exact .inl wrote
      · exact .inr ⟨last, known answered, low⟩

lemma Retained.record (retained : Retained node) {pos : Nat} {worker : Worker}
    (got : node.workers[pos]? = some worker)
    (cfg : CommitProcessor.SameSettings worker.processor res.1)
    (kind : CommitProcessor.StepKind worker.processor res)
    (silent : pos + 1 ≠ node.workers.length → res.2.filterMap CommitEffect.sentBlock = []) :
    Retained (node.record codec pos worker res) := by
  have sound : (worker.perform codec res).Sound :=
    (retained.sound worker (List.mem_of_getElem? got)).perform cfg kind
  obtain ⟨same, _⟩ | ⟨sends, _, blk, called⟩ := @Worker.client_perform codec _ _ kind
  · refine retained.replace got sound ?_ ?_ ?_ rfl
    · rw [same]
      exact List.Subset.refl _
    · rw [same]
      exact List.Subset.refl _
    · intro _
      rw [same]
  · refine retained.replace got sound ?_ ?_ ?_ rfl
    · rw [called, answers_sendCommittedSubdag]
      exact List.Subset.refl _
    · rw [called, written_sendCommittedSubdag]
      exact List.Subset.refl _
    · intro prev
      exact absurd (silent prev) sends

lemma Retained.start (retained : Retained node) (positive : 0 < node.currentEpoch)
    (had : ∀ worker ∈ node.workers.getLast?, ∀ entry ∈ worker.client.pending,
      ∃ last ∈ node.answers, entry.1 ≤ last) {attached : Bool} {next : ConsensusNode}
    (workers : next.workers = node.workers ++
      [.new node.currentEpoch node.lastGlobalExecIndex attached (.new true true)]) :
    Retained next := by
  have answers : next.answers = node.answers := by
    rw [ConsensusNode.answers, workers, flatMap_append]
    exact append_nil _
  constructor
  · intro worker mem
    rw [workers] at mem
    obtain pre | new := mem_append.mp mem
    · exact retained.sound worker pre
    · obtain rfl := mem_singleton.mp new
      exact Worker.new_sound (fun zero => absurd zero positive.ne') attached true true
  · intro pos worker got notLast entry passed
    rw [workers] at got
    rw [workers, length_append, length_singleton] at notLast
    rw [answers]
    have inside := (List.getElem?_eq_some_iff.mp got).1
    rw [length_append, length_singleton] at inside
    rw [getElem?_append_left (by omega)] at got
    by_cases last : pos + 1 = node.workers.length
    · -- the processor that has just become an earlier one
      obtain wrote | pending :=
        (retained.sound worker (List.mem_of_getElem? got)).placed.written_or_pending passed
      · exact .inl wrote
      · refine .inr (had worker ?_ entry pending)
        rw [getLast?_eq_getElem?, ← last]
        exact got
    · exact retained.settled pos worker got last entry passed

lemma Retained.step (retained : Retained node) {next : ConsensusNode} {act : NodeAction}
    (handsOver : node.HandsOver act) (taken : node.step crypto codec act = some next) :
    Retained next := by
  cases stepped_of_step crypto codec taken with
  | receive got waits =>
    obtain ⟨cfg, kind⟩ := CommitProcessor.receive_kind
    refine retained.record got cfg kind fun _ => ?_
    cases kind with
    | quiet _ silent _ => exact silent
    | withheld _ silent _ => exact silent
    | sent dag point _ _ _ =>
      rw [waits] at point
      cases point
  | resume got resumed =>
    obtain ⟨cfg, kind⟩ := CommitProcessor.resume_kind resumed
    refine retained.record got cfg kind fun prev => ?_
    exact handsOver.resolve_left prev _ got _ resumed
  | @client pos act worker client got underway acted =>
    obtain ⟨submitted, written, answers⟩ := grows_of_step underway acted
    have sound := retained.sound worker (List.mem_of_getElem? got)
    have moved : { worker with client : Worker }.Sound := by
      refine ⟨?_, sound.genesis, ?_⟩
      · exact sound.placed.step (fun idx blk same => absurd same (underway idx blk)) acted
      · rw [submitted]
        exact sound.numbered
    exact retained.replace got moved answers written (fun _ => submitted) rfl
  | start point =>
    obtain ⟨positive, had⟩ := handsOver point
    exact retained.start positive had rfl
  | stay workers sent barrier =>
    constructor
    · rw [workers]
      exact retained.sound
    · rw [ConsensusNode.answers, workers]
      exact retained.settled

end Steps

/-- In every run that hands over, a block whose call returned, and which the executor did not
say it has, was written or is with the client of the current processor: in its send buffer,
or in the hands of a call that is about to write it or to put it back. -/
theorem acknowledged_block_is_kept (crypto : EpochCrypto) (codec : TransactionCodec)
    (config : NodeConfig) (comm : Committee) (epochTimestampMs : BlockTimestampMs)
    (sched : List NodeAction) (final : ConsensusNode)
    (handsOver : Heeds (step crypto codec) HandsOver (new config comm epochTimestampMs)
      sched)
    (ran : run (step crypto codec) (new config comm epochTimestampMs) sched = some final) :
    ∀ worker ∈ final.workers, ∀ entry ∈ worker.client.acknowledged,
      (∀ last ∈ final.answers, last + 1 ≤ entry.1) →
        entry ∈ worker.client.written ∨
        ∃ current, final.workers.getLast? = some current ∧
          (current.client.client.sendBuffer[entry.1]? = some entry.2 ∨
            some entry ∈ current.client.calls.map FlushPoint.held) := by
  have retained : Retained final :=
    invariant (fun _ _ _ holds handsOver taken => holds.step handsOver taken)
      (new_retained config comm epochTimestampMs) handsOver ran
  intro worker mem entry ret beyond
  have passed := submitted_of_acknowledged ret
  obtain ⟨pos, got⟩ := List.getElem?_of_mem mem
  by_cases last : pos + 1 = final.workers.length
  · obtain wrote | pending := (retained.sound worker mem).placed.written_or_pending passed
    · exact .inl wrote
    · refine .inr ⟨worker, ?_, mem_pending.mp pending⟩
      rw [getLast?_eq_getElem?, ← last]
      exact got
  · obtain wrote | ⟨number, answered, low⟩ := retained.settled pos worker got last entry passed
    · exact .inl wrote
    · have high := beyond number answered
      omega

instance (node : ConsensusNode) (act : NodeAction) : Decidable (node.HandsOver act) :=
  match act with
  | .resume pos =>
    inferInstanceAs (Decidable (pos + 1 = node.workers.length ∨
      ∀ worker ∈ node.workers[pos]?,
        ∀ res ∈ worker.processor.resume node.transitionBarrier,
          res.2.filterMap CommitEffect.sentBlock = []))
  | .proceed =>
    inferInstanceAs (Decidable (node.transition = .barrierReset → 0 < node.currentEpoch ∧
      ∀ worker ∈ node.workers.getLast?, ∀ entry ∈ worker.client.pending,
        ∃ last ∈ node.answers, entry.1 ≤ last))
  | .receive _ _ | .client _ _ | .manage _ | .checkTransactionAcceptance
  | .transitionToEpoch _ _ _ | .fail => inferInstanceAs (Decidable True)

/-- Commit 1 is written, the epoch changes, and the connection fails for the first commit of
the new epoch: it is in the buffer of the new client. -/
theorem kept_in_new_buffer : ∃ final,
    run (step .transparent .plain) (new ⟨true, true⟩ .ofFour 0)
        (NodeAction.executeCommits 0 1 ++ NodeAction.approve (.ofMember 0 0 0) ++
          NodeAction.transition timeoutSeconds (.ofMember 0 0 0) 1 ++
          NodeAction.handleCommit 1 1 ++ [.client 1 (.advance 0 false)]) = some final ∧
    final.workers.map (fun worker => worker.client.acknowledged.map Prod.fst) = [[1], [11]] ∧
    ∀ worker ∈ final.workers, ∀ entry ∈ worker.client.acknowledged,
      (∀ last ∈ final.answers, last + 1 ≤ entry.1) →
        entry ∈ worker.client.written ∨
        ∃ current, final.workers.getLast? = some current ∧
          (current.client.client.sendBuffer[entry.1]? = some entry.2 ∨
            some entry ∈ current.client.calls.map FlushPoint.held) := by
  obtain ⟨final, ran, ret⟩ := @exists_reached _ _ (step .transparent .plain)
    (new ⟨true, true⟩ .ofFour 0)
    (NodeAction.executeCommits 0 1 ++ NodeAction.approve (.ofMember 0 0 0) ++
      NodeAction.transition timeoutSeconds (.ofMember 0 0 0) 1 ++
      NodeAction.handleCommit 1 1 ++ [.client 1 (.advance 0 false)])
    (fun final => final.workers.map (fun worker =>
      worker.client.acknowledged.map Prod.fst) = [[1], [11]]) _ (by decide +kernel)
  refine ⟨final, ran, ret, acknowledged_block_is_kept .transparent .plain ⟨true, true⟩
    .ofFour 0 _ final ?_ ran⟩
  exact heeds_of_checks (fun _ _ => of_decide_eq_true) (by decide +kernel)

/-- The connection fails for commit 1, whose call returns, and the epoch changes by the
timeout. The executor has nothing, nothing was written, and the new buffer is empty. -/
theorem buffered_block_is_dropped : ∃ final,
    run (step .transparent .plain) (new ⟨true, true⟩ .ofFour 0)
        (NodeAction.handleCommit 0 1 ++ [.client 0 (.advance 0 false)] ++
          NodeAction.approve (.ofMember 0 0 0) ++
          NodeAction.transition timeoutSeconds (.ofMember 0 0 0) 1) = some final ∧
    final.workers.map (fun worker => worker.client.acknowledged.map Prod.fst) = [[1], []] ∧
    final.answers = [] ∧
    (∀ worker ∈ final.workers, worker.client.written = []) ∧
    final.workers.getLast?.map (fun current => current.client.pending.map Prod.fst) = some [] :=
  exists_reached (by decide +kernel)

end ConsensusNode

end Mysticeti

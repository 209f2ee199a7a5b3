import Mysticeti.BlockTriggers

/-!
# When the commit loop asks for an epoch change, and when that ends it

A loop that has the epoch transition manager and takes every commit in order from the channel,
before the barrier, counts all blocks it handles, and so it asks for a transition no later than
at the configured number of blocks. The other loops do not: those of later epochs have no
manager, and commits from the buffer or past the barrier are not counted.

Asking ends the loop when the proposal was seen before, as it is when the executor answers with
the same start of the epoch twice, and when the vote on it is refused.
-/

namespace Mysticeti

open List EpochChangeManager Lib.Machine

namespace TriggerNode

variable {crypto : EpochCrypto} {codec : TransactionCodec} {st next : TriggerNode}
  {action : TriggerAction}

def proposalOutline (st : TriggerNode) (ans : TriggerAnswers) : EpochChangeProposal where
  newEpoch := st.suiEpoch + 1
  newEpochTimestampMs := ans.epochStart.getD ans.nowMs
  proposalCommitIndex := 0
  proposerValue := st.ownIndex
  signatureBytes := []
  createdAtSeconds := 0

/-- The manager has not gone past the epoch the transition manager knows, and has not seen a
proposal with this content. -/
def CanPropose (crypto : EpochCrypto) (st : TriggerNode) (ans : TriggerAnswers) : Prop :=
  st.manager.currentEpoch ≤ st.suiEpoch ∧
    hashProposal crypto (st.proposalOutline ans) ∉ st.manager.seenProposals
deriving Decidable

def startedAgo (nowMs : Nat) (prop : EpochChangeProposal) : Int :=
  Int.bmod (toSigned nowMs - toSigned prop.newEpochTimestampMs) (2 ^ 64)

/-- The proposal is for the next epoch of the manager, with a start at most a day ahead, signed
by its proposer, and this node is a member of the manager's committee. -/
def CanVote (crypto : EpochCrypto) (st : TriggerNode) (nowMs : Nat)
    (prop : EpochChangeProposal) : Prop :=
  prop.newEpoch = st.manager.currentEpoch + 1 ∧
    -maxFutureMs ≤ startedAgo nowMs prop ∧
    (st.manager.validateProposer crypto prop).isOk = true ∧
    st.ownIndex < st.manager.committee.size
deriving Decidable

lemma created_iff {ans : TriggerAnswers} :
    (∃ prop, (st.createEpochChangeProposal crypto ans (st.suiEpoch + 1) 0).2 =
      .ok prop) ↔ st.CanPropose crypto ans := by
  unfold createEpochChangeProposal proposeEpochChangeToTargetEpoch CanPropose
  have sameHash : ∀ signature seconds, hashProposal crypto
      { st.proposalOutline ans with
        signatureBytes := signature, createdAtSeconds := seconds } =
      hashProposal crypto (st.proposalOutline ans) := fun _ _ => rfl
  by_cases behind : st.suiEpoch + 1 ≤ st.manager.currentEpoch
  · rw [if_pos behind]
    have ahead : ¬ st.manager.currentEpoch ≤ st.suiEpoch := by lia
    simp [ahead]
  · rw [if_neg behind]
    have final : st.manager.currentEpoch ≤ st.suiEpoch := by lia
    unfold createProposal
    dsimp only
    split
    case isTrue seen =>
      have seenOutline : hashProposal crypto (st.proposalOutline ans) ∈
          st.manager.seenProposals := (sameHash _ _) ▸ seen
      simp [seenOutline]
    case isFalse fresh =>
      have freshOutline : hashProposal crypto (st.proposalOutline ans) ∉
          st.manager.seenProposals := (sameHash _ _) ▸ fresh
      simp [final, freshOutline]

lemma validateProposal_ok_iff {mgr : EpochChangeManager} {nowMs : Nat}
    {prop : EpochChangeProposal} :
    (mgr.validateProposal crypto nowMs prop).2 = .ok () ↔
      prop.newEpoch = mgr.currentEpoch + 1 ∧
      -maxFutureMs ≤ startedAgo nowMs prop ∧
      mgr.validateProposer crypto prop = .ok () := by
  have future : (0 : Int) < maxPastMsNormal + maxFutureMs := by
    norm_num [maxPastMsNormal, maxFutureMs]
  by_cases nextEpoch : prop.newEpoch = mgr.currentEpoch + 1
  · have sameCheck : { mgr with
        epochStartTimestampMs := prop.newEpochTimestampMs }.validateProposer crypto prop =
        mgr.validateProposer crypto prop := rfl
    simp only [validateProposal, nextEpoch, ne_eq, not_true_eq_false, if_false, sameCheck,
      true_and, startedAgo]
    generalize Int.bmod _ _ = difference
    by_cases longAgo : difference > maxPastMsNormal
    · have notAhead : difference ≥ -maxFutureMs := by omega
      simp only [if_pos longAgo, if_pos notAhead]
      exact (and_iff_right notAhead).symm
    · rw [if_neg longAgo]
      by_cases notAhead : -maxFutureMs ≤ difference
      · rw [if_pos ⟨Int.not_lt.mp longAgo, notAhead⟩]
        exact (and_iff_right notAhead).symm
      · rw [if_neg fun inside => notAhead inside.2]
        simp only [reduceCtorEq, notAhead, false_and]
  · simp only [validateProposal, ne_eq, nextEpoch, not_false_eq_true, if_true, reduceCtorEq,
      false_and]

lemma voted_iff {nowMs : Nat} {prop : EpochChangeProposal} :
    (∃ vote, (st.autoVoteOnProposal crypto nowMs prop).2 = .ok vote) ↔
      st.CanVote crypto nowMs prop := by
  have passes := @validateProposal_ok_iff crypto st.manager nowMs prop
  have sameCommittee : (st.manager.validateProposal crypto nowMs prop).1.committee =
      st.manager.committee := by
    obtain ⟨⟨start, synced⟩, _⟩ := @validateProposal_spec crypto st.manager prop nowMs
    rw [synced]
  have checked : (st.manager.validateProposer crypto prop).isOk = true ↔
      st.manager.validateProposer crypto prop = .ok () := by
    cases st.manager.validateProposer crypto prop with
    | error err => simp [Except.isOk, Except.toBool]
    | ok done => simp [Except.isOk, Except.toBool]
  unfold CanVote autoVoteOnProposal voteOnProposal
  rw [checked]
  split
  case h_1 validated err refused =>
    rw [refused] at passes
    simp only [reduceCtorEq, exists_false, false_iff]
    exact fun conditions => nomatch passes.mpr ⟨conditions.1, conditions.2.1, conditions.2.2.1⟩
  case h_2 validated passed =>
    rw [passed] at sameCommittee passes
    have conditions := passes.mp rfl
    have lookup := @List.getElem?_eq_none_iff _ st.manager.committee.authorities st.ownIndex
    rw [show validated.committee = st.manager.committee from sameCommittee]
    unfold Committee.size
    split
    case h_1 absent =>
      rw [lookup] at absent
      simp only [reduceCtorEq, exists_false, false_iff]
      exact fun mem => absurd mem.2.2.2 (Nat.not_lt.mpr absent)
    case h_2 auth has =>
      have mem : st.ownIndex < st.manager.committee.authorities.length := by
        by_contra outside
        rw [lookup.mpr (Nat.not_lt.mp outside)] at has
        cases has
      simp only [conditions, mem, Except.ok.injEq, exists_eq', and_self]

lemma trigger_counter (crypto : EpochCrypto) (st : TriggerNode) (pos : Nat)
    (counter : BlockCounter) (reported : CommitIndex) (ans : TriggerAnswers) :
    ∃ voting stopped, (st.trigger crypto pos counter reported ans).counters =
        st.counters.set pos
          { counter with triggers := counter.triggers + 1, voting, stopped } ∧
      (st.trigger crypto pos counter reported ans).blocksPerEpoch = st.blocksPerEpoch ∧
      (st.CanPropose crypto ans → stopped = counter.stopped) := by
  have created := @created_iff crypto st ans
  unfold trigger
  dsimp only
  split
  case h_1 mgr err refused =>
    refine ⟨counter.voting, some err, rfl, rfl, fun can => ?_⟩
    obtain ⟨prop, made⟩ := created.mpr can
    rw [refused] at made
    cases made
  case h_2 mgr prop made => exact ⟨some (prop, reported), counter.stopped, rfl, rfl, fun _ => rfl⟩

/-- What the end of a commit writes into its counter: the blocks are counted, and the loop asks
for a transition if they reach the threshold. -/
lemma finish_counter (crypto : EpochCrypto) (st : TriggerNode) (node : ConsensusNode)
    (pos : Nat) (counter : BlockCounter) (dag : CommittedSubDag)
    (ans : TriggerAnswers) (sameManager : node.epochChange = st.node.epochChange) :
    ∃ post, (st.finish crypto node pos counter dag ans).counters = st.counters.set pos post ∧
      (st.finish crypto node pos counter dag ans).blocksPerEpoch = st.blocksPerEpoch ∧
      (counter.Reaches st.blocksPerEpoch dag.blocks.length → 0 < post.triggers) ∧
      (¬ counter.Reaches st.blocksPerEpoch dag.blocks.length →
        post = counter.count dag.blocks.length) ∧
      ((counter.Reaches st.blocksPerEpoch dag.blocks.length →
        st.CanPropose crypto ans) → post.stopped = counter.stopped) := by
  unfold finish
  dsimp only
  split
  case isTrue reaches =>
    obtain ⟨voting, stopped, counters, limit, kept⟩ := trigger_counter crypto
      { st with node := { node with currentCommitIndex := st.node.currentCommitIndex } }
      pos (counter.count dag.blocks.length) node.currentCommitIndex ans
    refine ⟨_, counters, limit, fun _ => Nat.succ_pos _, fun not => absurd reaches not,
      fun can => kept ?_⟩
    have able := can reaches
    rw [CanPropose, manager, ← sameManager] at able
    exact able
  case isFalse short =>
    exact ⟨_, rfl, rfl, fun reaches => absurd reaches short, fun _ => rfl, fun _ => rfl⟩

lemma forall_set {holds : BlockCounter → Prop} {counters : List BlockCounter} {pos : Nat}
    {post : BlockCounter} (pre : ∀ counter ∈ counters, holds counter)
    (written : holds post) : ∀ counter ∈ counters.set pos post, holds counter := by
  intro counter mem
  obtain old | rfl := mem_or_eq_of_mem_set mem
  · exact pre counter old
  · exact written

lemma forall_countersAfter {holds : BlockCounter → Prop} {action : NodeAction}
    (pre : ∀ counter ∈ st.counters, holds counter) (started : holds (.new false)) :
    ∀ counter ∈ st.countersAfter action, holds counter := by
  intro counter mem
  unfold countersAfter at mem
  split at mem
  · split at mem
    · obtain old | added := mem_append.mp mem
      · exact pre counter old
      · rwa [mem_singleton.mp added]
    · exact pre counter mem
  · exact pre counter mem

section Counting

/-- A loop that has not asked for a transition has the manager, and handles commits in order
and before the barrier only. -/
def Counts (st : TriggerNode) : TriggerAction → Prop
  | .receive pos dag => ∀ worker ∈ st.node.workers[pos]?,
      ∀ counter ∈ st.counters[pos]?, counter.triggers = 0 →
        worker.skipsOnReceive st.node.transitionBarrier dag = 0
  | .resume pos _ => ∀ worker ∈ st.node.workers[pos]?,
      ∀ counter ∈ st.counters[pos]?, counter.triggers = 0 →
        (worker.processor.point.processed.isSome → counter.managed = true ∧ counter.direct = true) ∧
        (worker.processor.point.processed = none →
          worker.skipsOnDrain st.node.transitionBarrier = 0)
  | _ => True

instance (st : TriggerNode) (action : TriggerAction) : Decidable (st.Counts action) :=
  match action with
  | .receive pos dag => inferInstanceAs (Decidable (∀ worker ∈
      st.node.workers[pos]?, ∀ counter ∈ st.counters[pos]?,
        counter.triggers = 0 → worker.skipsOnReceive st.node.transitionBarrier dag = 0))
  | .resume pos _ => inferInstanceAs (Decidable (∀ worker ∈ st.node.workers[pos]?,
      ∀ counter ∈ st.counters[pos]?, counter.triggers = 0 →
        (worker.processor.point.processed.isSome → counter.managed = true ∧ counter.direct = true) ∧
        (worker.processor.point.processed = none →
          worker.skipsOnDrain st.node.transitionBarrier = 0)))
  | .vote _ _ => inferInstanceAs (Decidable True)
  | .node _ => inferInstanceAs (Decidable True)

/-- A loop that has not asked for a transition counted all blocks it handled, and they are
fewer than the threshold. -/
def Prompt (limit : Nat) (counter : BlockCounter) : Prop :=
  counter.triggers = 0 → counter.blocksInCurrentEpoch = counter.handledBlocks ∧
    (counter.handledBlocks = 0 ∨ counter.handledBlocks < limit)

lemma Prompt.count {limit blocks : Nat} {counter : BlockCounter}
    (prompt : Prompt limit counter)
    (counts : counter.triggers = 0 → counter.managed = true ∧ counter.direct = true)
    (short : ¬ counter.Reaches (some limit) blocks) :
    Prompt limit (counter.count blocks) := by
  intro none
  obtain ⟨managed, direct⟩ := counts none
  obtain ⟨same, below⟩ := prompt none
  have few : blocks = 0 ∨ counter.blocksInCurrentEpoch + blocks < limit := by
    by_contra final
    rw [not_or, Nat.not_lt] at final
    exact short ⟨direct, Nat.pos_of_ne_zero final.1, managed, limit, rfl, final.2⟩
  simp only [BlockCounter.count, BlockCounter.pass, direct, if_true]
  omega

lemma Prompt.pass {limit blocks : Nat} {counter : BlockCounter} {direct : Bool}
    (prompt : Prompt limit counter) (none : counter.triggers = 0 → blocks = 0) :
    Prompt limit { counter.pass blocks with direct := direct } := by
  intro untriggered
  have noBlocks := none untriggered
  subst noBlocks
  exact prompt untriggered

/-- The configuration says so many blocks, and every loop is prompt. -/
structure Prompted (limit : Nat) (st : TriggerNode) : Prop where
  configured : st.blocksPerEpoch = some limit
  prompt : ∀ counter ∈ st.counters, Prompt limit counter

lemma Prompted.step {limit : Nat} (prompted : Prompted limit st)
    (counts : st.Counts action) (taken : st.step crypto codec action = some next) :
    Prompted limit next := by
  obtain ⟨configured, prompt⟩ := prompted
  cases stepped_of_step taken with
  | receive got works =>
    have pre := prompt _ (List.mem_of_getElem? got)
    exact ⟨configured, forall_set prompt (pre.pass (counts _ works _ got))⟩
  | pass got works passes =>
    have pre := prompt _ (List.mem_of_getElem? got)
    refine ⟨configured, forall_set prompt (pre.pass fun untriggered => ?_)⟩
    exact (counts _ works _ got untriggered).2 passes
  | @finish pos ans counter worker node dag got works processes sameManager =>
    have pre := prompt _ (List.mem_of_getElem? got)
    obtain ⟨post, counters, sameThreshold, asked, counted, _⟩ :=
      finish_counter crypto st node pos counter dag ans sameManager
    refine ⟨sameThreshold.trans configured, ?_⟩
    rw [counters]
    refine forall_set prompt ?_
    by_cases reaches : counter.Reaches st.blocksPerEpoch dag.blocks.length
    · exact fun untriggered => absurd untriggered (Nat.pos_iff_ne_zero.mp (asked reaches))
    · rw [counted reaches]
      rw [configured] at reaches
      refine pre.count (fun untriggered => ?_) reaches
      exact (counts _ works _ got untriggered).1 (by simp [processes])
  | voted got | refused got =>
    have pre := prompt _ (List.mem_of_getElem? got)
    exact ⟨configured, forall_set prompt pre⟩
  | act => exact ⟨configured, forall_countersAfter prompt fun _ => ⟨rfl, .inl rfl⟩⟩

lemma prompted_new {config : NodeConfig} {comm : Committee}
    {epochTimestampMs : BlockTimestampMs} {ownIndex : AuthorityIndex} {keyPair : ProtocolKeyPair}
    {limit : Nat} :
    Prompted limit
      (new config comm epochTimestampMs ownIndex keyPair (some limit)) where
  configured := rfl
  prompt := by
    intro counter mem
    obtain rfl := mem_singleton.mp mem
    exact fun _ => ⟨rfl, .inl rfl⟩

/-- In every run whose commit loops count what they handle, every loop that handled as many
blocks as the configuration says asked for a transition. -/
theorem every_epoch_is_triggered (crypto : EpochCrypto) (codec : TransactionCodec)
    (config : NodeConfig) (comm : Committee) (epochTimestampMs : BlockTimestampMs)
    (ownIndex : AuthorityIndex) (keyPair : ProtocolKeyPair) (limit : Nat)
    (sched : List TriggerAction) (final : TriggerNode)
    (counts : Heeds (step crypto codec) Counts
      (new config comm epochTimestampMs ownIndex keyPair (some limit)) sched)
    (ran : run (step crypto codec)
      (new config comm epochTimestampMs ownIndex keyPair (some limit)) sched =
        some final) :
    ∀ counter ∈ final.counters, 0 < counter.handledBlocks → limit ≤ counter.handledBlocks →
      0 < counter.triggers := by
  have kept : Prompted limit final :=
    invariant (fun _ _ _ prompted counts taken => prompted.step counts taken) prompted_new
      counts ran
  intro counter mem some enough
  by_contra untriggered
  obtain ⟨_, below⟩ := kept.prompt counter mem (by omega)
  omega

/-- A loop receives the commit of an index, with one block, and handles it; the executor says
when the next epoch starts. -/
def commitAt (pos : Nat) (idx : CommitIndex) (epochStart : BlockTimestampMs) : List TriggerAction :=
  [.receive pos (.singleTransaction idx), .resume pos ⟨0, 0, some epochStart⟩]

def ofFour : TriggerNode := new ⟨true, true⟩ .ofFour 0 0 [0] (some 2)

theorem triggered_at_second_block : ∃ final,
    run (step .transparent .plain) ofFour
      (commitAt 0 1 0 ++ [.resume 0 ⟨0, 0, none⟩] ++ commitAt 0 2 0) = some final ∧
    (∃ counter ∈ final.counters, counter.handledBlocks = 2) ∧
    ∀ counter ∈ final.counters, 0 < counter.handledBlocks → 2 ≤ counter.handledBlocks →
      0 < counter.triggers := by
  have observed : ∃ final, run (step .transparent .plain) ofFour
      (commitAt 0 1 0 ++ [.resume 0 ⟨0, 0, none⟩] ++ commitAt 0 2 0) = some final ∧
      ∃ counter ∈ final.counters, counter.handledBlocks = 2 :=
    exists_reached (by decide +kernel)
  obtain ⟨final, ran, handled⟩ := observed
  exact ⟨final, ran, handled, every_epoch_is_triggered .transparent .plain _ _ _ _ _ 2 _ final
    (heeds_of_checks (fun _ _ => of_decide_eq_true) (by decide +kernel)) ran⟩

/-- A transition that was approved and waited five minutes starts the loop of epoch 1, which
handles two commits of a block each and does not ask for a transition. -/
theorem second_epoch_is_not_triggered : ∃ final,
    run (step .transparent .plain) ofFour
      ((NodeAction.approve (.ofMember 0 0 0) ++
        NodeAction.transition 300 (.ofMember 0 0 0) 0).map .node ++
        commitAt 1 1 0 ++ [.resume 1 ⟨0, 0, none⟩] ++ commitAt 1 2 0) = some final ∧
    final.node.currentEpoch = 1 ∧
    ∃ counter, final.counters[1]? = some counter ∧ counter.handledBlocks = 2 ∧
      counter.stopped = none ∧ counter.triggers = 0 := by
  have observed : ∃ final, run (step .transparent .plain) ofFour
      ((NodeAction.approve (.ofMember 0 0 0) ++
        NodeAction.transition 300 (.ofMember 0 0 0) 0).map .node ++
        commitAt 1 1 0 ++ [.resume 1 ⟨0, 0, none⟩] ++ commitAt 1 2 0) = some final ∧
      final.node.currentEpoch = 1 ∧
      (final.counters[1]?.map fun counter =>
        (counter.handledBlocks, counter.stopped, counter.triggers)) = some (2, none, 0) :=
    exists_reached (by decide +kernel)
  obtain ⟨final, ran, epoch, counted⟩ := observed
  obtain ⟨counter, got, values⟩ := Option.map_eq_some_iff.mp counted
  simp only [Prod.mk.injEq] at values
  exact ⟨final, ran, epoch, counter, got, values.1, values.2.1, values.2.2⟩

end Counting

section Stopping

/-- A trigger proposes something new, and the vote on it passes the validation. -/
def Admits (crypto : EpochCrypto) (st : TriggerNode) : TriggerAction → Prop
  | .resume pos ans => ∀ worker ∈ st.node.workers[pos]?,
      ∀ counter ∈ st.counters[pos]?, ∀ dag ∈ worker.processor.point.processed,
        counter.Reaches st.blocksPerEpoch dag.blocks.length → st.CanPropose crypto ans
  | .vote pos nowMs => ∀ counter ∈ st.counters[pos]?,
      ∀ voting ∈ counter.voting, st.CanVote crypto nowMs voting.1
  | _ => True

instance (crypto : EpochCrypto) (st : TriggerNode) (action : TriggerAction) :
    Decidable (st.Admits crypto action) :=
  match action with
  | .resume pos ans => inferInstanceAs (Decidable (∀ worker ∈
      st.node.workers[pos]?, ∀ counter ∈ st.counters[pos]?,
        ∀ dag ∈ worker.processor.point.processed,
          counter.Reaches st.blocksPerEpoch dag.blocks.length → st.CanPropose crypto ans))
  | .vote pos nowMs => inferInstanceAs (Decidable (∀ counter ∈ st.counters[pos]?,
      ∀ voting ∈ counter.voting, st.CanVote crypto nowMs voting.1))
  | .receive _ _ => inferInstanceAs (Decidable True)
  | .node _ => inferInstanceAs (Decidable True)

def Running (st : TriggerNode) : Prop := ∀ counter ∈ st.counters, counter.stopped = none

lemma Running.step (running : st.Running) (admits : st.Admits crypto action)
    (taken : st.step crypto codec action = some next) : next.Running := by
  cases stepped_of_step taken with
  | receive got | pass got | voted got =>
    have pre := running _ (List.mem_of_getElem? got)
    exact forall_set running pre
  | @finish pos ans counter worker node dag got works processes sameManager =>
    obtain ⟨post, counters, _, _, _, kept⟩ :=
      finish_counter crypto st node pos counter dag ans sameManager
    rw [Running, counters]
    refine forall_set running ?_
    rw [kept fun reaches => admits worker works counter got dag processes reaches]
    exact running _ (List.mem_of_getElem? got)
  | refused got voting refused =>
    obtain ⟨vote, acc⟩ := voted_iff.mpr (admits _ got _ voting)
    rw [refused] at acc
    cases acc
  | act => exact forall_countersAfter running rfl

/-- In every run in which triggers propose something new and the votes on it pass, no commit
loop returns an error. -/
theorem commit_loops_keep_running (crypto : EpochCrypto) (codec : TransactionCodec)
    (config : NodeConfig) (comm : Committee) (epochTimestampMs : BlockTimestampMs)
    (ownIndex : AuthorityIndex) (keyPair : ProtocolKeyPair) (period : Option Nat)
    (sched : List TriggerAction) (final : TriggerNode)
    (admits : Heeds (step crypto codec) (Admits crypto)
      (new config comm epochTimestampMs ownIndex keyPair period) sched)
    (ran : run (step crypto codec)
      (new config comm epochTimestampMs ownIndex keyPair period) sched =
        some final) :
    final.Running := by
  have started : (new config comm epochTimestampMs ownIndex keyPair
      period).Running := by
    intro counter mem
    obtain rfl := mem_singleton.mp mem
    rfl
  exact invariant (fun _ _ _ running admits taken => running.step admits taken) started admits
    ran

/-- Three commits in order; the executor answers with these starts of the next epoch at the
second and the third, and each proposal is voted on. -/
def threeCommits (second third : BlockTimestampMs) : List TriggerAction :=
  commitAt 0 1 0 ++ [.resume 0 ⟨0, 0, none⟩] ++ commitAt 0 2 second ++
    [.vote 0 0, .resume 0 ⟨0, 0, none⟩] ++ commitAt 0 3 third

theorem runs_with_new_starts : ∃ final,
    run (step .transparent .plain) ofFour (threeCommits 0 1 ++ [.vote 0 0]) = some final ∧
    (∃ counter ∈ final.counters, counter.triggers = 2) ∧ final.Running := by
  have observed : ∃ final,
      run (step .transparent .plain) ofFour (threeCommits 0 1 ++ [.vote 0 0]) = some final ∧
      ∃ counter ∈ final.counters, counter.triggers = 2 :=
    exists_reached (by decide +kernel)
  obtain ⟨final, ran, triggered⟩ := observed
  exact ⟨final, ran, triggered, commit_loops_keep_running .transparent .plain _ _ _ _ _ _ _
    final (heeds_of_checks (fun _ _ => of_decide_eq_true) (by decide +kernel)) ran⟩

/-- The executor repeats its answer: the third commit makes the proposal of the second again,
and the loop returns the error. -/
theorem repeated_start_ends_loop : ∃ final,
    run (step .transparent .plain) ofFour (threeCommits 0 0) = some final ∧
    ∃ counter ∈ final.counters, counter.stopped = some .duplicateProposal :=
  exists_reached (by decide +kernel)

end Stopping

end TriggerNode

end Mysticeti

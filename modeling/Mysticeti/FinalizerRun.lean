import Mysticeti.CausalCompleteness
import Mysticeti.Certification
import Mysticeti.Finalization

/-!
# Runs of the finalizer

Commits reach the finalizer one after the other, as the linearizer makes them: with successive
indices, rising leader rounds, and verified blocks above the garbage-collection round of the
commit before, each in one commit only. Other tasks add blocks to the certifier between two
commits and while a commit is processed; the blocks of a commit are added before it is
received. The finalizer then puts out the commits in their order, each once, never stops the
node, and buffers three commits at most.
-/

namespace Mysticeti

open List Option Lib.Log Lib.Machine Lib.Outcome Linearizer

structure FinalizerNode where
  finalizer : CommitFinalizer
  added : List VerifiedBlock
  received : List CommittedSubDag
  outputs : List CommittedSubDag

inductive FinalizerAction where
  | update (update : CertifierUpdate)
  /-- A commit is received, with the garbage-collection round of the DAG state and with what
  other tasks do to the certifier until the commit is processed. -/
  | receive (commit : CommittedSubDag) (dagStateGcRound : Round)
      (updates : List (List CertifierUpdate))

namespace FinalizerNode

def start (skipGcedAcceptVotes : Bool) : FinalizerNode :=
  ⟨.new skipGcedAcceptVotes .new [], [], [], []⟩

/-- A panic of the finalizer stops the node. -/
def step (ctx : Context) (node : FinalizerNode) : FinalizerAction → Option FinalizerNode
  | .update update => some
    { node with
      finalizer := { node.finalizer with
        certifier := (update.apply ctx.committee node.finalizer.certifier).1 }
      added := node.added ++ update.blocks }
  | .receive commit dagStateGcRound updates =>
    match ({ node.finalizer with updates }).receive ctx commit dagStateGcRound with
    | .error _ => none
    | .ok (finalized, fin) => some
      { finalizer := { fin with
          certifier := CertifierUpdate.applyAll ctx.committee fin.certifier
            fin.updates.flatten
          updates := [] }
        added := node.added ++ updates.flatten.flatMap CertifierUpdate.blocks
        received := node.received ++ [commit]
        outputs := node.outputs ++ finalized }

/-- The commit is a new one that follows those received. -/
structure Follows (ctx : Context) (node : FinalizerNode) (commit : CommittedSubDag) :
    Prop where
  unfinalized : commit.recoveredRejectedTransactions = false
  index : ∀ last ∈ node.received.getLast?, commit.commitRef.index = last.commitRef.index + 1
  newer : ∀ last ∈ node.received.getLast?, last.leader.round < commit.leader.round
  leader : ∃ blk ∈ commit.blocks, blk.reference = commit.leader
  above : ∀ blk ∈ commit.blocks, calculateGcRound ctx (lastLeaderRound node.received) < blk.round
  fresh : ∀ prev ∈ node.received, ∀ other ∈ prev.blocks, ∀ blk ∈ commit.blocks,
    other.reference ≠ blk.reference
  verified : ∀ blk ∈ commit.blocks, verifyBlock ctx blk.block = .ok ()
  added : ∀ blk ∈ commit.blocks, blk ∈ node.added

/-- Commits follow one another, and the DAG state has a commit before the finalizer has it. -/
def Admits (ctx : Context) (node : FinalizerNode) : FinalizerAction → Prop
  | .update _ => True
  | .receive commit dagStateGcRound _ => node.Follows ctx commit ∧
      calculateGcRound ctx commit.leader.round ≤ dagStateGcRound

section Rounds

variable {ctx : Context} {commits : List CommittedSubDag}

lemma lastLeaderRound_append (commits : List CommittedSubDag) (commit : CommittedSubDag) :
    lastLeaderRound (commits ++ [commit]) = commit.leader.round := by
  simp [lastLeaderRound]

lemma Rising.le_last (rising : CommitFinalizer.Rising commits) :
    ∀ commit ∈ commits, commit.leader.round ≤ lastLeaderRound commits := by
  intro commit here
  obtain ⟨prev, last, rfl⟩ := (eq_nil_or_concat' commits).resolve_left (ne_nil_of_mem here)
  rw [lastLeaderRound_append]
  rcases mem_append.mp here with here | here
  · exact Nat.le_of_lt ((pairwise_append.mp rising).2.2 commit here last (by simp))
  · rw [mem_singleton.mp here]

lemma Rising.lastLeaderRound_mono {later : List CommittedSubDag}
    (rising : CommitFinalizer.Rising (commits ++ later)) :
    lastLeaderRound commits ≤ lastLeaderRound (commits ++ later) := by
  rcases eq_nil_or_concat' commits with rfl | ⟨prev, last, rfl⟩
  · exact Nat.zero_le _
  · rw [lastLeaderRound_append]
    exact Rising.le_last rising last (by simp)

lemma Rising.length_le (rising : CommitFinalizer.Rising commits) {newest : Round}
    (recent : ∀ commit ∈ commits, newest < commit.leader.round + 3 ∧
      commit.leader.round ≤ newest) : commits.length ≤ 3 := by
  by_contra long
  have ordered := pairwise_iff_getElem.mp rising
  have first := ordered 0 1 (by omega) (by omega) (by omega)
  have second := ordered 1 2 (by omega) (by omega) (by omega)
  have third := ordered 2 3 (by omega) (by omega) (by omega)
  have low := (recent commits[0] (getElem_mem _)).1
  have high := (recent commits[3] (getElem_mem _)).2
  lia

/-- The blocks of each commit are above the round that was collected before it. -/
abbrev Above (ctx : Context) : List CommittedSubDag → Prop :=
  Grown fun prev commit => ∀ blk ∈ commit.blocks,
    calculateGcRound ctx (lastLeaderRound prev) < blk.round

lemma calculateGcRound_mono {lower upper : Round} (le : lower ≤ upper) :
    calculateGcRound ctx lower ≤ calculateGcRound ctx upper :=
  Nat.sub_le_sub_right le _

lemma Above.kept {gone kept : List CommittedSubDag} (above : Above ctx (gone ++ kept))
    (rising : CommitFinalizer.Rising (gone ++ kept)) :
    ∀ commit ∈ kept, ∀ blk ∈ commit.blocks,
      calculateGcRound ctx (lastLeaderRound gone) < blk.round := by
  intro commit here blk own
  obtain ⟨between, later, rfl⟩ := mem_iff_append.mp here
  have whole : gone ++ (between ++ commit :: later) =
      (gone ++ between) ++ commit :: later := by rw [append_assoc]
  rw [whole] at above rising
  have higher := grown_iff.mp above (gone ++ between) commit later rfl blk own
  have prev : CommitFinalizer.Rising (gone ++ between) :=
    rising.sublist (sublist_append_left _ _)
  exact Nat.lt_of_le_of_lt (calculateGcRound_mono (Rising.lastLeaderRound_mono prev)) higher

end Rounds

section Collection

open CommitFinalizer

variable {ctx : Context} {fin post : CommitFinalizer} {gcRound : Round}

lemma sound_updateGcRound {certifier : CertifierState} {st : CommitState}
    (sound : st.Sound certifier) (above : ∀ blk ∈ st.commit.blocks, gcRound < blk.round) :
    st.Sound (certifier.updateGcRound gcRound) where
  known blk own := CertifierState.mem_updateGcRound (above blk own) (sound.known blk own)
  blocks := sound.blocks
  transactions ref pending got := by
    obtain ⟨⟨blk, own, rfl⟩, voted⟩ := sound.transactions ref pending got
    rw [CertifierState.info_updateGcRound (above blk own)]
    exact ⟨⟨blk, own, rfl⟩, voted⟩

/-- The certifier has the blocks that were added and those of the updates that passed. -/
def Accounts (added : List VerifiedBlock) (updates : List (List CertifierUpdate))
    (fin : CommitFinalizer) : Prop :=
  ∃ passed, updates = passed ++ fin.updates ∧
    fin.certifier.Entered (added ++ passed.flatten.flatMap CertifierUpdate.blocks)

variable {added : List VerifiedBlock} {updates : List (List CertifierUpdate)}

lemma Accounts.learned (accounts : Accounts added updates fin)
    (learned : Learned fin post) : Accounts added updates post := by
  obtain ⟨passed, split, entered⟩ := accounts
  obtain ⟨later, splitLater, enteredLater⟩ := learned.passed
  refine ⟨passed ++ later, ?_, ?_⟩
  · rw [split, splitLater, append_assoc]
  · rw [flatten_append, flatMap_append, ← append_assoc]
    exact (entered.grows learned.grows).append enteredLater

lemma tryUpdateGcRound_ok (buffered : Buffered fin)
    (accounts : Accounts added updates fin) {lastRound dagStateGcRound : Round}
    (covered : calculateGcRound ctx lastRound ≤ dagStateGcRound)
    (later : fin.certifier.gcRound ≤ calculateGcRound ctx lastRound)
    (above : ∀ commit ∈ fin.commits, ∀ blk ∈ commit.blocks,
      calculateGcRound ctx lastRound < blk.round) :
    ∃ post, fin.tryUpdateGcRound ctx dagStateGcRound lastRound = .ok post ∧
      Buffered post ∧ Accounts added updates post ∧ post.commits = fin.commits ∧
      post.lastProcessedCommit = fin.lastProcessedCommit ∧
      post.certifier.gcRound = calculateGcRound ctx lastRound := by
  have learned := @yield_learned ctx fin
  obtain ⟨passed, split, entered⟩ := accounts.learned learned
  refine ⟨{ fin.yield ctx with
      certifier := (fin.yield ctx).certifier.updateGcRound
        (calculateGcRound ctx lastRound) },
    by rw [tryUpdateGcRound, ensure_holds _ covered, ok_bind]; rfl, ?_,
    ⟨passed, split, entered.updateGcRound ?_⟩, rfl, rfl, rfl⟩
  · refine ⟨fun st here => ?_, buffered.consecutive, buffered.links⟩
    exact sound_updateGcRound ((buffered.supplied st here).grows learned.grows)
      (above st.commit (List.mem_map_of_mem here))
  · rw [learned.grows.gcRound]
    exact later

end Collection

/-- The commits put out and the buffered ones are those received. -/
structure Holds (ctx : Context) (node : FinalizerNode) : Prop where
  buffered : node.finalizer.Buffered
  consecutive : CommitFinalizer.Consecutive node.received
  above : Above ctx node.received
  processed : node.finalizer.lastProcessedCommit =
    node.received.getLast?.map fun last => last.commitRef.index
  entered : node.finalizer.certifier.Entered node.added
  emitted : ∃ gone, node.received = gone ++ node.finalizer.commits ∧
    List.Forall₂ CommitFinalizer.Finalizes node.outputs gone ∧
      node.finalizer.certifier.gcRound = calculateGcRound ctx (lastLeaderRound gone)
  recent : ∀ commit ∈ node.finalizer.commits,
    lastLeaderRound node.received < commit.leader.round + 3

section Steps

open CommitFinalizer

variable {ctx : Context} {node : FinalizerNode}

lemma start_holds (skipGcedAcceptVotes : Bool) : (start skipGcedAcceptVotes).Holds ctx where
  buffered := ⟨by simp [start, Supplied, CommitFinalizer.new], consecutive_nil, links_empty⟩
  consecutive := consecutive_nil
  above := .start
  processed := rfl
  entered := by simp [start, CertifierState.Entered]
  emitted := ⟨[], rfl, .nil, (Nat.zero_sub _).symm⟩
  recent := by simp [start, commits, CommitFinalizer.new]

lemma update_holds (holds : node.Holds ctx) (update : CertifierUpdate) :
    ∃ next, step ctx node (.update update) = some next ∧ next.Holds ctx := by
  obtain ⟨grows, entered⟩ := @CertifierUpdate.apply_learns ctx.committee
    node.finalizer.certifier update
  obtain ⟨gone, split, finalizes, collected⟩ := holds.emitted
  exact ⟨_, rfl,
    { buffered := ⟨fun st here => (holds.buffered.supplied st here).grows grows,
        holds.buffered.consecutive, holds.buffered.links⟩
      consecutive := holds.consecutive
      above := holds.above
      processed := holds.processed
      entered := (holds.entered.grows grows).append entered
      emitted := ⟨gone, split, finalizes, grows.gcRound.trans collected⟩
      recent := holds.recent }⟩

lemma Follows.consecutive {commit : CommittedSubDag} (follows : node.Follows ctx commit)
    (consecutive : Consecutive node.received) : Consecutive (node.received ++ [commit]) where
  indices := by
    rw [isChain_append]
    refine ⟨consecutive.indices, .singleton commit, fun last isLast next isNext => ?_⟩
    obtain rfl := some.inj isNext
    exact follows.index last isLast
  rising := by
    refine pairwise_append.mpr ⟨consecutive.rising, pairwise_singleton _ _, ?_⟩
    intro prev here next isNext
    rw [mem_singleton.mp isNext]
    have top := Rising.le_last consecutive.rising prev here
    obtain ⟨others, last, split⟩ :=
      (eq_nil_or_concat' node.received).resolve_left (ne_nil_of_mem here)
    rw [split, lastLeaderRound_append] at top
    have newer := follows.newer last (by rw [split, getLast?_concat]; rfl)
    lia
  distinct := by
    refine pairwise_append.mpr ⟨consecutive.distinct, pairwise_singleton _ _, ?_⟩
    intro prev here next isNext blk own other ownOther
    rw [mem_singleton.mp isNext] at ownOther
    exact follows.fresh prev here blk own other ownOther
  rooted := by
    intro entry here
    rw [placed_append] at here
    rcases mem_append.mp here with here | here
    · exact consecutive.rooted entry here
    · obtain ⟨holder, isCommit, own, -⟩ := mem_placed.mp here
      rw [mem_singleton.mp isCommit] at own
      have valid := validBlock_of_verifyBlock (follows.verified entry.2 own)
      obtain ⟨first, rest, split, -, -⟩ := valid.ownFirst
      have head : entry.2.ancestors = first :: rest := split
      refine ⟨first, by rw [head]; rfl, valid.ancestorRound first ?_⟩
      rw [split]
      exact mem_cons_self

section Receive

variable {fin post : CommitFinalizer} {commit : CommittedSubDag}
  {outputs : List CommittedSubDag} {dagStateGcRound : Round}

lemma receive_silent (fastpath : ctx.protocolConfig.mysticetiFastpath = true)
    (unfinalized : commit.recoveredRejectedTransactions = false)
    (processed : fin.processCommit ctx commit = .ok ([], post)) :
    fin.receive ctx commit dagStateGcRound = .ok ([], post) := by
  rw [CommitFinalizer.receive, fastpath, unfinalized]
  have goesOn : (!(!true || false)) = true := rfl
  rw [if_pos goesOn, processed, ok_bind]
  rfl

lemma receive_output (fastpath : ctx.protocolConfig.mysticetiFastpath = true)
    (unfinalized : commit.recoveredRejectedTransactions = false)
    (processed : fin.processCommit ctx commit = .ok (outputs, post))
    {last : CommittedSubDag} (isLast : outputs.getLast? = some last) {final : CommitFinalizer}
    (updated : post.tryUpdateGcRound ctx dagStateGcRound last.leader.round = .ok final) :
    fin.receive ctx commit dagStateGcRound = .ok (outputs, final) := by
  rw [CommitFinalizer.receive, fastpath, unfinalized]
  have goesOn : (!(!true || false)) = true := rfl
  rw [if_pos goesOn, processed, ok_bind]
  dsimp only
  rw [isLast]
  dsimp only
  rw [updated, ok_bind]
  rfl

end Receive

lemma receive_holds (fastpath : ctx.protocolConfig.mysticetiFastpath = true)
    (holds : node.Holds ctx) {commit : CommittedSubDag} {dagStateGcRound : Round}
    (follows : node.Follows ctx commit)
    (covered : calculateGcRound ctx commit.leader.round ≤ dagStateGcRound)
    (updates : List (List CertifierUpdate)) :
    ∃ next, step ctx node (.receive commit dagStateGcRound updates) = some next ∧
      next.Holds ctx := by
  obtain ⟨gone, split, finalizes, collected⟩ := holds.emitted
  have extended := follows.consecutive holds.consecutive
  have above : Above ctx (node.received ++ [commit]) := holds.above.extend follows.above
  have queue : Consecutive (node.finalizer.commits ++ [commit]) := by
    have whole := extended
    rw [split, append_assoc] at whole
    exact whole.of_append
  have known : ∀ blk ∈ commit.blocks, blk.reference ∈ node.finalizer.certifier.votes := by
    intro blk own
    apply holds.entered blk (follows.added blk own)
    rw [collected]
    refine Nat.lt_of_le_of_lt (calculateGcRound_mono ?_) (follows.above blk own)
    have rising := holds.consecutive.rising
    rw [split] at rising ⊢
    exact Rising.lastLeaderRound_mono rising
  have next : ∀ last ∈ node.finalizer.lastProcessedCommit, last + 1 = commit.commitRef.index := by
    intro last isLast
    rw [holds.processed, mem_def, map_eq_some_iff] at isLast
    obtain ⟨lastCommit, isLast, rfl⟩ := isLast
    exact (follows.index lastCommit isLast).symm
  have nonempty : commit.blocks ≠ [] := by
    obtain ⟨blk, own, -⟩ := follows.leader
    exact ne_nil_of_mem own
  have accounts : Accounts node.added updates { node.finalizer with updates } :=
    ⟨[], rfl, by
      rw [flatten_nil, flatMap_nil, append_nil]
      exact holds.entered⟩
  obtain ⟨outputs, post, ret, learned, buffered, processed, ⟨left, splitAfter, leave⟩,
    recent⟩ := @processCommit_ok ctx { node.finalizer with updates }
      ⟨holds.buffered.supplied, holds.buffered.consecutive, holds.buffered.links⟩ commit queue
      known nonempty next
  have whole : node.received ++ [commit] = (gone ++ left) ++ post.commits := by
    rw [split, append_assoc, append_assoc]
    exact congrArg (gone ++ ·) splitAfter
  -- However the finalizer ends, the rest of the updates pass, and the node holds.
  have finish : ∀ final : CommitFinalizer, Buffered final →
      Accounts node.added updates final → final.commits = post.commits →
      final.lastProcessedCommit = some commit.commitRef.index →
      final.certifier.gcRound = calculateGcRound ctx (lastLeaderRound (gone ++ left)) →
      Holds ctx
        { finalizer := { final with
            certifier := CertifierUpdate.applyAll ctx.committee final.certifier
              final.updates.flatten
            updates := [] }
          added := node.added ++ updates.flatten.flatMap CertifierUpdate.blocks
          received := node.received ++ [commit]
          outputs := node.outputs ++ outputs } := by
    rintro final bufferedFinal ⟨passed, splitUpdates, entered⟩ sameCommits lastFinal gcRound
    obtain ⟨grows, enteredRest⟩ := @CertifierUpdate.applyAll_learns ctx.committee
      final.certifier final.updates.flatten
    refine ⟨⟨fun st here => (bufferedFinal.supplied st here).grows grows,
      bufferedFinal.consecutive, bufferedFinal.links⟩, extended, above, ?_, ?_, ?_, ?_⟩
    · rw [getLast?_concat, map_some]
      exact lastFinal
    · rw [splitUpdates, flatten_append, flatMap_append, ← append_assoc]
      exact (entered.grows grows).append enteredRest
    · refine ⟨gone ++ left, ?_, rel_append finalizes leave, grows.gcRound.trans gcRound⟩
      exact whole.trans (congrArg ((gone ++ left) ++ ·) sameCommits.symm)
    · rw [lastLeaderRound_append]
      intro kept here
      exact recent kept (sameCommits ▸ here)
  have grown := learned.grows.gcRound
  rcases eq_nil_or_concat' outputs with rfl | ⟨others, lastOutput, rfl⟩
  · obtain rfl := forall₂_nil_left_iff.mp leave
    refine ⟨_, ?_, finish post buffered (accounts.learned learned) rfl processed ?_⟩
    · rw [step, receive_silent fastpath follows.unfinalized ret]
    · rw [append_nil, ← collected]
      exact grown
  · -- The last commit put out has the leader of the last output.
    obtain ⟨others', lastCommit, rfl⟩ : ∃ others' lastCommit, left = others' ++ [lastCommit] :=
      (eq_nil_or_concat' left).resolve_left fun none => by
        rw [none] at leave
        simpa using leave.length_eq
    obtain ⟨rejected, sameLeader⟩ : Finalizes lastOutput lastCommit := by
      have lasts := (rel_reverse leave : List.Forall₂ Finalizes _ _)
      simp only [reverse_append, reverse_singleton, singleton_append, forall₂_cons] at lasts
      exact lasts.1
    have leader : lastOutput.leader.round =
        lastLeaderRound (gone ++ (others' ++ [lastCommit])) := by
      rw [← append_assoc, lastLeaderRound_append, sameLeader]
    have rising := extended.rising
    have later : lastLeaderRound (gone ++ (others' ++ [lastCommit])) ≤ commit.leader.round := by
      rw [← lastLeaderRound_append node.received commit]
      rw [whole] at rising ⊢
      exact Rising.lastLeaderRound_mono rising
    rw [whole] at above rising
    have collectedLater : post.certifier.gcRound ≤
        calculateGcRound ctx lastOutput.leader.round := by
      rw [leader]
      refine Nat.le_trans (Nat.le_of_eq (grown.trans collected)) (calculateGcRound_mono ?_)
      exact Rising.lastLeaderRound_mono (rising.sublist (sublist_append_left _ _))
    obtain ⟨final, updated, bufferedFinal, accountsFinal, sameCommits, lastFinal, gcRound⟩ :=
      tryUpdateGcRound_ok buffered (accounts.learned learned)
        (Nat.le_trans (calculateGcRound_mono (leader ▸ later)) covered) collectedLater
        (leader ▸ Above.kept above rising)
    refine ⟨_, ?_, finish final bufferedFinal accountsFinal sameCommits (lastFinal.trans processed)
      (leader ▸ gcRound)⟩
    rw [step, receive_output fastpath follows.unfinalized ret getLast?_concat updated]

lemma step_holds (fastpath : ctx.protocolConfig.mysticetiFastpath = true)
    (node : FinalizerNode) (act : FinalizerAction) (holds : node.Holds ctx)
    (admitted : node.Admits ctx act) :
    ∃ next, step ctx node act = some next ∧ next.Holds ctx := by
  cases act with
  | update update => exact update_holds holds update
  | receive commit dagStateGcRound updates =>
    exact receive_holds fastpath holds admitted.1 admitted.2 updates

end Steps

/-- In every run the commits received are those put out, in their order, followed by the
buffered ones; what has a leader three rounds below the last one is put out. -/
theorem outputs_precede_buffered {ctx : Context}
    (fastpath : ctx.protocolConfig.mysticetiFastpath = true) (skipGcedAcceptVotes : Bool)
    {sched : List FinalizerAction}
    (heeds : Heeds (step ctx) (Admits ctx) (start skipGcedAcceptVotes) sched) :
    ∃ node, run (step ctx) (start skipGcedAcceptVotes) sched = some node ∧
      ∃ gone, node.received = gone ++ node.finalizer.commits ∧
        List.Forall₂ CommitFinalizer.Finalizes node.outputs gone ∧
        (∀ commit ∈ node.received,
          commit.leader.round + 3 ≤ lastLeaderRound node.received → commit ∈ gone) ∧
        node.finalizer.commits.length ≤ 3 := by
  obtain ⟨node, ran, holds⟩ := progress (step_holds fastpath) (start_holds skipGcedAcceptVotes)
    heeds
  obtain ⟨gone, split, finalizes, -⟩ := holds.emitted
  refine ⟨node, ran, gone, split, finalizes, fun commit recv old => ?_, ?_⟩
  · rw [split] at recv
    rcases mem_append.mp recv with output | kept
    · exact output
    · have recent := holds.recent commit kept
      lia
  · refine @Rising.length_le _ holds.buffered.consecutive.rising (lastLeaderRound node.received)
      fun commit kept => ⟨holds.recent commit kept, ?_⟩
    apply Rising.le_last holds.consecutive.rising
    rw [split]
    exact mem_append_right gone kept

section Testing

instance (ctx : Context) (node : FinalizerNode) (commit : CommittedSubDag) :
    Decidable (node.Follows ctx commit) :=
  decidable_of_iff
    (commit.recoveredRejectedTransactions = false ∧
      (∀ last ∈ node.received.getLast?, commit.commitRef.index = last.commitRef.index + 1) ∧
      (∀ last ∈ node.received.getLast?, last.leader.round < commit.leader.round) ∧
      (∃ blk ∈ commit.blocks, blk.reference = commit.leader) ∧
      (∀ blk ∈ commit.blocks, calculateGcRound ctx (lastLeaderRound node.received) < blk.round) ∧
      (∀ prev ∈ node.received, ∀ other ∈ prev.blocks, ∀ blk ∈ commit.blocks,
        other.reference ≠ blk.reference) ∧
      (∀ blk ∈ commit.blocks, verifyBlock ctx blk.block = .ok ()) ∧
      ∀ blk ∈ commit.blocks, blk ∈ node.added)
    ⟨fun ⟨unfinalized, idx, newer, leader, above, fresh, verified, added⟩ =>
      ⟨unfinalized, idx, newer, leader, above, fresh, verified, added⟩,
    fun follows => ⟨follows.unfinalized, follows.index, follows.newer, follows.leader,
      follows.above, follows.fresh, follows.verified, follows.added⟩⟩

instance (ctx : Context) (node : FinalizerNode) :
    (act : FinalizerAction) → Decidable (node.Admits ctx act)
  | .update _ => inferInstanceAs (Decidable True)
  | .receive commit dagStateGcRound _ => inferInstanceAs (Decidable (node.Follows ctx commit ∧
      calculateGcRound ctx commit.leader.round ≤ dagStateGcRound))

def fourRounds : List VerifiedBlock :=
  [1, 2, 3, 4].flatMap fun round =>
    [testBlock round 0 [0, 1, 2, 3], testBlock round 1 [1, 0, 2, 3], testBlock round 2 [2, 0, 1, 3],
      testBlock round 3 [3, 0, 1, 2]]

def remoteCommit (idx : CommitIndex) (leader : BlockRef)
    (positions : List (Round × AuthorityIndex)) : CommittedSubDag :=
  { CommittedSubDag.new leader
      (fourRounds.filter fun blk => (blk.round, blk.author) ∈ positions) 0
      ⟨idx, idx⟩ with decidedWithLocalBlocks := false }

def fourCommits : List FinalizerAction :=
  [.update (.addVotedBlocks (fourRounds.map fun blk => (blk, []))),
    .receive (remoteCommit 1 (testRef 1 0) [(1, 0)]) 0 [],
    .receive (remoteCommit 2 (testRef 2 1) [(1, 1), (1, 2), (1, 3), (2, 1)]) 0 [],
    .receive (remoteCommit 3 (testRef 3 2) [(2, 0), (2, 2), (2, 3), (3, 2)]) 0 [],
    .receive (remoteCommit 4 (testRef 4 3) [(3, 0), (3, 1), (3, 3), (4, 3)]) 0 []]

/-- The first three commits are buffered until the fourth, a wave later, lets the first go. -/
theorem outputs_precede_buffered_four :
    (∃ node, run (step (Context.newForTest firstAuthority)) (start true)
      (fourCommits.take 4) = some node ∧ node.outputs = []) ∧
    (∃ node, run (step (Context.newForTest firstAuthority)) (start true) fourCommits = some node ∧
      node.outputs.map CommittedSubDag.leader = [testRef 1 0]) ∧
    ∃ node, run (step (Context.newForTest firstAuthority)) (start true) fourCommits = some node ∧
      ∃ gone, node.received = gone ++ node.finalizer.commits ∧
        List.Forall₂ CommitFinalizer.Finalizes node.outputs gone ∧
        (∀ commit ∈ node.received,
          commit.leader.round + 3 ≤ lastLeaderRound node.received → commit ∈ gone) ∧
        node.finalizer.commits.length ≤ 3 :=
  ⟨@exists_reached _ _ (step (Context.newForTest firstAuthority)) (start true)
      (fourCommits.take 4) (fun node => node.outputs = []) _ (by decide +kernel),
    @exists_reached _ _ (step (Context.newForTest firstAuthority)) (start true) fourCommits
      (fun node => node.outputs.map CommittedSubDag.leader = [testRef 1 0]) _
      (by decide +kernel),
    outputs_precede_buffered rfl true
      (heeds_of_checks (fun _ _ => of_decide_eq_true) (by decide +kernel))⟩

end Testing

end FinalizerNode

end Mysticeti

import Mysticeti.CertifierTally
import Mysticeti.CommitFinalizer

/-!
# Certified and rejected transactions

The certifier of a node lives from one restart to the next. Blocks recovered from the store
are added without an output, then blocks are received and proposed in any order, and the
finalizer collects the entries up to the round that follows from the last commit it sent on;
commits are sent on in the order of their leaders' rounds.

A transaction that a certified block does not list as rejected has a quorum of accepting
blocks in the next round. A correct authority that has such a block had its only occasion to
reject the transaction there, so that no other node counts a quorum against it.
-/

namespace Mysticeti

open List Option Lib.Machine Lib.Quorum

namespace BlockUniverse

variable {ctx : Context} (blocks : BlockUniverse ctx)

/-- The target is in the causal history of the block. -/
def Includes (blk : VerifiedBlock) (target : BlockRef) : Prop :=
  target ∈ blk.ancestors ∨ ∃ holder, blocks.Below blk holder ∧ target ∈ holder.ancestors

/-- A correct authority rejects transactions of a block only in the first of its own blocks
that include the block. -/
def RejectsFirst : Prop :=
  ∀ blk ∈ blocks.members, blk.author ∉ blocks.faulty → ∀ target idx,
    blk.Rejects target idx → blocks.Includes blk target ∧
      ∀ prev ∈ blocks.members, prev.author = blk.author →
        prev.round < blk.round → ¬ blocks.Includes prev target

variable {blocks}

lemma Below.member_round_lt {later prev : VerifiedBlock} (mem : later ∈ blocks.members)
    (below : blocks.Below later prev) :
    prev ∈ blocks.members ∧ prev.round < later.round := by
  induction below with
  | single link =>
    obtain ⟨inside, here⟩ := link
    exact ⟨inside, (blocks.valid later mem).ancestorRound _ here⟩
  | tail _ link ih =>
    obtain ⟨mid, above⟩ := ih
    obtain ⟨inside, here⟩ := link
    exact ⟨inside, Nat.lt_trans ((blocks.valid _ mid).ancestorRound _ here) above⟩

lemma Includes.round_lt {blk : VerifiedBlock} {target : BlockRef}
    (mem : blk ∈ blocks.members) (includes : blocks.Includes blk target) :
    target.round < blk.round := by
  rcases includes with here | ⟨holder, below, here⟩
  · exact (blocks.valid blk mem).ancestorRound target here
  · obtain ⟨inside, above⟩ := below.member_round_lt mem
    exact Nat.lt_trans ((blocks.valid holder inside).ancestorRound target here) above

lemma rejectsFirst_of_parents
    (parents : ∀ blk ∈ blocks.members, ∀ votes ∈ blk.block.inner.transactionVotes,
      votes.blockRef ∈ blk.ancestors ∧ votes.blockRef.round + 1 = blk.round) :
    blocks.RejectsFirst := by
  rintro blk mem - target idx ⟨votes, cast, rfl, -⟩
  obtain ⟨linked, next⟩ := parents blk mem votes cast
  refine ⟨.inl linked, fun prev inside own pre includes => ?_⟩
  have above := includes.round_lt inside
  lia

/-- A block of the next round that links to the target is the only block of a correct
authority that may reject transactions of the target. -/
lemma RejectsFirst.only_next (first : blocks.RejectsFirst) {voting rejecting : VerifiedBlock}
    (mem : voting ∈ blocks.members) (inside : rejecting ∈ blocks.members)
    (correct : voting.author ∉ blocks.faulty) (own : rejecting.author = voting.author)
    {target : BlockRef} (next : voting.round = target.round + 1)
    (linked : target ∈ voting.ancestors) {idx : TransactionIndex}
    (rejects : rejecting.Rejects target idx) : voting = rejecting := by
  obtain ⟨includes, earliest⟩ := first rejecting inside (own ▸ correct) target idx rejects
  have above := includes.round_lt inside
  have notLater : ¬ voting.round < rejecting.round := fun pre =>
    earliest voting mem own.symm pre (.inl linked)
  have sameRound : voting.round = rejecting.round := by lia
  apply blocks.unequivocal voting mem rejecting inside correct
  rw [VerifiedBlock.slot, VerifiedBlock.slot, sameRound, own]

lemma Certified.not_rejected (first : blocks.RejectsFirst) {certified : CertifiedBlock}
    (holds : blocks.Certified certified) {idx : TransactionIndex}
    (unlisted : idx ∉ certified.rejected) {agg : StakeAggregator}
    (backed : agg.Backed ctx.committee fun author =>
      ∃ voting ∈ blocks.members, voting.author = author ∧
        voting.Rejects certified.block.reference idx) :
    agg.reachedThreshold ctx.committee = false := by
  by_contra final
  obtain ⟨accepting, quorum, eachAccepts⟩ := holds.accepted idx unlisted
  obtain ⟨rejecting, counts, eachRejects⟩ := backed
  have against : ctx.committee.quorumThreshold ≤ weigh ctx.committee.stake rejecting := by
    rw [← counts.total]
    simpa [StakeAggregator.reachedThreshold, Committee.reachedQuorum] using final
  have acceptingInside : accepting ⊆ ctx.committee.everyone := by
    intro author mem
    obtain ⟨voting, inside, rfl, -⟩ := eachAccepts author mem
    exact Finset.mem_range.mpr (blocks.valid voting inside).author
  have rejectingInside : rejecting ⊆ ctx.committee.everyone := by
    intro author mem
    obtain ⟨voting, inside, rfl, -⟩ := eachRejects author mem
    exact Finset.mem_range.mpr (blocks.valid voting inside).author
  obtain ⟨author, accepts, rejects, correct⟩ := ctx.committee.quorums_share_correct
    acceptingInside rejectingInside quorum against blocks.tolerated
  obtain ⟨voting, mem, rfl, next, linked, silent⟩ := eachAccepts author accepts
  obtain ⟨other, inside, own, voted⟩ := eachRejects _ rejects
  obtain rfl := first.only_next mem inside correct own next linked voted
  exact silent voted

end BlockUniverse

structure CertifierNode where
  certifier : CertifierState
  /-- The leader round of the last commit that was finalized. -/
  finalizedRound : Round
  outputs : List CertifiedBlock

inductive CertifierAction where
  | recoverAndVoteOnBlocks (votedBlocks : List (VerifiedBlock × List TransactionIndex))
  | addVotedBlocks (votedBlocks : List (VerifiedBlock × List TransactionIndex))
  | addProposedBlock (proposedBlock : VerifiedBlock)
  | runGc (lastFinalizedCommitRound dagStateGcRound : Round)
  | restart

def CertifierAction.Within {ctx : Context} (blocks : BlockUniverse ctx) : CertifierAction → Prop
  | .recoverAndVoteOnBlocks votedBlocks | .addVotedBlocks votedBlocks =>
    ∀ voted ∈ votedBlocks, voted.1 ∈ blocks.members
  | .addProposedBlock _ | .runGc _ _ | .restart => True

namespace CertifierNode

def start : CertifierNode := ⟨.new, GENESIS_ROUND, []⟩

/-- Certified blocks are not sent during recovery. Commits are finalized in the order of their
leaders' rounds, and collection above the round of the DAG state stops the node. -/
def step (ctx : Context) (node : CertifierNode) : CertifierAction → Option CertifierNode
  | .recoverAndVoteOnBlocks votedBlocks =>
    some { node with certifier := (node.certifier.addVotedBlocks ctx.committee votedBlocks).1 }
  | .addVotedBlocks votedBlocks =>
    let (certifier, certifiedBlocks) := node.certifier.addVotedBlocks ctx.committee votedBlocks
    some { node with certifier, outputs := node.outputs ++ certifiedBlocks }
  | .addProposedBlock proposedBlock =>
    let (certifier, certifiedBlocks) := node.certifier.addProposedBlock ctx.committee proposedBlock
    some { node with certifier, outputs := node.outputs ++ certifiedBlocks }
  | .runGc lastFinalizedCommitRound dagStateGcRound =>
    let gcRound := calculateGcRound ctx lastFinalizedCommitRound
    if lastFinalizedCommitRound < node.finalizedRound ∨ dagStateGcRound < gcRound then none
    else some { node with
      certifier := node.certifier.updateGcRound gcRound
      finalizedRound := lastFinalizedCommitRound }
  | .restart => some start

/-- All that the certifier of a node ever certified is accounted for, sent or not. -/
structure Sound {ctx : Context} (blocks : BlockUniverse ctx) (node : CertifierNode) :
    Prop where
  collected : node.certifier.gcRound = calculateGcRound ctx node.finalizedRound
  tallied : ∃ issued, Tally blocks [] issued node.certifier ∧ node.outputs.Sublist issued

section Run

variable {ctx : Context} {blocks : BlockUniverse ctx}

lemma start_sound : start.Sound blocks where
  collected := (Nat.zero_sub _).symm
  tallied := ⟨[], .new, .slnil⟩

lemma step_sound (node : CertifierNode) (act : CertifierAction) (next : CertifierNode)
    (sound : node.Sound blocks) (within : act.Within blocks)
    (taken : step ctx node act = some next) : next.Sound blocks := by
  obtain ⟨collected, issued, tally, sent⟩ := sound
  cases act with
  | recoverAndVoteOnBlocks votedBlocks =>
    obtain rfl := some.inj taken
    obtain ⟨grows, -⟩ := @CertifierState.addVotedBlocks_learns ctx.committee node.certifier
      votedBlocks
    exact ⟨grows.gcRound.trans collected, _, tally.addVotedBlocks within,
      sent.trans (sublist_append_left _ _)⟩
  | addVotedBlocks votedBlocks =>
    obtain rfl := some.inj taken
    obtain ⟨grows, -⟩ := @CertifierState.addVotedBlocks_learns ctx.committee node.certifier
      votedBlocks
    exact ⟨grows.gcRound.trans collected, _, tally.addVotedBlocks within, sent.append (.refl _)⟩
  | addProposedBlock proposedBlock =>
    obtain rfl := some.inj taken
    have grows := @CertifierState.addProposedBlock_grows ctx.committee node.certifier
      proposedBlock
    exact ⟨grows.gcRound.trans collected, _, tally.addProposedBlock proposedBlock,
      sent.append (.refl _)⟩
  | runGc lastRound dagStateGcRound =>
    simp only [step, ite_none_left_eq_some, not_or, Nat.not_lt] at taken
    obtain ⟨⟨ordered, -⟩, taken⟩ := taken
    obtain rfl := some.inj taken
    have later : node.certifier.gcRound ≤ calculateGcRound ctx lastRound := by
      rw [collected]
      exact Nat.sub_le_sub_right ordered _
    exact ⟨rfl, issued, tally.updateGcRound later, sent⟩
  | restart =>
    obtain rfl := some.inj taken
    exact start_sound

lemma run_sound {sched : List CertifierAction} {node : CertifierNode}
    (within : ∀ act ∈ sched, act.Within blocks)
    (ran : run (step ctx) start sched = some node) : node.Sound blocks :=
  invariant step_sound start_sound (heeds_of_forall within) ran

/-- If a node sends a certified block with a transaction that is not listed as rejected, then
no node, at any time, counts a quorum against the transaction; and no block is sent twice
between restarts. The context stands for what all nodes share: the committee and the protocol
values. -/
theorem certified_excludes_rejected (first : blocks.RejectsFirst)
    {sched peerSchedule : List CertifierAction} {node peer : CertifierNode}
    (within : ∀ act ∈ sched, act.Within blocks)
    (peerWithin : ∀ act ∈ peerSchedule, act.Within blocks)
    (ran : run (step ctx) start sched = some node)
    (peerRan : run (step ctx) start peerSchedule = some peer) :
    (∀ certified ∈ node.outputs, ∀ idx ∉ certified.rejected,
      ((peer.certifier.info certified.block.reference).against idx).reachedThreshold
        ctx.committee = false) ∧
    (node.outputs.map fun output => output.block.reference).Nodup := by
  obtain ⟨-, issued, tally, sent⟩ := run_sound within ran
  obtain ⟨-, peerIssued, peerTally, -⟩ := run_sound peerWithin peerRan
  refine ⟨?_, tally.once.sublist (sent.map _)⟩
  intro certified output idx unlisted
  exact (tally.certified certified (sent.subset output)).not_rejected first unlisted
    ((peerTally.info_sound certified.block.reference).rejected idx)

end Run

section Testing

def oneRejects : List VerifiedBlock :=
  let parents : List (List AuthorityIndex) :=
    [[0, 1, 2, 3], [1, 0, 2, 3], [2, 0, 1, 3], [3, 0, 1, 2]]
  (parents.map fun authors => votingBlock 1 (authors.headD 0) (authors.map (testRef 0))
    (if authors.headD 0 = 0 then [⟨[7]⟩] else []) []) ++
  (parents.map fun authors => votingBlock 2 (authors.headD 0) (authors.map (testRef 1)) []
    (if authors.headD 0 = 1 then [⟨testRef 1 0, [0]⟩] else [])) ++
  parents.map fun authors => votingBlock 3 (authors.headD 0) (authors.map (testRef 2)) [] []

def certifying : BlockUniverse (Context.newForTest firstAuthority) :=
  BlockUniverse.ofList {3} oneRejects (by decide +kernel) (by decide +kernel) (by decide +kernel)
    (by decide +kernel) (by decide +kernel)

/-- The first authority certifies the four blocks of round 1, its own one in spite of the vote
against its transaction; a node that receives the blocks in another order counts the vote. -/
theorem certified_excludes_rejected_one : ∃ node peer,
    run (step (Context.newForTest firstAuthority)) start
      [.addVotedBlocks (oneRejects.map fun blk => (blk, [])),
        .addProposedBlock (testBlock 3 0 [0, 1, 2, 3]), .runGc 2 0,
        .addVotedBlocks (oneRejects.map fun blk => (blk, []))] = some node ∧
    run (step (Context.newForTest firstAuthority)) start
      [.recoverAndVoteOnBlocks (oneRejects.reverse.map fun blk => (blk, []))] = some peer ∧
    node.outputs.map (fun output => (output.block.author, output.rejected)) =
      [(2, []), (1, []), (3, []), (0, [])] ∧
    ((peer.certifier.info (testRef 1 0)).against 0).stake = 1 ∧
    (∀ certified ∈ node.outputs, ∀ idx ∉ certified.rejected,
      ((peer.certifier.info certified.block.reference).against idx).reachedThreshold
        (Context.newForTest firstAuthority).committee = false) ∧
    (node.outputs.map fun output => output.block.reference).Nodup := by
  obtain ⟨node, ran, outputs⟩ := @exists_reached _ _ (step (Context.newForTest firstAuthority))
    start
    [.addVotedBlocks (oneRejects.map fun blk => (blk, [])),
      .addProposedBlock (testBlock 3 0 [0, 1, 2, 3]), .runGc 2 0,
      .addVotedBlocks (oneRejects.map fun blk => (blk, []))]
    (fun node => node.outputs.map (fun output => (output.block.author, output.rejected)) =
      [(2, []), (1, []), (3, []), (0, [])]) _ (by decide +kernel)
  obtain ⟨peer, peerRan, counted⟩ := @exists_reached _ _
    (step (Context.newForTest firstAuthority)) start
    [.recoverAndVoteOnBlocks (oneRejects.reverse.map fun blk => (blk, []))]
    (fun peer => ((peer.certifier.info (testRef 1 0)).against 0).stake = 1) _ (by decide +kernel)
  have first : certifying.RejectsFirst := by
    apply BlockUniverse.rejectsFirst_of_parents
    change ∀ blk ∈ oneRejects, _
    decide +kernel
  have inside : ∀ voted ∈ oneRejects.map (fun blk => (blk, ([] : List TransactionIndex))),
      voted.1 ∈ oneRejects := by decide +kernel
  have reversed : ∀ voted ∈ oneRejects.reverse.map
      (fun blk => (blk, ([] : List TransactionIndex))), voted.1 ∈ oneRejects := by
    decide +kernel
  refine ⟨node, peer, ran, peerRan, outputs, counted,
    certified_excludes_rejected first ?_ ?_ ran peerRan⟩
  · simp only [forall_mem_cons, not_mem_nil, false_implies, implies_true, and_true,
      CertifierAction.Within]
    exact ⟨inside, trivial, trivial, inside⟩
  · simp only [forall_mem_cons, not_mem_nil, false_implies, implies_true, and_true,
      CertifierAction.Within]
    exact reversed

end Testing

end CertifierNode

end Mysticeti

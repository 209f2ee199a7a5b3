import Mysticeti.CommitFrame
import Mysticeti.Commits

/-!
# Linearization in two views of one DAG

Two nodes that committed the same prefix and both hold a leader with its history may
still hold different other blocks. The traversal of the history is the same in both, but
linearization also sweeps in every cached uncommitted block of the leader's round. So the
two commits are equal exactly when the two nodes cache the same uncommitted blocks of
that round.
-/

namespace Mysticeti

open Lib.Outcome Lib.OrderedMap Lib.Worklist DagState Std

namespace Linearizer

variable {ctx : Context}

/-- Two states with the same last commit that hold the same leader with its history and
agree on the flags of what both hold. References identify blocks: two states hold the same
block under one reference. -/
structure SameView (ctx : Context) (left right : DagState) (leader : VerifiedBlock) :
    Prop where
  leftWellFormed : left.WellFormed ctx
  rightWellFormed : right.WellFormed ctx
  sameIndex : left.lastCommitIndex = right.lastCommitIndex
  sameDigest : left.lastCommitDigest = right.lastCommitDigest
  sameTimestamp : left.lastCommitTimestampMs = right.lastCommitTimestampMs
  sameRound : left.lastCommitRound = right.lastCommitRound
  sameBlocks : ∀ ref, ref ∈ left.recentBlocks → ref ∈ right.recentBlocks →
    left.blockAt ref = right.blockAt ref
  sameFlags : ∀ ref, left.gcRound ctx < ref.round →
    ref ∈ left.recentBlocks → ref ∈ right.recentBlocks →
    (left.Committed ref ↔ right.Committed ref)
  leftLeader : left.blockAt leader.reference = leader
  rightLeader : right.blockAt leader.reference = leader
  leftHistory : left.ContainsHistory ctx leader.reference
  rightHistory : right.ContainsHistory ctx leader.reference

namespace SameView

variable {left right : DagState} {leader : VerifiedBlock}

variable (view : SameView ctx left right leader)

include view

lemma symm : SameView ctx right left leader where
  leftWellFormed := view.rightWellFormed
  rightWellFormed := view.leftWellFormed
  sameIndex := view.sameIndex.symm
  sameDigest := view.sameDigest.symm
  sameTimestamp := view.sameTimestamp.symm
  sameRound := view.sameRound.symm
  sameBlocks := fun ref right left => (view.sameBlocks ref left right).symm
  sameFlags := fun ref above right left => by
    rw [gcRound, ← view.sameRound] at above
    exact (view.sameFlags ref above left right).symm
  leftLeader := view.rightLeader
  rightLeader := view.leftLeader
  leftHistory := view.rightHistory
  rightHistory := view.leftHistory

lemma sameGcRound : left.gcRound ctx = right.gcRound ctx := by
  rw [gcRound, gcRound, view.sameRound]

lemma leaderCached : leader.reference ∈ left.recentBlocks :=
  view.leftHistory _ (Reached.root (by simp))

lemma uncommitted_iff {ref : BlockRef} (above : left.gcRound ctx < ref.round)
    (inLeft : ref ∈ left.recentBlocks) (inRight : ref ∈ right.recentBlocks) :
    left.Uncommitted ref ↔ right.Uncommitted ref := by
  have same := view.sameFlags ref above inLeft inRight
  constructor
  · exact fun unset => uncommitted_of_not_committed inRight fun set =>
      unset.not_committed (same.mpr set)
  · exact fun unset => uncommitted_of_not_committed inLeft fun set =>
      unset.not_committed (same.mp set)

lemma committable (fresh : left.Uncommitted leader.reference)
    (newer : left.lastCommitRound < leader.round) : Committable ctx left leader where
  wellFormed := view.leftWellFormed
  uncommitted := fresh
  held := view.leftLeader
  newer := newer
  history := view.leftHistory.historyCached

lemma sameLinks {ref : BlockRef} (inLeft : ref ∈ left.recentBlocks)
    (inRight : ref ∈ right.recentBlocks) : left.links ref = right.links ref := by
  rw [links_eq_ancestors inLeft, links_eq_ancestors inRight, view.sameBlocks ref inLeft inRight]

lemma sameVisits (fuel : Nat) :
    drain left.links fuel [leader.reference] (offLimits ctx left leader.round) =
      drain right.links fuel [leader.reference] (offLimits ctx right leader.round) := by
  let old : Set BlockRef := {ref | ref.round ≤ left.gcRound ctx}
  have sameOld : old = {ref | ref.round ≤ right.gcRound ctx} := by simp only [old, view.sameGcRound]
  refine drain_congr (fun node => Reached left.links old [leader.reference] node ∧
    Reached right.links old [leader.reference] node) ?_ ?_ ?_ ?_
  · intro node mem
    exact ⟨Reached.root mem, Reached.root mem⟩
  · rintro node ⟨inLeft, inRight⟩
    exact view.sameLinks (view.leftHistory node inLeft) (view.rightHistory node (sameOld ▸ inRight))
  all_goals
    rintro node ⟨inLeft, inRight⟩ child linked
    have linkedRight : child ∈ right.links node :=
      view.sameLinks (view.leftHistory node inLeft) (view.rightHistory node (sameOld ▸ inRight)) ▸
        linked
  · by_cases young : child ∈ old
    · have youngRight : child.round ≤ right.gcRound ctx := view.sameGcRound ▸ young
      exact ⟨fun _ => .inl (.inl youngRight), fun _ => .inl (.inl young)⟩
    · have notRight : ¬ child.round ≤ right.gcRound ctx := view.sameGcRound ▸ young
      have same := view.sameFlags child (Nat.lt_of_not_le young)
        (view.leftHistory child (inLeft.next linked young))
        (view.rightHistory child (sameOld ▸ inRight.next linkedRight young))
      have notLeft : ¬ child.round ≤ left.gcRound ctx := young
      simp only [offLimits, barred, Set.mem_union, Set.mem_ofPred_eq, notLeft, notRight, false_or,
        same]
  · intro entered
    have young : child ∉ old := fun isOld => entered (.inl (.inl isOld))
    exact ⟨inLeft.next linked young, inRight.next linkedRight young⟩

lemma parentCached {parent : BlockRef} (above : left.gcRound ctx < parent.round)
    (mem : parent ∈ leader.ancestors) : parent ∈ left.recentBlocks := by
  have linked : parent ∈ left.links leader.reference := by
    rw [links_eq_ancestors view.leaderCached, view.leftLeader]
    exact mem
  have rootReached : Reached left.links {old | old.round ≤ left.gcRound ctx}
      [leader.reference] leader.reference := Reached.root (by simp)
  exact view.leftHistory parent (rootReached.next linked (Nat.not_le_of_lt above))

lemma sameParents (newer : left.lastCommitRound < leader.round) {parent : BlockRef}
    (mem : parent ∈ leader.ancestors) (previous : parent.round = leader.round - 1) :
    left.getBlock ctx parent = right.getBlock ctx parent := by
  by_cases genesis : parent.round = GENESIS_ROUND
  · rw [getBlock, getBlock, if_pos genesis, if_pos genesis]
  · have above : left.gcRound ctx < parent.round := by
      have pos : parent.round ≠ 0 := genesis
      have depth := ctx.protocolConfig.gcDepth_pos
      unfold gcRound
      lia
    have inLeft := view.parentCached above mem
    have inRight := view.symm.parentCached (view.sameGcRound ▸ above) mem
    rw [view.leftWellFormed.getBlock_eq inLeft, view.rightWellFormed.getBlock_eq inRight,
      view.sameBlocks parent inLeft inRight]

lemma sameBlocksCollected {siblings seen others visits : List BlockRef}
    {afterLeft afterRight : DagState} (leftCommittable : Committable ctx left leader)
    (rightCommittable : Committable ctx right leader)
    (leftRun : Linearized ctx left leader siblings seen afterLeft)
    (rightRun : Linearized ctx right leader others visits afterRight)
    (sameSiblings : ∀ ref : BlockRef, ref.round = leader.round →
      (left.Uncommitted ref ↔ right.Uncommitted ref)) :
    (siblings ++ seen).map left.blockAt = (others ++ visits).map right.blockAt := by
  have siblingsEq : siblings = others := by
    refine eq_of_increasing id leftRun.increasing rightRun.increasing fun ref => ?_
    rw [leftRun.sibling, rightRun.sibling]
    by_cases inRound : ref.round = leader.round
    · rw [sameSiblings ref inRound]
    · simp [inRound]
  have visitedEq : seen = visits := by
    have fromLeft := drain_mono leftRun.visits (Nat.le_max_left _ (right.recentBlocks.size + 1))
    have fromRight := drain_mono rightRun.visits (Nat.le_max_right (left.recentBlocks.size + 1) _)
    rw [view.sameVisits, fromRight] at fromLeft
    exact (Option.some.inj fromLeft).symm
  subst siblingsEq visitedEq
  refine List.map_congr_left fun ref mem => ?_
  exact view.sameBlocks ref (leftRun.uncommitted leftCommittable mem).cached
    (rightRun.uncommitted rightCommittable mem).cached

end SameView

lemma mem_nextCommit_iff {st post : DagState} {leader : VerifiedBlock}
    {siblings seen : List BlockRef} {timestampMs : BlockTimestampMs}
    (committable : Committable ctx st leader)
    (lined : Linearized ctx st leader siblings seen post)
    {ref : BlockRef} (inRound : ref.round = leader.round) :
    ref ∈ (nextCommit ctx st leader timestampMs
      (sortSubDagBlocks ((siblings ++ seen).map st.blockAt))).blocks ↔
      st.Uncommitted ref := by
  have here : ref ∈ (nextCommit ctx st leader timestampMs
      (sortSubDagBlocks ((siblings ++ seen).map st.blockAt))).blocks ↔
      ref ∈ siblings ++ seen := (lined.references_perm committable).mem_iff
  rw [here]
  constructor
  · exact lined.uncommitted committable
  · intro fresh
    by_cases isLeader : ref = leader.reference
    · rw [isLeader]
      exact List.mem_append_right _ lined.leader_visited
    · exact List.mem_append_left _ ((lined.sibling ref).mpr
        ⟨fresh, inRound, isLeader⟩)

/-- Two nodes with the same view of a leader produce the same commit for it exactly when
the leader is uncommitted and above the last commit and both cache the same uncommitted
blocks of the leader's round. -/
theorem collectSubDagAndCommit_agrees_iff {left right : DagState} {leader : VerifiedBlock}
    (view : SameView ctx left right leader) :
    (∃ leftDag rightDag commit leftAfter rightAfter,
      collectSubDagAndCommit ctx left leader = .ok (leftDag, commit, leftAfter) ∧
      collectSubDagAndCommit ctx right leader = .ok (rightDag, commit, rightAfter)) ↔
    left.Uncommitted leader.reference ∧ left.lastCommitRound < leader.round ∧
      ∀ ref : BlockRef, ref.round = leader.round →
        (left.Uncommitted ref ↔ right.Uncommitted ref) := by
  constructor
  · rintro ⟨leftDag, rightDag, commit, leftAfter, rightAfter, leftRun, rightRun⟩
    obtain ⟨⟨blocks, lined⟩, ret, -⟩ := bind_eq_ok.mp leftRun
    obtain ⟨fresh, newer⟩ := newer_of_linearizeSubDag ret
    refine ⟨fresh, newer, ?_⟩
    have above := (view.committable fresh newer).above
    have leftCommittable := view.committable fresh newer
    have rightCommittable := view.symm.committable
      ((view.uncommitted_iff above view.leaderCached view.symm.leaderCached).mp fresh)
      (view.sameRound ▸ newer)
    obtain ⟨siblings, seen, timestampMs, post, run, leftLinearized, -⟩ :=
      collectSubDagAndCommit_ok leftCommittable
    obtain ⟨others, visits, otherTimestamp, otherAfter, otherRun, rightLinearized, -⟩ :=
      collectSubDagAndCommit_ok rightCommittable
    rw [leftRun, Except.ok.injEq, Prod.mk.injEq, Prod.mk.injEq] at run
    rw [rightRun, Except.ok.injEq, Prod.mk.injEq, Prod.mk.injEq] at otherRun
    intro ref inRound
    rw [← mem_nextCommit_iff leftCommittable leftLinearized inRound, ← run.2.1,
      ← mem_nextCommit_iff rightCommittable rightLinearized inRound, ← otherRun.2.1]
  · rintro ⟨fresh, newer, sameSiblings⟩
    have leftCommittable := view.committable fresh newer
    have rightCommittable := view.symm.committable
      ((sameSiblings leader.reference rfl).mp fresh) (view.sameRound ▸ newer)
    obtain ⟨siblings, seen, timestampMs, post, run, leftLinearized, leftTime, -⟩ :=
      collectSubDagAndCommit_ok leftCommittable
    obtain ⟨others, visits, otherTimestamp, otherAfter, otherRun, rightLinearized, rightTime, -⟩ :=
      collectSubDagAndCommit_ok rightCommittable
    have sameCollected := view.sameBlocksCollected leftCommittable rightCommittable leftLinearized
      rightLinearized sameSiblings
    have sameTime : timestampMs = otherTimestamp := by
      rw [calculateCommitTimestamp_congr fun parent mem previous =>
        view.sameParents newer mem previous, view.sameTimestamp, rightTime] at leftTime
      exact (Except.ok.inj leftTime).symm
    have sameCommit : nextCommit ctx left leader timestampMs
        (sortSubDagBlocks ((siblings ++ seen).map left.blockAt)) =
        nextCommit ctx right leader otherTimestamp
          (sortSubDagBlocks ((others ++ visits).map right.blockAt)) := by
      rw [nextCommit, nextCommit, view.sameIndex, view.sameDigest, sameTime, sameCollected]
    rw [← sameCommit] at otherRun
    exact ⟨_, _, _, post, otherAfter, run, otherRun⟩

section Forking

def siblingBlock : VerifiedBlock := testBlock 1 3 [3, 0, 1]

def laterBlock : VerifiedBlock :=
  TestBlock.build 3 3 3 [testRef 0 3, testRef 2 0, testRef 2 1, testRef 2 2]

/-- A node that received one more block, of the leader's round or above it, has the same
view of the leader as one that did not. -/
lemma sameView_received {recv : VerifiedBlock}
    (known : recv = siblingBlock ∨ recv = laterBlock) :
    SameView (Context.newForTest 0) (testState 0 threeRounds)
      (testState 0 (threeRounds ++ [recv])) (testBlock 1 0 [0, 1, 2]) := by
  have verified : ∀ blk ∈ threeRounds ++ [recv],
      verifyBlock (Context.newForTest 0) blk.block = .ok () := by
    rcases known with rfl | rfl <;> decide +kernel
  have shared : ∀ ref ∈ (testState 0 threeRounds).recentBlocks.keys,
      (testState 0 threeRounds).blockAt ref =
        (testState 0 (threeRounds ++ [recv])).blockAt ref ∧
      ¬ (testState 0 threeRounds).Committed ref ∧
      ¬ (testState 0 (threeRounds ++ [recv])).Committed ref := by
    rcases known with rfl | rfl <;> decide +kernel
  have closed : (testState 0 threeRounds).CausallyClosed (Context.newForTest 0) ∧
      (testState 0 (threeRounds ++ [recv])).CausallyClosed (Context.newForTest 0) := by
    rcases known with rfl | rfl <;> decide +kernel
  have cached : testRef 1 0 ∈ (testState 0 threeRounds).recentBlocks ∧
      testRef 1 0 ∈ (testState 0 (threeRounds ++ [recv])).recentBlocks := by
    rcases known with rfl | rfl <;> decide +kernel
  have fresh : (testState 0 threeRounds).lastCommit = none ∧
      (testState 0 (threeRounds ++ [recv])).lastCommit = none := by
    rcases known with rfl | rfl <;> decide +kernel
  have held : (testState 0 threeRounds).blockAt (testRef 1 0) = testBlock 1 0 [0, 1, 2] := by
    decide +kernel
  have above : ∀ st : DagState, st.lastCommit = none →
      st.gcRound (Context.newForTest 0) < (testRef 1 0).round := by
    intro st absent
    simp [gcRound, lastCommitRound, absent, testRef]
  exact
    { leftWellFormed := testState_wellFormed fun blk mem =>
        verified blk (List.mem_append_left _ mem)
      rightWellFormed := testState_wellFormed verified
      sameIndex := by rw [lastCommitIndex, lastCommitIndex, fresh.1, fresh.2]
      sameDigest := by rw [lastCommitDigest, lastCommitDigest, fresh.1, fresh.2]
      sameTimestamp := by
        rw [lastCommitTimestampMs, lastCommitTimestampMs, fresh.1, fresh.2]
      sameRound := by rw [lastCommitRound, lastCommitRound, fresh.1, fresh.2]
      sameBlocks := fun ref mem _ => (shared ref (ExtTreeMap.mem_keys.mpr mem)).1
      sameFlags := fun ref _ mem _ =>
        have unset := (shared ref (ExtTreeMap.mem_keys.mpr mem)).2
        ⟨fun committed => absurd committed unset.1, fun committed => absurd committed unset.2⟩
      leftLeader := held
      rightLeader := (shared (testRef 1 0) (ExtTreeMap.mem_keys.mpr cached.1)).1 ▸ held
      leftHistory := closed.1.containsHistory cached.1 (above _ fresh.1)
      rightHistory := closed.2.containsHistory cached.2 (above _ fresh.2) }

theorem collectSubDagAndCommit_agrees_later :
    ∃ leftDag rightDag commit leftAfter rightAfter,
      collectSubDagAndCommit (Context.newForTest 0) (testState 0 threeRounds)
        (testBlock 1 0 [0, 1, 2]) = .ok (leftDag, commit, leftAfter) ∧
      collectSubDagAndCommit (Context.newForTest 0)
        (testState 0 (threeRounds ++ [laterBlock])) (testBlock 1 0 [0, 1, 2]) =
          .ok (rightDag, commit, rightAfter) := by
  refine (collectSubDagAndCommit_agrees_iff (sameView_received (.inr rfl))).mpr
    ⟨by decide +kernel, by decide +kernel, fun ref inRound => ?_⟩
  have checked : ∀ ref ∈ (testState 0 (threeRounds ++ [laterBlock])).recentBlocks.keys,
      ref.round = 1 → ((testState 0 threeRounds).Uncommitted ref ↔
        (testState 0 (threeRounds ++ [laterBlock])).Uncommitted ref) := by
    decide +kernel
  have included : ∀ ref ∈ (testState 0 threeRounds).recentBlocks.keys,
      ref ∈ (testState 0 (threeRounds ++ [laterBlock])).recentBlocks.keys := by
    decide +kernel
  by_cases mem : ref ∈ (testState 0 (threeRounds ++ [laterBlock])).recentBlocks.keys
  · exact checked ref mem inRound
  · constructor <;> intro fresh
    · exact absurd (included _ (ExtTreeMap.mem_keys.mpr fresh.cached)) mem
    · exact absurd (ExtTreeMap.mem_keys.mpr fresh.cached) mem

/-- A block of the leader's round that only one of two nodes received makes them commit
different block lists for the same leader, although both hold the leader with its whole
history. -/
theorem collectSubDagAndCommit_forks :
    SameView (Context.newForTest 0) (testState 0 threeRounds)
      (testState 0 (threeRounds ++ [siblingBlock])) (testBlock 1 0 [0, 1, 2]) ∧
    (collectSubDagAndCommit (Context.newForTest 0) (testState 0 threeRounds)
      (testBlock 1 0 [0, 1, 2])).map (fun res => res.2.1.blocks) =
        .ok [testRef 1 0, testRef 1 1, testRef 1 2] ∧
    (collectSubDagAndCommit (Context.newForTest 0) (testState 0 (threeRounds ++ [siblingBlock]))
      (testBlock 1 0 [0, 1, 2])).map (fun res => res.2.1.blocks) =
        .ok [testRef 1 0, testRef 1 1, testRef 1 2, testRef 1 3] :=
  ⟨sameView_received (.inl rfl), by decide +kernel, by decide +kernel⟩

end Forking

end Linearizer

end Mysticeti

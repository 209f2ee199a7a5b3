import Mysticeti.BaseCommitter
import Mysticeti.CommitChain
import Mysticeti.Lib.StableSort

/-!
# Leaders of certified commits

A node that receives certified commits takes the last block of each for its leader, and
asserts that it is. The node that made the commit sorted its blocks by round and author. All
uncommitted blocks of the leader's round are swept into the commit, so the leader is the last
one only where no such block has a greater author.
-/

namespace Mysticeti

open List Lib.Outcome Lib.StableSort DagState

def Core.trySelectCertifiedLeaders (certified : List CertifiedCommit) (limit : Nat) :
    Except Panic (List (DecidedLeader × CertifiedCommit)) := do
  ensure (0 < limit) .limitNotPositive
  (certified.take limit).mapM fun commit => do
    let leader ← expect commit.blocks.getLast? .certifiedCommitEmpty
    ensure (leader.reference = commit.commit.leader)
      (.certifiedLeaderNotLast commit.commit.leader)
    pure (.commit leader false, commit)

variable {ctx : Context} {st post : DagState} {leader : VerifiedBlock}
  {siblings seen : List BlockRef} {subDag : CommittedSubDag} {commit : TrustedCommit}

lemma Core.trySelectCertifiedLeaders_singleton {certified : CertifiedCommit} {limit : Nat}
    (positive : 0 < limit) {last : VerifiedBlock} (isLast : certified.blocks.getLast? = some last) :
    Core.trySelectCertifiedLeaders [certified] limit =
      if last.reference = certified.commit.leader then
        .ok [(.commit last false, certified)]
      else .error (.certifiedLeaderNotLast certified.commit.leader) := by
  unfold Core.trySelectCertifiedLeaders
  rw [ensure_holds _ positive, ok_bind, take_of_length_le positive,
    mapM_cons, isLast, expect_some, ok_bind]
  by_cases same : last.reference = certified.commit.leader
  · rw [ensure_holds _ same, if_pos same]
    rfl
  · rw [ensure, if_neg same, if_neg same]
    rfl

namespace Linearizer

/-- No uncommitted block of the leader's round comes from a later authority. -/
def NoLaterSibling (st : DagState) (leader : VerifiedBlock) : Prop :=
  ∀ ref : BlockRef, st.Uncommitted ref → ref.round = leader.round → ref.author ≤ leader.author

lemma Linearized.getLast?_iff
    (lined : Linearized ctx st leader siblings seen post)
    (ready : Committable ctx st leader) :
    (sortSubDagBlocks ((siblings ++ seen).map st.blockAt)).getLast? = some leader ↔
      NoLaterSibling st leader := by
  have keyed : ∀ ref ∈ siblings ++ seen, (st.blockAt ref).reference = ref := fun ref mem =>
    ready.wellFormed.blockAt_reference (lined.uncommitted ready mem).cached
  have nodup := lined.distinct ready
  obtain ⟨front, rest, rfl⟩ := append_of_mem lined.leader_visited
  rw [← append_assoc] at nodup keyed ⊢
  -- what was visited besides the leader is below its round
  have lower : ∀ ref ∈ front ++ leader.reference :: rest, ref ≠ leader.reference →
      (st.blockAt ref).round < leader.round := by
    intro ref visit ne
    have mem : ref ∈ siblings ++ front ++ leader.reference :: rest := by
      rw [append_assoc]
      exact mem_append_right _ visit
    rw [← VerifiedBlock.reference_round, keyed ref mem]
    exact (lined.visited_round ready visit).resolve_left ne
  have frontLower : ∀ ref ∈ front, (st.blockAt ref).round < leader.round := by
    intro ref mem
    refine lower ref (mem_append_left _ mem) ?_
    rintro rfl
    exact (nodup_append.mp nodup).2.2 _ (mem_append_right _ mem) _
      mem_cons_self rfl
  have restLower : ∀ ref ∈ rest, (st.blockAt ref).round < leader.round := by
    intro ref mem
    refine lower ref (mem_append_right _ (mem_cons_of_mem _ mem)) ?_
    rintro rfl
    exact (nodup_cons.mp (nodup_append.mp nodup).2.1).1 mem
  rw [map_append, map_cons, ready.held, sortSubDagBlocks, getLast?_insertionSort_iff]
  · constructor
    · intro pre ref fresh sameRound
      by_cases isLeader : ref = leader.reference
      · rw [isLeader]
        exact Nat.le_refl _
      · have sibling := (lined.sibling ref).mpr ⟨fresh, sameRound, isLeader⟩
        have order := pre (st.blockAt ref)
          (List.mem_map_of_mem (mem_append_left _ sibling))
        have same := keyed ref (mem_append_left _ (mem_append_left _ sibling))
        unfold subDagOrder at order
        rw [← VerifiedBlock.reference_round, ← VerifiedBlock.reference_author, same] at order
        exact (order.resolve_left fun less => Nat.ne_of_lt less sameRound).2
    · intro none item mem
      obtain ⟨ref, here, rfl⟩ := List.mem_map.mp mem
      rcases mem_append.mp here with sibling | inFront
      · obtain ⟨fresh, sameRound, -⟩ := (lined.sibling ref).mp sibling
        refine .inr ?_
        rw [← VerifiedBlock.reference_round, ← VerifiedBlock.reference_author,
          keyed ref (mem_append_left _ here)]
        exact ⟨sameRound, none ref fresh sameRound⟩
      · exact .inl (frontLower ref inFront)
  · intro item mem
    obtain ⟨ref, here, rfl⟩ := List.mem_map.mp mem
    have below := restLower ref here
    unfold subDagOrder
    lia

/-- The commit of a leader ends with it, and a peer that fetches the commit gets past its
assertion, exactly when no uncommitted block of the leader's round comes from a later
authority. -/
theorem commit_ends_with_leader_iff (ready : Committable ctx st leader)
    (collected : List CommittedSubDag) :
    ∃ subDag commit post,
      commitLeader ctx (collected, st) leader = .ok (collected ++ [subDag], post) ∧
      post.lastCommit = some commit ∧ commit.leader = leader.reference ∧
      commit.blocks = subDag.blocks.map VerifiedBlock.reference ∧
      (subDag.blocks.getLast? = some leader ↔ NoLaterSibling st leader) ∧
      ∀ limit, 0 < limit →
        ((∃ selected, Core.trySelectCertifiedLeaders [⟨commit, subDag.blocks⟩] limit =
          .ok selected) ↔ NoLaterSibling st leader) := by
  obtain ⟨siblings, seen, subDag, commit, post, run, committing⟩ := commitLeader_ok ready
  obtain ⟨marked, rounds, lined, -, effect⟩ := committing.linearized
  obtain ⟨timestampMs, -, -, rfl, rfl⟩ := committing.timestamped
  have pos := lined.getLast?_iff ready
  refine ⟨_, _, post, run collected, by rw [effect], rfl, rfl, pos, fun limit positive => ?_⟩
  rw [← pos]
  have nonempty : sortSubDagBlocks ((siblings ++ seen).map st.blockAt) ≠ [] := by
    intro empty
    have here := List.mem_map_of_mem (f := st.blockAt)
      (mem_append_right siblings lined.leader_visited)
    rw [← (sortSubDagBlocks_perm _).mem_iff, empty] at here
    cases here
  obtain ⟨last, isLast⟩ : ∃ last, (sortSubDagBlocks
      ((siblings ++ seen).map st.blockAt)).getLast? = some last :=
    ⟨_, getLast?_eq_some_getLast nonempty⟩
  have isBlock : st.blockAt last.reference = last := by
    have here := (sortSubDagBlocks_perm _).mem_iff.mp (mem_of_getLast? isLast)
    obtain ⟨ref, mem, rfl⟩ := List.mem_map.mp here
    rw [ready.wellFormed.blockAt_reference
      (lined.uncommitted ready mem).cached]
  rw [Core.trySelectCertifiedLeaders_singleton positive isLast]
  show (∃ selected, (if last.reference = leader.reference then _ else _) = _) ↔ _
  by_cases same : last.reference = leader.reference
  · rw [if_pos same]
    rw [same, ready.held] at isBlock
    exact ⟨fun _ => isBlock ▸ isLast, fun _ => ⟨_, rfl⟩⟩
  · rw [if_neg same]
    constructor
    · rintro ⟨selected, impossible⟩
      cases impossible
    · intro wasLast
      rw [wasLast, Option.some.injEq] at isLast
      exact absurd (by rw [isLast]) same

theorem commit_ends_with_last_author :
    ∃ subDag commit post,
      commitLeader (Context.newForTest 0) ([], testState 0 threeRounds) (testBlock 1 2 [2, 0, 1]) =
        .ok ([subDag], post) ∧
      post.lastCommit = some commit ∧
      subDag.blocks.getLast? = some (testBlock 1 2 [2, 0, 1]) ∧
      ∃ selected, Core.trySelectCertifiedLeaders [⟨commit, subDag.blocks⟩] 1 = .ok selected := by
  have final : Ledger.Reached (Context.newForTest 0) (fun _ _ => True)
      ⟨testState 0 threeRounds, [], []⟩ :=
    Ledger.reached_testState (by decide +kernel) (by decide +kernel)
  have ready : Committable (Context.newForTest 0) (testState 0 threeRounds)
      (testBlock 1 2 [2, 0, 1]) :=
    (Ledger.sound_of_reached final).committable (by decide +kernel) (by decide +kernel)
      (by decide +kernel)
  have siblings : ∀ entry ∈ (testState 0 threeRounds).recentBlocks.toList,
      entry.1.author ≤ 2 := by decide +kernel
  have none : NoLaterSibling (testState 0 threeRounds) (testBlock 1 2 [2, 0, 1]) := by
    intro ref fresh _
    obtain ⟨info, got, -⟩ := fresh
    exact siblings (ref, info)
      (Std.ExtTreeMap.mem_toList_iff_getElem?_eq_some.mpr got)
  obtain ⟨subDag, commit, post, run, last, -, -, pos, selects⟩ :=
    commit_ends_with_leader_iff ready []
  exact ⟨subDag, commit, post, run, last, pos.mpr none, (selects 1 (by decide)).mpr none⟩

/-- The first author leads a round of three blocks: its commit ends with a sibling, and the peer
that fetches it panics. -/
theorem commit_ends_with_sibling :
    Ledger.Reached (Context.newForTest 0) (fun _ _ => True) ⟨testState 0 threeRounds, [], []⟩ ∧
    ∃ subDag commit post,
      commitLeader (Context.newForTest 0) ([], testState 0 threeRounds) (testBlock 1 0 [0, 1, 2]) =
        .ok ([subDag], post) ∧
      post.lastCommit = some commit ∧ commit.leader = testRef 1 0 ∧
      commit.blocks = [testRef 1 0, testRef 1 1, testRef 1 2] ∧
      Core.trySelectCertifiedLeaders [⟨commit, subDag.blocks⟩] 1 =
        .error (.certifiedLeaderNotLast (testRef 1 0)) := by
  refine ⟨Ledger.reached_testState (by decide +kernel) (by decide +kernel), ?_⟩
  have computed : ((commitLeader (Context.newForTest 0) ([], testState 0 threeRounds)
      (testBlock 1 0 [0, 1, 2])).map fun res => (res.1.map CommittedSubDag.blocks,
        res.2.lastCommit.map fun commit => (commit.leader, commit.blocks))) =
      .ok ([[testBlock 1 0 [0, 1, 2], testBlock 1 1 [1, 0, 2], testBlock 1 2 [2, 0, 1]]],
        some (testRef 1 0, [testRef 1 0, testRef 1 1, testRef 1 2])) := by
    decide +kernel
  cases run : commitLeader (Context.newForTest 0) ([], testState 0 threeRounds)
      (testBlock 1 0 [0, 1, 2]) with
  | error panic =>
    rw [run] at computed
    cases computed
  | ok res =>
    obtain ⟨subDags, post⟩ := res
    rw [run, Except.map, Except.ok.injEq, Prod.mk.injEq, map_eq_singleton_iff] at computed
    obtain ⟨⟨subDag, rfl, blocks⟩, here⟩ := computed
    obtain ⟨commit, last, fields⟩ := Option.map_eq_some_iff.mp here
    obtain ⟨leader, refs⟩ := Prod.mk.inj fields
    refine ⟨subDag, commit, post, rfl, last, leader, refs, ?_⟩
    rw [blocks, Core.trySelectCertifiedLeaders_singleton (by decide) rfl, leader]
    exact if_neg (by decide +kernel)

end Linearizer

end Mysticeti

import Mysticeti.Linearization

/-!
# The commit of a leader

A committable leader yields a commit: its blocks are those of the linearized sub-dag in
the order of the sort, its timestamp exists because the leader's parents carry a quorum,
and adding it to the DAG state cannot fail. `commitLeader_ok` is the complete law of one
iteration of the commit loop; every statement about sequences of commits starts from it.
-/

namespace Mysticeti

open List Option Lib.Outcome Lib.OrderedMap Lib.Worklist Lib.Quorum DagState

lemma sortSubDagBlocks_perm (blocks : List VerifiedBlock) :
    (sortSubDagBlocks blocks).Perm blocks :=
  perm_insertionSort subDagOrder blocks

lemma sortSubDagBlocks_sorted (blocks : List VerifiedBlock) :
    (sortSubDagBlocks blocks).Pairwise subDagOrder :=
  pairwise_insertionSort subDagOrder blocks

namespace Linearizer

variable {ctx : Context}

namespace Linearized

variable {pre post : DagState} {leader : VerifiedBlock} {siblings seen : List BlockRef}

variable (lined : Linearized ctx pre leader siblings seen post)

include lined

lemma visited_iff (ready : Committable ctx pre leader) (ref : BlockRef) :
    ref ∈ seen ↔
      Reached pre.links (pre.barred (pre.gcRound ctx)) [leader.reference]
        ref := by
  obtain ⟨_, run, -, members⟩ := ready.visits
  rw [lined.visits, some.injEq] at run
  exact run ▸ members ref

lemma leader_visited : leader.reference ∈ seen :=
  mem_drain_of_pending lined.visits (by simp)

variable (ready : Committable ctx pre leader)

include ready

variable {ref : BlockRef}

lemma visited_round (visit : ref ∈ seen) : ref = leader.reference ∨ ref.round < leader.round :=
  ready.wellFormed.reached_round ((lined.visited_iff ready ref).mp visit)

lemma uncommitted (mem : ref ∈ siblings ++ seen) : pre.Uncommitted ref := by
  rcases mem_append.mp mem with sibling | visit
  · exact ((lined.sibling ref).mp sibling).1
  · have final := (lined.visited_iff ready ref).mp visit
    rcases final.root_or_unbarred with isLeader | unbarred
    · rw [mem_singleton.mp isLeader]
      exact ready.uncommitted
    · exact uncommitted_of_not_committed (ready.history.reached final)
        fun committed => unbarred (.inr committed)

lemma distinct : (siblings ++ seen).Nodup := by
  obtain ⟨_, run, visitedDistinct, -⟩ := ready.visits
  rw [lined.visits, some.injEq] at run
  subst run
  refine nodup_append.mpr ⟨nodup_of_increasing lined.increasing, visitedDistinct, ?_⟩
  rintro ref sibling _ visit rfl
  obtain ⟨-, sameRound, ne⟩ := (lined.sibling ref).mp sibling
  rcases lined.visited_round ready visit with isLeader | lower
  · exact ne isLeader
  · exact Nat.ne_of_lt lower sameRound

lemma rounds (mem : ref ∈ siblings ++ seen) :
    pre.gcRound ctx < ref.round ∧ ref.round ≤ leader.round := by
  rcases mem_append.mp mem with sibling | visit
  · rw [((lined.sibling ref).mp sibling).2.1]
    exact ⟨ready.above, Nat.le_refl _⟩
  · rcases lined.visited_round ready visit with isLeader | lower
    · rw [isLeader]
      exact ⟨ready.above, Nat.le_refl _⟩
    · have final := (lined.visited_iff ready ref).mp visit
      refine ⟨?_, Nat.le_of_lt lower⟩
      rcases final.root_or_unbarred with isLeader | unbarred
      · rw [mem_singleton.mp isLeader]
        exact ready.above
      · exact Nat.lt_of_not_le fun old => unbarred (.inl old)

lemma references_perm :
    ((sortSubDagBlocks ((siblings ++ seen).map pre.blockAt)).map
      VerifiedBlock.reference).Perm (siblings ++ seen) := by
  have kept : ((siblings ++ seen).map pre.blockAt).map VerifiedBlock.reference =
      siblings ++ seen := by
    rw [List.map_map]
    exact (map_congr_left fun ref mem =>
      ready.wellFormed.blockAt_reference
        (lined.uncommitted ready mem).cached).trans (List.map_id _)
  exact ((sortSubDagBlocks_perm _).map _).trans (List.Perm.of_eq kept)

end Linearized

variable {st : DagState} {leader : VerifiedBlock}

lemma Committable.parent_found (ready : Committable ctx st leader) {parent : BlockRef}
    (mem : parent ∈ leader.ancestors) (previous : parent.round = leader.round - 1) :
    ∃ blk, st.getBlock ctx parent = some blk ∧ blk.author = parent.author := by
  obtain ⟨info, got⟩ := mem_recentBlocks.mp ready.uncommitted.cached
  have held : info.block = leader := by rw [← blockAt_of_cached got, ready.held]
  have valid := held ▸ ready.wellFormed.valid _ info got
  by_cases genesis : parent.round = GENESIS_ROUND
  · obtain ⟨blk, has⟩ := isSome_iff_exists.mp (valid.ancestorGenesis parent mem genesis)
    refine ⟨blk, by rw [getBlock, if_pos genesis, has], ?_⟩
    rw [← (genesisGet_eq_some has).1, VerifiedBlock.reference_author]
  · have above : st.gcRound ctx < parent.round := by
      have pos : parent.round ≠ 0 := genesis
      have newer := ready.newer
      have depth := ctx.protocolConfig.gcDepth_pos
      unfold gcRound
      lia
    have linked : parent ∈ st.links leader.reference := mem_links.mpr ⟨info, got, held ▸ mem⟩
    have cached := ready.history.2 _ (Reached.root (by simp)) parent linked above
    refine ⟨st.blockAt parent, ready.wellFormed.getBlock_eq cached, ?_⟩
    rw [← VerifiedBlock.reference_author, ready.wellFormed.blockAt_reference cached]

lemma medianTimestampByStake_of_quorum {blocks : List VerifiedBlock}
    (quorum : ctx.committee.quorumThreshold ≤
      (blocks.map fun blk => ctx.committee.stake blk.author).sum) :
    ∃ timestamp, medianTimestampByStake ctx blocks = some timestamp := by
  have stakes : ((blocks.map fun blk =>
      (blk.timestampMs, ctx.committee.stake blk.author)).map Prod.snd).sum =
      (blocks.map fun blk => ctx.committee.stake blk.author).sum := by
    rw [List.map_map]
    rfl
  have nonempty : (blocks.map fun blk =>
      (blk.timestampMs, ctx.committee.stake blk.author)).isEmpty = false := by
    cases blocks with
    | nil =>
      have pos := ctx.committee.quorumThreshold_pos
      simp only [map_nil, sum_nil] at quorum
      lia
    | cons blk rest => rfl
  have enough : ¬ (blocks.map fun blk => ctx.committee.stake blk.author).sum <
      ctx.committee.quorumThreshold := Nat.not_lt_of_le quorum
  rw [medianTimestampByStake, nonempty, stakes, if_neg enough]
  exact ⟨_, rfl⟩

lemma calculateCommitTimestamp_ok
    (ready : Committable ctx st leader) (last : BlockTimestampMs) :
    ∃ timestamp, calculateCommitTimestamp ctx st leader last = .ok timestamp ∧
      last ≤ timestamp := by
  obtain ⟨info, got⟩ := mem_recentBlocks.mp ready.uncommitted.cached
  have held : info.block = leader := by rw [← blockAt_of_cached got, ready.held]
  have valid := held ▸ ready.wellFormed.valid _ info got
  let parents := leader.ancestors.filter fun anc => anc.round = leader.round - 1
  let lookup := fun parent => (st.getBlock ctx parent).getD default
  have parentFound : ∀ parent ∈ parents,
      st.getBlock ctx parent = some (lookup parent) ∧ (lookup parent).author = parent.author := by
    intro parent mem
    rw [mem_filter, decide_eq_true_eq] at mem
    obtain ⟨blk, has, author⟩ := ready.parent_found mem.1 mem.2
    simp [lookup, has, author]
  have collected : parents.mapM (fun parent =>
      expect (st.getBlock ctx parent) (Panic.missingParentBlock parent)) =
      .ok (parents.map lookup) :=
    mapM_ok fun parent mem => by rw [(parentFound parent mem).1, expect_some]
  have quorum : ctx.committee.quorumThreshold ≤
      ((parents.map lookup).map fun blk => ctx.committee.stake blk.author).sum := by
    have authors : (parents.map lookup).map (fun blk => ctx.committee.stake blk.author) =
        (parents.map BlockRef.author).map ctx.committee.stake := by
      rw [List.map_map, List.map_map]
      exact map_congr_left fun parent mem => by simp [(parentFound parent mem).2]
    have distinct : (parents.map BlockRef.author).Nodup :=
      valid.distinct.sublist (filter_sublist.map _)
    rw [authors, ← sum_toFinset _ distinct]
    exact valid.parents
  obtain ⟨timestamp, median⟩ := medianTimestampByStake_of_quorum quorum
  refine ⟨max timestamp last, ?_, Nat.le_max_right _ _⟩
  rw [calculateCommitTimestamp, collected, ok_bind, median, expect_some, ok_bind, pure_ok]

lemma calculateCommitTimestamp_congr {left right : DagState} {leader : VerifiedBlock}
    {last : BlockTimestampMs}
    (same : ∀ parent ∈ leader.ancestors, parent.round = leader.round - 1 →
      left.getBlock ctx parent = right.getBlock ctx parent) :
    calculateCommitTimestamp ctx left leader last =
      calculateCommitTimestamp ctx right leader last := by
  have collected : (leader.ancestors.filter fun anc => anc.round = leader.round - 1).mapM
      (fun parent => expect (left.getBlock ctx parent) (Panic.missingParentBlock parent)) =
      (leader.ancestors.filter fun anc => anc.round = leader.round - 1).mapM
      (fun parent => expect (right.getBlock ctx parent) (Panic.missingParentBlock parent)) := by
    refine mapM_congr fun parent mem => ?_
    rw [mem_filter, decide_eq_true_eq] at mem
    rw [same parent mem.1 mem.2]
  simp only [calculateCommitTimestamp, collected]

lemma collectSubDagAndCommit_ok (ready : Committable ctx st leader) :
    ∃ siblings seen timestampMs post,
      let blocks := sortSubDagBlocks ((siblings ++ seen).map st.blockAt)
      let commit := nextCommit ctx st leader timestampMs blocks
      collectSubDagAndCommit ctx st leader =
          .ok (CommittedSubDag.new leader.reference blocks timestampMs commit.reference, commit,
            post) ∧
        Linearized ctx st leader siblings seen post ∧
        calculateCommitTimestamp ctx st leader st.lastCommitTimestampMs = .ok timestampMs ∧
        st.lastCommitTimestampMs ≤ timestampMs := by
  obtain ⟨siblings, seen, post, run, lined⟩ := ready.linearizeSubDag_ok
  obtain ⟨timestampMs, computed, later⟩ :=
    calculateCommitTimestamp_ok ready st.lastCommitTimestampMs
  refine ⟨siblings, seen, timestampMs, post, ?_, lined, computed, later⟩
  have sameTimestamp : calculateCommitTimestamp ctx post leader
      st.lastCommitTimestampMs = .ok timestampMs := by
    rw [← computed]
    exact calculateCommitTimestamp_congr fun parent _ _ =>
      lined.marked.flagged.getBlock_eq parent
  rw [collectSubDagAndCommit, run, ok_bind]
  simp only [sameTimestamp, ok_bind, pure_ok]

end Linearizer

namespace DagState

variable {ctx : Context}

lemma raiseCommittedRounds_ok {rounds : AuthorityIndex → Round} {blocks : List BlockRef}
    (inside : ∀ blk ∈ blocks, blk.author < ctx.committee.size) :
    ∃ raised, raiseCommittedRounds ctx rounds blocks = .ok raised := by
  refine foldlM_total fun rounds blk mem => ?_
  exact ⟨_, by rw [raiseCommittedRound, ensure_holds _ (inside blk mem)]; rfl⟩

/-- The direct successor of the last commit, with a timestamp not before it and blocks of
authorities of the committee, is accepted. -/
lemma addCommit_ok {st : DagState} {commit : TrustedCommit}
    (next : commit.index = st.lastCommitIndex + 1)
    (later : st.lastCommitTimestampMs ≤ commit.timestampMs)
    (inside : ∀ blk ∈ commit.blocks, blk.author < ctx.committee.size) :
    ∃ rounds, raiseCommittedRounds ctx st.lastCommittedRounds commit.blocks = .ok rounds ∧
      st.addCommit ctx commit = .ok { st with
        lastCommit := some commit
        lastCommittedRounds := rounds
        pendingCommitVotes := st.pendingCommitVotes ++ [commit.reference]
        commitsToWrite := st.commitsToWrite ++ [commit] } := by
  obtain ⟨rounds, raised⟩ := @raiseCommittedRounds_ok ctx st.lastCommittedRounds
    commit.blocks inside
  refine ⟨rounds, raised, ?_⟩
  have fresh : (st.lastCommit.any fun last => commit.index ≤ last.index) = false := by
    cases last : st.lastCommit with
    | none => rfl
    | some previous =>
      simp only [lastCommitIndex, last, map_some, getD_some] at next
      simp [next]
  have checked : checkSuccessor st.lastCommit commit = .ok () := by
    cases last : st.lastCommit with
    | none =>
      simp only [lastCommitIndex, last, map_none, getD_none] at next
      simp [checkSuccessor, next]
    | some previous =>
      simp only [lastCommitIndex, lastCommitTimestampMs, last, map_some, getD_some] at next later
      simp [checkSuccessor, next, later, ensure]
  rw [addCommit, fresh]
  simp only [Bool.false_eq_true, if_false, checked, ok_bind, raised, pure_ok]

end DagState

namespace Linearizer

variable {ctx : Context}

/-- The complete effect of committing one leader. -/
structure Committing (ctx : Context) (pre : DagState) (leader : VerifiedBlock)
    (siblings seen : List BlockRef) (subDag : CommittedSubDag) (commit : TrustedCommit)
    (post : DagState) : Prop where
  timestamped : ∃ timestampMs, pre.lastCommitTimestampMs ≤ timestampMs ∧
    calculateCommitTimestamp ctx pre leader pre.lastCommitTimestampMs = .ok timestampMs ∧
    commit = nextCommit ctx pre leader timestampMs
      (sortSubDagBlocks ((siblings ++ seen).map pre.blockAt)) ∧
    subDag = CommittedSubDag.new leader.reference
      (sortSubDagBlocks ((siblings ++ seen).map pre.blockAt)) timestampMs commit.reference
  linearized : ∃ marked rounds, Linearized ctx pre leader siblings seen marked ∧
    raiseCommittedRounds ctx pre.lastCommittedRounds commit.blocks = .ok rounds ∧
    post = { marked with
      lastCommit := some commit
      lastCommittedRounds := rounds
      pendingCommitVotes := pre.pendingCommitVotes ++ [commit.reference]
      commitsToWrite := pre.commitsToWrite ++ [commit] }

lemma commitLeader_ok {st : DagState} {leader : VerifiedBlock}
    (ready : Committable ctx st leader) :
    ∃ siblings seen subDag commit post,
      (∀ subDags, commitLeader ctx (subDags, st) leader = .ok (subDags ++ [subDag], post)) ∧
      Committing ctx st leader siblings seen subDag commit post := by
  obtain ⟨siblings, seen, timestampMs, marked, run, lined, computed, later⟩ :=
    collectSubDagAndCommit_ok ready
  let blocks := sortSubDagBlocks ((siblings ++ seen).map st.blockAt)
  let commit := nextCommit ctx st leader timestampMs blocks
  have frame := lined.marked.frame
  have inside : ∀ ref ∈ commit.blocks, ref.author < ctx.committee.size := by
    intro ref mem
    have here := (lined.references_perm ready).mem_iff.mp mem
    exact ready.wellFormed.author_lt (lined.uncommitted ready here).cached
  obtain ⟨rounds, raised, added⟩ := @addCommit_ok ctx marked commit
    (by rw [lastCommitIndex, lined.marked.flagged.lastCommit_eq]; rfl)
    (by rw [lastCommitTimestampMs, lined.marked.flagged.lastCommit_eq]; exact later) inside
  have sameRounds : marked.lastCommittedRounds = st.lastCommittedRounds := by rw [frame]
  have sameVotes : marked.pendingCommitVotes = st.pendingCommitVotes := by rw [frame]
  have sameCommits : marked.commitsToWrite = st.commitsToWrite := by rw [frame]
  rw [sameRounds] at raised
  rw [sameVotes, sameCommits] at added
  refine ⟨siblings, seen, _, commit, _, fun subDags => ?_,
    ⟨timestampMs, later, computed, rfl, rfl⟩, ⟨marked, rounds, lined, raised, rfl⟩⟩
  simp only [commitLeader, run, ok_bind]
  rw [added, ok_bind, pure_ok]

end Linearizer

end Mysticeti

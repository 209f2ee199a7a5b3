import Mysticeti.CommitChain

/-!
# Causal completeness of the delivered blocks

Execution should see every block after the ancestors it can still see. The traversal of
the leader's history delivers them. The siblings swept in from the leader's round bring
no history of their own, so an ancestor that only a sibling links to is left out, and it
may be committed later or never. A commit delivers the history of its blocks exactly when
every ancestor of a swept sibling is committed already or belongs to the history of the
leader.
-/

namespace Mysticeti

open List Lib.Outcome Lib.Worklist Lib.Log DagState

namespace Linearizer

variable {ctx : Context}

def lastLeaderRound (subDags : List CommittedSubDag) : Round :=
  (subDags.getLast?.map fun subDag => subDag.leader.round).getD 0

/-- Every ancestor above the garbage-collection round that the commit used is delivered
before its descendant. -/
def DeliversHistory (ctx : Context) (prev : List CommittedSubDag)
    (subDag : CommittedSubDag) : Prop :=
  ∀ pre blk post, subDag.blocks = pre ++ blk :: post →
    ∀ anc ∈ blk.ancestors,
      lastLeaderRound prev - ctx.protocolConfig.gcDepth < anc.round →
        anc ∈ (prev.flatMap CommittedSubDag.blocks ++ pre).map VerifiedBlock.reference

abbrev CausallyComplete (ctx : Context) : List CommittedSubDag → Prop := Grown (DeliversHistory ctx)

/-- Every ancestor of an uncommitted block of the leader's round is committed already or
is in the history of the leader. -/
def SiblingsCovered (ctx : Context) (st : DagState) (leader : VerifiedBlock) : Prop :=
  ∀ sibling : BlockRef, st.Uncommitted sibling → sibling.round = leader.round →
    ∀ anc ∈ st.links sibling, st.gcRound ctx < anc.round →
      st.Committed anc ∨ Reached st.links (st.barred (st.gcRound ctx))
        [leader.reference] anc

/-- The siblings of every leader of a list are covered when the leader is committed. -/
def AllCovered (ctx : Context) : DagState → List VerifiedBlock → Prop
  | _, [] => True
  | st, leader :: rest => SiblingsCovered ctx st leader ∧
      ∀ subDags post, commitLeader ctx ([], st) leader = .ok (subDags, post) →
        AllCovered ctx post rest

/-- The delivered sub-dags are the blocks of the recorded commits. -/
def Delivers (subDags : List CommittedSubDag) (commits : List TrustedCommit) : Prop :=
  subDags.map (fun subDag => (subDag.leader, subDag.blocks.map VerifiedBlock.reference)) =
    commits.map (fun commit => (commit.leader, commit.blocks))

section Delivers

variable {subDags : List CommittedSubDag} {commits : List TrustedCommit}

lemma Delivers.lastLeaderRound_eq (delivers : Delivers subDags commits) :
    lastLeaderRound subDags = lastRound commits := by
  have lasts := congrArg getLast? delivers
  rw [getLast?_map, getLast?_map] at lasts
  have rounds := congrArg (fun pair : Option (BlockRef × List BlockRef) =>
    (pair.map fun entry => entry.1.round).getD 0) lasts
  simp only [Option.map_map] at rounds
  exact rounds

lemma Delivers.mem_iff (delivers : Delivers subDags commits) (ref : BlockRef) :
    ref ∈ (subDags.flatMap CommittedSubDag.blocks).map VerifiedBlock.reference ↔
      Listed commits ref := by
  have blocks := congrArg (fun pairs : List (BlockRef × List BlockRef) =>
    pairs.flatMap Prod.snd) delivers
  simp only [flatMap_map] at blocks
  rw [map_flatMap, blocks, mem_flatMap]
  rfl

end Delivers

section OneCommit

variable {pre post : DagState} {leader : VerifiedBlock} {siblings seen : List BlockRef}
  {subDag : CommittedSubDag} {commit : TrustedCommit} {subDags : List CommittedSubDag}
  {commits : List TrustedCommit}

variable (committing : Committing ctx pre leader siblings seen subDag commit post)

include committing

lemma Committing.delivers (delivers : Delivers subDags commits) :
    Delivers (subDags ++ [subDag]) (commits ++ [commit]) := by
  have same : (subDag.leader, subDag.blocks.map VerifiedBlock.reference) =
      (commit.leader, commit.blocks) := by
    obtain ⟨timestampMs, -, -, rfl, rfl⟩ := committing.timestamped
    rfl
  rw [Delivers, map_append, map_append, delivers, map_singleton, map_singleton, same]

lemma Committing.mem_subDag {blk : VerifiedBlock} :
    blk ∈ subDag.blocks ↔ ∃ ref ∈ siblings ++ seen, pre.blockAt ref = blk := by
  obtain ⟨timestampMs, -, -, -, rfl⟩ := committing.timestamped
  rw [CommittedSubDag.new, (sortSubDagBlocks_perm _).mem_iff, List.mem_map]

lemma Committing.precedes {prev later : List VerifiedBlock} {blk other : VerifiedBlock}
    (split : subDag.blocks = prev ++ blk :: later) (mem : other ∈ subDag.blocks)
    (lower : other.round < blk.round) : other ∈ prev := by
  have sorted : subDag.blocks.Pairwise subDagOrder := by
    obtain ⟨timestampMs, -, -, -, rfl⟩ := committing.timestamped
    exact sortSubDagBlocks_sorted _
  rw [split, mem_append, mem_cons] at mem
  rw [split, pairwise_append, pairwise_cons] at sorted
  rcases mem with inside | rfl | post
  · exact inside
  · exact absurd lower (Nat.lt_irrefl _)
  · have order := sorted.2.1.1 other post
    unfold subDagOrder at order
    lia

lemma Committing.deliversHistory_iff (ready : Committable ctx pre leader)
    (records : Records ctx pre commits) (delivers : Delivers subDags commits) :
    DeliversHistory ctx subDags subDag ↔ SiblingsCovered ctx pre leader := by
  obtain ⟨marked, lined, -⟩ := committing.marked
  have held : ∀ ref ∈ siblings ++ seen,
      (pre.blockAt ref).reference = ref ∧ pre.links ref = (pre.blockAt ref).ancestors := by
    intro ref mem
    have cached := (lined.uncommitted ready mem).cached
    exact ⟨ready.wellFormed.blockAt_reference cached, links_eq_ancestors cached⟩
  have usedGc : lastLeaderRound subDags - ctx.protocolConfig.gcDepth = pre.gcRound ctx := by
    rw [delivers.lastLeaderRound_eq, records.gcRound_eq]
  constructor
  · intro complete sibling fresh sameRound anc linked above
    by_cases committed : pre.Committed anc
    · exact .inl committed
    right
    by_cases isLeader : sibling = leader.reference
    · subst isLeader
      apply (Reached.root (mem_singleton.mpr rfl)).next linked
      rintro (old | flagged)
      · exact Nat.not_le_of_lt above old
      · exact committed flagged
    have swept : sibling ∈ siblings ++ seen :=
      mem_append_left _ ((lined.sibling sibling).mpr ⟨fresh, sameRound, isLeader⟩)
    obtain ⟨prev, later, split⟩ := mem_iff_append.mp
      (committing.mem_subDag.mpr ⟨sibling, swept, rfl⟩)
    have delivered := complete prev _ later split anc ((held sibling swept).2 ▸ linked)
      (usedGc.symm ▸ above)
    rw [map_append, mem_append, delivers.mem_iff] at delivered
    rcases delivered with here | same
    · exact absurd (records.flagged anc above here) committed
    · obtain ⟨blk, inside, rfl⟩ := List.mem_map.mp same
      have here : blk ∈ subDag.blocks := by
        rw [split]
        exact mem_append_left _ inside
      obtain ⟨ref, mem, rfl⟩ := committing.mem_subDag.mp here
      rw [(held ref mem).1] at linked above ⊢
      have lower := ready.wellFormed.links_round linked
      rcases mem_append.mp mem with isSibling | visit
      · have level := ((lined.sibling ref).mp isSibling).2.1
        lia
      · exact (lined.visited_iff ready ref).mp visit
  · intro covered prev blk later split anc mem above
    have here : blk ∈ subDag.blocks := by
      rw [split]
      exact mem_append_right _ (mem_cons_self)
    obtain ⟨ref, delivered, rfl⟩ := committing.mem_subDag.mp here
    rw [← (held ref delivered).2] at mem
    rw [usedGc] at above
    have inHistory : pre.Committed anc ∨ Reached pre.links
        (pre.barred (pre.gcRound ctx)) [leader.reference] anc := by
      rcases mem_append.mp delivered with isSibling | visit
      · obtain ⟨fresh, sameRound, -⟩ := (lined.sibling ref).mp isSibling
        exact covered ref fresh sameRound anc mem above
      · by_cases committed : pre.Committed anc
        · exact .inl committed
        · apply Or.inr
          apply ((lined.visited_iff ready ref).mp visit).next mem
          rintro (old | flagged)
          · exact Nat.not_le_of_lt above old
          · exact committed flagged
    rw [map_append, mem_append, delivers.mem_iff]
    rcases inHistory with committed | final
    · exact .inl (records.listed anc committed)
    · right
      have visit : anc ∈ siblings ++ seen :=
        mem_append_right _ ((lined.visited_iff ready anc).mpr final)
      have lower : (pre.blockAt anc).round < (pre.blockAt ref).round := by
        rw [← VerifiedBlock.reference_round, (held anc visit).1,
          ← VerifiedBlock.reference_round, (held ref delivered).1]
        exact ready.wellFormed.links_round mem
      have first := committing.precedes split
        (committing.mem_subDag.mpr ⟨anc, visit, rfl⟩) lower
      exact List.mem_map.mpr ⟨_, first, (held anc visit).1⟩

end OneCommit

section Loop

variable {st post : DagState} {commits produced : List TrustedCommit}
  {leaders : List VerifiedBlock} {subDags collected : List CommittedSubDag}

lemma CommitLoop.delivers (loop : CommitLoop ctx st commits leaders collected produced
    post) (delivers : Delivers subDags commits) :
    Delivers (subDags ++ collected) (commits ++ produced) := by
  induction loop generalizing subDags with
  | done => simpa using delivers
  | leader _ _ _ first _ ih => simpa using ih (first.delivers delivers)

lemma CommitLoop.complete (loop : CommitLoop ctx st commits leaders collected produced
    post) (delivers : Delivers subDags commits) (covered : AllCovered ctx st leaders)
    (complete : CausallyComplete ctx subDags) :
    CausallyComplete ctx (subDags ++ collected) := by
  induction loop generalizing subDags with
  | done => simpa using complete
  | leader sound ready taken first _ ih =>
    obtain ⟨siblingsCovered, restCovered⟩ := covered
    have delivered := (first.deliversHistory_iff ready sound.records delivers).mpr
      siblingsCovered
    simpa using ih (first.delivers delivers) (restCovered _ _ (taken []))
      (complete.extend delivered)

end Loop

namespace Ledger

variable {admitted : DagState → List VerifiedBlock → Prop}

variable {ledger : Ledger}

lemma delivers_of_reached (final : Reached ctx admitted ledger) :
    Delivers ledger.subDags ledger.commits := by
  induction final with
  | refl => rfl
  | tail pre step ih =>
    cases step with
    | accept => exact ih
    | flush => exact ih
    | commit proper _ run buffered =>
      exact (loop_of_handleCommit (sound_of_reached pre) proper run buffered).delivers
        ih

lemma complete_of_reached (final : Reached ctx (AllCovered ctx) ledger) :
    CausallyComplete ctx ledger.subDags := by
  induction final with
  | refl => exact .start
  | tail pre step ih =>
    cases step with
    | accept => exact ih
    | flush => exact ih
    | commit proper covered run buffered =>
      exact (loop_of_handleCommit (sound_of_reached pre) proper run buffered).complete
        (delivers_of_reached pre) covered ih

/-- In every run in which the siblings of each committed leader were covered, the
deliveries are causally complete, and the next leader keeps them complete exactly when
its siblings are covered. -/
theorem subDags_complete_iff (final : Reached ctx (AllCovered ctx) ledger) :
    CausallyComplete ctx ledger.subDags ∧
      ∀ leader, Leaders ledger.state [leader] → ∃ subDag post,
        handleCommit ctx ledger.state [leader] = .ok ([subDag], post) ∧
        (CausallyComplete ctx (ledger.subDags ++ [subDag]) ↔
          SiblingsCovered ctx ledger.state leader) := by
  have complete := complete_of_reached final
  have sound := sound_of_reached final
  refine ⟨complete, fun leader proper => ?_⟩
  have ready := proper.committable sound
  obtain ⟨siblings, seen, subDag, commit, post, taken, committing⟩ :=
    commitLeader_ok ready
  refine ⟨subDag, post, ?_, ?_⟩
  · rw [handleCommit, foldlM_step (taken [])]
    rfl
  · rw [CausallyComplete, grown_append_singleton,
      committing.deliversHistory_iff ready sound.records (delivers_of_reached final)]
    exact and_iff_right complete

section Runs

/-- Four rounds in which the leader of the second round does not link to the first-round
block of the fourth authority, and the fourth authority's own second-round block does. -/
def skippedAncestor : List VerifiedBlock :=
  [testBlock 1 0 [0, 1, 2], testBlock 1 1 [1, 0, 2], testBlock 1 2 [2, 0, 1],
    testBlock 1 3 [3, 0, 1],
    testBlock 2 0 [0, 1, 2], testBlock 2 1 [1, 0, 2], testBlock 2 2 [2, 0, 1],
    testBlock 2 3 [3, 0, 1],
    testBlock 3 0 [0, 1, 2], testBlock 3 1 [1, 0, 2], testBlock 3 2 [2, 0, 1],
    testBlock 4 0 [0, 1, 2], testBlock 4 1 [1, 0, 2], testBlock 4 2 [2, 0, 1]]

theorem subDags_complete_firstRound : ∃ ledger : Ledger,
    Reached (Context.newForTest 0) (AllCovered (Context.newForTest 0)) ledger ∧
      ledger.subDags ≠ [] ∧ CausallyComplete (Context.newForTest 0) ledger.subDags ∧
      ∀ leader, Leaders ledger.state [leader] → ∃ subDag post,
        handleCommit (Context.newForTest 0) ledger.state [leader] = .ok ([subDag], post) ∧
        (CausallyComplete (Context.newForTest 0) (ledger.subDags ++ [subDag]) ↔
          SiblingsCovered (Context.newForTest 0) ledger.state leader) := by
  have acc : Reached (Context.newForTest 0) (AllCovered (Context.newForTest 0))
      ⟨testState 0 threeRounds, [], []⟩ :=
    reached_testState (by decide +kernel) (by decide +kernel)
  have sound := sound_of_reached acc
  have proper : Leaders (testState 0 threeRounds) [testBlock 1 0 [0, 1, 2]] :=
    ⟨by decide +kernel, by decide +kernel, by decide +kernel, by decide +kernel⟩
  have covered : SiblingsCovered (Context.newForTest 0) (testState 0 threeRounds)
      (testBlock 1 0 [0, 1, 2]) := by
    intro sibling _ sameRound anc linked above
    have lower := sound.wellFormed.links_round linked
    have first : sibling.round = 1 := sameRound
    lia
  obtain ⟨siblings, seen, subDag, commit, post, taken, committing⟩ :=
    commitLeader_ok (proper.committable sound)
  have run : handleCommit (Context.newForTest 0) (testState 0 threeRounds)
      [testBlock 1 0 [0, 1, 2]] = .ok ([subDag], post) := by
    rw [handleCommit, foldlM_step (taken [])]
    rfl
  have buffered : post.commitsToWrite = (testState 0 threeRounds).commitsToWrite ++ [commit] := by
    obtain ⟨marked, rounds, -, -, rfl⟩ := committing.linearized
    rfl
  have committed := acc.tail
    (Step.commit proper ⟨covered, fun _ _ _ => trivial⟩ run buffered)
  exact ⟨_, committed, by simp, subDags_complete_iff committed⟩

/-- A committed leader sweeps in a sibling whose ancestor is delivered nowhere before it. -/
theorem handleCommit_skips_ancestor : ∃ ledger : Ledger,
    Reached (Context.newForTest 0) (fun _ _ => True) ledger ∧
      ledger.subDags.map (fun subDag => subDag.blocks.map VerifiedBlock.reference) =
        [[testRef 1 0, testRef 1 1, testRef 1 2, testRef 2 0, testRef 2 1, testRef 2 2,
          testRef 2 3]] ∧
      testRef 1 3 ∈ (testBlock 2 3 [3, 0, 1]).ancestors ∧
      ¬ CausallyComplete (Context.newForTest 0) ledger.subDags := by
  have acc : Reached (Context.newForTest 0) (fun _ _ => True)
      ⟨testState 0 skippedAncestor, [], []⟩ :=
    reached_testState (by decide +kernel) (by decide +kernel)
  have proper : Leaders (testState 0 skippedAncestor) [testBlock 2 0 [0, 1, 2]] :=
    ⟨by decide +kernel, by decide +kernel, by decide +kernel, by decide +kernel⟩
  have computed : (handleCommit (Context.newForTest 0) (testState 0 skippedAncestor)
      [testBlock 2 0 [0, 1, 2]]).map (fun res => res.1.map CommittedSubDag.blocks) =
      .ok [[testBlock 1 0 [0, 1, 2], testBlock 1 1 [1, 0, 2], testBlock 1 2 [2, 0, 1],
        testBlock 2 0 [0, 1, 2], testBlock 2 1 [1, 0, 2], testBlock 2 2 [2, 0, 1],
        testBlock 2 3 [3, 0, 1]]] := by
    decide +kernel
  obtain ⟨subDags, produced, post, run, loop⟩ :=
    handleCommit_ok (sound_of_reached acc) proper []
  rw [handleCommit, run] at computed
  have blocks : subDags.map CommittedSubDag.blocks = [[testBlock 1 0 [0, 1, 2],
      testBlock 1 1 [1, 0, 2], testBlock 1 2 [2, 0, 1], testBlock 2 0 [0, 1, 2],
      testBlock 2 1 [1, 0, 2], testBlock 2 2 [2, 0, 1], testBlock 2 3 [3, 0, 1]]] :=
    Except.ok.inj computed
  refine ⟨_, acc.tail (.commit proper trivial run loop.commitsToWrite_eq), ?_,
    by decide +kernel, ?_⟩
  · have refs := congrArg (List.map (List.map VerifiedBlock.reference)) blocks
    rw [List.map_map] at refs
    exact refs.trans (by decide +kernel)
  · intro complete
    obtain ⟨subDag, rfl, here⟩ := map_eq_singleton_iff.mp blocks
    have delivered := grown_iff.mp complete [] subDag [] rfl
      [testBlock 1 0 [0, 1, 2], testBlock 1 1 [1, 0, 2], testBlock 1 2 [2, 0, 1],
        testBlock 2 0 [0, 1, 2], testBlock 2 1 [1, 0, 2], testBlock 2 2 [2, 0, 1]]
      (testBlock 2 3 [3, 0, 1]) [] here (testRef 1 3) (by decide +kernel) (by decide +kernel)
    exact absurd delivered (by decide +kernel)

end Runs

end Ledger

end Linearizer

end Mysticeti

import Mysticeti.Linearization

/-!
# What a commit changes

The specification of linearization starts from a state in which a leader can be committed.
Here nothing is assumed of the state: whenever the commit of a leader returns, only flags of
cached blocks were set and the commit was appended. The same holds of marking a history as
included. So the blocks that are cached, their index and the store are the same afterwards,
and the garbage-collection round does not fall.
-/

namespace Mysticeti

open Lib.Outcome Lib.OrderedMap

namespace DagState

variable {ctx : Context} {pre mid post : DagState} {ref : BlockRef}

structure CommitFlagged (pre post : DagState) : Prop extends Flagged pre post where
  included : ∀ ref : BlockRef, (post.recentBlocks[ref]?).map BlockInfo.included =
    (pre.recentBlocks[ref]?).map BlockInfo.included

lemma CommitFlagged.refl (st : DagState) : CommitFlagged st st := ⟨.refl st, fun _ => rfl⟩

lemma CommitFlagged.trans (first : CommitFlagged pre mid)
    (second : CommitFlagged mid post) : CommitFlagged pre post :=
  ⟨first.toFlagged.trans second.toFlagged, fun ref =>
    (second.included ref).trans (first.included ref)⟩

lemma setCommitted_commitFlagged {newly : Bool}
    (set : pre.setCommitted ref = .ok (newly, post)) : CommitFlagged pre post := by
  unfold setCommitted at set
  obtain ⟨info, got, set⟩ := expect_bind_eq_ok.mp set
  split at set
  · cases set
    exact .refl pre
  · cases set
    refine ⟨.insert got rfl, fun other => ?_⟩
    by_cases here : other = ref
    · subst here
      simp [got]
    · simp only [getElem?_insert_of_ne here]

lemma setCommitted_flagged {newly : Bool}
    (set : pre.setCommitted ref = .ok (newly, post)) : Flagged pre post :=
  (setCommitted_commitFlagged set).toFlagged

lemma linkTargets_flagged {gcRound : Round} {fuel : Nat}
    {targets linked seen : List BlockRef}
    (run : linkTargets gcRound fuel targets linked pre = .ok (seen, post)) :
    Flagged pre post := by
  induction fuel generalizing targets linked pre with
  | zero =>
    cases targets with
    | nil =>
      cases run
      exact .refl _
    | cons target rest => cases run
  | succ fuel ih =>
    cases targets with
    | nil =>
      cases run
      exact .refl _
    | cons target rest =>
      unfold linkTargets at run
      split at run
      · exact ih run
      · obtain ⟨info, got, run⟩ := expect_bind_eq_ok.mp run
        split at run
        · exact ih run
        · refine .trans ?_ (ih run)
          exact .insert got rfl

lemma linkCausalHistory_flagged {root : BlockRef} {seen : List BlockRef}
    (run : linkCausalHistory ctx pre root = .ok (seen, post)) :
    Flagged pre post :=
  linkTargets_flagged run

lemma addCommit_cases {commit : TrustedCommit}
    (run : pre.addCommit ctx commit = .ok post) :
    (pre.lastCommit.any (fun last => commit.index ≤ last.index) = true ∧ post = pre) ∨
      ∃ rounds, raiseCommittedRounds ctx pre.lastCommittedRounds commit.blocks = .ok rounds ∧
        commit.index = pre.lastCommitIndex + 1 ∧
        post = { pre with
          lastCommit := some commit
          lastCommittedRounds := rounds
          pendingCommitVotes := pre.pendingCommitVotes ++ [commit.reference]
          commitsToWrite := pre.commitsToWrite ++ [commit] } := by
  unfold addCommit at run
  split at run
  · rename_i stale
    exact .inl ⟨stale, (Except.ok.inj run).symm⟩
  · obtain ⟨done, checked, run⟩ := bind_eq_ok.mp run
    obtain ⟨rounds, raised, run⟩ := bind_eq_ok.mp run
    refine .inr ⟨rounds, raised, ?_, (Except.ok.inj run).symm⟩
    unfold checkSuccessor at checked
    unfold lastCommitIndex
    cases last : pre.lastCommit with
    | none =>
      rw [last] at checked
      exact ensure_eq_ok.mp checked
    | some commit =>
      rw [last] at checked
      exact (ensure_bind_eq_ok.mp checked).1

end DagState

namespace Linearizer

open DagState

variable {ctx : Context} {pre mid post : DagState} {gcRound : Round}
  {blocks buffer : List VerifiedBlock} {leader : VerifiedBlock}

lemma commitRoundBlocks_commitFlagged {collected : List VerifiedBlock}
    (run : commitRoundBlocks pre blocks = .ok (collected, post)) :
    CommitFlagged pre post := by
  refine @foldlM_preserves _ _ _ _ _ (fun res : List VerifiedBlock × DagState =>
    CommitFlagged pre res.2) _ _ run (.refl pre) ?_
  rintro ⟨prev, mid⟩ blk ⟨later, next⟩ _ marked taken
  unfold commitRoundBlock at taken
  obtain ⟨committed, -, taken⟩ := bind_eq_ok.mp taken
  split at taken
  · cases taken
    exact marked
  · obtain ⟨⟨newly, set⟩, sets, taken⟩ := bind_eq_ok.mp taken
    cases taken
    exact marked.trans (setCommitted_commitFlagged sets)

lemma commitLeaderRound_commitFlagged {collected : List VerifiedBlock}
    (run : commitLeaderRound gcRound pre leader = .ok (collected, post)) :
    CommitFlagged pre post := by
  unfold commitLeaderRound at run
  split at run
  · obtain ⟨blocks, -, run⟩ := bind_eq_ok.mp run
    exact commitRoundBlocks_commitFlagged run
  · cases run
    exact .refl pre

lemma pushAncestors_commitFlagged {ancestors pushed : List VerifiedBlock}
    (run : pushAncestors buffer pre ancestors = .ok (pushed, post)) :
    CommitFlagged pre post := by
  refine @foldlM_preserves _ _ _ _ _ (fun res : List VerifiedBlock × DagState =>
    CommitFlagged pre res.2) _ _ run (.refl pre) ?_
  rintro ⟨prev, mid⟩ anc ⟨later, next⟩ _ marked taken
  unfold pushAncestor at taken
  obtain ⟨⟨newly, set⟩, sets, taken⟩ := bind_eq_ok.mp taken
  obtain ⟨-, taken⟩ := ensure_bind_eq_ok.mp taken
  cases taken
  exact marked.trans (setCommitted_commitFlagged sets)

lemma visitBuffer_commitFlagged {fuel : Nat} {toCommit : List VerifiedBlock}
    (run : visitBuffer ctx gcRound fuel buffer toCommit pre = .ok (blocks, post)) :
    CommitFlagged pre post := by
  induction fuel generalizing buffer toCommit pre with
  | zero =>
    cases buffer with
    | nil =>
      cases run
      exact .refl _
    | cons next rest => cases run
  | succ fuel ih =>
    cases buffer with
    | nil =>
      cases run
      exact .refl _
    | cons next rest =>
      rw [visitBuffer] at run
      obtain ⟨ancestors, -, run⟩ := bind_eq_ok.mp run
      obtain ⟨⟨pushed, mid⟩, flags, run⟩ := bind_eq_ok.mp run
      exact (pushAncestors_commitFlagged flags).trans (ih run)

lemma linearizeSubDag_commitFlagged
    (run : linearizeSubDag ctx pre leader = .ok (blocks, post)) :
    CommitFlagged pre post := by
  rw [linearizeSubDag] at run
  obtain ⟨⟨newly, first⟩, sets, run⟩ := bind_eq_ok.mp run
  obtain ⟨-, run⟩ := ensure_bind_eq_ok.mp run
  obtain ⟨⟨siblings, second⟩, swept, run⟩ := bind_eq_ok.mp run
  obtain ⟨⟨toCommit, third⟩, seen, run⟩ := bind_eq_ok.mp run
  obtain ⟨-, run⟩ := ensure_bind_eq_ok.mp run
  cases run
  exact ((setCommitted_commitFlagged sets).trans (commitLeaderRound_commitFlagged swept)).trans
    (visitBuffer_commitFlagged seen)

lemma linearizeSubDag_flagged
    (run : linearizeSubDag ctx pre leader = .ok (blocks, post)) :
    Flagged pre post :=
  (linearizeSubDag_commitFlagged run).toFlagged

lemma visitBuffer_keeps {fuel : Nat} {toCommit : List VerifiedBlock}
    (run : visitBuffer ctx gcRound fuel buffer toCommit pre = .ok (blocks, post))
    {blk : VerifiedBlock} (mem : blk ∈ toCommit) : blk ∈ blocks := by
  induction fuel generalizing buffer toCommit pre with
  | zero =>
    cases buffer with
    | nil =>
      simp only [visitBuffer, Except.ok.injEq, Prod.mk.injEq] at run
      exact run.1 ▸ mem
    | cons next rest => simp [visitBuffer] at run
  | succ fuel ih =>
    cases buffer with
    | nil =>
      simp only [visitBuffer, Except.ok.injEq, Prod.mk.injEq] at run
      exact run.1 ▸ mem
    | cons next rest =>
      rw [visitBuffer] at run
      obtain ⟨ancestors, -, run⟩ := bind_eq_ok.mp run
      obtain ⟨⟨pushed, mid⟩, -, run⟩ := bind_eq_ok.mp run
      refine ih run ?_
      split
      · exact mem
      · exact List.mem_append_left _ mem

lemma newer_of_linearizeSubDag
    (run : linearizeSubDag ctx pre leader = .ok (blocks, post)) :
    pre.Uncommitted leader.reference ∧ pre.lastCommitRound < leader.round := by
  rw [linearizeSubDag] at run
  obtain ⟨⟨newly, first⟩, set, run⟩ := bind_eq_ok.mp run
  obtain ⟨unset, run⟩ := ensure_bind_eq_ok.mp run
  rw [show newly = true from unset] at set
  refine ⟨setCommitted_eq_true set, ?_⟩
  have sameLast := (setCommitted_flagged set).lastCommit_eq
  obtain ⟨⟨toCommit, second⟩, swept, run⟩ := bind_eq_ok.mp run
  rw [commitLeaderRound] at swept
  by_cases above : pre.gcRound ctx < leader.round
  · rw [if_pos above, getUncommittedBlocksAtRound, bind_assoc] at swept
    obtain ⟨newer, -⟩ := ensure_bind_eq_ok.mp swept
    rw [lastCommitRound, sameLast] at newer
    exact newer
  · rw [if_neg above, pure_ok, Except.ok.injEq, Prod.mk.injEq] at swept
    obtain ⟨rfl, rfl⟩ := swept
    obtain ⟨⟨toCommit, second⟩, seen, run⟩ := bind_eq_ok.mp run
    obtain ⟨young, -⟩ := ensure_bind_eq_ok.mp run
    rw [visitBuffer] at seen
    obtain ⟨ancestors, -, seen⟩ := bind_eq_ok.mp seen
    obtain ⟨⟨pushed, third⟩, -, seen⟩ := bind_eq_ok.mp seen
    have kept : leader ∈ toCommit := visitBuffer_keeps seen (by simp)
    exact absurd (by simpa using List.all_eq_true.mp young leader kept) above

/-- The effect of committing a leader: flags are set, and the next commit is appended. -/
structure Appended (ctx : Context) (pre : DagState) (leader : VerifiedBlock)
    (subDag : CommittedSubDag) (commit : TrustedCommit) (post : DagState) : Prop where
  newer : pre.lastCommitRound < leader.round
  index : commit.index = pre.lastCommitIndex + 1
  leader : commit.leader = leader.reference
  reference : subDag.commitRef = commit.reference
  effect : ∃ linearized rounds, Flagged pre linearized ∧ post = { linearized with
    lastCommit := some commit
    lastCommittedRounds := rounds
    pendingCommitVotes := linearized.pendingCommitVotes ++ [commit.reference]
    commitsToWrite := linearized.commitsToWrite ++ [commit] }

lemma commitLeader_appended {collected subDags : List CommittedSubDag}
    (run : commitLeader ctx (collected, pre) leader = .ok (subDags, post)) :
    ∃ subDag commit, subDags = collected ++ [subDag] ∧
      Appended ctx pre leader subDag commit post := by
  unfold commitLeader collectSubDagAndCommit at run
  rw [bind_assoc] at run
  obtain ⟨⟨toCommit, linearized⟩, lined, run⟩ := bind_eq_ok.mp run
  rw [bind_assoc] at run
  obtain ⟨timestampMs, -, run⟩ := bind_eq_ok.mp run
  rw [pure_ok, ok_bind] at run
  obtain ⟨final, added, run⟩ := bind_eq_ok.mp run
  cases run
  have flagged := linearizeSubDag_flagged lined
  have sameLast := flagged.lastCommit_eq
  refine ⟨_, _, rfl, (newer_of_linearizeSubDag lined).2, rfl, rfl, rfl, ?_⟩
  obtain ⟨stale, -⟩ | ⟨rounds, -, -, rfl⟩ := addCommit_cases added
  · exfalso
    rw [sameLast] at stale
    cases last : pre.lastCommit with
    | none => simp [last] at stale
    | some commit =>
      have next : (nextCommit ctx pre leader timestampMs toCommit).index = commit.index + 1 := by
        simp [nextCommit, TrustedCommit.newTrusted, TrustedCommit.index, lastCommitIndex, last]
      rw [last, Option.any_some, decide_eq_true_eq, next] at stale
      exact Nat.not_succ_le_self _ stale
  · exact ⟨linearized, rounds, flagged, rfl⟩

lemma commitLeader_included {collected subDags : List CommittedSubDag}
    (run : commitLeader ctx (collected, pre) leader = .ok (subDags, post))
    (ref : BlockRef) : (post.recentBlocks[ref]?).map BlockInfo.included =
      (pre.recentBlocks[ref]?).map BlockInfo.included := by
  unfold commitLeader collectSubDagAndCommit at run
  rw [bind_assoc] at run
  obtain ⟨⟨toCommit, linearized⟩, lined, run⟩ := bind_eq_ok.mp run
  rw [bind_assoc] at run
  obtain ⟨timestampMs, -, run⟩ := bind_eq_ok.mp run
  rw [pure_ok, ok_bind] at run
  obtain ⟨final, added, run⟩ := bind_eq_ok.mp run
  cases run
  have marked := linearizeSubDag_commitFlagged lined
  obtain ⟨-, rfl⟩ | ⟨rounds, -, -, rfl⟩ := addCommit_cases added
  · exact marked.included ref
  · exact marked.included ref

end Linearizer

end Mysticeti

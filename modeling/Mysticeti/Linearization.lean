import Mysticeti.DagView
import Mysticeti.Linearizer

/-!
# What linearization computes

The traversal of the linearizer is the stack traversal of the worklist library: nodes
are references, the children of a node are the ancestors of its cached block, and the
barred nodes are those at or below the garbage-collection round and those committed.
`visitBuffer_ok` is that refinement, `linearizeSubDag_ok` the resulting specification:
for a cached uncommitted leader above the last commit whose history is cached,
linearization returns, the sub-dag holds the uncommitted cached blocks of the leader's
round and the uncommitted history of the leader, each once, and exactly their flags are
set.
-/

namespace Mysticeti

open List Option Lib.Outcome Lib.OrderedMap Lib.Worklist Std

namespace DagState

variable {st : DagState} {ref : BlockRef}

lemma isCommitted_of_committed (committed : st.Committed ref) :
    st.isCommitted ref = .ok true := by
  obtain ⟨info, got, flag⟩ := committed
  simp [isCommitted, got, flag]

lemma isCommitted_of_uncommitted (uncommitted : st.Uncommitted ref) :
    st.isCommitted ref = .ok false := by
  obtain ⟨info, got, flag⟩ := uncommitted
  simp [isCommitted, got, flag]

lemma setCommitted_of_uncommitted (uncommitted : st.Uncommitted ref) :
    ∃ post, st.setCommitted ref = .ok (true, post) ∧ Marked st {ref} post := by
  obtain ⟨info, got, flag⟩ := uncommitted
  refine ⟨{ st with recentBlocks :=
    st.recentBlocks.insert ref { info with committed := true } }, ?_, rfl, ?_, ?_⟩
  · simp [setCommitted, got, flag]
  · rintro other rfl
    simp [got]
  · intro other ne
    have apart : compare ref other ≠ .eq := fun same =>
      ne (LawfulEqCmp.eq_of_compare same).symm
    rw [ExtTreeMap.getElem?_insert, if_neg apart]

lemma setCommitted_eq_true {post : DagState}
    (set : st.setCommitted ref = .ok (true, post)) : st.Uncommitted ref := by
  unfold setCommitted at set
  obtain ⟨info, got, rest⟩ := expect_bind_eq_ok.mp set
  cases flag : info.committed with
  | false => exact ⟨info, got, flag⟩
  | true => simp [flag] at rest

end DagState

namespace Linearizer

open DagState

variable {ctx : Context}

/-- Pushing distinct uncommitted ancestors succeeds: they end up on the stack, the last
one on top, and exactly their flags are set. -/
lemma pushAncestors_ok {buffer ancestors : List VerifiedBlock} {st : DagState}
    (uncommitted : ∀ anc ∈ ancestors, st.Uncommitted anc.reference)
    (nodup : (ancestors.map VerifiedBlock.reference).Nodup) :
    ∃ post, pushAncestors buffer st ancestors = .ok (ancestors.reverse ++ buffer, post) ∧
      Marked st {ref | ref ∈ ancestors.map VerifiedBlock.reference} post := by
  induction ancestors generalizing buffer st with
  | nil => exact ⟨st, rfl, by simpa using Marked.refl st⟩
  | cons anc rest ih =>
    obtain ⟨mid, set, marked⟩ := setCommitted_of_uncommitted (uncommitted anc (by simp))
    rw [map_cons, nodup_cons] at nodup
    have restUncommitted : ∀ other ∈ rest, mid.Uncommitted other.reference := by
      intro other mem
      refine (marked.uncommitted_iff _).mpr ⟨uncommitted other (by simp [mem]), ?_⟩
      intro same
      exact nodup.1 (List.mem_map.mpr ⟨other, mem, same⟩)
    have taken : pushAncestor (buffer, st) anc = .ok (anc :: buffer, mid) := by
      simp [pushAncestor, set, ensure]
    obtain ⟨post, run, restMarked⟩ := @ih (anc :: buffer) mid
      restUncommitted nodup.2
    refine ⟨post, ?_, (marked.trans restMarked).congr (by simp)⟩
    rw [pushAncestors, foldlM_step taken, ← pushAncestors, run]
    simp

lemma uncommittedAncestors_ok {st : DagState} (wf : st.WellFormed ctx)
    {gcRound : Round} {blk : VerifiedBlock} {refs : List BlockRef}
    (ancestors : st.links blk.reference = blk.ancestors)
    (cached : ∀ anc ∈ blk.ancestors, gcRound < anc.round → anc ∈ st.recentBlocks)
    (unvisited : refs = fresh st.links (st.barred gcRound) blk.reference) :
    uncommittedAncestors ctx gcRound st blk = .ok (refs.map st.blockAt) := by
  classical
  have tested : ∀ anc ∈ blk.ancestors,
      (if gcRound < anc.round then do
        let committed ← st.isCommitted anc
        pure (!committed)
      else pure false : Except Panic Bool) = .ok (decide (anc ∉ st.barred gcRound)) := by
    intro anc mem
    by_cases above : gcRound < anc.round
    · have notOld : ¬ anc.round ≤ gcRound := Nat.not_le_of_lt above
      rcases committed_or_uncommitted (cached anc mem above) with committed | uncommitted
      · simp [above, isCommitted_of_committed committed, barred, committed]
      · simp [above, isCommitted_of_uncommitted uncommitted, barred, notOld,
          uncommitted.not_committed]
    · simp [above, barred, Nat.le_of_not_lt above]
  have selected : blk.ancestors.filter (fun anc => anc ∉ st.barred gcRound) = refs := by
    rw [unvisited, fresh, ancestors]
  rw [uncommittedAncestors, selectM_ok tested, ok_bind, selected]
  refine mapM_ok fun anc mem => ?_
  rw [← selected, mem_filter, decide_eq_true_eq] at mem
  have above : gcRound < anc.round := Nat.lt_of_not_le fun old => mem.2 (.inl old)
  rw [wf.getBlock_eq (cached anc mem.1 above), expect_some]

structure Visiting (ctx : Context) (gcRound : Round) (st : DagState)
    (buffer toCommit : List VerifiedBlock) : Prop where
  wellFormed : st.WellFormed ctx
  closed : ∀ ref, Reached st.links (st.barred gcRound)
    (buffer.map VerifiedBlock.reference) ref →
    ∀ target ∈ st.links ref, gcRound < target.round → target ∈ st.recentBlocks
  pending : ∀ blk ∈ buffer, st.Committed blk.reference ∧ st.blockAt blk.reference = blk
  collected : ∀ blk ∈ toCommit, st.Committed blk.reference
  distinct : (toCommit.map VerifiedBlock.reference ++ buffer.map VerifiedBlock.reference).Nodup

namespace Visiting

variable {gcRound : Round} {st : DagState} {blk : VerifiedBlock}
  {buffer toCommit : List VerifiedBlock}

variable (visiting : Visiting ctx gcRound st (blk :: buffer) toCommit)

include visiting

lemma fresh_uncommitted {ref : BlockRef}
    (mem : ref ∈ fresh st.links (st.barred gcRound) blk.reference) :
    st.Uncommitted ref := by
  obtain ⟨linked, entered⟩ := mem_fresh.mp mem
  have above : gcRound < ref.round := Nat.lt_of_not_le fun old => entered (.inl old)
  exact uncommitted_of_not_committed
    (visiting.closed _ (Reached.root (by simp)) ref linked above)
    fun committed => entered (.inr committed)

lemma fresh_referenced :
    ((fresh st.links (st.barred gcRound) blk.reference).map st.blockAt).map
      VerifiedBlock.reference = fresh st.links (st.barred gcRound) blk.reference := by
  rw [List.map_map]
  exact (map_congr_left fun ref mem => visiting.wellFormed.blockAt_reference
    (visiting.fresh_uncommitted mem).cached).trans (List.map_id _)

lemma ancestors :
    uncommittedAncestors ctx gcRound st blk =
      .ok ((fresh st.links (st.barred gcRound) blk.reference).map st.blockAt) := by
  obtain ⟨committed, held⟩ := visiting.pending blk (by simp)
  have linksEq : st.links blk.reference = blk.ancestors := by
    rw [links_eq_ancestors committed.cached, held]
  exact uncommittedAncestors_ok visiting.wellFormed linksEq (fun anc mem above =>
    visiting.closed _ (Reached.root (by simp)) anc (linksEq ▸ mem) above) rfl

lemma push :
    ∃ post, pushAncestors buffer st
        ((fresh st.links (st.barred gcRound) blk.reference).map st.blockAt) =
        .ok (((fresh st.links (st.barred gcRound) blk.reference).map
          st.blockAt).reverse ++ buffer, post) ∧
      Marked st {ref | ref ∈ fresh st.links (st.barred gcRound)
        blk.reference} post := by
  have referenced := visiting.fresh_referenced
  obtain ⟨post, pushed, marked⟩ := @pushAncestors_ok buffer
    ((fresh st.links (st.barred gcRound) blk.reference).map st.blockAt) st
    (by
      intro anc mem
      obtain ⟨ref, here, rfl⟩ := List.mem_map.mp mem
      have uncommitted := visiting.fresh_uncommitted here
      rw [visiting.wellFormed.blockAt_reference uncommitted.cached]
      exact uncommitted)
    (by rw [referenced]; exact (visiting.wellFormed.links_nodup _).filter _)
  rw [referenced] at marked
  exact ⟨post, pushed, marked⟩

lemma next {post : DagState}
    (marked : Marked st {ref | ref ∈ fresh st.links (st.barred gcRound)
      blk.reference} post) :
    Visiting ctx gcRound post (((fresh st.links (st.barred gcRound)
      blk.reference).map st.blockAt).reverse ++ buffer) (toCommit ++ [blk]) := by
  have referenced := visiting.fresh_referenced
  have uncommitted : ∀ ref ∈ fresh st.links (st.barred gcRound) blk.reference,
      st.Uncommitted ref := fun _ mem => visiting.fresh_uncommitted mem
  have kept : ∀ ref, st.Committed ref → post.Committed ref :=
    fun ref committed => (marked.committed_iff ref).mpr (.inl committed)
  have barredEq := marked.barred_eq gcRound fun ref mem => (uncommitted ref mem).cached
  refine ⟨marked.flagged.wellFormed visiting.wellFormed, ?_, ?_, ?_, ?_⟩
  · intro ref final target linked above
    rw [marked.flagged.links_eq] at final linked
    rw [barredEq, map_append, map_reverse, referenced] at final
    rw [marked.flagged.mem_iff]
    exact visiting.closed ref (reached_drain_step.mpr (.inr final)) target linked above
  · intro other mem
    rw [marked.flagged.blockAt_eq]
    rcases mem_append.mp mem with mem | mem
    · obtain ⟨ref, here, rfl⟩ := List.mem_map.mp (mem_reverse.mp mem)
      have cached := (uncommitted ref here).cached
      rw [visiting.wellFormed.blockAt_reference cached]
      exact ⟨(marked.committed_iff ref).mpr (.inr ⟨here, cached⟩), rfl⟩
    · obtain ⟨committed, held⟩ := visiting.pending other (by simp [mem])
      exact ⟨kept _ committed, held⟩
  · intro other mem
    rcases mem_append.mp mem with mem | mem
    · exact kept _ (visiting.collected other mem)
    · rw [mem_singleton.mp mem]
      exact kept _ (visiting.pending blk (by simp)).1
  · have freshDistinct : (fresh st.links (st.barred gcRound) blk.reference).reverse.Nodup :=
      nodup_reverse.mpr ((visiting.wellFormed.links_nodup _).filter _)
    have inBuffer : (((fresh st.links (st.barred gcRound) blk.reference).map
        st.blockAt).reverse ++ buffer).map VerifiedBlock.reference =
        (fresh st.links (st.barred gcRound) blk.reference).reverse ++
          buffer.map VerifiedBlock.reference := by
      rw [map_append, map_reverse, referenced]
    have inCommit : ∀ ref ∈ toCommit.map VerifiedBlock.reference ++
        (blk :: buffer).map VerifiedBlock.reference, st.Committed ref := by
      intro ref mem
      rcases mem_append.mp mem with mem | mem <;>
        obtain ⟨other, here, rfl⟩ := List.mem_map.mp mem
      · exact visiting.collected other here
      · exact (visiting.pending other here).1
    rw [inBuffer, (perm_append_comm_assoc _ _ _).nodup_iff, nodup_append]
    refine ⟨freshDistinct, by simpa using visiting.distinct, ?_⟩
    rintro ref mem _ other rfl
    exact (uncommitted ref (mem_reverse.mp mem)).not_committed
      (inCommit ref (by simpa using other))

end Visiting

/-- The traversal of the linearizer is the stack traversal of the links: it collects the
visited blocks in order and sets exactly their flags. -/
lemma visitBuffer_ok {gcRound : Round} {fuel : Nat} {st : DagState}
    {buffer toCommit : List VerifiedBlock} {seen : List BlockRef}
    (visiting : Visiting ctx gcRound st buffer toCommit)
    (run : drain st.links fuel (buffer.map VerifiedBlock.reference) (st.barred gcRound) =
      some seen) :
    ∃ post, visitBuffer ctx gcRound fuel buffer toCommit st =
        .ok (toCommit ++ seen.map st.blockAt, post) ∧
      Marked st {ref | ref ∈ seen} post := by
  induction fuel generalizing st buffer toCommit seen with
  | zero =>
    cases buffer with
    | nil =>
      simp only [map_nil, drain, some.injEq] at run
      subst run
      exact ⟨st, by simp [visitBuffer], by simpa using Marked.refl st⟩
    | cons blk buffer => simp [drain] at run
  | succ fuel ih =>
    cases buffer with
    | nil =>
      simp only [map_nil, drain, some.injEq] at run
      subst run
      exact ⟨st, by simp [visitBuffer], by simpa using Marked.refl st⟩
    | cons blk buffer =>
      simp only [map_cons, drain, map_eq_some_iff] at run
      obtain ⟨remaining, run, rfl⟩ := run
      obtain ⟨mid, pushed, marked⟩ := visiting.push
      obtain ⟨committed, held⟩ := visiting.pending blk (by simp)
      have barredEq := marked.barred_eq gcRound fun ref mem =>
        (visiting.fresh_uncommitted mem).cached
      have resumed : drain mid.links fuel (((fresh st.links (st.barred gcRound)
          blk.reference).map st.blockAt).reverse ++ buffer |>.map VerifiedBlock.reference)
          (mid.barred gcRound) = some remaining := by
        rw [marked.flagged.links_eq, barredEq, map_append, map_reverse, visiting.fresh_referenced]
        exact run
      obtain ⟨post, remainingRun, remainingMarked⟩ := ih (visiting.next marked) resumed
      refine ⟨post, ?_, ?_⟩
      · have notCollected : (toCommit.any fun other => other.reference = blk.reference) =
            false := by
          have nodup := visiting.distinct
          rw [map_cons, nodup_append] at nodup
          simp only [List.any_eq_false, decide_eq_true_eq]
          exact fun other mem => nodup.2.2 _ (List.mem_map_of_mem mem) _ (by simp)
        rw [visitBuffer, notCollected, visiting.ancestors, ok_bind, pushed, ok_bind]
        simp only [Bool.false_eq_true, if_false]
        rw [remainingRun, marked.flagged.blockAt_eq, map_cons, held, append_assoc, singleton_append]
      · have popped : ∀ ref ∈ ({blk.reference} : Set BlockRef), st.Committed ref := by
          rintro _ rfl
          exact committed
        refine ((marked.trans remainingMarked).union_committed popped).congr fun ref => ?_
        have included : ref ∈ fresh st.links (st.barred gcRound) blk.reference →
            ref ∈ remaining := fun mem => mem_drain_of_pending run (by simp [mem])
        simp only [Set.mem_union, Set.mem_ofPred_eq, Set.mem_singleton_iff, mem_cons]
        tauto

lemma commitRoundBlocks_ok {collected blocks : List VerifiedBlock} {st : DagState}
    (cached : ∀ blk ∈ blocks, blk.reference ∈ st.recentBlocks)
    (nodup : (blocks.map VerifiedBlock.reference).Nodup) :
    ∃ newly post, blocks.foldlM commitRoundBlock (collected, st) =
        .ok (collected ++ newly, post) ∧ newly.Sublist blocks ∧
      (∀ blk ∈ blocks, blk ∈ newly ↔ st.Uncommitted blk.reference) ∧
      Marked st {ref | ref ∈ newly.map VerifiedBlock.reference} post := by
  induction blocks generalizing collected st with
  | nil => exact ⟨[], st, by simp, by simp, by simp, by simpa using Marked.refl st⟩
  | cons blk rest ih =>
    rw [map_cons, nodup_cons] at nodup
    have notLater : ∀ other ∈ rest, other.reference ≠ blk.reference := fun other mem same =>
      nodup.1 (same ▸ List.mem_map_of_mem mem)
    have restCached : ∀ other ∈ rest, other.reference ∈ st.recentBlocks :=
      fun other mem => cached other (by simp [mem])
    rcases committed_or_uncommitted (cached blk (by simp)) with committed | uncommitted
    · have taken : commitRoundBlock (collected, st) blk = .ok (collected, st) := by
        simp [commitRoundBlock, isCommitted_of_committed committed]
      obtain ⟨newly, post, run, sublist, members, marked⟩ := @ih collected st restCached nodup.2
      refine ⟨newly, post, (foldlM_step taken).trans run, sublist.cons blk, ?_, marked⟩
      intro other mem
      rcases mem_cons.mp mem with rfl | mem
      · refine ⟨fun here => absurd rfl (notLater other (sublist.subset here)), ?_⟩
        exact fun unset => absurd committed unset.not_committed
      · exact members other mem
    · obtain ⟨mid, set, markedFirst⟩ := setCommitted_of_uncommitted uncommitted
      have taken : commitRoundBlock (collected, st) blk = .ok (collected ++ [blk], mid) := by
        simp [commitRoundBlock, isCommitted_of_uncommitted uncommitted, set]
      obtain ⟨newly, post, run, sublist, members, marked⟩ :=
        @ih (collected ++ [blk]) mid
          (fun other mem => (markedFirst.flagged.mem_iff _).mpr (restCached other mem))
          nodup.2
      refine ⟨blk :: newly, post, ?_, sublist.cons_cons blk, ?_, ?_⟩
      · rw [foldlM_step taken, run, append_assoc, singleton_append]
      · intro other mem
        rcases mem_cons.mp mem with rfl | mem
        · exact ⟨fun _ => uncommitted, fun _ => mem_cons_self⟩
        · have ne : other ≠ blk := fun same => notLater other mem (same ▸ rfl)
          rw [mem_cons, or_iff_right ne, members other mem, markedFirst.uncommitted_iff]
          exact and_iff_left (notLater other mem)
      · exact (markedFirst.trans marked).congr (by simp)

/-- What the traversal from a leader of some round never enters: garbage, committed
blocks, and anything of that round or above. -/
def offLimits (ctx : Context) (st : DagState) (round : Round) : Set BlockRef :=
  st.barred (st.gcRound ctx) ∪ {ref | round ≤ ref.round}

/-- What linearization of a leader does: which siblings of its round are swept in,
which references the traversal visits, in which order, and whose flags are set. -/
structure Linearized (ctx : Context) (pre : DagState) (leader : VerifiedBlock)
    (siblings seen : List BlockRef) (post : DagState) : Prop where
  increasing : siblings.Pairwise fun first second => compare first second = .lt
  sibling : ∀ ref, ref ∈ siblings ↔
    pre.Uncommitted ref ∧ ref.round = leader.round ∧ ref ≠ leader.reference
  visits : drain pre.links (pre.recentBlocks.size + 1) [leader.reference]
    (offLimits ctx pre leader.round) = some seen
  marked : Marked pre {ref | ref ∈ siblings ∨ ref ∈ seen} post

/-- A leader that may be committed: cached, uncommitted, above the last commit, with its
history cached. -/
structure Committable (ctx : Context) (st : DagState) (leader : VerifiedBlock) : Prop where
  wellFormed : st.WellFormed ctx
  uncommitted : st.Uncommitted leader.reference
  held : st.blockAt leader.reference = leader
  newer : st.lastCommitRound < leader.round
  history : st.HistoryCached ctx leader.reference

lemma gcRound_le_lastCommitRound (ctx : Context) (st : DagState) :
    st.gcRound ctx ≤ st.lastCommitRound := Nat.sub_le _ _

namespace Committable

variable {st : DagState} {leader : VerifiedBlock}

variable (ready : Committable ctx st leader)

include ready

lemma above : st.gcRound ctx < leader.round :=
  Nat.lt_of_le_of_lt (gcRound_le_lastCommitRound ctx st) ready.newer

lemma reached_iff (ref : BlockRef) :
    Reached st.links (offLimits ctx st leader.round) [leader.reference] ref ↔
      Reached st.links (st.barred (st.gcRound ctx)) [leader.reference] ref := by
  constructor
  · exact fun final => final.mono Set.subset_union_left fun _ mem => Reached.root mem
  · intro final
    refine (final.induct (motive := fun target =>
      Reached st.links (offLimits ctx st leader.round) [leader.reference] target ∧
        target.round ≤ leader.round) ?_ ?_).1
    · intro root mem
      have same := mem_singleton.mp mem
      subst same
      exact ⟨Reached.root mem, Nat.le_refl _⟩
    · rintro source target ⟨got, bounded⟩ linked entered
      have lower := ready.wellFormed.links_round linked
      have below : target.round < leader.round := Nat.lt_of_lt_of_le lower bounded
      refine ⟨got.next linked ?_, Nat.le_of_lt below⟩
      rintro (isBarred | high)
      · exact entered isBarred
      · exact Nat.not_le_of_lt below high

lemma visits :
    ∃ seen, drain st.links (st.recentBlocks.size + 1) [leader.reference]
        (offLimits ctx st leader.round) = some seen ∧ seen.Nodup ∧
      ∀ ref, ref ∈ seen ↔
        Reached st.links (st.barred (st.gcRound ctx)) [leader.reference]
          ref := by
  obtain ⟨seen, run, nodup, members⟩ := @drain_spec BlockRef [leader.reference]
    st.recentBlocks.keys.toFinset st.links (st.recentBlocks.size + 1)
    (offLimits ctx st leader.round) (by simp [offLimits]) (by simp)
    (fun ref _ => ready.wellFormed.links_nodup ref)
    (by
      intro ref final target linked entered
      rw [List.mem_toFinset, ExtTreeMap.mem_keys]
      exact ready.history.2 _ ((ready.reached_iff ref).mp final) _ linked
        (Nat.lt_of_not_le fun old => entered (.inl (.inl old))))
    (by
      refine Nat.add_le_add_right ((remaining_card_le _ _).trans ?_) 1
      exact (toFinset_card_le _).trans ExtTreeMap.length_keys.le)
  exact ⟨seen, run, nodup, fun ref => (members ref).trans (ready.reached_iff ref)⟩

/-- After the leader and siblings of its round were flagged, the traversal of the leader
makes the same visits as in the state before. -/
lemma drain_after {post : DagState} {marks : Set BlockRef} (marked : Marked st marks post)
    (sameRound : ∀ ref ∈ marks, ref.round = leader.round) (fuel : Nat) :
    drain post.links fuel [leader.reference] (post.barred (st.gcRound ctx)) =
      drain st.links fuel [leader.reference] (offLimits ctx st leader.round) := by
  rw [marked.flagged.links_eq]
  have lower : ∀ node, node.round ≤ leader.round → ∀ child ∈ st.links node,
      child.round < leader.round := fun node bounded child linked =>
    Nat.lt_of_lt_of_le (ready.wellFormed.links_round linked) bounded
  refine drain_congr (fun node => node.round ≤ leader.round) ?_ (fun _ _ => rfl) ?_ ?_
  · intro node mem
    rw [mem_singleton.mp mem]
    exact Nat.le_refl _
  · intro node bounded child linked
    have below := lower node bounded child linked
    have unmarked : child ∉ marks := fun mem => Nat.ne_of_lt below (sameRound child mem)
    have notHigh : ¬ leader.round ≤ child.round := Nat.not_le_of_lt below
    simp [offLimits, barred, marked.committed_iff, unmarked, notHigh]
  · exact fun node bounded child linked _ => Nat.le_of_lt (lower node bounded child linked)

lemma roundBlocks {post : DagState} (marked : Marked st {leader.reference} post) :
    ∃ blocks, post.getUncommittedBlocksAtRound leader.round = .ok blocks ∧
      (blocks.map VerifiedBlock.reference).Pairwise
        (fun first second => compare first second = .lt) ∧
      ∀ blk, blk ∈ blocks ↔ blk.reference ∈ st.recentBlocks ∧
        blk.round = leader.round ∧ st.blockAt blk.reference = blk := by
  have wf := marked.flagged.wellFormed ready.wellFormed
  refine ⟨(scan post.recentBlocks fun ref => ref.round = leader.round).map
    BlockInfo.block, ?_, ?_, ?_⟩
  · have newer : post.lastCommitRound < leader.round := by
      rw [lastCommitRound, marked.flagged.lastCommit_eq]
      exact ready.newer
    rw [getUncommittedBlocksAtRound, ensure_holds _ newer, ok_bind]
    rfl
  · rw [List.map_map, pairwise_map]
    exact scan_increasing (fun info : BlockInfo => info.block.reference)
      fun ref info _ got => wf.keyed ref info got
  · intro blk
    simp only [List.mem_map, mem_scan, decide_eq_true_eq]
    constructor
    · rintro ⟨info, ⟨ref, sameRound, got⟩, rfl⟩
      obtain ⟨old, cached, same⟩ := marked.flagged.lookup got
      have keyed : info.block.reference = ref := wf.keyed ref info got
      refine ⟨?_, ?_, ?_⟩
      · rw [keyed]
        exact mem_recentBlocks.mpr ⟨old, cached⟩
      · rw [← VerifiedBlock.reference_round, keyed, sameRound]
      · rw [keyed, blockAt_of_cached cached, same]
    · rintro ⟨cached, sameRound, held⟩
      obtain ⟨info, got⟩ := mem_recentBlocks.mp ((marked.flagged.mem_iff _).mpr cached)
      refine ⟨info, ⟨blk.reference, sameRound, got⟩, ?_⟩
      rw [← blockAt_of_cached got, marked.flagged.blockAt_eq, held]

end Committable

/-- The leader and the uncommitted cached siblings of its round were flagged; the
siblings are collected in reference order. -/
structure Swept (st : DagState) (leader : VerifiedBlock) (newly : List VerifiedBlock)
    (post : DagState) : Prop where
  increasing : (newly.map VerifiedBlock.reference).Pairwise
    fun first second => compare first second = .lt
  spec : ∀ blk, blk ∈ newly ↔ st.Uncommitted blk.reference ∧
    blk.round = leader.round ∧ st.blockAt blk.reference = blk ∧
    blk.reference ≠ leader.reference
  marked : Marked st ({leader.reference} ∪
    {ref | ref ∈ newly.map VerifiedBlock.reference}) post

namespace Committable

variable {st : DagState} {leader : VerifiedBlock}

lemma sweep (ready : Committable ctx st leader) :
    ∃ first blocks newly second, st.setCommitted leader.reference = .ok (true, first) ∧
      first.getUncommittedBlocksAtRound leader.round = .ok blocks ∧
      commitRoundBlocks first blocks = .ok (newly, second) ∧
      Swept st leader newly second := by
  obtain ⟨first, set, markedLeader⟩ := setCommitted_of_uncommitted ready.uncommitted
  obtain ⟨blocks, here, increasing, blocksSpec⟩ := ready.roundBlocks markedLeader
  obtain ⟨newly, second, swept, sublist, members, markedNewly⟩ :=
    @commitRoundBlocks_ok [] blocks first
      (fun blk mem => (markedLeader.flagged.mem_iff _).mpr ((blocksSpec blk).mp mem).1)
      (nodup_of_increasing increasing)
  refine ⟨first, blocks, newly, second, set, here, swept,
    increasing.sublist (sublist.map _), fun blk => ?_, markedLeader.trans markedNewly⟩
  constructor
  · intro mem
    obtain ⟨_, sameRound, held⟩ := (blocksSpec blk).mp (sublist.subset mem)
    have unset := (markedLeader.uncommitted_iff _).mp
      ((members blk (sublist.subset mem)).mp mem)
    exact ⟨unset.1, sameRound, held, unset.2⟩
  · rintro ⟨uncommitted, sameRound, held, ne⟩
    have inRound := (blocksSpec blk).mpr ⟨uncommitted.cached, sameRound, held⟩
    exact (members blk inRound).mpr ((markedLeader.uncommitted_iff _).mpr
      ⟨uncommitted, ne⟩)

end Committable

namespace Swept

variable {st post : DagState} {leader : VerifiedBlock} {newly : List VerifiedBlock}

variable (swept : Swept st leader newly post)

include swept

lemma sameRound :
    ∀ ref ∈ ({leader.reference} : Set BlockRef) ∪
      {ref | ref ∈ newly.map VerifiedBlock.reference},
      ref.round = leader.round := by
  rintro ref (rfl | mem)
  · rfl
  · obtain ⟨blk, here, rfl⟩ := List.mem_map.mp mem
    exact ((swept.spec blk).mp here).2.1

lemma mem_references (wf : st.WellFormed ctx) (ref : BlockRef) :
    ref ∈ newly.map VerifiedBlock.reference ↔ st.Uncommitted ref ∧
      ref.round = leader.round ∧ ref ≠ leader.reference := by
  constructor
  · intro mem
    obtain ⟨blk, here, rfl⟩ := List.mem_map.mp mem
    obtain ⟨uncommitted, sameRound, -, ne⟩ := (swept.spec blk).mp here
    exact ⟨uncommitted, sameRound, ne⟩
  · rintro ⟨uncommitted, sameRound, ne⟩
    have same := wf.blockAt_reference uncommitted.cached
    refine List.mem_map.mpr ⟨st.blockAt ref, (swept.spec _).mpr ?_, same⟩
    rw [same, ← VerifiedBlock.reference_round, same]
    exact ⟨uncommitted, sameRound, rfl, ne⟩

lemma map_blockAt : (newly.map VerifiedBlock.reference).map st.blockAt = newly := by
  rw [List.map_map]
  exact (map_congr_left fun blk mem => ((swept.spec blk).mp mem).2.2.1).trans (List.map_id newly)

lemma visiting (ready : Committable ctx st leader) :
    Visiting ctx (st.gcRound ctx) post [leader] newly := by
  have flagged : ∀ ref ∈ ({leader.reference} : Set BlockRef) ∪
      {ref | ref ∈ newly.map VerifiedBlock.reference},
      st.Uncommitted ref → post.Committed ref :=
    fun ref mem uncommitted => (swept.marked.committed_iff _).mpr (.inr ⟨mem, uncommitted.cached⟩)
  refine ⟨swept.marked.flagged.wellFormed ready.wellFormed, ?_, ?_, ?_, ?_⟩
  · intro ref final target linked above
    rw [swept.marked.flagged.mem_iff]
    rw [swept.marked.flagged.links_eq] at final linked
    refine ready.history.2 _ (final.mono ?_ fun _ mem => Reached.root mem) _
      linked above
    rintro other (old | committed)
    · exact .inl old
    · exact .inr ((swept.marked.committed_iff other).mpr (.inl committed))
  · intro blk mem
    rw [mem_singleton.mp mem, swept.marked.flagged.blockAt_eq]
    exact ⟨flagged _ (.inl rfl) ready.uncommitted, ready.held⟩
  · intro blk mem
    exact flagged _ (.inr (List.mem_map_of_mem mem)) ((swept.spec blk).mp mem).1
  · refine nodup_append.mpr ⟨nodup_of_increasing swept.increasing, by simp, ?_⟩
    rintro _ mem _ isLeader rfl
    obtain ⟨blk, here, same⟩ := List.mem_map.mp mem
    exact ((swept.spec blk).mp here).2.2.2 (same.trans (mem_singleton.mp isLeader))

end Swept

namespace Committable

variable {st : DagState} {leader : VerifiedBlock}

lemma linearizeSubDag_ok (ready : Committable ctx st leader) :
    ∃ siblings seen post, linearizeSubDag ctx st leader =
        .ok (sortSubDagBlocks ((siblings ++ seen).map st.blockAt), post) ∧
      Linearized ctx st leader siblings seen post := by
  obtain ⟨first, blocks, newly, second, set, here, collected, swept⟩ := ready.sweep
  obtain ⟨seen, visits, -, visitedSpec⟩ := ready.visits
  obtain ⟨post, run, markedVisited⟩ := visitBuffer_ok (swept.visiting ready)
    ((ready.drain_after swept.marked swept.sameRound _).trans visits)
  have siblingSpec := swept.mem_references ready.wellFormed
  have blocksEq : newly ++ seen.map second.blockAt =
      (newly.map VerifiedBlock.reference ++ seen).map st.blockAt := by
    rw [map_append, swept.map_blockAt, swept.marked.flagged.blockAt_eq]
  have young : ((newly.map VerifiedBlock.reference ++ seen).map st.blockAt).all
      (fun blk => st.gcRound ctx < blk.round) := by
    rw [List.all_eq_true]
    intro blk mem
    obtain ⟨ref, here, rfl⟩ := List.mem_map.mp mem
    rw [decide_eq_true_eq]
    rcases mem_append.mp here with sibling | visit
    · obtain ⟨uncommitted, sameRound, -⟩ := (siblingSpec ref).mp sibling
      rw [← VerifiedBlock.reference_round,
        ready.wellFormed.blockAt_reference uncommitted.cached, sameRound]
      exact ready.above
    · have final := (visitedSpec ref).mp visit
      rw [← VerifiedBlock.reference_round,
        ready.wellFormed.blockAt_reference (ready.history.reached final)]
      rcases final.root_or_unbarred with isLeader | unbarred
      · rw [mem_singleton.mp isLeader]
        exact ready.above
      · exact Nat.lt_of_not_le fun old => unbarred (.inl old)
  refine ⟨newly.map VerifiedBlock.reference, seen, post, ?_,
    swept.increasing, siblingSpec, visits, ?_⟩
  · have fuelEq : second.recentBlocks.size = st.recentBlocks.size := swept.marked.flagged.size_eq
    simp only [linearizeSubDag, set, ok_bind, ensure_holds, commitLeaderRound,
      if_pos ready.above, here, collected, fuelEq, run, blocksEq, young, pure_ok]
  · refine (swept.marked.trans markedVisited).congr fun ref => ?_
    have leaderVisited : leader.reference ∈ seen := mem_drain_of_pending visits (by simp)
    simp only [Set.mem_union, Set.mem_singleton_iff, Set.mem_ofPred_eq]
    constructor
    · rintro ((rfl | sibling) | visit)
      · exact .inr leaderVisited
      · exact .inl sibling
      · exact .inr visit
    · rintro (sibling | visit)
      · exact .inl (.inr sibling)
      · exact .inr visit

end Committable

end Linearizer

end Mysticeti

import Mysticeti.CacheRuns
import Mysticeti.StoredCommits

/-!
# The own blocks of a node

A node proposes above the last of its own cached blocks. For this to be above every own block
that was ever handed out, the last one has to survive flushes and restarts. It does when at
least one round is kept: a flush stores everything and evicts nothing of the last own round,
and a restart reads the last stored own round back.

In the last rounds there is one own block at most. An own block that comes from a peer is
refused when its slot is taken, as far as the cache tells; the own blocks from the last stored
round on are all cached.
-/

namespace Mysticeti

open List Option Lib.Outcome Lib.OrderedMap

namespace DagState

variable {ctx : Context} {pre post st : DagState} {ref other : BlockRef}

/-- An own block that was accepted, flushed or not. -/
def Own (ctx : Context) (st : DagState) (ref : BlockRef) : Prop :=
  ref ∈ st.written.blocks ∧ ref.author = ctx.ownIndex

/-- No stored own block is of a later round. -/
def Latest (ctx : Context) (st : DagState) (ref : BlockRef) : Prop :=
  ∀ stored ∈ st.store.blocks, stored.author = ctx.ownIndex → stored.round ≤ ref.round

/-- What holds of the own blocks in every state. -/
structure OwnsTip (ctx : Context) (st : DagState) : Prop where
  upheld : Upheld ctx st
  buffered : ∀ blk ∈ st.blocksToWrite, blk.reference ∈ st.recentBlocks
  positive : ∀ ref ∈ st.written.blocks, ref.round ≠ 0
  agree : ∀ (ref : BlockRef) (info : BlockInfo),
    st.recentBlocks[ref]? = some info → st.written.blocks[ref]? = some info.block
  below : ∀ ref, Own ctx st ref → ref.round ≤ st.lastCachedRound ctx.ownIndex
  unique : ∀ ref other, Own ctx st ref → Own ctx st other →
    ref.round = other.round → Latest ctx st ref → ref = other
  fresh : ∀ ref, Own ctx st ref → Latest ctx st ref → ref ∈ st.recentBlocks

lemma held_iff : st.Held ref ↔ ref ∈ st.written.blocks := mem_insertAll.symm

lemma initial_ownsTip (ctx : Context) : OwnsTip ctx initial where
  upheld := initial_upheld ctx
  buffered blk listed := by simp [initial] at listed
  positive ref mem := by simp [written, initial, Store.write, insertAll, Store.empty] at mem
  agree ref info got := by simp [initial] at got
  below ref own := by simp [Own, written, initial, Store.write, insertAll, Store.empty] at own
  unique ref other own := by
    simp [Own, written, initial, Store.write, insertAll, Store.empty] at own
  fresh ref own := by simp [Own, written, initial, Store.write, insertAll, Store.empty] at own

namespace OwnsTip

lemma of_sameBlocks (tip : OwnsTip ctx pre) (same : SameBlocks ctx pre post)
    (sameEvicted : post.evictedRounds = pre.evictedRounds) : OwnsTip ctx post := by
  have sameWritten : post.written.blocks = pre.written.blocks := by
    simp only [written, Store.write, same.store, same.buffer]
  have sameLast : post.lastCachedRound ctx.ownIndex = pre.lastCachedRound ctx.ownIndex := by
    unfold lastCachedRound
    rw [same.refs]
  have latest : ∀ ref, Latest ctx post ref → Latest ctx pre ref := by
    intro ref latest
    unfold Latest at latest
    rw [same.store] at latest
    exact latest
  have own : ∀ ref, Own ctx post ref → Own ctx pre ref := by
    intro ref own
    unfold Own at own
    rw [sameWritten] at own
    exact own
  constructor
  · exact (tip.upheld.of_sameBlocks same sameEvicted).upheld
  · rw [same.buffer]
    exact fun blk listed => same.mem_iff.mpr (tip.buffered blk listed)
  · rw [sameWritten]
    exact tip.positive
  · intro ref info got
    have blocks := same.blocks ref
    rw [got] at blocks
    obtain ⟨old, foundOld, sameBlock⟩ := map_eq_some_iff.mp blocks.symm
    rw [sameWritten, tip.agree ref old foundOld, sameBlock]
  · intro ref owned
    rw [sameLast]
    exact tip.below ref (own ref owned)
  · intro ref other owned otherOwned sameRound last
    exact tip.unique ref other (own ref owned) (own other otherOwned) sameRound
      (latest ref last)
  · intro ref owned last
    exact same.mem_iff.mpr (tip.fresh ref (own ref owned) (latest ref last))

lemma containsBlock (tip : OwnsTip ctx st) (own : Own ctx st ref) :
    st.containsBlock ctx ref = true := by
  obtain ⟨acc, author⟩ := own
  have below := tip.below ref ⟨acc, author⟩
  have pos := tip.positive ref acc
  rcases held_iff.mpr acc with ⟨blk, listed, rfl⟩ | stored
  · exact tip.upheld.kept.indexed.containsBlock (tip.buffered blk listed)
  unfold DagState.containsBlock
  rw [author]
  dsimp only
  split
  · rfl
  · unfold lastCachedRound at below
    cases got : last (st.recentRefsByAuthority ctx.ownIndex) with
    | none =>
      rw [got] at below
      exact absurd (Nat.le_zero.mp below) pos
    | some highest =>
      rw [got, map_some, getD_some] at below
      dsimp only
      rw [if_neg (Nat.not_lt_of_le below)]
      exact Std.ExtTreeMap.mem_iff_contains.mp stored

variable {blk : VerifiedBlock}

lemma acceptBlock (tip : OwnsTip ctx pre)
    (run : pre.acceptBlock ctx blk = .ok post) : OwnsTip ctx post := by
  have upholds := (tip.upheld.acceptBlock run).1
  obtain ⟨pos, ⟨-, rfl⟩ | ⟨unknown, free, inside, same⟩⟩ := acceptBlock_cases run
  · exact tip
  have sameWritten : post.written.blocks = pre.written.blocks.insert blk.reference blk := by
    rw [same]
    simp [written, accepted, Store.write, insertAll]
  have sameStore : post.store = pre.store := by
    rw [same]
    rfl
  have latest : ∀ ref, Latest ctx post ref → Latest ctx pre ref := by
    intro ref last
    unfold Latest at last
    rw [sameStore] at last
    exact last
  have mem : ∀ ref, Own ctx post ref → ref = blk.reference ∨ Own ctx pre ref := by
    rintro ref ⟨listed, author⟩
    rw [sameWritten, mem_insertKey_iff] at listed
    exact listed.imp_right fun old => ⟨old, author⟩
  have cached : ∀ ref, ref ∈ post.recentBlocks ↔ ref = blk.reference ∨ ref ∈ pre.recentBlocks := by
    intro ref
    rw [same]
    exact mem_accepted
  -- an own block of the slot would be cached, and the slot would be taken
  have alone : ∀ ref, Own ctx pre ref →
      ref.round = blk.round → blk.author = ctx.ownIndex →
      Latest ctx pre ref → False := by
    intro ref own sameRound author last
    have taken := tip.fresh ref own last
    obtain ⟨info, got⟩ := mem_recentBlocks.mp taken
    have slot : info.block ∈ pre.getUncommittedBlocksAtSlot blk.slot := by
      refine List.mem_map.mpr ⟨info, mem_scan.mpr ⟨ref, ?_, got⟩, rfl⟩
      simp [VerifiedBlock.slot, sameRound, own.2, author]
    rw [free author] at slot
    cases slot
  constructor
  · exact upholds.upheld
  · intro other listed
    rw [same] at listed
    rcases mem_append.mp listed with old | new
    · exact (cached _).mpr (.inr (tip.buffered other old))
    · rw [mem_singleton.mp new]
      exact (cached _).mpr (.inl rfl)
  · intro ref listed
    rw [sameWritten, mem_insertKey_iff] at listed
    rcases listed with rfl | old
    · exact pos
    · exact tip.positive ref old
  · intro ref info got
    rw [sameWritten]
    rw [same, accepted_lookup] at got
    split at got
    · rename_i here
      cases got
      rw [← here]
      simp
      rfl
    · rename_i apart
      rw [getElem?_insert_of_ne fun here => apart here.symm]
      exact tip.agree ref info got
  · intro ref own
    rcases mem ref own with rfl | old
    · refine round_le_lastCachedRound ?_
      rw [upholds.upheld.kept.indexed]
      exact ⟨(cached _).mpr (.inl rfl), own.2⟩
    · refine (tip.below ref old).trans (lastCachedRound_le ?_)
      intro top listed _
      obtain ⟨old, author⟩ := (tip.upheld.kept.indexed _ top).mp listed
      exact (upholds.upheld.kept.indexed _ top).mpr ⟨(cached top).mpr (.inr old), author⟩
  · intro ref other own otherOwn sameRound last
    rcases mem ref own with rfl | old
    · rcases mem other otherOwn with rfl | otherOld
      · rfl
      · have otherLast : Latest ctx pre other := by
          intro stored listed author
          rw [← sameRound]
          exact latest _ last stored listed author
        exact (alone other otherOld sameRound.symm own.2 otherLast).elim
    · rcases mem other otherOwn with rfl | otherOld
      · exact (alone ref old sameRound otherOwn.2 (latest _ last)).elim
      · exact tip.unique ref other old otherOld sameRound (latest _ last)
  · intro ref own last
    rcases mem ref own with rfl | old
    · exact (cached _).mpr (.inl rfl)
    · exact (cached _).mpr (.inr (tip.fresh ref old (latest _ last)))

lemma flush (keeps : 1 ≤ ctx.dagStateCachedRounds) (tip : OwnsTip ctx pre) :
    OwnsTip ctx (pre.flush ctx) := by
  have upholds := tip.upheld.flush keeps
  have flushed := @flush_flushed ctx pre tip.upheld.kept.indexed
  have sameStore : (pre.flush ctx).store.blocks = pre.written.blocks := by
    rw [flushed.frame]
    rfl
  have sameWritten : (pre.flush ctx).written.blocks = pre.written.blocks := by
    rw [flushed.frame]
    rfl
  have own : ∀ ref, Own ctx (pre.flush ctx) ref → Own ctx pre ref := by
    rintro ref ⟨listed, author⟩
    rw [sameWritten] at listed
    exact ⟨listed, author⟩
  -- what comes after every stored block came after every stored block before
  have latest : ∀ ref, Latest ctx (pre.flush ctx) ref → Latest ctx pre ref := by
    intro ref last stored listed author
    refine last stored ?_ author
    rw [sameStore]
    exact held_iff.mp (.inr listed)
  constructor
  · exact upholds.upheld
  · rw [flushed.frame]
    exact fun _ listed => (not_mem_nil listed).elim
  · rw [sameWritten]
    exact tip.positive
  · intro ref info got
    rw [sameWritten]
    exact tip.agree ref info (flushed.found ref info got)
  · intro ref owned
    exact (tip.below ref (own ref owned)).trans
      (lastCachedRound_flush keeps tip.upheld.kept.indexed ctx.ownIndex)
  · intro ref other owned otherOwned sameRound last
    exact tip.unique ref other (own _ owned) (own _ otherOwned) sameRound (latest _ last)
  · intro ref owned last
    have cached := tip.fresh ref (own _ owned) (latest _ last)
    obtain ⟨info, got⟩ := mem_recentBlocks.mp cached
    have highest : pre.lastCachedRound ctx.ownIndex ≤ ref.round := by
      rcases pre.lastCachedRound_cases ctx.ownIndex with none | ⟨top, listed, round⟩
      · rw [none]
        exact Nat.zero_le _
      · obtain ⟨topCached, author⟩ := (tip.upheld.kept.indexed _ top).mp listed
        rw [← round]
        refine last top ?_ author
        rw [sameStore]
        exact held_iff.mp (tip.upheld.held top topCached)
    have pos := tip.positive ref (own _ owned).1
    have sameRound : pre.lastCachedRound ctx.ownIndex = ref.round :=
      Nat.le_antisymm highest (tip.below ref (own _ owned))
    have proposed : pre.lastCachedRound ctx.ownIndex ≠ 0 := by
      rw [sameRound]
      exact pos
    have above := evictionRound_lt keeps proposed
    rw [sameRound, ← owned.2] at above
    rw [mem_recentBlocks, flushed.kept ref above]
    exact ⟨info, got⟩

lemma restart (keeps : 1 ≤ ctx.dagStateCachedRounds) (tip : OwnsTip ctx pre)
    (run : DagState.new ctx pre.store = .ok post) : OwnsTip ctx post := by
  have keyed : pre.store.Keyed := fun ref blk got => (tip.upheld.kept.stored ref blk got).1
  obtain ⟨upheld, sameStore⟩ := tip.upheld.restart keeps run
  obtain ⟨rounds, subdags, scoringSubdag, loaded, -, -, loads, flagged⟩ :=
    (new_recovered keyed run).phases
  have same := (@Flagged.sameBlocks ctx _ _ flagged).1
  have empty : post.blocksToWrite = [] := by
    rw [same.buffer, loads.frame]
    rfl
  have sameWritten : post.written.blocks = pre.store.blocks := by
    rw [written, Store.write, empty, sameStore]
    rfl
  have own : ∀ ref, Own ctx post ref → ref ∈ pre.store.blocks ∧ Own ctx pre ref := by
    rintro ref ⟨listed, author⟩
    rw [sameWritten] at listed
    exact ⟨listed, held_iff.mp (.inr listed), author⟩
  have latest : ∀ ref, Latest ctx post ref → Latest ctx pre ref := by
    intro ref last
    unfold Latest at last
    rw [sameStore] at last
    exact last
  have mem : ∀ ref ∈ pre.store.blocks, ref.author ∈ ctx.committee.indices := by
    intro ref stored
    obtain ⟨blk, got⟩ := getElem?_of_mem stored
    obtain ⟨rfl, inside, -⟩ := tip.upheld.kept.stored ref blk got
    exact mem_range.mpr inside
  constructor
  · exact upheld
  · rw [empty]
    exact fun _ listed => (not_mem_nil listed).elim
  · rw [sameWritten]
    exact fun ref stored => tip.positive ref (held_iff.mp (.inr stored))
  · intro ref info got
    have blocks := same.blocks ref
    rw [got] at blocks
    obtain ⟨old, foundOld, sameBlock⟩ := map_eq_some_iff.mp blocks.symm
    rcases loads.found ref old foundOld with none | ⟨-, -, blk, stored, rfl⟩
    · simp [unloaded, initial] at none
    · rw [sameWritten, ← sameBlock]
      exact stored
  · intro ref owned
    obtain ⟨stored, -, author⟩ := own ref owned
    have final := @stored_le_lastCachedRound ctx
      (unloaded pre.store rounds scoringSubdag) ref keeps loaded keyed initial_indexed
      loads (mem ref stored) stored
    rw [author] at final
    unfold lastCachedRound at final ⊢
    rw [same.refs]
    exact final
  · intro ref other owned otherOwned sameRound last
    exact tip.unique ref other (own _ owned).2 (own _ otherOwned).2 sameRound
      (latest _ last)
  · intro ref owned last
    obtain ⟨stored, old⟩ := own ref owned
    have above := @storedEvictionRound_lt ctx (unloaded pre.store rounds scoringSubdag)
      ref keeps keyed stored (tip.positive ref old.1)
      fun other listed author => latest ref last other listed (author.trans old.2)
    exact same.mem_iff.mpr (loads.entered ref stored (mem ref stored) above)

variable {act : DagAction}

lemma perform (keeps : 1 ≤ ctx.dagStateCachedRounds)
    (tip : OwnsTip ctx pre)
    (performed : DagRun.perform ctx pre act = .ok post) : OwnsTip ctx post := by
  obtain ⟨blk, -, run⟩ | ⟨-, rfl⟩ | ⟨-, run⟩ | ⟨same, evicted⟩ := DagRun.perform_cases performed
  · exact tip.acceptBlock run
  · exact tip.flush keeps
  · exact tip.restart keeps run
  · exact tip.of_sameBlocks same evicted

lemma written_kept (tip : OwnsTip ctx pre)
    (live : act ≠ .restart) (author : blk.author = ctx.ownIndex)
    (performed : DagRun.perform ctx pre act = .ok post)
    (got : pre.written.blocks[blk.reference]? = some blk) :
    post.written.blocks[blk.reference]? = some blk := by
  obtain ⟨other, -, run⟩ | ⟨-, rfl⟩ | ⟨restarts, -⟩ | ⟨same, -⟩ := DagRun.perform_cases performed
  · obtain ⟨-, ⟨-, rfl⟩ | ⟨unknown, -, -, rfl⟩⟩ := acceptBlock_cases run
    · exact got
    have apart : blk.reference ≠ other.reference := by
      intro here
      rw [← here, tip.containsBlock ⟨mem_of_getElem? got, author⟩] at unknown
      cases unknown
    simp only [written, accepted, Store.write, insertAll, foldl_append, foldl_cons, foldl_nil]
    rw [getElem?_insert_of_ne apart]
    exact got
  · have flushed := @flush_flushed ctx pre tip.upheld.kept.indexed
    rw [flushed.frame]
    exact got
  · exact absurd restarts live
  · rw [written, Store.write, same.store, same.buffer]
    exact got

lemma store_kept (tip : OwnsTip ctx pre)
    (keeps : 1 ≤ ctx.dagStateCachedRounds)
    (performed : DagRun.perform ctx pre act = .ok post)
    (got : pre.written.blocks[blk.reference]? = some blk)
    (stored : pre.store.blocks[blk.reference]? = some blk) :
    post.store.blocks[blk.reference]? = some blk := by
  obtain ⟨other, -, run⟩ | ⟨-, rfl⟩ | ⟨-, run⟩ | ⟨same, -⟩ := DagRun.perform_cases performed
  · obtain ⟨-, ⟨-, rfl⟩ | ⟨-, -, -, rfl⟩⟩ := acceptBlock_cases run
    · exact stored
    · exact stored
  · have flushed := @flush_flushed ctx pre tip.upheld.kept.indexed
    rw [flushed.frame]
    exact got
  · rw [(tip.upheld.restart keeps run).2]
    exact stored
  · rw [same.store]
    exact stored

lemma lastProposed_cases (tip : OwnsTip ctx st)
    (read : st.getLastProposedBlock ctx = .ok blk) :
    blk.round = st.lastCachedRound ctx.ownIndex ∧
      (blk = genesisBlock ctx ctx.ownIndex ∨
        (st.written.blocks[blk.reference]? = some blk ∧ blk.author = ctx.ownIndex)) := by
  rw [getLastProposedBlock, getLastBlockForAuthority] at read
  unfold lastCachedRound
  cases top : last (st.recentRefsByAuthority ctx.ownIndex) with
  | none =>
    rw [top] at read
    have got := expect_eq_ok.mp read
    have author := find?_some got
    obtain ⟨auth, -, rfl⟩ := mem_genesisBlocks.mp (mem_of_find?_eq_some got)
    rw [decide_eq_true_eq, genesisBlock_author] at author
    subst author
    exact ⟨rfl, .inl rfl⟩
  | some ref =>
    rw [top] at read
    obtain ⟨info, got, done⟩ := expect_bind_eq_ok.mp read
    cases done
    obtain ⟨rfl, -⟩ := tip.upheld.kept.cached ref info got
    obtain ⟨-, author⟩ := (tip.upheld.kept.indexed _ _).mp (last_eq_some_iff.mp top).1
    exact ⟨rfl, .inr ⟨tip.agree _ info got, author⟩⟩

end OwnsTip

end DagState

end Mysticeti

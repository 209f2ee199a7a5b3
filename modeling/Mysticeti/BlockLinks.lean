import Mysticeti.BlockVerifier
import Mysticeti.CommitFinalizer

/-!
# The blocks of the buffered commits

The finalizer keeps a state for each block of the commits that it buffers. The states name
the children of a block, which are blocks of the same commit or of later ones, so that the
state of each child is there as long as the state of the block is. The walks over the states
end: along first ancestors the rounds fall, and the search for accept votes visits each block
once.
-/

namespace Mysticeti

open List Option Lib.Outcome Lib.OrderedMap Std

namespace CommitFinalizer

variable {ref : BlockRef}

/-- The states of the placed blocks, each with the index of its commit. -/
structure Links (blocks : BlockMap) (placed : List (CommitIndex × VerifiedBlock)) : Prop where
  known : ∀ (ref : BlockRef) (st : BlockState), blocks[ref]? = some st →
    st.block.reference = ref ∧ (st.commitIndex, st.block) ∈ placed
  present : ∀ entry ∈ placed, entry.2.reference ∈ blocks
  children : ∀ (ref : BlockRef) (st : BlockState), blocks[ref]? = some st →
    ∀ child ∈ st.children, ∃ entry ∈ placed, entry.2.reference = child ∧ st.commitIndex ≤ entry.1

lemma links_empty : Links ∅ [] where
  known := by simp
  present := by simp
  children := by simp

section Linking

def BlockState.addChild (child : BlockRef) (st : BlockState) : BlockState :=
  { st with children := st.children.insert child }

lemma addChild_twice {child : BlockRef} {st : BlockState} :
    BlockState.addChild child (BlockState.addChild child st) = BlockState.addChild child st := by
  have same : (st.children.insert child).insert child = st.children.insert child := by
    apply ExtTreeSet.ext_mem
    intro item
    rw [Lib.OrderedMap.mem_insert_iff, Lib.OrderedMap.mem_insert_iff, or_iff_right_of_imp .inl]
  rw [BlockState.addChild, BlockState.addChild, same]

variable {blocks : BlockMap}

lemma getElem?_linkAncestor {blockRef anc : BlockRef} :
    (linkAncestor blockRef blocks anc)[ref]? = (blocks[ref]?).map fun st =>
      if ref = anc then BlockState.addChild blockRef st else st := by
  unfold linkAncestor
  split
  next absent =>
    by_cases same : ref = anc
    · subst same
      simp [absent]
    · simp [same]
  next st got =>
    by_cases same : ref = anc
    · subst same
      simp [got, BlockState.addChild]
    · rw [getElem?_insert_of_ne same]
      simp [same]

lemma getElem?_linkAncestors {blockRef : BlockRef} {ancestors : List BlockRef} :
    (ancestors.foldl (linkAncestor blockRef) blocks)[ref]? =
      (blocks[ref]?).map fun st =>
        if ref ∈ ancestors then BlockState.addChild blockRef st else st := by
  induction ancestors generalizing blocks with
  | nil => simp
  | cons anc rest ih =>
    rw [foldl_cons, ih, getElem?_linkAncestor, Option.map_map]
    congr 1
    funext st
    rw [Function.comp_apply]
    by_cases first : ref = anc
    · subst first
      simp only [if_true, mem_cons, true_or]
      split
      · exact addChild_twice
      · rfl
    · simp [first]

lemma getElem?_linkBlock {commitIndex : CommitIndex} {blk : VerifiedBlock} :
    (linkBlock commitIndex blocks blk)[ref]? =
      if ref = blk.reference ∧ blocks[ref]? = none then
        some (.new blk commitIndex)
      else (blk.ancestors.foldl (linkAncestor blk.reference) blocks)[ref]? := by
  have presence : blk.reference ∈ blk.ancestors.foldl (linkAncestor blk.reference) blocks ↔
      blocks[blk.reference]? ≠ none := by
    rw [ExtTreeMap.mem_iff_isSome_getElem?, getElem?_linkAncestors, isSome_map,
      isSome_iff_ne_none]
  unfold linkBlock
  dsimp only
  by_cases same : ref = blk.reference
  · subst same
    split
    case isTrue there =>
      rw [if_neg fun fresh => presence.mp (ExtTreeMap.contains_iff_mem.mp there) fresh.2]
    case isFalse absent =>
      have fresh : blocks[blk.reference]? = none := by
        by_contra known
        exact absent (ExtTreeMap.contains_iff_mem.mpr (presence.mpr known))
      rw [if_pos ⟨rfl, fresh⟩, ExtTreeMap.getElem?_insert_self]
  · have other : ¬ (ref = blk.reference ∧ blocks[ref]? = none) := fun fresh => same fresh.1
    rw [if_neg other]
    split
    · rfl
    · exact getElem?_insert_of_ne same

lemma Links.linkBlock {placed : List (CommitIndex × VerifiedBlock)}
    (links : Links blocks placed) {commitIndex : CommitIndex}
    (last : ∀ entry ∈ placed, entry.1 ≤ commitIndex) (blk : VerifiedBlock) :
    Links (CommitFinalizer.linkBlock commitIndex blocks blk)
      (placed ++ [(commitIndex, blk)]) := by
  -- A state is the new one or an old one, perhaps with the block as a child.
  have cases : ∀ (ref : BlockRef) (st : BlockState),
      (CommitFinalizer.linkBlock commitIndex blocks blk)[ref]? = some st →
      (ref = blk.reference ∧ st = .new blk commitIndex) ∨
      ∃ pre, blocks[ref]? = some pre ∧ st.block = pre.block ∧
        st.commitIndex = pre.commitIndex ∧
        ∀ child ∈ st.children, child = blk.reference ∨ child ∈ pre.children := by
    intro ref st got
    rw [getElem?_linkBlock] at got
    split at got
    case isTrue fresh => exact .inl ⟨fresh.1, (some.inj got).symm⟩
    case isFalse =>
      rw [getElem?_linkAncestors, map_eq_some_iff] at got
      obtain ⟨pre, got, rfl⟩ := got
      refine .inr ⟨pre, got, ?_⟩
      split
      · exact ⟨rfl, rfl, fun child listed => Lib.OrderedMap.mem_insert_iff.mp listed⟩
      · exact ⟨rfl, rfl, fun child listed => .inr listed⟩
  refine ⟨?_, ?_, ?_⟩
  · intro ref st got
    rcases cases ref st got with ⟨rfl, rfl⟩ | ⟨pre, got, same, idx, -⟩
    · exact ⟨rfl, mem_append_right _ mem_cons_self⟩
    · obtain ⟨own, listed⟩ := links.known ref pre got
      rw [same, idx]
      exact ⟨own, mem_append_left _ listed⟩
  · intro entry listed
    rw [ExtTreeMap.mem_iff_isSome_getElem?, getElem?_linkBlock]
    split
    · rfl
    case isFalse known =>
      rw [getElem?_linkAncestors, isSome_map, ← ExtTreeMap.mem_iff_isSome_getElem?]
      rcases mem_append.mp listed with listed | listed
      · exact links.present entry listed
      · obtain rfl := mem_singleton.mp listed
        by_contra absent
        exact known ⟨rfl, ExtTreeMap.getElem?_eq_none absent⟩
  · intro ref st got child listed
    rcases cases ref st got with ⟨rfl, rfl⟩ | ⟨pre, got, -, idx, each⟩
    · simp [BlockState.new] at listed
    · rw [idx]
      rcases each child listed with rfl | listed
      · refine ⟨(commitIndex, blk), mem_append_right _ mem_cons_self, rfl, ?_⟩
        exact last _ (links.known ref pre got).2
      · obtain ⟨entry, placedAt, isChild, notBefore⟩ := links.children ref pre got child listed
        exact ⟨entry, mem_append_left _ placedAt, isChild, notBefore⟩

lemma Links.linkBlocks {placed : List (CommitIndex × VerifiedBlock)}
    (links : Links blocks placed) {commitIndex : CommitIndex}
    (last : ∀ entry ∈ placed, entry.1 ≤ commitIndex) (added : List VerifiedBlock) :
    Links (added.foldl (CommitFinalizer.linkBlock commitIndex) blocks)
      (placed ++ added.map fun blk => (commitIndex, blk)) := by
  induction added generalizing blocks placed with
  | nil =>
    rw [map_nil, append_nil]
    exact links
  | cons blk rest ih =>
    rw [foldl_cons, map_cons, append_cons]
    apply ih (links.linkBlock last blk)
    intro entry listed
    rcases mem_append.mp listed with listed | listed
    · exact last entry listed
    · rw [mem_singleton.mp listed]

lemma Links.of_mem_iff {placed other : List (CommitIndex × VerifiedBlock)}
    (links : Links blocks placed) (same : ∀ entry, entry ∈ placed ↔ entry ∈ other) :
    Links blocks other where
  known ref st got := ⟨(links.known ref st got).1, (same _).mp (links.known ref st got).2⟩
  present entry listed := links.present entry ((same entry).mpr listed)
  children ref st got child listed := by
    obtain ⟨entry, placedAt, rest⟩ := links.children ref st got child listed
    exact ⟨entry, (same entry).mp placedAt, rest⟩

lemma Links.drop {dropped kept : List (CommitIndex × VerifiedBlock)}
    (links : Links blocks (dropped ++ kept))
    (nodup : ∀ first ∈ dropped, ∀ second ∈ kept, first.2.reference ≠ second.2.reference)
    (pre : ∀ first ∈ dropped, ∀ second ∈ kept, first.1 < second.1) :
    Links ((dropped.map fun entry => entry.2.reference).foldl .erase blocks) kept := by
  have cases : ∀ (ref : BlockRef) (st : BlockState),
      ((dropped.map fun entry => entry.2.reference).foldl .erase blocks)[ref]? = some st →
      blocks[ref]? = some st ∧ (st.commitIndex, st.block) ∈ kept := by
    intro ref st got
    rw [getElem?_foldl_erase, ite_none_left_eq_some] at got
    obtain ⟨remains, got⟩ := got
    obtain ⟨own, placedAt⟩ := links.known ref st got
    rcases mem_append.mp placedAt with gone | stays
    · exact absurd (List.mem_map.mpr ⟨_, gone, own⟩) remains
    · exact ⟨got, stays⟩
  refine ⟨?_, ?_, ?_⟩
  · intro ref st got
    obtain ⟨got, stays⟩ := cases ref st got
    exact ⟨(links.known ref st got).1, stays⟩
  · intro entry listed
    rw [ExtTreeMap.mem_iff_isSome_getElem?, getElem?_foldl_erase, if_neg,
      ← ExtTreeMap.mem_iff_isSome_getElem?]
    · exact links.present entry (mem_append_right _ listed)
    · intro gone
      obtain ⟨other, listedOther, same⟩ := List.mem_map.mp gone
      exact nodup other listedOther entry listed same
  · intro ref st got child listed
    obtain ⟨got, stays⟩ := cases ref st got
    obtain ⟨entry, placedAt, isChild, notBefore⟩ := links.children ref st got child listed
    rcases mem_append.mp placedAt with gone | remains
    · exact absurd notBefore (Nat.not_le_of_lt (pre entry gone _ stays))
    · exact ⟨entry, remains, isChild, notBefore⟩

lemma Links.clear {placed dropped : List (CommitIndex × VerifiedBlock)}
    (links : Links blocks placed) (all : ∀ entry ∈ placed, entry ∈ dropped) :
    Links ((dropped.map fun entry => entry.2.reference).foldl .erase blocks) [] := by
  have none : ∀ (ref : BlockRef) (st : BlockState),
      ((dropped.map fun entry => entry.2.reference).foldl .erase blocks)[ref]? ≠ some st := by
    intro ref st got
    rw [getElem?_foldl_erase, ite_none_left_eq_some] at got
    obtain ⟨own, placedAt⟩ := links.known ref st got.2
    exact got.1 (List.mem_map.mpr ⟨_, all _ placedAt, own⟩)
  exact ⟨fun ref st got => absurd got (none ref st), by simp,
    fun ref st got => absurd got (none ref st)⟩

end Linking

section Descendants

/-- Only the origin descendants of blocks differ. -/
def SameLinks (pre post : BlockMap) : Prop :=
  ∀ ref : BlockRef,
    (post[ref]?).map (fun st => (st.block, st.children, st.commitIndex)) =
      (pre[ref]?).map fun st => (st.block, st.children, st.commitIndex)

lemma Links.congr {pre post : BlockMap} {placed : List (CommitIndex × VerifiedBlock)}
    (links : Links pre placed) (same : SameLinks pre post) : Links post placed := by
  have prev : ∀ (ref : BlockRef) (st : BlockState), post[ref]? = some st →
      ∃ old, pre[ref]? = some old ∧ old.block = st.block ∧
        old.children = st.children ∧ old.commitIndex = st.commitIndex := by
    intro ref st got
    have here := same ref
    rw [got, map_some] at here
    obtain ⟨old, got, agree⟩ := map_eq_some_iff.mp here.symm
    simp only [Prod.mk.injEq] at agree
    exact ⟨old, got, agree⟩
  refine ⟨?_, ?_, ?_⟩
  · intro ref st got
    obtain ⟨old, got, blk, -, idx⟩ := prev ref st got
    rw [← blk, ← idx]
    exact links.known ref old got
  · intro entry listed
    have there := links.present entry listed
    have here := congrArg isSome (same entry.2.reference)
    rw [isSome_map, isSome_map] at here
    rw [ExtTreeMap.mem_iff_isSome_getElem?, here]
    exact ExtTreeMap.mem_iff_isSome_getElem?.mp there
  · intro ref st got child listed
    obtain ⟨old, got, -, kids, idx⟩ := prev ref st got
    rw [← idx]
    exact links.children ref old got child (kids ▸ listed)

/-- Each placed block has ancestors, all of them of earlier rounds. -/
def Rooted (placed : List (CommitIndex × VerifiedBlock)) : Prop :=
  ∀ entry ∈ placed, ∃ first ∈ entry.2.ancestors.head?, first.round < entry.2.round

variable {blocks : BlockMap} {placed : List (CommitIndex × VerifiedBlock)}

lemma firstAncestor_ok (links : Links blocks placed) (rooted : Rooted placed)
    {st : BlockState} (got : blocks[ref]? = some st) :
    ∃ first, firstAncestor st = .ok first ∧ first.round < ref.round := by
  obtain ⟨own, placedAt⟩ := links.known ref st got
  obtain ⟨first, isFirst, prev⟩ := rooted _ placedAt
  refine ⟨first, ?_, ?_⟩
  · rw [firstAncestor, mem_def.mp isFirst]
    rfl
  · rw [← own]
    exact prev

lemma noteOriginDescendant_ok (links : Links blocks placed) (rooted : Rooted placed)
    {blockRef origin : BlockRef} {fuel : Nat} (enough : origin.round < fuel) :
    ∃ post, noteOriginDescendant blockRef fuel origin blocks = .ok post ∧
      SameLinks blocks post := by
  induction fuel generalizing origin blocks with
  | zero => exact absurd enough (Nat.not_lt_zero _)
  | succ fuel ih =>
    unfold noteOriginDescendant
    split
    · exact ⟨blocks, rfl, fun _ => rfl⟩
    · split
      · exact ⟨blocks, rfl, fun _ => rfl⟩
      next st got =>
        obtain ⟨first, isFirst, prev⟩ := firstAncestor_ok links rooted got
        have noted : SameLinks blocks (blocks.insert origin
            { st with originDescendants := st.originDescendants ++ [blockRef] }) := by
          intro ref
          by_cases same : ref = origin
          · subst same
            rw [ExtTreeMap.getElem?_insert_self, got]
            rfl
          · rw [getElem?_insert_of_ne same]
        have lower : first.round < fuel := by lia
        obtain ⟨post, walked, agrees⟩ := ih (links.congr noted) lower
        rw [isFirst, ok_bind]
        exact ⟨post, walked, fun ref => (agrees ref).trans (noted ref)⟩

lemma appendOriginDescendants_ok (links : Links blocks placed) (rooted : Rooted placed)
    {blk : VerifiedBlock} (has : blk.reference ∈ blocks) :
    ∃ post, appendOriginDescendants blocks blk = .ok post ∧ SameLinks blocks post := by
  obtain ⟨st, got⟩ := getElem?_of_mem has
  obtain ⟨first, isFirst, prev⟩ := firstAncestor_ok links rooted got
  have lower : first.round < blk.round + 1 := Nat.lt_succ_of_lt prev
  unfold appendOriginDescendants
  rw [got, expect_some, ok_bind, isFirst, ok_bind]
  exact noteOriginDescendant_ok links rooted lower

end Descendants

section Search

variable {ctx : Context} {blocks : BlockMap} {placed : List (CommitIndex × VerifiedBlock)}
  {gcRounds : List (CommitIndex × Round)} {pendingCommitIndex : CommitIndex} {search : VoteSearch}

/-- The garbage-collection rounds cover the commits of all placed blocks but the last one, from
the commit of the pending block on. -/
def Covers (gcRounds : List (CommitIndex × Round)) (pendingCommitIndex : CommitIndex)
    (placed : List (CommitIndex × VerifiedBlock)) : Prop :=
  ∀ entry ∈ placed, pendingCommitIndex ≤ entry.1 ∧ (pendingCommitIndex ≠ entry.1 →
    ∃ gcRound, gcRounds[entry.1 - 1 - pendingCommitIndex]? = some (entry.1 - 1, gcRound))

lemma gcedTransactionVotes_ok (covers : Covers gcRounds pendingCommitIndex placed)
    {entry : CommitIndex × VerifiedBlock} (listed : entry ∈ placed) (pendingBlockRound : Round) :
    ∃ gced, gcedTransactionVotesForPendingBlock gcRounds pendingBlockRound pendingCommitIndex
      entry.1 = .ok gced := by
  obtain ⟨notBefore, cached⟩ := covers entry listed
  unfold gcedTransactionVotesForPendingBlock
  rw [ensure_holds _ notBefore, ok_bind]
  split
  · exact ⟨false, rfl⟩
  case isFalse later =>
    obtain ⟨gcRound, got⟩ := cached later
    refine ⟨decide (pendingBlockRound ≤ gcRound), ?_⟩
    rw [got, expect_some, ok_bind]
    dsimp only
    rw [ensure_holds _ rfl, ok_bind]
    rfl

/-- The blocks that the search has not visited. -/
def unvisited (blocks : BlockMap) (search : VoteSearch) : List BlockRef :=
  blocks.keys.filter fun ref => decide (ref ∉ search.visited)

lemma unvisited_length_le (blocks : BlockMap) (search : VoteSearch) :
    (unvisited blocks search).length ≤ blocks.size := by
  rw [← ExtTreeMap.length_keys]
  exact length_filter_le _ _

/-- The blocks to visit have states and were not visited. -/
def Ready (blocks : BlockMap) (search : VoteSearch) : Prop :=
  ∀ ref ∈ search.toVisitBlocks, ref ∈ blocks ∧ ref ∉ search.visited

lemma Ready.visitChildren (links : Links blocks placed) (ready : Ready blocks search)
    {st : BlockState} (got : blocks[ref]? = some st) :
    Ready blocks (CommitFinalizer.visitChildren st search) := by
  intro other waiting
  rcases mem_foldl_insert.mp waiting with child | waiting
  · obtain ⟨child, fresh⟩ := mem_filter.mp child
    obtain ⟨entry, placedAt, rfl, -⟩ := links.children ref st got other
      (ExtTreeSet.mem_toList.mp child)
    refine ⟨links.present entry placedAt, fun seen => ?_⟩
    have contained : search.visited.contains entry.2.reference = true := seen
    rw [contained] at fresh
    cases fresh
  · exact ready other waiting

lemma unvisited_lt {post : VoteSearch} (has : ref ∈ blocks)
    (fresh : ref ∉ search.visited)
    (marked : post.visited = search.visited.insert ref) :
    (unvisited blocks post).length < (unvisited blocks search).length := by
  have fewer : unvisited blocks post =
      (unvisited blocks search).filter fun other => decide (other ≠ ref) := by
    rw [unvisited, unvisited, List.filter_filter]
    congr 1
    funext other
    rw [marked, ← Bool.decide_and, decide_eq_decide, Lib.OrderedMap.mem_insert_iff, not_or]
  rw [fewer]
  apply length_filter_lt_length_iff_exists.mpr
  refine ⟨ref, ?_, by simp⟩
  rw [unvisited, mem_filter, ExtTreeMap.mem_keys]
  exact ⟨has, decide_eq_true fresh⟩

variable (skipGcedAcceptVotes : Bool) (pendingBlockRef : BlockRef)

lemma visitBlock_ok (links : Links blocks placed)
    (covers : Covers gcRounds pendingCommitIndex placed) (ready : Ready blocks search)
    (has : ref ∈ blocks) :
    ∃ post finished, visitBlock ctx skipGcedAcceptVotes blocks gcRounds pendingBlockRef
      pendingCommitIndex search ref = .ok (post, finished) ∧
      post.visited = search.visited ∧ Ready blocks post := by
  obtain ⟨st, got⟩ := getElem?_of_mem has
  obtain ⟨gced, answered⟩ := gcedTransactionVotes_ok covers (links.known ref st got).2
    pendingBlockRef.round
  unfold visitBlock
  rw [got, expect_some, ok_bind, answered, ok_bind]
  split
  · exact ⟨_, _, rfl, rfl, ready.visitChildren links got⟩
  · dsimp only
    split
    · exact ⟨_, _, rfl, rfl, ready⟩
    · split
      · exact ⟨_, _, rfl, rfl, ready⟩
      · refine ⟨_, _, rfl, rfl, Ready.visitChildren links ?_ got⟩
        exact ready

lemma searchVotes_ok (links : Links blocks placed)
    (covers : Covers gcRounds pendingCommitIndex placed) {fuel : Nat}
    (ready : Ready blocks search) (enough : (unvisited blocks search).length < fuel) :
    ∃ finalized, searchVotes ctx skipGcedAcceptVotes blocks gcRounds pendingBlockRef
      pendingCommitIndex fuel search = .ok finalized := by
  induction fuel generalizing search with
  | zero => exact absurd enough (Nat.not_lt_zero _)
  | succ fuel ih =>
    unfold searchVotes
    split
    · exact ⟨_, rfl⟩
    next ref isLeast =>
      obtain ⟨waiting, -⟩ := ExtTreeSet.min?_eq_some_iff_mem_and_forall.mp isLeast
      obtain ⟨has, fresh⟩ := ready ref waiting
      have popped : Ready blocks { search with
          toVisitBlocks := search.toVisitBlocks.erase ref
          visited := search.visited.insert ref } := by
        intro other waiting
        obtain ⟨ne, waiting⟩ := mem_erase_iff.mp waiting
        obtain ⟨otherPresent, otherFresh⟩ := ready other waiting
        refine ⟨otherPresent, fun seen => ?_⟩
        rcases Lib.OrderedMap.mem_insert_iff.mp seen with same | seen
        · exact ne same
        · exact otherFresh seen
      obtain ⟨post, finished, visit, marked, readyAfter⟩ := @visitBlock_ok _ ctx _ _ _ _ _
        skipGcedAcceptVotes pendingBlockRef links covers popped has
      have fewer := unvisited_lt has fresh marked
      dsimp only
      rw [if_neg (by simpa using fresh), visit, ok_bind]
      dsimp only
      split
      · exact ⟨_, rfl⟩
      · exact ih readyAfter (by omega)

lemma tryIndirectFinalizeInBlock_ok (links : Links blocks placed)
    (covers : ∀ st, blocks[pendingBlockRef]? = some st → Covers gcRounds st.commitIndex placed)
    (has : pendingBlockRef ∈ blocks) (pending : ExtTreeSet TransactionIndex) :
    ∃ finalized, tryIndirectFinalizePendingTransactionsInBlock ctx skipGcedAcceptVotes blocks
      gcRounds pendingBlockRef pending = .ok finalized := by
  unfold tryIndirectFinalizePendingTransactionsInBlock
  split
  · exact ⟨[], rfl⟩
  · obtain ⟨st, got⟩ := getElem?_of_mem has
    rw [got, expect_some, ok_bind]
    apply searchVotes_ok skipGcedAcceptVotes pendingBlockRef links (covers st got)
    · intro child waiting
      obtain ⟨entry, placedAt, rfl, -⟩ := links.children pendingBlockRef st got child waiting
      exact ⟨links.present entry placedAt, by simp⟩
    · exact Nat.lt_succ_of_lt (Nat.lt_succ_of_le (unvisited_length_le blocks _))

end Search

end CommitFinalizer

end Mysticeti

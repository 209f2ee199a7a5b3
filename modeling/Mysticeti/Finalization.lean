import Mysticeti.BlockLinks
import Mysticeti.CertifierGrowth

/-!
# Finalization of the buffered commits

What the finalizer needs from the certifier stays there: an entry for each block of a buffered
commit, and reject votes for each pending transaction. So every stage of `processCommit`
returns. Commits leave from the front only, and none stays whose leader is three or more
rounds below the newest one: direct finalization does not wait for it, and what is pending in
it is rejected.
-/

namespace Mysticeti

open List Lib.Outcome Lib.OrderedMap Std

namespace CommitState

/-- What a commit needs from the certifier is there. -/
structure Sound (certifier : CertifierState) (st : CommitState) : Prop where
  known : ∀ blk ∈ st.commit.blocks, blk.reference ∈ certifier.votes
  blocks : ∀ ref ∈ st.pendingBlocks, ∃ blk ∈ st.commit.blocks, blk.reference = ref
  transactions : ∀ (ref : BlockRef) (pending : ExtTreeSet TransactionIndex),
    st.pendingTransactions[ref]? = some pending →
      (∃ blk ∈ st.commit.blocks, blk.reference = ref) ∧
        ∀ idx ∈ pending, idx ∈ (certifier.info ref).rejectTxnVotes

/-- A commit is the same and waits for no more than before. -/
structure Advances (pre post : CommitState) : Prop where
  commit : post.commit = pre.commit
  settled : pre.pendingBlocks.isEmpty = true → post.pendingBlocks.isEmpty = true

/-- No transaction becomes pending. -/
structure Shrinks (pre post : CommitState) : Prop where
  commit : post.commit = pre.commit
  blocks : post.pendingBlocks = pre.pendingBlocks
  transactions : ∀ (ref : BlockRef) (pending : ExtTreeSet TransactionIndex),
    post.pendingTransactions[ref]? = some pending →
      ∃ larger, pre.pendingTransactions[ref]? = some larger ∧ ∀ idx ∈ pending, idx ∈ larger

variable (st : CommitState)

lemma Advances.refl : st.Advances st := ⟨rfl, id⟩

lemma Advances.trans {first second third : CommitState} (left : first.Advances second)
    (right : second.Advances third) : first.Advances third :=
  ⟨right.commit.trans left.commit, fun settled => right.settled (left.settled settled)⟩

lemma Shrinks.refl : st.Shrinks st :=
  ⟨rfl, rfl, fun _ pending got => ⟨pending, got, fun _ => id⟩⟩

lemma Shrinks.trans {first second third : CommitState} (left : first.Shrinks second)
    (right : second.Shrinks third) : first.Shrinks third where
  commit := right.commit.trans left.commit
  blocks := right.blocks.trans left.blocks
  transactions ref pending got := by
    obtain ⟨mid, foundMiddle, inMiddle⟩ := right.transactions ref pending got
    obtain ⟨larger, foundLarger, inLarger⟩ := left.transactions ref mid foundMiddle
    exact ⟨larger, foundLarger, fun idx listed => inLarger idx (inMiddle idx listed)⟩

lemma Shrinks.advances {pre post : CommitState} (shrinks : pre.Shrinks post) :
    pre.Advances post :=
  ⟨shrinks.commit, fun settled => shrinks.blocks ▸ settled⟩

lemma Sound.grows {certifier grown : CertifierState} {st : CommitState}
    (sound : st.Sound certifier) (grows : certifier.Grows grown) : st.Sound grown where
  known blk listed := grows.mem (sound.known blk listed)
  blocks := sound.blocks
  transactions ref pending got := by
    obtain ⟨own, voted⟩ := sound.transactions ref pending got
    exact ⟨own, fun idx listed => (grows.info ref).rejects idx (voted idx listed)⟩

lemma Sound.shrinks {certifier : CertifierState} {pre post : CommitState}
    (sound : pre.Sound certifier) (shrinks : pre.Shrinks post) : post.Sound certifier where
  known := by
    rw [shrinks.commit]
    exact sound.known
  blocks := by
    rw [shrinks.commit, shrinks.blocks]
    exact sound.blocks
  transactions ref pending got := by
    obtain ⟨larger, got, inside⟩ := shrinks.transactions ref pending got
    obtain ⟨own, voted⟩ := sound.transactions ref larger got
    rw [shrinks.commit]
    exact ⟨own, fun idx listed => voted idx (inside idx listed)⟩

lemma removePendingTransactions_shrinks (blockRef : BlockRef)
    (txs : List TransactionIndex) :
    st.Shrinks (st.removePendingTransactions blockRef txs) := by
  unfold removePendingTransactions
  split
  · exact .refl st
  next pending got =>
    have inside : ∀ (left : List TransactionIndex) (kept : ExtTreeSet TransactionIndex)
        (idx : TransactionIndex),
        idx ∈ left.foldl (fun pending idx => pending.erase idx) kept → idx ∈ kept := by
      intro left
      induction left with
      | nil => exact fun _ _ => id
      | cons first rest ih =>
        intro kept idx mem
        exact (mem_erase_iff.mp (ih (kept.erase first) idx mem)).2
    dsimp only
    split
    · refine ⟨rfl, rfl, fun ref kept stored => ?_⟩
      exact ⟨kept, getElem?_of_erase stored, fun _ => id⟩
    · refine ⟨rfl, rfl, fun ref kept stored => ?_⟩
      rcases getElem?_insert_cases stored with ⟨rfl, rfl⟩ | ⟨-, stored⟩
      · exact ⟨pending, got, inside txs pending⟩
      · exact ⟨kept, stored, fun _ => id⟩

lemma rejectTransactions_shrinks (blockRef : BlockRef)
    (txs : List TransactionIndex) :
    st.Shrinks (st.rejectTransactions blockRef txs) :=
  ⟨rfl, rfl, fun _ pending got => ⟨pending, got, fun _ => id⟩⟩

lemma movePendingTransactions_shrinks (moved : BlockRef × List TransactionIndex) :
    st.Shrinks (st.movePendingTransactions moved) :=
  (removePendingTransactions_shrinks st moved.1 moved.2).trans
    (rejectTransactions_shrinks _ moved.1 moved.2)

lemma Sound.settle {certifier : CertifierState} {st : CommitState} {comm : Committee}
    (sound : st.Sound certifier) {blockRef : BlockRef}
    (own : ∃ blk ∈ st.commit.blocks, blk.reference = blockRef)
    {vote : TransactionIndex × Stake}
    (voted : vote.1 ∈ (certifier.info blockRef).rejectTxnVotes) :
    (settle comm blockRef st vote).Sound certifier := by
  unfold CommitState.settle
  split
  case isFalse => exact sound.shrinks (rejectTransactions_shrinks st blockRef [vote.1])
  case isTrue =>
    refine ⟨sound.known, sound.blocks, fun ref pending got => ?_⟩
    dsimp only [TransactionSet.extend] at got
    rcases getElem?_insert_cases got with ⟨rfl, rfl⟩ | ⟨-, got⟩
    · refine ⟨own, fun idx listed => ?_⟩
      rcases mem_foldl_insert.mp listed with new | old
      · rw [mem_singleton.mp new]
        exact voted
      · cases stored : st.pendingTransactions[ref]? with
        | none =>
          rw [stored] at old
          simp at old
        | some pre =>
          rw [stored] at old
          exact (sound.transactions ref pre stored).2 idx old
    · exact sound.transactions ref pending got

end CommitState

namespace CommitFinalizer

variable {ctx : Context}

section Stages

/-- What other tasks do to the certifier in the meantime takes nothing away. -/
structure Learned (pre post : CommitFinalizer) : Prop where
  grows : pre.certifier.Grows post.certifier
  passed : ∃ passed, pre.updates = passed ++ post.updates ∧
    post.certifier.Entered (passed.flatten.flatMap CertifierUpdate.blocks)

def Supplied (fin : CommitFinalizer) : Prop := ∀ st ∈ fin.pendingCommits, st.Sound fin.certifier

/-- Commits advance, none comes and none leaves. -/
structure Stage (pre post : CommitFinalizer) : Prop where
  learned : Learned pre post
  count : post.pendingCommits.length = pre.pendingCommits.length
  advances : ∀ (pos : Nat) (st : CommitState),
    pre.pendingCommits[pos]? = some st →
      ∃ next, post.pendingCommits[pos]? = some next ∧ st.Advances next
  supplied : Supplied post
  blocks : post.blocks = pre.blocks
  lastProcessedCommit : post.lastProcessedCommit = pre.lastProcessedCommit

variable {pre mid post : CommitFinalizer}

variable (fin : CommitFinalizer)

lemma Learned.refl : Learned fin fin := ⟨.refl _, [], rfl, by simp [CertifierState.Entered]⟩

lemma Learned.trans (first : Learned pre mid) (second : Learned mid post) :
    Learned pre post where
  grows := first.grows.trans second.grows
  passed := by
    obtain ⟨prev, split, entered⟩ := first.passed
    obtain ⟨later, splitLater, enteredLater⟩ := second.passed
    refine ⟨prev ++ later, ?_, ?_⟩
    · rw [split, splitLater, append_assoc]
    · rw [flatten_append, flatMap_append]
      exact (entered.grows second.grows).append enteredLater

lemma yield_learned : Learned fin (fin.yield ctx) := by
  obtain ⟨grows, entered⟩ := @CertifierUpdate.applyAll_learns ctx.committee
    fin.certifier (fin.updates.headD [])
  refine ⟨grows, ?_⟩
  cases waiting : fin.updates with
  | nil => exact ⟨[], by simp [yield, waiting], by simp [CertifierState.Entered]⟩
  | cons first rest =>
    rw [waiting] at entered
    exact ⟨[first], by simp [yield, waiting], by
      rw [flatten_singleton, yield, waiting]
      exact entered⟩

lemma Stage.refl (supplied : Supplied pre) : Stage pre pre where
  learned := .refl pre
  count := rfl
  advances _ st got := ⟨st, got, .refl st⟩
  supplied := supplied
  blocks := rfl
  lastProcessedCommit := rfl

lemma Stage.trans (first : Stage pre mid) (second : Stage mid post) : Stage pre post where
  learned := first.learned.trans second.learned
  count := second.count.trans first.count
  advances pos st got := by
    obtain ⟨between, foundBetween, advances⟩ := first.advances pos st got
    obtain ⟨next, foundNext, advancesOn⟩ := second.advances pos between foundBetween
    exact ⟨next, foundNext, advances.trans advancesOn⟩
  supplied := second.supplied
  blocks := second.blocks.trans first.blocks
  lastProcessedCommit := second.lastProcessedCommit.trans first.lastProcessedCommit

def commits : List CommittedSubDag := fin.pendingCommits.map CommitState.commit

lemma Stage.commits_eq (stage : Stage pre post) : post.commits = pre.commits := by
  apply ext_getElem?
  intro pos
  rw [commits, commits, getElem?_map, getElem?_map]
  cases got : pre.pendingCommits[pos]? with
  | none =>
    have outside := List.getElem?_eq_none_iff.mp got
    rw [getElem?_eq_none (stage.count ▸ outside)]
  | some st =>
    obtain ⟨next, foundNext, advances⟩ := stage.advances pos st got
    rw [foundNext, Option.map_some, Option.map_some, advances.commit]

/-- Only the certifier and what is left of the updates differ. -/
structure Yielded (pre post : CommitFinalizer) : Prop where
  learned : Learned pre post
  pendingCommits : post.pendingCommits = pre.pendingCommits
  blocks : post.blocks = pre.blocks
  lastProcessedCommit : post.lastProcessedCommit = pre.lastProcessedCommit

lemma Yielded.refl : Yielded fin fin := ⟨.refl fin, rfl, rfl, rfl⟩

lemma Yielded.yield (yielded : Yielded pre post) : Yielded pre (post.yield ctx) :=
  ⟨yielded.learned.trans (yield_learned post), yielded.pendingCommits, yielded.blocks,
    yielded.lastProcessedCommit⟩

lemma Yielded.set (yielded : Yielded pre post) (supplied : Supplied pre)
    {pos : Nat} {st next : CommitState}
    (got : pre.pendingCommits[pos]? = some st) (advances : st.Advances next)
    (sound : next.Sound post.certifier) :
    Stage pre { post with pendingCommits := post.pendingCommits.set pos next } := by
  have same := yielded.pendingCommits
  have inside : pos < pre.pendingCommits.length := (List.getElem?_eq_some_iff.mp got).1
  refine ⟨⟨yielded.learned.grows, yielded.learned.passed⟩, ?_, ?_, ?_, yielded.blocks,
    yielded.lastProcessedCommit⟩
  · rw [length_set, same]
  · intro other known foundOther
    rw [same, getElem?_set]
    split
    case isTrue here =>
      subst here
      obtain rfl := Option.mem_unique got foundOther
      exact ⟨next, rfl, advances⟩
    case isFalse => exact ⟨known, foundOther, .refl known⟩
  · intro other listed
    rcases mem_or_eq_of_mem_set listed with listed | rfl
    · rw [same] at listed
      exact (supplied other listed).grows yielded.learned.grows
    · exact sound

end Stages

section Direct

variable {fin : CommitFinalizer}

lemma getRejectVotes_eq {blockRef : BlockRef} (known : blockRef ∈ fin.certifier.votes) :
    fin.getRejectVotes ctx blockRef =
      .ok ((((fin.yield ctx).certifier.info blockRef).rejectTxnVotes.toList.map
        fun entry => (entry.1, entry.2.stake)), fin.yield ctx) := by
  have later : blockRef ∈ (fin.yield ctx).certifier.votes := (yield_learned fin).grows.mem known
  obtain ⟨info, got⟩ := getElem?_of_mem later
  rw [CommitFinalizer.getRejectVotes, CertifierState.getRejectVotes, got,
    CertifierState.info_of_entry got]
  rfl

lemma settleBlock_ok {st : CommitState} (sound : st.Sound fin.certifier)
    {blockRef : BlockRef} (own : ∃ blk ∈ st.commit.blocks, blk.reference = blockRef) :
    ∃ next, settleBlock ctx (fin, st) blockRef =
      .ok (fin.yield ctx, next) ∧ next.commit = st.commit ∧
        next.pendingBlocks = st.pendingBlocks ∧ next.Sound (fin.yield ctx).certifier := by
  obtain ⟨blk, listed, rfl⟩ := own
  have known := sound.known blk listed
  have start := sound.grows (@yield_learned ctx fin).grows
  rw [settleBlock, getRejectVotes_eq known, ok_bind]
  refine ⟨_, rfl, ?_⟩
  refine foldlRecOn (motive := fun next : CommitState => next.commit = st.commit ∧
    next.pendingBlocks = st.pendingBlocks ∧ next.Sound (fin.yield ctx).certifier)
    _ _ ⟨rfl, rfl, start⟩ ?_
  rintro next ⟨same, blocks, sound⟩ vote voted
  obtain ⟨⟨idx, votes⟩, stored, rfl⟩ := List.mem_map.mp voted
  have key : idx ∈ ((fin.yield ctx).certifier.info
      blk.reference).rejectTxnVotes := by
    rw [ExtTreeMap.mem_toList_iff_getElem?_eq_some] at stored
    exact ExtTreeMap.mem_iff_isSome_getElem?.mpr (by rw [stored]; rfl)
  refine ⟨?_, ?_, sound.settle ⟨blk, same ▸ listed, rfl⟩ key⟩
  · rw [← same, CommitState.settle]
    split
    · rfl
    · rfl
  · rw [← blocks, CommitState.settle]
    split
    · rfl
    · rfl

lemma tryDirectFinalizeCommit_ok (supplied : Supplied fin) {pos : Nat}
    {st : CommitState} (got : fin.pendingCommits[pos]? = some st)
    (waiting : st.pendingBlocks.isEmpty = false) :
    ∃ post, tryDirectFinalizeCommit ctx fin pos = .ok post ∧
      Stage fin post ∧ ∃ next, post.pendingCommits[pos]? = some next ∧
        next.pendingBlocks.isEmpty = true := by
  have sound := supplied st (List.mem_of_getElem? got)
  have start : ({ st with pendingBlocks := ∅ } : CommitState).Sound fin.certifier :=
    ⟨sound.known, by simp, sound.transactions⟩
  obtain ⟨⟨post, next⟩, settled, yielded, same, empty, soundNext⟩ := @foldlM_returns _ _ _
    (fun settled : CommitFinalizer × CommitState => Yielded fin settled.1 ∧
      settled.2.commit = st.commit ∧ settled.2.pendingBlocks = ∅ ∧
        settled.2.Sound settled.1.certifier)
    (settleBlock ctx) st.pendingBlocks.keys (fin, { st with pendingBlocks := ∅ })
    ⟨.refl fin, rfl, rfl, start⟩ (by
      rintro ⟨mid, between⟩ blockRef listed ⟨yielded, same, empty, soundBetween⟩
      obtain ⟨blk, own, isOwn⟩ := sound.blocks blockRef (ExtTreeMap.mem_keys.mp listed)
      obtain ⟨next, settled, sameNext, emptyNext, soundNext⟩ := @settleBlock_ok ctx mid
        between soundBetween blockRef ⟨blk, same ▸ own, isOwn⟩
      exact ⟨_, settled, yielded.yield, sameNext.trans same, emptyNext.trans empty, soundNext⟩)
  have settledEmpty : next.pendingBlocks.isEmpty = true := by
    rw [show next.pendingBlocks = ∅ from empty]
    rfl
  have inside := (List.getElem?_eq_some_iff.mp got).1
  refine ⟨{ post with pendingCommits := post.pendingCommits.set pos next }, ?_,
    yielded.set supplied got ⟨same, fun _ => settledEmpty⟩ soundNext, next, ?_, settledEmpty⟩
  · rw [tryDirectFinalizeCommit, got, expect_some, ok_bind, ensure_holds _ waiting, ok_bind,
      settled, ok_bind]
    rfl
  · rw [yielded.pendingCommits, getElem?_set_self inside]

/-- A commit is settled directly, or the newest leader is less than three rounds above its
own one. -/
def Settled (newest : Round) (st : CommitState) : Prop :=
  st.pendingBlocks.isEmpty = true ∨ newest < st.commit.leader.round + 3

lemma Settled.advances {newest : Round} {pre post : CommitState}
    (settled : Settled newest pre) (advances : pre.Advances post) :
    Settled newest post := by
  rcases settled with empty | recent
  · exact .inl (advances.settled empty)
  · rw [← advances.commit] at recent
    exact .inr recent

/-- The leader of the last commit is of this round. -/
def Newest (commits : List CommittedSubDag) (newest : Round) : Prop :=
  ∃ last, commits.getLast? = some last ∧ last.leader.round = newest

/-- The leaders' rounds rise. -/
def Rising (commits : List CommittedSubDag) : Prop :=
  commits.Pairwise fun first second => first.leader.round < second.leader.round

lemma rising_of_lt (rising : Rising fin.commits) {first second : Nat}
    (pre : first < second) {lower upper : CommitState}
    (foundLower : fin.pendingCommits[first]? = some lower)
    (foundUpper : fin.pendingCommits[second]? = some upper) :
    lower.commit.leader.round < upper.commit.leader.round := by
  obtain ⟨inLower, rfl⟩ := List.getElem?_eq_some_iff.mp foundLower
  obtain ⟨inUpper, rfl⟩ := List.getElem?_eq_some_iff.mp foundUpper
  have ordered := pairwise_iff_getElem.mp (pairwise_map.mp rising)
  exact ordered first second inLower inUpper pre

lemma tryDirectFinalizeCommits_ok {positions : List Nat} {newest : Round}
    (supplied : Supplied fin) (rising : Rising fin.commits)
    (last : Newest fin.commits newest) (ordered : positions.Pairwise (· < ·))
    (inside : ∀ pos ∈ positions, pos < fin.pendingCommits.length) :
    ∃ post, tryDirectFinalizeCommits ctx positions fin = .ok post ∧
      Stage fin post ∧ ∀ pos ∈ positions, ∀ st,
        post.pendingCommits[pos]? = some st → Settled newest st := by
  induction positions generalizing fin with
  | nil => exact ⟨fin, rfl, .refl supplied, by simp⟩
  | cons pos rest ih =>
    obtain ⟨first, ordered⟩ := pairwise_cons.mp ordered
    have here := inside pos mem_cons_self
    obtain ⟨st, got⟩ : ∃ st, fin.pendingCommits[pos]? = some st := ⟨_, getElem?_eq_getElem here⟩
    -- A stage that settles this position lets the loop go on with the others.
    have continues : ∀ {mid : CommitFinalizer} {next : CommitState}, Stage fin mid →
        mid.pendingCommits[pos]? = some next → next.pendingBlocks.isEmpty = true →
        ∃ post, tryDirectFinalizeCommits ctx rest mid = .ok post ∧
          Stage fin post ∧ ∀ other ∈ pos :: rest, ∀ st,
            post.pendingCommits[other]? = some st → Settled newest st := by
      intro mid next stage foundNext empty
      obtain ⟨post, ret, later, settled⟩ := @ih mid stage.supplied
        (stage.commits_eq ▸ rising) (stage.commits_eq ▸ last) ordered
        fun other listed => stage.count ▸ inside other (mem_cons_of_mem pos listed)
      refine ⟨post, ret, stage.trans later, ?_⟩
      rw [forall_mem_cons]
      refine ⟨fun known foundAfter => ?_, settled⟩
      obtain ⟨final, foundFinal, advances⟩ := later.advances pos next foundNext
      obtain rfl := Option.mem_unique foundFinal foundAfter
      exact .inl (advances.settled empty)
    unfold tryDirectFinalizeCommits
    rw [got, expect_some, ok_bind]
    split
    case isTrue empty => exact continues (.refl supplied) got empty
    case isFalse pending =>
      obtain ⟨lastCommit, isLast, lastRound⟩ := last
      rw [commits, getLast?_map, Option.map_eq_some_iff] at isLast
      obtain ⟨lastState, isLast, rfl⟩ := isLast
      rw [isLast, expect_some, ok_bind]
      split
      case isTrue waits =>
        have recent : newest < st.commit.leader.round + 3 := by
          simp only [waitsForCertificate, Bool.and_eq_true, decide_eq_true_eq, lastRound,
            DEFAULT_WAVE_LENGTH] at waits
          exact waits.2
        refine ⟨fin, rfl, .refl supplied, fun other listed known foundOther => .inr ?_⟩
        rcases mem_cons.mp listed with rfl | later
        · obtain rfl := Option.mem_unique got foundOther
          exact recent
        · have above := rising_of_lt rising (first other later) got foundOther
          lia
      case isFalse =>
        obtain ⟨mid, ret, stage, next, foundNext, empty⟩ :=
          @tryDirectFinalizeCommit_ok ctx _ supplied _ _ got (by simpa using pending)
        rw [ret, ok_bind]
        exact continues stage foundNext empty

end Direct

section Queue

/-- The blocks of commits, each with the index of its commit. -/
def placed (commits : List CommittedSubDag) : List (CommitIndex × VerifiedBlock) :=
  commits.flatMap fun commit => commit.blocks.map fun blk => (commit.commitRef.index, blk)

/-- Commits of successive indices and rising leaders' rounds that have no block in common. -/
structure Consecutive (commits : List CommittedSubDag) : Prop where
  indices : commits.IsChain fun first second => second.commitRef.index = first.commitRef.index + 1
  rising : Rising commits
  distinct : commits.Pairwise fun first second => ∀ blk ∈ first.blocks,
    ∀ other ∈ second.blocks, blk.reference ≠ other.reference
  rooted : Rooted (placed commits)

lemma consecutive_nil : Consecutive [] := ⟨.nil, .nil, .nil, by simp [Rooted, placed]⟩

lemma mem_placed {commits : List CommittedSubDag} {entry : CommitIndex × VerifiedBlock} :
    entry ∈ placed commits ↔
      ∃ commit ∈ commits, entry.2 ∈ commit.blocks ∧ commit.commitRef.index = entry.1 := by
  simp only [placed, mem_flatMap, List.mem_map]
  constructor
  · rintro ⟨commit, listed, blk, own, rfl⟩
    exact ⟨commit, listed, own, rfl⟩
  · rintro ⟨commit, listed, own, idx⟩
    exact ⟨commit, listed, entry.2, own, by rw [idx]⟩

lemma placed_append (first second : List CommittedSubDag) :
    placed (first ++ second) = placed first ++ placed second :=
  flatMap_append

variable {commits dropped kept : List CommittedSubDag}

lemma Consecutive.of_append (consecutive : Consecutive (dropped ++ kept)) : Consecutive kept where
  indices := consecutive.indices.right_of_append
  rising := consecutive.rising.sublist (sublist_append_right dropped kept)
  distinct := consecutive.distinct.sublist (sublist_append_right dropped kept)
  rooted entry listed := consecutive.rooted entry (by
    rw [placed_append]
    exact mem_append_right _ listed)

lemma Consecutive.index_eq (consecutive : Consecutive commits) {pos : Nat}
    {first commit : CommittedSubDag} (isFirst : commits[0]? = some first)
    (got : commits[pos]? = some commit) :
    commit.commitRef.index = first.commitRef.index + pos := by
  induction pos generalizing commit with
  | zero =>
    rw [isFirst] at got
    rw [Option.some.inj got, Nat.add_zero]
  | succ pos ih =>
    obtain ⟨inside, rfl⟩ := List.getElem?_eq_some_iff.mp got
    have pre := ih (getElem?_eq_getElem (Nat.lt_of_succ_lt inside))
    have next := isChain_iff_getElem.mp consecutive.indices pos inside
    lia

lemma Consecutive.indices_rise (consecutive : Consecutive commits) :
    commits.Pairwise fun first second => first.commitRef.index < second.commitRef.index := by
  rw [pairwise_iff_getElem]
  intro pos later inside insideLater pre
  have isFirst := getElem?_eq_getElem (Nat.zero_lt_of_lt inside)
  have lower := consecutive.index_eq isFirst (getElem?_eq_getElem inside)
  have upper := consecutive.index_eq isFirst (getElem?_eq_getElem insideLater)
  lia

lemma Consecutive.same_index (consecutive : Consecutive commits)
    {first second : CommitIndex × VerifiedBlock} (inFirst : first ∈ placed commits)
    (inSecond : second ∈ placed commits) (same : first.2.reference = second.2.reference) :
    first.1 = second.1 := by
  obtain ⟨commit, listed, own, idx⟩ := mem_placed.mp inFirst
  obtain ⟨other, listedOther, ownOther, indexOther⟩ := mem_placed.mp inSecond
  obtain ⟨pos, inside, rfl⟩ := getElem_of_mem listed
  obtain ⟨place, insideOther, rfl⟩ := getElem_of_mem listedOther
  have apart := pairwise_iff_getElem.mp consecutive.distinct
  rcases Nat.lt_trichotomy pos place with pre | here | post
  · exact absurd same (apart pos place inside insideOther pre _ own _ ownOther)
  · subst here
    exact idx.symm.trans indexOther
  · exact absurd same.symm (apart place pos insideOther inside post _ ownOther _ own)

lemma Consecutive.drop_links (consecutive : Consecutive (dropped ++ kept)) {blocks : BlockMap}
    (links : Links blocks (placed (dropped ++ kept))) :
    Links (((placed dropped).map fun entry => entry.2.reference).foldl .erase blocks)
      (placed kept) := by
  rw [placed_append] at links
  apply links.drop
  · rintro first inFirst second inSecond
    obtain ⟨commit, listed, own, -⟩ := mem_placed.mp inFirst
    obtain ⟨other, listedOther, ownOther, -⟩ := mem_placed.mp inSecond
    have apart := (pairwise_append.mp consecutive.distinct).2.2 commit listed other listedOther
    exact apart first.2 own second.2 ownOther
  · rintro first inFirst second inSecond
    obtain ⟨commit, listed, -, idx⟩ := mem_placed.mp inFirst
    obtain ⟨other, listedOther, -, otherIndex⟩ := mem_placed.mp inSecond
    rw [← idx, ← otherIndex]
    exact (pairwise_append.mp consecutive.indices_rise).2.2 commit listed other listedOther

/-- The garbage-collection rounds of the buffered commits are those that the search for votes
on the first of them asks for. -/
lemma Consecutive.covers {fin : CommitFinalizer}
    (consecutive : Consecutive fin.commits) {first : CommittedSubDag}
    (isFirst : fin.commits[0]? = some first) :
    Covers (fin.pendingGcRounds ctx) first.commitRef.index
      (placed fin.commits) := by
  intro entry listed
  obtain ⟨commit, mem, -, idx⟩ := mem_placed.mp listed
  obtain ⟨pos, got⟩ := List.getElem?_of_mem mem
  have counted := consecutive.index_eq isFirst got
  rw [← idx, counted]
  refine ⟨Nat.le_add_right _ _, fun later => ?_⟩
  have inside := (List.getElem?_eq_some_iff.mp got).1
  have prev : pos - 1 < fin.commits.length := by omega
  have offset : first.commitRef.index + pos - 1 - first.commitRef.index = pos - 1 := by lia
  have previous := consecutive.index_eq isFirst (getElem?_eq_getElem prev)
  refine ⟨calculateGcRound ctx (fin.commits[pos - 1]).leader.round, ?_⟩
  have rounds : fin.pendingGcRounds ctx = fin.commits.map fun commit =>
      (commit.commitRef.index, calculateGcRound ctx commit.leader.round) := by
    rw [pendingGcRounds, commits, List.map_map]
    rfl
  rw [rounds, offset, getElem?_map, getElem?_eq_getElem prev, Option.map_some, previous]
  have shifted : first.commitRef.index + (pos - 1) = first.commitRef.index + pos - 1 := by lia
  rw [shifted]

end Queue

section Indirect

variable {fin : CommitFinalizer}

lemma rejectedNow_ok {blockRef : BlockRef} {votes : List (TransactionIndex × Stake)}
    {pending : ExtTreeSet TransactionIndex}
    (voted : ∀ idx ∈ pending, ∃ vote ∈ votes, vote.1 = idx) :
    ∃ rejected, rejectedNow ctx blockRef votes pending = .ok rejected := by
  refine foldlM_total fun rejected idx listed => ?_
  obtain ⟨vote, listedVote, isVote⟩ := voted idx (ExtTreeSet.mem_toList.mp listed)
  have got : (votes.find? fun vote => vote.1 = idx).isSome = true :=
    find?_isSome.mpr ⟨vote, listedVote, decide_eq_true isVote⟩
  obtain ⟨first, got⟩ := Option.isSome_iff_exists.mp got
  rw [got, expect_some, ok_bind]
  split
  · exact ⟨_, rfl⟩
  · exact ⟨_, rfl⟩

structure FirstShrinks (pre post : CommitFinalizer) (st next : CommitState) : Prop where
  stage : Stage pre post
  found : post.pendingCommits[0]? = some next
  shrinks : st.Shrinks next

lemma Yielded.firstShrinks {pre post : CommitFinalizer} (yielded : Yielded pre post)
    (supplied : Supplied pre) {st next : CommitState}
    (got : pre.pendingCommits[0]? = some st) (shrinks : st.Shrinks next) :
    FirstShrinks pre { post with pendingCommits := post.pendingCommits.set 0 next } st
      next := by
  have sound := (supplied st (List.mem_of_getElem? got)).grows yielded.learned.grows
  refine ⟨yielded.set supplied got shrinks.advances (sound.shrinks shrinks), ?_, shrinks⟩
  have inside := (List.getElem?_eq_some_iff.mp got).1
  rw [yielded.pendingCommits, getElem?_set_self inside]

lemma foldl_shrinks {α : Type} {body : CommitState → α → CommitState}
    (each : ∀ (st : CommitState) (item : α), st.Shrinks (body st item)) (items : List α)
    (st : CommitState) : st.Shrinks (items.foldl body st) := by
  induction items generalizing st with
  | nil => exact .refl st
  | cons item rest ih => exact (each st item).trans (ih (body st item))

lemma checkPendingBlock_ok {st : CommitState} {mid : CommitFinalizer}
    (sound : st.Sound mid.certifier) {blockRef : BlockRef}
    {pending : ExtTreeSet TransactionIndex}
    (got : st.pendingTransactions[blockRef]? = some pending)
    (moved : List (BlockRef × List TransactionIndex)) :
    ∃ later, checkPendingBlock ctx (mid, moved) (blockRef, pending) =
      .ok (mid.yield ctx, later) := by
  obtain ⟨⟨blk, own, isOwn⟩, voted⟩ := sound.transactions blockRef pending got
  have known : blockRef ∈ mid.certifier.votes := isOwn ▸ sound.known blk own
  have grown := ((@yield_learned ctx mid).grows.info blockRef).rejects
  rw [checkPendingBlock, getRejectVotes_eq known, ok_bind]
  obtain ⟨rejected, ret⟩ := @rejectedNow_ok ctx blockRef
    (((mid.yield ctx).certifier.info blockRef).rejectTxnVotes.toList.map
      fun entry => (entry.1, entry.2.stake)) pending (by
    intro idx pending
    obtain ⟨votes, stored⟩ := getElem?_of_mem (grown idx (voted idx pending))
    rw [← ExtTreeMap.mem_toList_iff_getElem?_eq_some] at stored
    exact ⟨_, List.mem_map_of_mem stored, rfl⟩)
  dsimp only
  rw [ret, ok_bind]
  split
  · exact ⟨_, rfl⟩
  · exact ⟨_, rfl⟩

lemma checkPendingTransactions_ok (supplied : Supplied fin) {st : CommitState}
    (got : fin.pendingCommits[0]? = some st) :
    ∃ post next, checkPendingTransactionsInFirstCommit ctx fin = .ok post ∧
      FirstShrinks fin post st next := by
  have sound := supplied st (List.mem_of_getElem? got)
  obtain ⟨⟨mid, moved⟩, ret, yielded⟩ := @foldlM_returns _ _ _
    (fun checked : CommitFinalizer × List (BlockRef × List TransactionIndex) =>
      Yielded fin checked.1)
    (checkPendingBlock ctx) st.pendingTransactions.toList (fin, [])
    (.refl fin) (by
      rintro ⟨mid, moved⟩ entry listed yielded
      obtain ⟨later, checked⟩ := @checkPendingBlock_ok ctx st mid
        (sound.grows yielded.learned.grows) entry.1 entry.2
        (ExtTreeMap.mem_toList_iff_getElem?_eq_some.mp listed) moved
      exact ⟨_, checked, yielded.yield⟩)
  refine ⟨_, moved.foldl CommitState.movePendingTransactions st, ?_,
    yielded.firstShrinks supplied got
      (foldl_shrinks CommitState.movePendingTransactions_shrinks moved st)⟩
  rw [checkPendingTransactionsInFirstCommit, got, expect_some, ok_bind, ret, ok_bind]
  rfl

lemma tryIndirectFinalize_ok (supplied : Supplied fin)
    (consecutive : Consecutive fin.commits)
    (links : Links fin.blocks (placed fin.commits)) {st : CommitState}
    (got : fin.pendingCommits[0]? = some st) :
    ∃ post next, tryIndirectFinalizePendingTransactionsInFirstCommit ctx fin =
      .ok post ∧ FirstShrinks fin post st next := by
  have sound := supplied st (List.mem_of_getElem? got)
  have isFirst : fin.commits[0]? = some st.commit := by
    rw [commits, getElem?_map, got, Option.map_some]
  have searches : ∀ entry ∈ st.pendingTransactions.toList, ∃ indices,
      tryIndirectFinalizePendingTransactionsInBlock ctx fin.skipGcedAcceptVotes
        fin.blocks (fin.pendingGcRounds ctx) entry.1 entry.2 = .ok indices := by
    intro entry listed
    rw [ExtTreeMap.mem_toList_iff_getElem?_eq_some] at listed
    obtain ⟨⟨blk, own, isOwn⟩, -⟩ := sound.transactions entry.1 entry.2 listed
    have placedAt : (st.commit.commitRef.index, blk) ∈ placed fin.commits :=
      mem_placed.mpr ⟨st.commit, List.mem_of_getElem? isFirst, own, rfl⟩
    refine tryIndirectFinalizeInBlock_ok _ _ links ?_ (isOwn ▸ links.present _ placedAt) entry.2
    intro blockState foundBlock
    obtain ⟨same, placedBlock⟩ := links.known entry.1 blockState foundBlock
    rw [show blockState.commitIndex = st.commit.commitRef.index from
      consecutive.same_index placedBlock placedAt (same.trans isOwn.symm)]
    exact consecutive.covers isFirst
  unfold tryIndirectFinalizePendingTransactionsInFirstCommit
  rw [got, expect_some, ok_bind]
  generalize folds : st.pendingTransactions.toList.foldlM (m := Except FinalizerPanic) _
    ([] : List (BlockRef × List TransactionIndex)) = outcome
  obtain ⟨finalized, ret⟩ : ∃ finalized, outcome = .ok finalized := by
    rw [← folds]
    refine foldlM_total fun finalized entry listed => ?_
    obtain ⟨indices, ret⟩ := searches entry listed
    rw [ret, ok_bind]
    split
    · exact ⟨_, rfl⟩
    · exact ⟨_, rfl⟩
  rw [ret, ok_bind]
  exact ⟨_, _, rfl, (Yielded.refl fin).firstShrinks supplied got (foldl_shrinks
    (fun st entry => CommitState.removePendingTransactions_shrinks st entry.1 entry.2)
    finalized st)⟩

lemma tryIndirectReject_ok {newest : Round} (supplied : Supplied fin)
    (last : Newest fin.commits newest) {st : CommitState}
    (got : fin.pendingCommits[0]? = some st)
    (settled : st.pendingBlocks.isEmpty = true) :
    ∃ post next, tryIndirectRejectPendingTransactionsInFirstCommit fin = .ok post ∧
      FirstShrinks fin post st next ∧
        (next.pendingTransactions.isEmpty = true ∨ newest < next.commit.leader.round + 3) := by
  obtain ⟨lastCommit, isLast, rfl⟩ := last
  rw [commits, getLast?_map, Option.map_eq_some_iff] at isLast
  obtain ⟨lastState, isLast, rfl⟩ := isLast
  unfold tryIndirectRejectPendingTransactionsInFirstCommit
  rw [got, expect_some, ok_bind, isLast, expect_some, ok_bind]
  split
  case isTrue =>
    rw [ensure_holds _ settled, ok_bind]
    have emptied : st.Shrinks { st with pendingTransactions := ∅ } := ⟨rfl, rfl, by simp⟩
    have rejecting := @foldl_shrinks _ (fun (st : CommitState)
      (entry : BlockRef × ExtTreeSet TransactionIndex compare) =>
        st.rejectTransactions entry.1 entry.2.toList)
      (fun st entry => CommitState.rejectTransactions_shrinks st entry.1 entry.2.toList)
      st.pendingTransactions.toList { st with pendingTransactions := ∅ }
    refine ⟨_, _, rfl, (Yielded.refl fin).firstShrinks supplied got
      (emptied.trans rejecting), .inl ?_⟩
    have none : (st.pendingTransactions.toList.foldl (fun (st : CommitState) entry =>
        st.rejectTransactions entry.1 entry.2.toList)
        { st with pendingTransactions := ∅ }).pendingTransactions = ∅ :=
      foldlRecOn (motive := fun next : CommitState => next.pendingTransactions = ∅) _ _ rfl
        fun _ empty _ _ => empty
    rw [none]
    rfl
  case isFalse recent =>
    have newer := Nat.lt_of_not_le recent
    exact ⟨fin, st, rfl, ⟨.refl supplied, got, .refl st⟩, .inr newer⟩

lemma tryIndirectFinalizeFirstCommit_ok {newest : Round} (supplied : Supplied fin)
    (consecutive : Consecutive fin.commits)
    (links : Links fin.blocks (placed fin.commits))
    (last : Newest fin.commits newest) {st : CommitState}
    (got : fin.pendingCommits[0]? = some st)
    (settled : st.pendingBlocks.isEmpty = true) :
    ∃ post next, tryIndirectFinalizeFirstCommit ctx fin = .ok post ∧
      FirstShrinks fin post st next ∧
        (next.pendingTransactions.isEmpty = true ∨ newest < next.commit.leader.round + 3) := by
  obtain ⟨first, checked, ret, firstStage⟩ :=
    @checkPendingTransactions_ok ctx fin supplied st got
  have firstCommits := firstStage.stage.commits_eq
  obtain ⟨second, searched, returnedSecond, secondStage⟩ :=
    @tryIndirectFinalize_ok ctx first firstStage.stage.supplied (firstCommits ▸ consecutive)
      (by rw [firstCommits, firstStage.stage.blocks]; exact links) checked firstStage.found
  have shrinks := firstStage.shrinks.trans secondStage.shrinks
  obtain ⟨third, final, returnedThird, thirdStage, recent⟩ :=
    @tryIndirectReject_ok second newest secondStage.stage.supplied
      (secondStage.stage.commits_eq ▸ firstCommits ▸ last) searched secondStage.found
      (shrinks.blocks ▸ settled)
  refine ⟨third, final, ?_, ⟨?_, thirdStage.found, shrinks.trans thirdStage.shrinks⟩, recent⟩
  · unfold tryIndirectFinalizeFirstCommit
    rw [got, expect_some, ok_bind, ensure_holds _ settled, ok_bind, ret, ok_bind,
      returnedSecond, ok_bind]
    exact returnedThird
  · exact (firstStage.stage.trans secondStage.stage).trans thirdStage.stage

end Indirect

section Output

/-- The commit with some rejected transactions. -/
def Finalizes (output commit : CommittedSubDag) : Prop :=
  ∃ rejected, output = { commit with rejectedTransactionsByBlock := rejected }

lemma finalizedCommit_finalizes (st : CommitState) :
    Finalizes (finalizedCommit st) st.commit := by
  refine foldlRecOn (motive := fun output : CommittedSubDag =>
    Finalizes output st.commit) _ _ ⟨st.commit.rejectedTransactionsByBlock, rfl⟩ ?_
  rintro output ⟨rejected, rfl⟩ entry -
  exact ⟨_, rfl⟩

lemma popFrom_spec (states : List CommitState) (blocks : BlockMap) :
    ∃ popped, states = popped ++ (popFrom states blocks).2.1 ∧
      (popFrom states blocks).1 = popped.map finalizedCommit ∧
      (popFrom states blocks).2.2 =
        (((placed (popped.map CommitState.commit)).map fun entry => entry.2.reference).foldl
          .erase blocks) ∧
      ∀ first ∈ (popFrom states blocks).2.1.head?,
        first.pendingBlocks.isEmpty = false ∨ first.pendingTransactions.isEmpty = false := by
  induction states generalizing blocks with
  | nil => exact ⟨[], rfl, rfl, rfl, by simp [popFrom]⟩
  | cons st rest ih =>
    unfold popFrom
    split
    case isTrue pending =>
      refine ⟨[], rfl, rfl, rfl, ?_⟩
      simpa using pending
    case isFalse =>
      obtain ⟨rejected, same⟩ := finalizedCommit_finalizes st
      dsimp only
      obtain ⟨popped, split, outputs, erased, first⟩ := ih
        ((finalizedCommit st).blocks.foldl (fun blocks blk => blocks.erase blk.reference)
          blocks)
      refine ⟨st :: popped, ?_, ?_, ?_, first⟩
      · rw [cons_append, ← split]
      · rw [map_cons, ← outputs]
      · rw [erased, same, map_cons, ← singleton_append, placed_append, map_append, foldl_append]
        simp [placed, foldl_map]

variable {fin : CommitFinalizer}

lemma Stage.settled {pre post : CommitFinalizer} (stage : Stage pre post)
    {newest : Round} (settled : ∀ st ∈ pre.pendingCommits, Settled newest st) :
    ∀ st ∈ post.pendingCommits, Settled newest st := by
  intro st listed
  obtain ⟨pos, inside, rfl⟩ := getElem_of_mem listed
  have got := getElem?_eq_getElem (stage.count ▸ inside)
  obtain ⟨next, foundNext, advances⟩ := stage.advances pos _ got
  obtain rfl := Option.mem_unique (getElem?_eq_getElem inside) foundNext
  exact (settled _ (getElem_mem _)).advances advances

/-- The commits in front are put out. -/
def Emits (commits outputs : List CommittedSubDag) (post : CommitFinalizer) : Prop :=
  ∃ gone, commits = gone ++ post.commits ∧ List.Forall₂ Finalizes outputs gone

lemma popFinalizedCommits_spec (fin : CommitFinalizer) :
    ∃ outputs post gone, fin.popFinalizedCommits = (outputs, post) ∧
      Learned fin post ∧ post.lastProcessedCommit = fin.lastProcessedCommit ∧
      fin.commits = gone ++ post.commits ∧ List.Forall₂ Finalizes outputs gone ∧
      post.pendingCommits <:+ fin.pendingCommits ∧
      post.certifier = fin.certifier ∧
      post.blocks = (((placed gone).map fun entry => entry.2.reference).foldl .erase
        fin.blocks) ∧
      ∀ first ∈ post.pendingCommits.head?,
        first.pendingBlocks.isEmpty = false ∨ first.pendingTransactions.isEmpty = false := by
  obtain ⟨popped, split, outputs, erased, first⟩ := popFrom_spec fin.pendingCommits fin.blocks
  refine ⟨_, _, popped.map CommitState.commit, rfl, ⟨.refl _, [], rfl, ?_⟩, rfl, ?_, ?_, ?_, rfl,
    erased, first⟩
  · simp [CertifierState.Entered]
  · rw [commits, commits, ← map_append]
    exact congrArg (List.map CommitState.commit) split
  · rw [outputs, forall₂_map_left_iff, forall₂_map_right_iff, forall₂_same]
    exact fun st _ => finalizedCommit_finalizes st
  · exact ⟨popped, split.symm⟩

/-- The buffered commits have what they need, and the states of their blocks are linked. -/
structure Buffered (fin : CommitFinalizer) : Prop where
  supplied : Supplied fin
  consecutive : Consecutive fin.commits
  links : Links fin.blocks (placed fin.commits)

lemma recent_of_head {commits : List CommittedSubDag} {newest : Round} (rising : Rising commits)
    (head : ∀ first ∈ commits.head?, newest < first.leader.round + 3) :
    ∀ commit ∈ commits, newest < commit.leader.round + 3 := by
  intro commit listed
  cases commits with
  | nil => cases listed
  | cons first rest =>
    have recent := head first rfl
    rcases mem_cons.mp listed with rfl | later
    · exact recent
    · have above := (pairwise_cons.mp rising).1 commit later
      lia

lemma tryIndirectFinalizeCommits_ok {fuel : Nat} {newest : Round}
    (buffered : Buffered fin)
    (settled : ∀ st ∈ fin.pendingCommits, Settled newest st)
    (last : ∀ final ∈ fin.commits.getLast?, final.leader.round = newest)
    (enough : fin.pendingCommits.length < fuel) :
    ∃ outputs post, tryIndirectFinalizeCommits ctx fuel fin = .ok (outputs, post) ∧
      Learned fin post ∧ Buffered post ∧
      post.lastProcessedCommit = fin.lastProcessedCommit ∧
      Emits fin.commits outputs post ∧
      ∀ commit ∈ post.commits, newest < commit.leader.round + 3 := by
  induction fuel generalizing fin with
  | zero => exact absurd enough (Nat.not_lt_zero _)
  | succ fuel ih =>
    -- The loop may stop here when the first commit is a recent one.
    have stops : (∀ first ∈ fin.commits.head?, newest < first.leader.round + 3) →
        ∃ outputs post, (Except.ok ([], fin) :
          Except FinalizerPanic (List CommittedSubDag × CommitFinalizer)) = .ok (outputs, post) ∧
          Learned fin post ∧ Buffered post ∧
          post.lastProcessedCommit = fin.lastProcessedCommit ∧
          Emits fin.commits outputs post ∧
          ∀ commit ∈ post.commits, newest < commit.leader.round + 3 := fun recent =>
      ⟨[], fin, rfl, .refl fin, buffered, rfl, ⟨[], rfl, .nil⟩,
        recent_of_head buffered.consecutive.rising recent⟩
    unfold tryIndirectFinalizeCommits
    split
    next first second rest pending =>
      split
      case isTrue waiting =>
        apply stops
        intro commit isFirst
        have head : commit = first.commit := by simpa [commits, pending, eq_comm] using isFirst
        rcases settled first (by simp [pending]) with empty | recent
        · rw [empty] at waiting
          cases waiting
        · rw [head]
          exact recent
      case isFalse ready =>
        have got : fin.pendingCommits[0]? = some first := by rw [pending]; rfl
        have nonempty : fin.commits ≠ [] := by simp [commits, pending]
        have newestLast : Newest fin.commits newest :=
          ⟨_, getLast?_eq_getLast_of_ne_nil nonempty,
            last _ (getLast?_eq_getLast_of_ne_nil nonempty)⟩
        obtain ⟨mid, next, ret, shrunk, recent⟩ :=
          @tryIndirectFinalizeFirstCommit_ok ctx fin newest buffered.supplied
            buffered.consecutive buffered.links newestLast first got (by simpa using ready)
        obtain ⟨popped, post, gone, pops, learned, lastSame, split, finalizes, suffix, certifier,
          erased, unfinished⟩ := popFinalizedCommits_spec mid
        have commitsSplit : fin.commits = gone ++ post.commits :=
          shrunk.stage.commits_eq.symm.trans split
        have bufferedAfter : Buffered post := by
          have consecutive := buffered.consecutive
          have links := buffered.links
          rw [commitsSplit] at consecutive links
          refine ⟨fun st listed => ?_, consecutive.of_append, ?_⟩
          · rw [certifier]
            exact shrunk.stage.supplied st (suffix.subset listed)
          · rw [erased, shrunk.stage.blocks]
            exact consecutive.drop_links links
        have learnedAfter := shrunk.stage.learned.trans learned
        have lastAfter := lastSame.trans shrunk.stage.lastProcessedCommit
        rw [ret, ok_bind, pops]
        dsimp only
        split
        case isTrue none =>
          obtain rfl := List.isEmpty_iff.mp none
          obtain rfl := forall₂_nil_left_iff.mp finalizes
          refine ⟨[], post, rfl, learnedAfter, bufferedAfter, lastAfter,
            ⟨[], commitsSplit, .nil⟩, ?_⟩
          -- Nothing left, so the first commit is the one that was just checked.
          have same : post.pendingCommits = mid.pendingCommits := by
            apply suffix.eq_of_length
            have lengths := congrArg List.length split
            simpa [commits] using lengths.symm
          have head : post.pendingCommits.head? = some next := by
            rw [same, head?_eq_getElem?, shrunk.found]
          apply recent_of_head bufferedAfter.consecutive.rising
          intro commit isFirst
          rw [commits, head?_map, head, Option.map_some] at isFirst
          obtain rfl := Option.some.inj isFirst
          rcases unfinished next head with blocks | txs
          · rw [shrunk.shrinks.blocks] at blocks
            simp [blocks] at ready
          · rcases recent with empty | recent
            · rw [empty] at txs
              cases txs
            · exact recent
        case isFalse some =>
          have shorter : post.pendingCommits.length < fuel := by
            have lengths := congrArg List.length commitsSplit
            have paired := finalizes.length_eq
            have positive : 0 < popped.length := by
              rw [length_pos_iff]
              simpa using some
            simp only [commits, length_map, length_append] at lengths
            lia
          have settledAfter : ∀ st ∈ post.pendingCommits, Settled newest st :=
            fun st listed => shrunk.stage.settled settled st (suffix.subset listed)
          have lastOfAfter : ∀ final ∈ post.commits.getLast?, final.leader.round = newest := by
            intro final isFinal
            apply last final
            rw [commitsSplit, getLast?_append, Option.mem_def.mp isFinal]
            rfl
          obtain ⟨finalized, final, returnedRest, learnedRest, bufferedRest, lastRest,
            ⟨goneRest, splitRest, finalizesRest⟩, recentRest⟩ :=
            ih bufferedAfter settledAfter lastOfAfter shorter
          rw [returnedRest, ok_bind]
          refine ⟨popped ++ finalized, final, rfl, learnedAfter.trans learnedRest, bufferedRest,
            lastRest.trans lastAfter, ⟨gone ++ goneRest, ?_, ?_⟩, recentRest⟩
          · rw [commitsSplit, splitRest, append_assoc]
          · exact rel_append finalizes finalizesRest
    next single =>
      apply stops
      intro commit isFirst
      cases pending : fin.pendingCommits with
      | nil => simp [commits, pending] at isFirst
      | cons first rest =>
        cases rest with
        | cons second rest => exact absurd pending (single first second rest)
        | nil =>
          have isLast : commit ∈ fin.commits.getLast? := by simpa [commits, pending] using isFirst
          have round := last commit isLast
          lia

lemma mem_blocksByRound {commit : CommittedSubDag} {blk : VerifiedBlock} :
    blk ∈ blocksByRound commit ↔ blk ∈ commit.blocks :=
  (perm_insertionSort _ _).mem_iff

lemma linkLastCommit_ok {old : List CommittedSubDag} {new : CommittedSubDag}
    (same : fin.commits = old ++ [new]) (consecutive : Consecutive (old ++ [new]))
    (links : Links fin.blocks (placed old)) :
    ∃ linked blocks, fin.linkBlocksInLastCommit = .ok linked ∧
      linked.appendOriginDescendantsFromLastCommit = .ok { fin with blocks } ∧
        Links blocks (placed (old ++ [new])) := by
  have isLast : fin.commits.getLast? = some new := by rw [same, getLast?_concat]
  rw [commits, getLast?_map, Option.map_eq_some_iff] at isLast
  obtain ⟨st, isLast, rfl⟩ := isLast
  have notBefore : ∀ entry ∈ placed old, entry.1 ≤ st.commit.commitRef.index := by
    intro entry listed
    obtain ⟨commit, mem, -, idx⟩ := mem_placed.mp listed
    rw [← idx]
    exact Nat.le_of_lt ((pairwise_append.mp consecutive.indices_rise).2.2 commit mem
      st.commit (mem_singleton.mpr rfl))
  have linked : Links ((blocksByRound st.commit).foldl
      (linkBlock st.commit.commitRef.index) fin.blocks)
      (placed (old ++ [st.commit])) := by
    refine (links.linkBlocks notBefore _).of_mem_iff fun entry => ?_
    rw [placed_append, mem_append, mem_append]
    refine or_congr_right ?_
    simp only [List.mem_map, mem_blocksByRound, mem_placed, mem_singleton]
    constructor
    · rintro ⟨blk, own, rfl⟩
      exact ⟨st.commit, rfl, own, rfl⟩
    · rintro ⟨commit, rfl, own, idx⟩
      exact ⟨entry.2, own, by rw [idx]⟩
  obtain ⟨blocks, ret, linksAfter⟩ := @foldlM_returns _ _ _
    (fun blocks : BlockMap => Links blocks (placed (old ++ [st.commit])))
    appendOriginDescendants (blocksByRound st.commit) _ linked (by
      intro blocks blk listed links
      have placedAt : (st.commit.commitRef.index, blk) ∈ placed (old ++ [st.commit]) :=
        mem_placed.mpr ⟨st.commit, by simp, mem_blocksByRound.mp listed, rfl⟩
      obtain ⟨post, ret, agrees⟩ := appendOriginDescendants_ok links consecutive.rooted
        (links.present _ placedAt)
      exact ⟨post, ret, links.congr agrees⟩)
  refine ⟨{ fin with
    blocks := (blocksByRound st.commit).foldl (linkBlock st.commit.commitRef.index)
      fin.blocks }, blocks, ?_, ?_, linksAfter⟩
  · rw [linkBlocksInLastCommit, isLast, expect_some, ok_bind]
    rfl
  · rw [appendOriginDescendantsFromLastCommit, isLast, expect_some, ok_bind, ret, ok_bind]
    rfl

lemma commitState_new_ok {certifier : CertifierState} {commit : CommittedSubDag}
    (nonempty : commit.blocks ≠ [])
    (known : ∀ blk ∈ commit.blocks, blk.reference ∈ certifier.votes) :
    ∃ st, CommitState.new commit = .ok st ∧ st.commit = commit ∧ st.Sound certifier := by
  have listed : ∀ (blocks : List VerifiedBlock) (pending : ExtTreeMap BlockRef Nat)
      (ref : BlockRef), ref ∈ blocks.foldl (fun pending blk =>
        pending.insert blk.reference blk.block.inner.transactions.length) pending ↔
      (∃ blk ∈ blocks, blk.reference = ref) ∨ ref ∈ pending := by
    intro blocks
    induction blocks with
    | nil => simp
    | cons blk rest ih =>
      intro pending ref
      rw [foldl_cons, ih, ExtTreeMap.mem_insert,
        LawfulEqCmp.compare_eq_iff_eq, exists_mem_cons_iff, or_left_comm, or_assoc]
  obtain ⟨first, rest, split⟩ := exists_cons_of_ne_nil nonempty
  have some : first.reference ∈ commit.blocks.foldl (fun pending blk =>
      pending.insert blk.reference blk.block.inner.transactions.length)
      (∅ : ExtTreeMap BlockRef Nat) :=
    (listed _ _ _).mpr (.inl ⟨first, by simp [split], rfl⟩)
  have nonempty := ExtTreeMap.isEmpty_eq_false_iff.mpr fun empty =>
    ExtTreeMap.eq_empty_iff_forall_not_mem.mp empty first.reference some
  refine ⟨{ commit, pendingTransactions := ∅, rejectedTransactions := ∅
            pendingBlocks := commit.blocks.foldl (fun pending blk =>
              pending.insert blk.reference blk.block.inner.transactions.length) ∅ },
    ?_, rfl, known, fun ref pending => ?_, by simp⟩
  · rw [CommitState.new, ensure_holds _ nonempty, ok_bind]
    rfl
  · rcases (listed _ _ _).mp pending with own | absent
    · exact own
    · simp at absent

/-- A commit that follows the buffered ones, with blocks that the certifier knows, is processed:
commits leave from the front, and those that stay have recent leaders. -/
lemma processCommit_ok (buffered : Buffered fin) {commit : CommittedSubDag}
    (follows : Consecutive (fin.commits ++ [commit]))
    (known : ∀ blk ∈ commit.blocks, blk.reference ∈ fin.certifier.votes)
    (nonempty : commit.blocks ≠ [])
    (next : ∀ last ∈ fin.lastProcessedCommit, last + 1 = commit.commitRef.index) :
    ∃ outputs post, fin.processCommit ctx commit = .ok (outputs, post) ∧
      Learned fin post ∧ Buffered post ∧
      post.lastProcessedCommit = some commit.commitRef.index ∧
      Emits (fin.commits ++ [commit]) outputs post ∧
      ∀ kept ∈ post.commits, commit.leader.round < kept.leader.round + 3 := by
  obtain ⟨st, created, rfl, sound⟩ := commitState_new_ok nonempty known
  generalize extended : { fin with
    lastProcessedCommit := some st.commit.commitRef.index
    pendingCommits := fin.pendingCommits ++ [st] } = start
  have checked : fin.processCommit ctx st.commit = (do
      let fin ← tryDirectFinalizeCommits ctx
        (List.range start.pendingCommits.length) start
      let popped := fin.popFinalizedCommits
      if popped.2.pendingCommits.isEmpty then pure popped
      else
        let fin ← popped.2.linkBlocksInLastCommit
        let fin ← fin.appendOriginDescendantsFromLastCommit
        let rest ← tryIndirectFinalizeCommits ctx
          (fin.pendingCommits.length + 1) fin
        pure (popped.1 ++ rest.1, rest.2)) := by
    subst extended
    unfold processCommit
    cases processed : fin.lastProcessedCommit with
    | none =>
      dsimp only
      rw [created]
      rfl
    | some last =>
      dsimp only
      rw [ensure_holds _ (next last processed), ok_bind, created]
      rfl
  have startCommits : start.commits = fin.commits ++ [st.commit] := by
    subst extended
    rw [commits, commits, map_append, map_singleton]
  have startSupplied : Supplied start := by
    subst extended
    intro other listed
    rcases mem_append.mp listed with listed | listed
    · exact buffered.supplied other listed
    · rw [mem_singleton.mp listed]
      exact sound
  have newest : Newest start.commits st.commit.leader.round := by
    rw [startCommits]
    exact ⟨st.commit, getLast?_concat, rfl⟩
  obtain ⟨direct, ret, stage, settled⟩ := @tryDirectFinalizeCommits_ok ctx start
    (List.range start.pendingCommits.length) _ startSupplied (startCommits ▸ follows.rising) newest
    pairwise_lt_range fun pos listed => mem_range.mp listed
  have allSettled : ∀ other ∈ direct.pendingCommits, Settled st.commit.leader.round other := by
    intro other listed
    obtain ⟨pos, inside, rfl⟩ := getElem_of_mem listed
    exact settled pos (mem_range.mpr (stage.count ▸ inside)) _
      (getElem?_eq_getElem inside)
  obtain ⟨popped, post, gone, pops, learned, lastSame, split, finalizes, suffix, certifier,
    erased, -⟩ := popFinalizedCommits_spec direct
  have commitsSplit : fin.commits ++ [st.commit] = gone ++ post.commits := by
    rw [← startCommits, ← stage.commits_eq]
    exact split
  have learnedAfter : Learned fin post := by
    have first : Learned start post := stage.learned.trans learned
    subst extended
    exact ⟨first.grows, first.passed⟩
  have lastAfter : post.lastProcessedCommit = some st.commit.commitRef.index := by
    rw [lastSame, stage.lastProcessedCommit, ← extended]
  have blocksAfter : post.blocks =
      ((placed gone).map fun entry => entry.2.reference).foldl .erase fin.blocks := by
    rw [erased, stage.blocks, ← extended]
  have suppliedAfter : Supplied post := by
    intro other listed
    rw [certifier]
    exact stage.supplied other (suffix.subset listed)
  have settledAfter : ∀ other ∈ post.pendingCommits, Settled st.commit.leader.round other :=
    fun other listed => allSettled other (suffix.subset listed)
  rw [checked, ret, ok_bind, pops]
  dsimp only
  split
  case isTrue none =>
    have noCommits : post.commits = [] := by rw [commits, List.isEmpty_iff.mp none, map_nil]
    rw [noCommits, append_nil] at commitsSplit
    refine ⟨popped, post, rfl, learnedAfter, ⟨suppliedAfter, ?_, ?_⟩, lastAfter,
      ⟨gone, by rw [noCommits, append_nil, commitsSplit], finalizes⟩, by simp [noCommits]⟩
    · rw [noCommits]
      exact consecutive_nil
    · rw [blocksAfter, noCommits]
      apply buffered.links.clear
      intro entry listed
      rw [← commitsSplit, placed_append]
      exact mem_append_left _ listed
  case isFalse some =>
    have kept : post.commits ≠ [] := by
      intro none
      rw [commits, map_eq_nil_iff] at none
      simp [none] at some
    obtain ⟨keptOld, sameOld, sameAfter⟩ : ∃ keptOld, fin.commits = gone ++ keptOld ∧
        post.commits = keptOld ++ [st.commit] := by
      obtain ⟨keptOld, last, split⟩ := (eq_nil_or_concat' post.commits).resolve_left kept
      rw [split, ← append_assoc] at commitsSplit
      obtain ⟨same, isLast⟩ := append_inj' commitsSplit rfl
      exact ⟨keptOld, same, by rw [split, isLast]⟩
    have consecutive : Consecutive (keptOld ++ [st.commit]) := by
      rw [sameOld, append_assoc] at follows
      exact follows.of_append
    have linksOld : Links post.blocks (placed keptOld) := by
      have old := buffered.consecutive
      have links := buffered.links
      rw [sameOld] at old links
      rw [blocksAfter]
      exact old.drop_links links
    obtain ⟨linked, blocks, links, appended, linksAll⟩ :=
      linkLastCommit_ok sameAfter consecutive linksOld
    have isNewest : ∀ final ∈ post.commits.getLast?,
        final.leader.round = st.commit.leader.round := by
      intro final isFinal
      rw [sameAfter, getLast?_concat] at isFinal
      rw [Option.some.inj isFinal]
    obtain ⟨indirect, final, returnedRest, learnedRest, bufferedRest, lastRest,
      ⟨goneRest, splitRest, finalizesRest⟩, recent⟩ := @tryIndirectFinalizeCommits_ok ctx
        { post with blocks } (post.pendingCommits.length + 1) st.commit.leader.round
        ⟨suppliedAfter, by
          change Consecutive post.commits
          rw [sameAfter]
          exact consecutive, by
          change Links blocks (placed post.commits)
          rw [sameAfter]
          exact linksAll⟩ settledAfter isNewest (Nat.lt_succ_self _)
    rw [links, ok_bind, appended, ok_bind, returnedRest, ok_bind]
    refine ⟨popped ++ indirect, final, rfl, ?_, bufferedRest, lastRest.trans lastAfter,
      ⟨gone ++ goneRest, ?_, rel_append finalizes finalizesRest⟩, recent⟩
    · exact learnedAfter.trans ⟨learnedRest.grows, learnedRest.passed⟩
    · rw [commitsSplit, append_assoc, ← splitRest]
      rfl

end Output

end CommitFinalizer

end Mysticeti

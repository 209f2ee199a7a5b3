import Mysticeti.BlockBookkeeping
import Mysticeti.Lib.Machine
import Mysticeti.Recovery

/-!
# The cache in every run

The operations of the DAG state in any order and with any arguments, and restarts from what
was flushed. Nothing is assumed of the blocks, their ancestors or the leaders: an operation
that would panic is not performed. The index of the cache, the eviction rounds and the blocks
above the garbage-collection round agree in every state of such a run.

The eviction rounds only rise between restarts since what a flush evicts is never the last
block of an authority, when at least one round is kept: the recorded eviction round is at
most the one that would be computed now.
-/

namespace Mysticeti

open List Lib.Outcome Lib.OrderedMap Lib.Machine

inductive DagAction where
  | acceptBlock (blk : VerifiedBlock)
  | setCommitted (ref : BlockRef)
  | commitLeader (leader : VerifiedBlock)
  | linkCausalHistory (root : BlockRef)
  | addCommitInfo (scores : ReputationScores)
  | addScoringSubdags (subdags : List CommittedSubDag)
  | clearScoringSubdag
  | addFinalizedCommit (commit : CommitRef) (rejected : RejectedTransactions)
  | takeCommitVotes (limit : Nat)
  | recoverCommitsToWrite (commits : List TrustedCommit)
  | flush
  | restart

structure DagRun where
  state : DagState
  accepted : List BlockRef

namespace DagRun

open DagState

def start : DagRun := ⟨DagState.initial, []⟩

def perform (ctx : Context) (st : DagState) : DagAction → Except Panic DagState
  | .acceptBlock blk => st.acceptBlock ctx blk
  | .setCommitted ref => do
    let set ← st.setCommitted ref
    pure set.2
  | .commitLeader leader => do
    let committed ← Linearizer.commitLeader ctx ([], st) leader
    pure committed.2
  | .linkCausalHistory root => do
    let linked ← linkCausalHistory ctx st root
    pure linked.2
  | .addCommitInfo scores => st.addCommitInfo scores
  | .addScoringSubdags subdags => st.addScoringSubdags ctx subdags
  | .clearScoringSubdag => .ok st.clearScoringSubdag
  | .addFinalizedCommit commit rejected => .ok (st.addFinalizedCommit commit rejected)
  | .takeCommitVotes limit => .ok (st.takeCommitVotes limit).2
  | .recoverCommitsToWrite commits => .ok (st.recoverCommitsToWrite commits)
  | .flush => .ok (st.flush ctx)
  | .restart => DagState.new ctx st.store

def acceptedAfter (run : DagRun) : DagAction → List BlockRef
  | .acceptBlock blk => blk.reference :: run.accepted
  | .restart => run.accepted.filter fun ref => run.state.store.containsBlock ref
  | _ => run.accepted

def step (ctx : Context) (run : DagRun) (act : DagAction) : Option DagRun :=
  (perform ctx run.state act).toOption.map fun st => ⟨st, run.acceptedAfter act⟩

end DagRun

namespace DagState

variable {ctx : Context} {pre post st : DagState} {ref : BlockRef}
  {auth : AuthorityIndex}

def lastCachedRound (st : DagState) (auth : AuthorityIndex) : Round :=
  ((last (st.recentRefsByAuthority auth)).map BlockRef.round).getD GENESIS_ROUND

lemma round_le_lastCachedRound (listed : ref ∈ st.recentRefsByAuthority auth) :
    ref.round ≤ st.lastCachedRound auth := by
  unfold lastCachedRound
  cases got : last (st.recentRefsByAuthority auth) with
  | none => exact absurd listed (last_eq_none_iff.mp got ref)
  | some top => exact BlockRef.round_le_of_isLE ((last_eq_some_iff.mp got).2 _ listed)

lemma lastCachedRound_cases (st : DagState) (auth : AuthorityIndex) :
    st.lastCachedRound auth = GENESIS_ROUND ∨
      ∃ ref ∈ st.recentRefsByAuthority auth, ref.round = st.lastCachedRound auth := by
  unfold lastCachedRound
  cases got : last (st.recentRefsByAuthority auth) with
  | none => exact .inl rfl
  | some top => exact .inr ⟨top, (last_eq_some_iff.mp got).1, rfl⟩

lemma evictionRound_mono (raised : pre.gcRound ctx ≤ post.gcRound ctx)
    (grown : pre.lastCachedRound auth ≤ post.lastCachedRound auth) :
    pre.calculateAuthorityEvictionRound ctx auth ≤ post.calculateAuthorityEvictionRound ctx auth :=
  min_le_min raised (Nat.sub_le_sub_right grown _)

lemma lastCachedRound_le (listed : ∀ ref ∈ pre.recentRefsByAuthority auth,
      ref.round = pre.lastCachedRound auth → ref ∈ post.recentRefsByAuthority auth) :
    pre.lastCachedRound auth ≤ post.lastCachedRound auth := by
  rcases pre.lastCachedRound_cases auth with none | ⟨ref, mem, round⟩
  · rw [none]
    exact Nat.zero_le _
  · rw [← round]
    exact round_le_lastCachedRound (listed ref mem round)

lemma evictionRound_lt (keeps : 1 ≤ ctx.dagStateCachedRounds)
    (pos : st.lastCachedRound auth ≠ 0) :
    st.calculateAuthorityEvictionRound ctx auth < st.lastCachedRound auth := by
  have below : st.calculateAuthorityEvictionRound ctx auth ≤
      st.lastCachedRound auth - ctx.dagStateCachedRounds := Nat.min_le_right _ _
  lia

lemma evictedRounds_evictAll {auths : List AuthorityIndex} (nodup : auths.Nodup) :
    (auths.foldl (evict ctx) st).evictedRounds auth =
      if auth ∈ auths then st.calculateAuthorityEvictionRound ctx auth
      else st.evictedRounds auth := by
  induction auths generalizing st with
  | nil => simp
  | cons first rest ih =>
    rw [nodup_cons] at nodup
    rw [foldl_cons, ih nodup.2]
    by_cases here : auth = first
    · subst here
      simp [nodup.1, evict]
    · have apart : (st.evict ctx first).evictedRounds auth =
          st.evictedRounds auth := by simp [evict, here]
      rw [evictionRound_evict here, apart]
      simp [here]

lemma evictedRounds_flush (st : DagState) (auth : AuthorityIndex) :
    (st.flush ctx).evictedRounds auth = st.evictedRounds auth ∨
      (st.flush ctx).evictedRounds auth = st.calculateAuthorityEvictionRound ctx auth := by
  unfold flush
  split
  · exact .inl rfl
  · rw [evictedRounds_evictAll (show ctx.committee.indices.Nodup from nodup_range)]
    split
    · exact .inr rfl
    · exact .inl rfl

lemma lastCachedRound_flush (keeps : 1 ≤ ctx.dagStateCachedRounds)
    (indexed : st.Indexed) (auth : AuthorityIndex) :
    st.lastCachedRound auth ≤ (st.flush ctx).lastCachedRound auth := by
  have flushed := @flush_flushed ctx st indexed
  by_cases pos : st.lastCachedRound auth = 0
  · rw [pos]
    exact Nat.zero_le _
  apply lastCachedRound_le
  intro ref listed round
  obtain ⟨cached, rfl⟩ := (indexed auth ref).mp listed
  have above := evictionRound_lt keeps pos
  rw [← round] at above
  rw [flushed.indexed, mem_recentBlocks, flushed.kept ref above, ← mem_recentBlocks]
  exact ⟨cached, rfl⟩

/-- The block waits to be written or is stored. -/
def Held (st : DagState) (ref : BlockRef) : Prop :=
  (∃ blk ∈ st.blocksToWrite, blk.reference = ref) ∨ ref ∈ st.store.blocks

def authored (ctx : Context) : Set VerifiedBlock := {blk | blk.author < ctx.committee.size}

structure Upheld (ctx : Context) (st : DagState) : Prop where
  kept : Kept ctx (authored ctx) st
  held : ∀ ref ∈ st.recentBlocks, st.Held ref
  evicted : ∀ auth, st.evictedRounds auth ≤ st.calculateAuthorityEvictionRound ctx auth

lemma Kept.mem_of_held {admitted : Set VerifiedBlock} (kept : Kept ctx admitted st)
    (held : st.Held ref) (above : st.gcRound ctx < ref.round) :
    ref ∈ st.recentBlocks := by
  rcases held with ⟨blk, buffered, rfl⟩ | stored
  · exact (kept.buffered blk buffered).2 above
  · obtain ⟨blk, got⟩ := getElem?_of_mem stored
    exact (kept.stored ref blk got).2.2 above

lemma initial_upheld (ctx : Context) : Upheld ctx initial where
  kept := initial_kept ctx _
  held ref cached := by simp [initial] at cached
  evicted _ := Nat.zero_le _

/-- What an operation other than a restart does for the cache. -/
structure Upholds (ctx : Context) (pre post : DagState) : Prop where
  upheld : Upheld ctx post
  held : ∀ ref, pre.Held ref → post.Held ref
  risen : ∀ auth, pre.evictedRounds auth ≤ post.evictedRounds auth

lemma SameBlocks.held_iff (same : SameBlocks ctx pre post) : post.Held ref ↔ pre.Held ref := by
  unfold Held
  rw [same.buffer, same.store]

lemma Upheld.of_sameBlocks (upheld : Upheld ctx pre)
    (same : SameBlocks ctx pre post)
    (sameEvicted : post.evictedRounds = pre.evictedRounds) : Upholds ctx pre post := by
  refine ⟨⟨?_, ?_, ?_⟩, fun _ => same.held_iff.mpr, ?_⟩
  · exact upheld.kept.of_flags same.refs same.blocks same.buffer same.store same.raised
  · intro ref cached
    exact same.held_iff.mpr (upheld.held ref (same.mem_iff.mp cached))
  · intro auth
    rw [sameEvicted]
    refine (upheld.evicted auth).trans (evictionRound_mono same.raised ?_)
    unfold lastCachedRound
    rw [same.refs]
  · intro auth
    rw [sameEvicted]

lemma Flagged.sameBlocks (flagged : Flagged pre post) :
    SameBlocks ctx pre post ∧ post.evictedRounds = pre.evictedRounds :=
  ⟨⟨by rw [flagged.frame], flagged.blocks, by rw [flagged.frame], by rw [flagged.frame],
    Nat.le_of_eq flagged.gcRound_eq.symm⟩, by rw [flagged.frame]⟩

lemma commitLeader_sameBlocks {leader : VerifiedBlock}
    {collected subDags : List CommittedSubDag}
    (run : Linearizer.commitLeader ctx (collected, pre) leader = .ok (subDags, post)) :
    SameBlocks ctx pre post ∧ post.evictedRounds = pre.evictedRounds := by
  obtain ⟨subDag, commit, -, appended⟩ := Linearizer.commitLeader_appended run
  have leads := congrArg BlockRef.round appended.leader
  have newer := appended.newer
  obtain ⟨lined, rounds, flagged, rfl⟩ := appended.effect
  have raised : pre.gcRound ctx ≤ commit.round - ctx.protocolConfig.gcDepth := by
    apply Nat.sub_le_sub_right
    rw [show commit.round = leader.round from leads]
    exact Nat.le_of_lt newer
  exact ⟨⟨by rw [flagged.frame], flagged.blocks, by rw [flagged.frame], by rw [flagged.frame],
    raised⟩, by rw [flagged.frame]⟩

lemma Upheld.acceptBlock {blk : VerifiedBlock} (upheld : Upheld ctx pre)
    (run : pre.acceptBlock ctx blk = .ok post) :
    Upholds ctx pre post ∧ post.Held blk.reference := by
  obtain ⟨pos, ⟨known, rfl⟩ | ⟨-, -, inside, same⟩⟩ := acceptBlock_cases run
  · refine ⟨⟨upheld, fun _ held => held, fun _ => Nat.le_refl _⟩, ?_⟩
    rcases upheld.kept.hasAccepted_of_contains known with cached | buffered | stored | genesis
    · exact upheld.held _ cached
    · exact .inl buffered
    · exact .inr stored
    · exact absurd (round_of_genesisGet genesis) pos
  · have keptAfter := upheld.kept.acceptBlock (show blk ∈ authored ctx from inside) run
    have raised := Nat.le_of_eq (acceptBlock_gcRound run).symm
    have grown : ∀ ref ∈ pre.recentBlocks, ref ∈ post.recentBlocks :=
      fun _ => acceptBlock_mem upheld.kept.indexed run
    subst same
    have heldAfter : ∀ ref, pre.Held ref → (pre.accepted ctx blk).Held ref := by
      rintro ref (⟨other, buffered, same⟩ | stored)
      · exact .inl ⟨other, mem_append_left _ buffered, same⟩
      · exact .inr stored
    have heldBlock : (pre.accepted ctx blk).Held blk.reference :=
      .inl ⟨blk, by simp [accepted], rfl⟩
    refine ⟨⟨⟨keptAfter, ?_, ?_⟩, heldAfter, fun _ => Nat.le_refl _⟩, heldBlock⟩
    · intro ref cached
      rcases mem_accepted.mp cached with rfl | old
      · exact heldBlock
      · exact heldAfter ref (upheld.held ref old)
    · intro auth
      refine (upheld.evicted auth).trans (evictionRound_mono raised (lastCachedRound_le ?_))
      intro ref listed _
      obtain ⟨cached, author⟩ := (upheld.kept.indexed auth ref).mp listed
      exact (keptAfter.indexed auth ref).mpr ⟨grown _ cached, author⟩

variable (keeps : 1 ≤ ctx.dagStateCachedRounds)

include keeps

lemma Upheld.flush (upheld : Upheld ctx pre) : Upholds ctx pre (pre.flush ctx) := by
  have flushed := @flush_flushed ctx pre upheld.kept.indexed
  have has : ∀ auth, pre.calculateAuthorityEvictionRound ctx auth ≤
      (pre.flush ctx).calculateAuthorityEvictionRound ctx auth := fun auth =>
    evictionRound_mono (Nat.le_of_eq flushed.gcRound_eq.symm)
      (lastCachedRound_flush keeps upheld.kept.indexed auth)
  have heldAfter : ∀ ref, pre.Held ref → (pre.flush ctx).Held ref := by
    intro ref held
    right
    rw [flushed.frame]
    exact mem_insertAll.mpr held
  refine ⟨⟨upheld.kept.flush, ?_, ?_⟩, heldAfter, ?_⟩
  · intro ref cached
    obtain ⟨info, got⟩ := mem_recentBlocks.mp cached
    exact heldAfter ref (upheld.held ref
      (mem_recentBlocks.mpr ⟨info, flushed.found ref info got⟩))
  · intro auth
    rcases pre.evictedRounds_flush auth with same | now
    · rw [same]
      exact (upheld.evicted auth).trans (has auth)
    · rw [now]
      exact has auth
  · intro auth
    rcases pre.evictedRounds_flush auth with same | now
    · rw [same]
    · rw [now]
      exact upheld.evicted auth

/-- With a round to keep, a stored block that no other one of its author comes after is above
the eviction round that a restart finds. -/
lemma storedEvictionRound_lt (keyed : pre.store.Keyed)
    (stored : ref ∈ pre.store.blocks) (pos : ref.round ≠ 0)
    (latest : ∀ other ∈ pre.store.blocks, other.author = ref.author → other.round ≤ ref.round) :
    pre.storedEvictionRound ctx ref.author < ref.round := by
  obtain ⟨newest, got, newestStored, author, -⟩ := keyed.round_le_last stored
  have reached : newest.round ≤ ref.round :=
    latest newest.reference (mem_of_getElem? newestStored) author
  have below : pre.storedEvictionRound ctx ref.author ≤
      newest.round - ctx.dagStateCachedRounds := by
    unfold storedEvictionRound evictionRound
    rw [got]
    exact Nat.min_le_right _ _
  lia

lemma stored_le_lastCachedRound {loaded : DagState} (keyed : pre.store.Keyed)
    (indexed : pre.Indexed) (loads : Loaded ctx pre ctx.committee.indices loaded)
    (mem : ref.author ∈ ctx.committee.indices)
    (stored : ref ∈ pre.store.blocks) :
    ref.round ≤ loaded.lastCachedRound ref.author := by
  obtain ⟨newest, got, newestStored, author, reached⟩ := keyed.round_le_last stored
  by_cases pos : newest.round = 0
  · rw [pos] at reached
    exact reached.trans (Nat.zero_le _)
  have latest : ∀ other ∈ pre.store.blocks, other.author = newest.reference.author →
      other.round ≤ newest.reference.round := by
    intro other otherStored sameAuthor
    obtain ⟨last, foundLast, -, -, below⟩ := keyed.round_le_last otherStored
    rw [show other.author = ref.author from sameAuthor.trans author, got] at foundLast
    cases foundLast
    exact below
  have above := storedEvictionRound_lt keeps keyed (mem_of_getElem? newestStored) pos latest
  have cached := loads.entered newest.reference (mem_of_getElem? newestStored)
    (by rw [show newest.reference.author = ref.author from author]; exact mem) above
  exact reached.trans (round_le_lastCachedRound
    ((loads.indexed indexed ref.author newest.reference).mpr ⟨cached, author⟩))

/-- The eviction round of an authority after a restart is the one by its last stored block,
which is back in the cache. -/
lemma storedEvictionRound_le {loaded : DagState} (keyed : pre.store.Keyed)
    (indexed : pre.Indexed) (loads : Loaded ctx pre ctx.committee.indices loaded)
    (mem : auth ∈ ctx.committee.indices) :
    pre.storedEvictionRound ctx auth ≤ loaded.calculateAuthorityEvictionRound ctx auth := by
  have sameGc : loaded.gcRound ctx = pre.gcRound ctx := by
    rw [loads.frame]
    rfl
  refine min_le_min (Nat.le_of_eq sameGc.symm) (Nat.sub_le_sub_right ?_ _)
  cases got : (pre.store.scanLastBlocksByAuthor auth 1).getLast? with
  | none => exact Nat.zero_le _
  | some blk =>
    have scanned : blk ∈ pre.store.scanBlocksByAuthor auth 0 := by
      have listed := mem_of_getLast? got
      exact mem_reverse.mp (mem_of_mem_take (mem_reverse.mp listed))
    obtain ⟨stored, rfl, -⟩ := keyed.mem_scanBlocksByAuthor.mp scanned
    exact stored_le_lastCachedRound keeps keyed indexed loads mem (mem_of_getElem? stored)

lemma Upheld.restart (upheld : Upheld ctx pre)
    (run : DagState.new ctx pre.store = .ok post) :
    Upheld ctx post ∧ post.store = pre.store := by
  have keyed : pre.store.Keyed := fun ref blk got => (upheld.kept.stored ref blk got).1
  obtain ⟨rounds, subdags, scoringSubdag, loaded, -, -, loads, flagged⟩ :=
    (new_recovered keyed run).phases
  have sameStore : loaded.store = pre.store := by rw [loads.frame]; rfl
  have emptyIndexed : (unloaded pre.store rounds scoringSubdag).Indexed := initial_indexed
  have indexed := loads.indexed emptyIndexed
  have fromStore : ∀ (ref : BlockRef) (info : BlockInfo),
      loaded.recentBlocks[ref]? = some info → pre.store.blocks[ref]? = some info.block := by
    intro ref info got
    rcases loads.found ref info got with old | ⟨-, -, blk, stored, rfl⟩
    · simp [unloaded, initial] at old
    · exact stored
  have upheldLoaded : Upheld ctx loaded := by
    refine ⟨⟨indexed, ?_, ?_, ?_⟩, ?_, ?_⟩
    · intro ref info got
      obtain ⟨same, author, -⟩ := upheld.kept.stored ref _ (fromStore ref info got)
      exact ⟨same, author⟩
    · intro blk mem
      rw [loads.frame] at mem
      simp [unloaded, initial] at mem
    · intro ref blk got
      rw [sameStore] at got
      obtain ⟨same, author, -⟩ := upheld.kept.stored ref blk got
      refine ⟨same, author, fun above => ?_⟩
      have sameGc : loaded.gcRound ctx = (unloaded pre.store rounds scoringSubdag).gcRound ctx := by
        rw [loads.frame]
        rfl
      refine loads.entered ref (mem_of_getElem? got) ?_ ?_
      · rw [← same]
        exact mem_range.mpr author
      · rw [sameGc] at above
        exact Nat.lt_of_le_of_lt (Nat.min_le_left _ _) above
    · intro ref cached
      obtain ⟨info, got⟩ := mem_recentBlocks.mp cached
      right
      rw [sameStore]
      exact mem_of_getElem? (fromStore ref info got)
    · intro auth
      rw [loads.evicted]
      split
      · rename_i mem
        exact storedEvictionRound_le keeps keyed emptyIndexed loads mem
      · exact Nat.zero_le _
  have same := @Flagged.sameBlocks ctx _ _ flagged
  exact ⟨(upheldLoaded.of_sameBlocks same.1 same.2).upheld, same.1.store.trans sameStore⟩

end DagState

namespace DagRun

open DagState

variable {ctx : Context} {pre post : DagRun} {act : DagAction}

/-- The cache is kept, and what counts as accepted is written or waits to be. -/
structure Caches (ctx : Context) (run : DagRun) : Prop where
  upheld : Upheld ctx run.state
  accepted : ∀ ref ∈ run.accepted, run.state.Held ref

lemma perform_cases {st next : DagState}
    (performed : perform ctx st act = .ok next) :
    (∃ blk, act = .acceptBlock blk ∧ st.acceptBlock ctx blk = .ok next) ∨
      (act = .flush ∧ next = st.flush ctx) ∨
      (act = .restart ∧ DagState.new ctx st.store = .ok next) ∨
      (SameBlocks ctx st next ∧ next.evictedRounds = st.evictedRounds) := by
  have unchanged : SameBlocks ctx st st := ⟨rfl, fun _ => rfl, rfl, rfl, Nat.le_refl _⟩
  cases act with
  | acceptBlock blk => exact .inl ⟨blk, rfl, performed⟩
  | flush => exact .inr (.inl ⟨rfl, (Except.ok.inj performed).symm⟩)
  | restart => exact .inr (.inr (.inl ⟨rfl, performed⟩))
  | setCommitted ref =>
    obtain ⟨⟨newly, marked⟩, set, done⟩ := bind_eq_ok.mp performed
    cases done
    exact .inr (.inr (.inr (setCommitted_flagged set).sameBlocks))
  | commitLeader leader =>
    obtain ⟨⟨subDags, committed⟩, run, done⟩ := bind_eq_ok.mp performed
    cases done
    exact .inr (.inr (.inr (commitLeader_sameBlocks run)))
  | linkCausalHistory root =>
    obtain ⟨⟨seen, linked⟩, run, done⟩ := bind_eq_ok.mp performed
    cases done
    exact .inr (.inr (.inr (linkCausalHistory_flagged run).sameBlocks))
  | addCommitInfo scores =>
    obtain ⟨-, run⟩ := ensure_bind_eq_ok.mp performed
    obtain ⟨last, -, run⟩ := expect_bind_eq_ok.mp run
    cases run
    exact .inr (.inr (.inr ⟨⟨rfl, unchanged.blocks, rfl, rfl, unchanged.raised⟩, rfl⟩))
  | addScoringSubdags subdags =>
    obtain ⟨scoringSubdag, -, run⟩ := bind_eq_ok.mp performed
    cases run
    exact .inr (.inr (.inr ⟨⟨rfl, unchanged.blocks, rfl, rfl, unchanged.raised⟩, rfl⟩))
  | clearScoringSubdag | addFinalizedCommit | takeCommitVotes | recoverCommitsToWrite =>
    cases performed
    exact .inr (.inr (.inr ⟨⟨rfl, unchanged.blocks, rfl, rfl, unchanged.raised⟩, rfl⟩))

lemma perform_upholds (keeps : 1 ≤ ctx.dagStateCachedRounds)
    {st next : DagState} (upheld : Upheld ctx st) (live : act ≠ .restart)
    (performed : perform ctx st act = .ok next) : Upholds ctx st next := by
  obtain ⟨blk, -, run⟩ | ⟨-, rfl⟩ | ⟨restarts, -⟩ | ⟨same, evicted⟩ := perform_cases performed
  · exact (upheld.acceptBlock run).1
  · exact upheld.flush keeps
  · exact absurd restarts live
  · exact upheld.of_sameBlocks same evicted

lemma stepped_of_step (taken : step ctx pre act = some post) :
    perform ctx pre.state act = .ok post.state ∧ post.accepted = pre.acceptedAfter act := by
  obtain ⟨st, performed, rfl⟩ := Option.map_eq_some_iff.mp taken
  exact ⟨toOption_eq_some.mp performed, rfl⟩

lemma Caches.step (keeps : 1 ≤ ctx.dagStateCachedRounds) (caches : pre.Caches ctx)
    (taken : step ctx pre act = some post) : post.Caches ctx := by
  obtain ⟨performed, counted⟩ := stepped_of_step taken
  by_cases live : act = .restart
  · subst live
    obtain ⟨upheld, sameStore⟩ := caches.upheld.restart keeps performed
    refine ⟨upheld, fun ref mem => ?_⟩
    rw [counted] at mem
    obtain ⟨-, stored⟩ := mem_filter.mp mem
    right
    rw [sameStore]
    exact Std.ExtTreeMap.mem_iff_contains.mpr stored
  · have upholds := perform_upholds keeps caches.upheld live performed
    refine ⟨upholds.upheld, fun ref mem => ?_⟩
    rw [counted] at mem
    cases act with
    | acceptBlock blk =>
      rcases mem_cons.mp mem with rfl | prev
      · exact (caches.upheld.acceptBlock performed).2
      · exact upholds.held ref (caches.accepted ref prev)
    | restart => exact absurd rfl live
    | _ => exact upholds.held ref (caches.accepted ref mem)

lemma caches_of_run (keeps : 1 ≤ ctx.dagStateCachedRounds) {start reached : DagRun}
    {sched : List DagAction} (initially : start.Caches ctx)
    (ran : run (step ctx) start sched = some reached) : reached.Caches ctx :=
  invariant (fun _ _ _ caches _ => caches.step keeps) initially
    (@heeds_of_forall _ _ _ _ _ (fun _ => True) fun _ _ => trivial) ran

lemma start_caches (ctx : Context) : start.Caches ctx := ⟨initial_upheld ctx, by simp [start]⟩

lemma evicted_rises (keeps : 1 ≤ ctx.dagStateCachedRounds)
    {sched : List DagAction} (live : ∀ act ∈ sched, act ≠ .restart)
    (caches : pre.Caches ctx) (ran : run (step ctx) pre sched = some post)
    (auth : AuthorityIndex) :
    pre.state.evictedRounds auth ≤ post.state.evictedRounds auth := by
  induction sched generalizing pre with
  | nil =>
    obtain rfl := Option.some.inj ran
    exact Nat.le_refl _
  | cons act rest ih =>
    obtain ⟨next, taken, ran⟩ := run_cons_eq_some.mp ran
    have upholds := perform_upholds keeps caches.upheld (live act mem_cons_self)
      (stepped_of_step taken).1
    refine (upholds.risen auth).trans (ih ?_ (caches.step keeps taken) ran)
    exact fun other later => live other (mem_cons_of_mem act later)

/-- In every run the index lists exactly the cached blocks, the accepted blocks above the
garbage-collection round are cached, so that their commit flag can be read and set, and the
eviction rounds are at most that round and only rise between restarts. -/
theorem cache_holds_throughout (ctx : Context) (keeps : 1 ≤ ctx.dagStateCachedRounds)
    {sched : List DagAction} {reached : DagRun}
    (ran : run (step ctx) start sched = some reached) :
    (∀ ref, ref ∈ reached.state.recentBlocks ↔
      ∃ auth, ref ∈ reached.state.recentRefsByAuthority auth) ∧
    (∀ ref ∈ reached.accepted, reached.state.gcRound ctx < ref.round →
      ref ∈ reached.state.recentBlocks ∧
        (∃ set, reached.state.setCommitted ref = .ok set) ∧
        ∃ committed, reached.state.isCommitted ref = .ok committed) ∧
    (∀ auth, reached.state.evictedRounds auth ≤ reached.state.gcRound ctx) ∧
    ∀ (later : List DagAction) (final : DagRun), (∀ act ∈ later, act ≠ .restart) →
      run (step ctx) reached later = some final →
        ∀ auth, reached.state.evictedRounds auth ≤ final.state.evictedRounds auth := by
  have caches := caches_of_run keeps (start_caches ctx) ran
  refine ⟨fun ref => ?_, fun ref mem above => ?_, fun auth => ?_, ?_⟩
  · simp only [caches.upheld.kept.indexed _ ref]
    constructor
    · exact fun cached => ⟨ref.author, cached, rfl⟩
    · rintro ⟨_, cached, _⟩
      exact cached
  · have cached := caches.upheld.kept.mem_of_held (caches.accepted ref mem) above
    refine ⟨cached, ?_⟩
    rcases committed_or_uncommitted cached with committed | fresh
    · refine ⟨?_, true, isCommitted_of_committed committed⟩
      obtain ⟨info, got, flag⟩ := committed
      exact ⟨(false, reached.state), by simp [setCommitted, got, flag]⟩
    · obtain ⟨marked, set, -⟩ := setCommitted_of_uncommitted fresh
      exact ⟨⟨_, set⟩, false, isCommitted_of_uncommitted fresh⟩
  · exact (caches.upheld.evicted auth).trans (Nat.min_le_left _ _)
  · exact fun later final live onward => evicted_rises keeps live caches onward

def shortContext : Context :=
  { Context.newForTest firstAuthority with
    protocolConfig := ⟨1, by decide, true, some 1, 0, 0, 0⟩
    dagStateCachedRounds := 1 }

theorem cache_holds_after_restart :
    let sched := threeRounds.map DagAction.acceptBlock ++
      [.commitLeader (testBlock 1 0 [0, 1, 2]), .commitLeader (testBlock 2 1 [1, 0, 2]),
        .flush, .restart]
    ∃ reached, run (step shortContext) start sched = some reached ∧
      (reached.state.evictedRounds 0, reached.state.gcRound shortContext,
        reached.accepted.length, reached.state.recentBlocks.size) = (1, 1, 9, 6) ∧
      (∀ ref, ref ∈ reached.state.recentBlocks ↔
        ∃ auth, ref ∈ reached.state.recentRefsByAuthority auth) ∧
      ∀ auth, reached.state.evictedRounds auth ≤ reached.state.gcRound shortContext := by
  intro sched
  have observed : ∃ reached, run (step shortContext) start sched = some reached ∧
      (reached.state.evictedRounds 0, reached.state.gcRound shortContext,
        reached.accepted.length, reached.state.recentBlocks.size) = (1, 1, 9, 6) :=
    exists_reached (by decide +kernel)
  obtain ⟨reached, ran, sizes⟩ := observed
  have holds := cache_holds_throughout shortContext (by decide) ran
  exact ⟨reached, ran, sizes, holds.1, holds.2.2.1⟩

end DagRun

end Mysticeti

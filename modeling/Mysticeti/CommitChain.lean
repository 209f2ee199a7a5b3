import Mysticeti.CacheUpkeep
import Mysticeti.Commits
import Mysticeti.Lib.Log

/-!
# The chain of commits

A node accepts blocks, commits leaders of increasing rounds and flushes, in any order.
Its commits form a chain: each has the next index, carries the digest of its predecessor,
lists blocks that no earlier commit lists, in order of round and author, from the
garbage-collection round to its leader. The invariant behind it ties the commit flags of
the cache to the chain: above the garbage-collection round a block is flagged exactly
when some commit lists it. From the invariant the commit loop cannot stop at any of its
checks.
-/

namespace Mysticeti

open List Lib.Outcome Lib.OrderedMap Lib.Worklist Lib.Log DagState

namespace Linearizer

variable {ctx : Context}

def lastRound (commits : List TrustedCommit) : Round :=
  (commits.getLast?.map TrustedCommit.round).getD 0

def Listed (commits : List TrustedCommit) (ref : BlockRef) : Prop :=
  ∃ commit ∈ commits, ref ∈ commit.blocks

/-- Round, then authority, on references. -/
def referenceOrder (left right : BlockRef) : Prop :=
  left.round < right.round ∨ (left.round = right.round ∧ left.author ≤ right.author)

/-- What a commit has to satisfy after the commits before it. -/
structure Extends (ctx : Context) (prev : List TrustedCommit) (commit : TrustedCommit) :
    Prop where
  index : commit.index = prev.length + 1
  previousDigest : commit.previousDigest =
    (prev.getLast?.map TrustedCommit.digest).getD CommitDigest.MIN
  timestamp : (prev.getLast?.map TrustedCommit.timestampMs).getD 0 ≤ commit.timestampMs
  newer : lastRound prev < commit.round
  leader : commit.leader ∈ commit.blocks
  ordered : commit.blocks.Pairwise referenceOrder
  rounds : ∀ ref ∈ commit.blocks,
    lastRound prev - ctx.protocolConfig.gcDepth < ref.round ∧ ref.round ≤ commit.round
  distinct : commit.blocks.Nodup
  fresh : ∀ ref ∈ commit.blocks, ¬ Listed prev ref

abbrev Chain (ctx : Context) : List TrustedCommit → Prop := Grown (Extends ctx)

section Chain

variable {commits : List TrustedCommit}

lemma lastRound_append (commits : List TrustedCommit) (commit : TrustedCommit) :
    lastRound (commits ++ [commit]) = commit.round := by
  simp [lastRound]

lemma listed_append {commit : TrustedCommit} {ref : BlockRef} :
    Listed (commits ++ [commit]) ref ↔ Listed commits ref ∨ ref ∈ commit.blocks := by
  simp only [Listed, mem_append, mem_singleton, or_and_right, exists_or, exists_eq_left]

lemma chain_index (chain : Chain ctx commits) :
    (commits.getLast?.map TrustedCommit.index).getD 0 = commits.length := by
  cases chain with
  | start => rfl
  | extend _ next => simp [next.index]

lemma chain_round (chain : Chain ctx commits) {ref : BlockRef}
    (here : Listed commits ref) : ref.round ≤ lastRound commits := by
  obtain ⟨commit, mem, inside⟩ := here
  have bounded : commit.round ≤ lastRound commits := by
    refine chain.le_last (fun prev entry next => ?_) commit mem
    rw [lastRound_append]
    exact ⟨Nat.le_of_lt next.newer, Nat.le_refl _⟩
  obtain ⟨prev, later, rfl⟩ := mem_iff_append.mp mem
  exact Nat.le_trans ((grown_iff.mp chain prev commit later rfl).rounds ref inside).2
    bounded

lemma chain_distinct (chain : Chain ctx commits) :
    (commits.flatMap TrustedCommit.blocks).Nodup := by
  induction chain with
  | start => exact nodup_nil
  | extend _ next ih =>
    rw [flatMap_append, flatMap_singleton, nodup_append]
    refine ⟨ih, next.distinct, ?_⟩
    rintro ref prev _ inside rfl
    obtain ⟨commit, mem, here⟩ := mem_flatMap.mp prev
    exact next.fresh ref inside ⟨commit, mem, here⟩

end Chain

/-- The state has recorded exactly these commits: the last one is remembered, and above
the garbage-collection round the flags say which blocks they list. -/
structure Records (ctx : Context) (st : DagState) (commits : List TrustedCommit) :
    Prop where
  chain : Chain ctx commits
  last : st.lastCommit = commits.getLast?
  flagged : ∀ ref : BlockRef, st.gcRound ctx < ref.round → Listed commits ref → st.Committed ref
  listed : ∀ ref, st.Committed ref → Listed commits ref

/-- A state in which any later leader can be committed. -/
structure Sound (ctx : Context) (st : DagState) (commits : List TrustedCommit) :
    Prop where
  wellFormed : st.WellFormed ctx
  indexed : st.Indexed
  closed : st.CausallyClosed ctx
  records : Records ctx st commits

section Sound

variable {st : DagState} {commits : List TrustedCommit}

lemma Records.lastCommitRound_eq (records : Records ctx st commits) :
    st.lastCommitRound = lastRound commits := by
  rw [lastCommitRound, records.last]
  rfl

lemma Records.gcRound_eq (records : Records ctx st commits) :
    st.gcRound ctx = lastRound commits - ctx.protocolConfig.gcDepth := by
  rw [gcRound, records.lastCommitRound_eq]

lemma Records.committed_round (records : Records ctx st commits) {ref : BlockRef}
    (committed : st.Committed ref) : ref.round ≤ st.lastCommitRound := by
  rw [records.lastCommitRound_eq]
  exact chain_round records.chain (records.listed ref committed)

lemma Sound.committable (sound : Sound ctx st commits) {leader : VerifiedBlock}
    (cached : leader.reference ∈ st.recentBlocks)
    (held : st.blockAt leader.reference = leader)
    (newer : st.lastCommitRound < leader.round) : Committable ctx st leader where
  wellFormed := sound.wellFormed
  uncommitted := uncommitted_of_not_committed cached fun committed =>
    Nat.not_le_of_lt newer (sound.records.committed_round committed)
  held := held
  newer := newer
  history := (sound.closed.containsHistory cached
    (Nat.lt_of_le_of_lt (gcRound_le_lastCommitRound ctx st) newer)).historyCached

lemma initial_sound (ctx : Context) : Sound ctx initial [] where
  wellFormed := initial_wellFormed ctx
  indexed := initial_indexed
  closed := initial_causallyClosed ctx
  records :=
    { chain := .start
      last := rfl
      flagged := fun _ _ here => by simp [Listed] at here
      listed := fun ref committed => by
        obtain ⟨info, got, -⟩ := committed
        simp [initial] at got }

end Sound

namespace Committing

variable {pre post : DagState} {leader : VerifiedBlock} {siblings seen : List BlockRef}
  {subDag : CommittedSubDag} {commit : TrustedCommit}

variable (committing : Committing ctx pre leader siblings seen subDag commit post)

include committing

lemma lastCommit_eq : post.lastCommit = some commit := by
  obtain ⟨marked, rounds, -, -, rfl⟩ := committing.linearized
  rfl

lemma leader_eq : commit.leader = leader.reference := by
  obtain ⟨timestampMs, -, -, rfl, -⟩ := committing.timestamped
  rfl

lemma lastCommitRound_eq : post.lastCommitRound = leader.round := by
  rw [lastCommitRound, committing.lastCommit_eq, Option.map_some, Option.getD_some,
    TrustedCommit.round]
  exact congrArg BlockRef.round committing.leader_eq

lemma marked : ∃ marked, Linearized ctx pre leader siblings seen marked ∧
      post.recentBlocks = marked.recentBlocks := by
  obtain ⟨marked, rounds, lined, -, rfl⟩ := committing.linearized
  exact ⟨marked, lined, rfl⟩

lemma mem_iff (ref : BlockRef) : ref ∈ post.recentBlocks ↔ ref ∈ pre.recentBlocks := by
  obtain ⟨marked, lined, same⟩ := committing.marked
  rw [same]
  exact lined.marked.flagged.mem_iff ref

lemma blockAt_eq : post.blockAt = pre.blockAt := by
  obtain ⟨marked, lined, same⟩ := committing.marked
  rw [← lined.marked.flagged.blockAt_eq]
  funext ref
  rw [blockAt, blockAt, same]

lemma indexed (indexed : pre.Indexed) : post.Indexed := by
  intro auth ref
  have sameRefs : post.recentRefsByAuthority = pre.recentRefsByAuthority := by
    obtain ⟨marked, rounds, lined, -, rfl⟩ := committing.linearized
    rw [lined.marked.frame]
  rw [sameRefs, committing.mem_iff]
  exact indexed auth ref

lemma wellFormed (wellFormed : pre.WellFormed ctx) : post.WellFormed ctx := by
  obtain ⟨marked, lined, same⟩ := committing.marked
  have kept := lined.marked.flagged.wellFormed wellFormed
  constructor
  · intro ref info got
    rw [same] at got
    exact kept.keyed ref info got
  · intro ref info got
    rw [same] at got
    exact kept.valid ref info got

variable (ready : Committable ctx pre leader)

include ready

lemma blocks_perm : commit.blocks.Perm (siblings ++ seen) := by
  obtain ⟨marked, lined, -⟩ := committing.marked
  obtain ⟨timestampMs, -, -, rfl, -⟩ := committing.timestamped
  exact lined.references_perm ready

lemma committed_iff (ref : BlockRef) :
    post.Committed ref ↔ pre.Committed ref ∨ ref ∈ commit.blocks := by
  obtain ⟨marked, lined, same⟩ := committing.marked
  have spec := lined.marked.committed_iff ref
  have cached : ref ∈ siblings ++ seen → ref ∈ pre.recentBlocks :=
    fun mem => (lined.uncommitted ready mem).cached
  rw [(committing.blocks_perm ready).mem_iff]
  unfold Committed at spec ⊢
  rw [same, spec, Set.mem_ofPred_eq, ← mem_append]
  exact or_congr_right (and_iff_left_of_imp cached)

lemma gcRound_le : pre.gcRound ctx ≤ post.gcRound ctx := by
  rw [gcRound, gcRound, committing.lastCommitRound_eq]
  exact Nat.sub_le_sub_right (Nat.le_of_lt ready.newer) _

lemma closed (closed : pre.CausallyClosed ctx) : post.CausallyClosed ctx := by
  have raised := committing.gcRound_le ready
  obtain ⟨marked, lined, same⟩ := committing.marked
  intro ref info got above anc mem ancestorAbove
  rw [same] at got
  obtain ⟨old, cached, sameBlock⟩ := lined.marked.flagged.lookup got
  rw [committing.mem_iff]
  exact closed ref old cached (Nat.lt_of_le_of_lt raised above) anc
    (sameBlock ▸ mem) (Nat.lt_of_le_of_lt raised ancestorAbove)

variable {commits : List TrustedCommit}

lemma extends_chain (records : Records ctx pre commits) : Extends ctx commits commit := by
  have perm := committing.blocks_perm ready
  have round : commit.round = leader.round := congrArg BlockRef.round committing.leader_eq
  obtain ⟨marked, lined, -⟩ := committing.marked
  obtain ⟨timestampMs, later, -, content, -⟩ := committing.timestamped
  constructor
  · rw [← chain_index records.chain, ← records.last, content]
    rfl
  · rw [← records.last, content]
    rfl
  · rw [← records.last, content]
    exact later
  · rw [round, ← records.lastCommitRound_eq]
    exact ready.newer
  · rw [committing.leader_eq, perm.mem_iff]
    exact mem_append_right _ lined.leader_visited
  · rw [content]
    exact pairwise_map.mpr (sortSubDagBlocks_sorted _)
  · intro ref mem
    rw [round, ← records.gcRound_eq]
    exact lined.rounds ready (perm.mem_iff.mp mem)
  · exact perm.nodup_iff.mpr (lined.distinct ready)
  · intro ref mem here
    have listedNow := perm.mem_iff.mp mem
    exact (lined.uncommitted ready listedNow).not_committed
      (records.flagged ref (lined.rounds ready listedNow).1 here)

lemma records (records : Records ctx pre commits) : Records ctx post (commits ++ [commit]) where
  chain := records.chain.extend (committing.extends_chain ready records)
  last := by rw [committing.lastCommit_eq, getLast?_concat]
  flagged ref above here := by
    rw [committing.committed_iff ready]
    rcases listed_append.mp here with old | new
    · exact .inl (records.flagged ref
        (Nat.lt_of_le_of_lt (committing.gcRound_le ready) above) old)
    · exact .inr new
  listed ref committed := by
    apply listed_append.mpr
    rcases (committing.committed_iff ready ref).mp committed with old | new
    · exact .inl (records.listed ref old)
    · exact .inr new

lemma sound (sound : Sound ctx pre commits) : Sound ctx post (commits ++ [commit]) where
  wellFormed := committing.wellFormed sound.wellFormed
  indexed := committing.indexed sound.indexed
  closed := committing.closed ready sound.closed
  records := committing.records ready sound.records

end Committing

section Upkeep

variable {st post : DagState} {commits : List TrustedCommit} {blk : VerifiedBlock}

lemma Records.of_flags (records : Records ctx st commits)
    (sameLast : post.lastCommit = st.lastCommit)
    (kept : ∀ ref : BlockRef, st.gcRound ctx < ref.round → st.Committed ref → post.Committed ref)
    (got : ∀ ref, post.Committed ref → st.Committed ref) :
    Records ctx post commits where
  chain := records.chain
  last := sameLast.trans records.last
  flagged ref above here := by
    rw [gcRound, lastCommitRound, sameLast] at above
    exact kept ref above (records.flagged ref above here)
  listed ref committed := records.listed ref (got ref committed)

lemma Sound.acceptBlock (sound : Sound ctx st commits)
    (valid : ValidBlock ctx blk.block.inner)
    (ancestors : ∀ anc ∈ blk.ancestors, st.gcRound ctx < anc.round → anc ∈ st.recentBlocks)
    (run : st.acceptBlock ctx blk = .ok post) : Sound ctx post commits where
  wellFormed := sound.wellFormed.acceptBlock valid run
  indexed := sound.indexed.acceptBlock run
  closed := sound.closed.acceptBlock sound.indexed ancestors run
  records := by
    apply sound.records.of_flags (acceptBlock_lastCommit run)
    · rintro ref - ⟨info, got, flag⟩
      exact ⟨info, acceptBlock_lookup sound.indexed run got, flag⟩
    · rintro ref ⟨info, got, flag⟩
      rcases acceptBlock_found run got with pre | ⟨-, rfl⟩
      · exact ⟨info, pre, flag⟩
      · exact absurd flag Bool.false_ne_true

lemma Sound.flush (sound : Sound ctx st commits) : Sound ctx (st.flush ctx) commits := by
  have flushed := @flush_flushed ctx st sound.indexed
  exact
    { wellFormed := flushed.wellFormed sound.wellFormed
      indexed := flushed.indexed
      closed := flushed.causallyClosed sound.closed
      records := by
        apply sound.records.of_flags flushed.lastCommit_eq
        · rintro ref above ⟨info, got, flag⟩
          exact ⟨info, (flushed.young above).trans got, flag⟩
        · rintro ref ⟨info, got, flag⟩
          exact ⟨info, flushed.found ref info got, flag⟩ }

end Upkeep

/-- Cached leaders of strictly increasing rounds above the last commit. -/
structure Leaders (st : DagState) (leaders : List VerifiedBlock) : Prop where
  cached : ∀ leader ∈ leaders, leader.reference ∈ st.recentBlocks
  held : ∀ leader ∈ leaders, st.blockAt leader.reference = leader
  newer : ∀ leader ∈ leaders, st.lastCommitRound < leader.round
  increasing : leaders.Pairwise fun first second => first.round < second.round

lemma Leaders.rest {pre post : DagState} {leader : VerifiedBlock}
    {rest : List VerifiedBlock} {siblings seen : List BlockRef} {subDag : CommittedSubDag}
    {commit : TrustedCommit} (leaders : Leaders pre (leader :: rest))
    (committing : Committing ctx pre leader siblings seen subDag commit post) :
    Leaders post rest where
  cached other mem := (committing.mem_iff _).mpr (leaders.cached other (by simp [mem]))
  held other mem := by
    rw [committing.blockAt_eq]
    exact leaders.held other (by simp [mem])
  newer other mem := by
    rw [committing.lastCommitRound_eq]
    exact (pairwise_cons.mp leaders.increasing).1 other mem
  increasing := (pairwise_cons.mp leaders.increasing).2

lemma Leaders.committable {st : DagState} {commits : List TrustedCommit}
    {leader : VerifiedBlock} {rest : List VerifiedBlock} (leaders : Leaders st (leader :: rest))
    (sound : Sound ctx st commits) : Committable ctx st leader :=
  sound.committable (leaders.cached leader (by simp)) (leaders.held leader (by simp))
    (leaders.newer leader (by simp))

/-- The commit loop, one leader after the other: every iteration has the effect of
`Committing`, from a state in which the leader can be committed. -/
inductive CommitLoop (ctx : Context) : DagState → List TrustedCommit → List VerifiedBlock →
    List CommittedSubDag → List TrustedCommit → DagState → Prop
  | done {st : DagState} {commits : List TrustedCommit} (sound : Sound ctx st commits) :
      CommitLoop ctx st commits [] [] [] st
  | leader {st mid post : DagState} {commits produced : List TrustedCommit}
      {leader : VerifiedBlock} {rest : List VerifiedBlock} {siblings seen : List BlockRef}
      {subDag : CommittedSubDag} {subDags : List CommittedSubDag} {commit : TrustedCommit}
      (sound : Sound ctx st commits) (ready : Committable ctx st leader)
      (taken : ∀ collected, commitLeader ctx (collected, st) leader =
        .ok (collected ++ [subDag], mid))
      (first : Committing ctx st leader siblings seen subDag commit mid)
      (loop : CommitLoop ctx mid (commits ++ [commit]) rest subDags produced post) :
      CommitLoop ctx st commits (leader :: rest) (subDag :: subDags) (commit :: produced)
        post

section Loop

variable {st post : DagState} {commits produced : List TrustedCommit}
  {leaders : List VerifiedBlock} {subDags : List CommittedSubDag}

lemma CommitLoop.sound (loop : CommitLoop ctx st commits leaders subDags produced post) :
    Sound ctx post (commits ++ produced) := by
  induction loop with
  | done sound => simpa using sound
  | leader _ _ _ _ _ ih => simpa using ih

lemma CommitLoop.commitsToWrite_eq
    (loop : CommitLoop ctx st commits leaders subDags produced post) :
    post.commitsToWrite = st.commitsToWrite ++ produced := by
  induction loop with
  | done => simp
  | leader _ _ _ first _ ih =>
    obtain ⟨marked, rounds, -, -, rfl⟩ := first.linearized
    rw [ih, append_assoc, singleton_append]

lemma handleCommit_ok (sound : Sound ctx st commits) (proper : Leaders st leaders)
    (collected : List CommittedSubDag) :
    ∃ subDags produced post,
      leaders.foldlM (commitLeader ctx) (collected, st) = .ok (collected ++ subDags, post) ∧
      CommitLoop ctx st commits leaders subDags produced post := by
  induction leaders generalizing st commits collected with
  | nil => exact ⟨[], [], st, by simp, .done sound⟩
  | cons leader rest ih =>
    have ready := proper.committable sound
    obtain ⟨siblings, seen, subDag, commit, mid, taken, committing⟩ :=
      commitLeader_ok ready
    obtain ⟨subDags, produced, post, run, loop⟩ :=
      ih (committing.sound ready sound) (proper.rest committing)
        (collected ++ [subDag])
    refine ⟨subDag :: subDags, commit :: produced, post, ?_, .leader sound ready
      taken committing loop⟩
    rw [foldlM_step (taken collected), run, append_assoc, singleton_append]

end Loop

/-- A node's DAG state with the commits it recorded and the sub-dags it handed on. -/
structure Ledger where
  state : DagState
  commits : List TrustedCommit
  subDags : List CommittedSubDag

namespace Ledger

def start : Ledger := ⟨DagState.initial, [], []⟩

/-- One operation: accept a valid block whose ancestors above the garbage-collection
round are there, flush, or commit leaders of strictly increasing rounds. `admitted`
restricts which calls of the commit loop are considered. -/
inductive Step (ctx : Context) (admitted : DagState → List VerifiedBlock → Prop) :
    Ledger → Ledger → Prop
  | accept {ledger : Ledger} {blk : VerifiedBlock} {post : DagState}
      (valid : ValidBlock ctx blk.block.inner)
      (ancestors : ∀ anc ∈ blk.ancestors, ledger.state.gcRound ctx < anc.round →
        anc ∈ ledger.state.recentBlocks)
      (run : ledger.state.acceptBlock ctx blk = .ok post) :
      Step ctx admitted ledger { ledger with state := post }
  | flush (ledger : Ledger) :
      Step ctx admitted ledger { ledger with state := ledger.state.flush ctx }
  | commit {ledger : Ledger} {leaders : List VerifiedBlock} {subDags : List CommittedSubDag}
      {produced : List TrustedCommit} {post : DagState} (proper : Leaders ledger.state leaders)
      (allowed : admitted ledger.state leaders)
      (run : handleCommit ctx ledger.state leaders = .ok (subDags, post))
      (buffered : post.commitsToWrite = ledger.state.commitsToWrite ++ produced) :
      Step ctx admitted ledger
        ⟨post, ledger.commits ++ produced, ledger.subDags ++ subDags⟩

/-- Reached from the initial state by such operations. -/
def Reached (ctx : Context) (admitted : DagState → List VerifiedBlock → Prop)
    (ledger : Ledger) : Prop :=
  Relation.ReflTransGen (Step ctx admitted) start ledger

variable {admitted : DagState → List VerifiedBlock → Prop}

lemma loop_of_handleCommit {st post : DagState} {commits produced : List TrustedCommit}
    {leaders : List VerifiedBlock} {subDags : List CommittedSubDag}
    (sound : Sound ctx st commits) (proper : Leaders st leaders)
    (run : handleCommit ctx st leaders = .ok (subDags, post))
    (buffered : post.commitsToWrite = st.commitsToWrite ++ produced) :
    CommitLoop ctx st commits leaders subDags produced post := by
  obtain ⟨others, commits, final, again, loop⟩ := handleCommit_ok sound proper []
  rw [handleCommit, again, Except.ok.injEq, Prod.mk.injEq] at run
  obtain ⟨rfl, rfl⟩ := run
  rw [loop.commitsToWrite_eq, append_cancel_left_eq] at buffered
  subst buffered
  exact loop

lemma sound_step {pre post : Ledger} (step : Step ctx admitted pre post)
    (sound : Sound ctx pre.state pre.commits) :
    Sound ctx post.state post.commits := by
  cases step with
  | accept valid ancestors run => exact sound.acceptBlock valid ancestors run
  | flush => exact sound.flush
  | commit proper allowed run buffered =>
    exact (loop_of_handleCommit sound proper run buffered).sound

def acceptsInOrder (ctx : Context) : DagState → List VerifiedBlock → Bool
  | _, [] => true
  | st, blk :: rest =>
    (blk.ancestors.all fun anc => anc.round ≤ st.gcRound ctx || st.recentBlocks.contains anc) &&
    match st.acceptBlock ctx blk with
    | .ok post => acceptsInOrder ctx post rest
    | .error _ => false

variable {ledger : Ledger}

lemma reached_acceptBlocks {blocks : List VerifiedBlock}
    (verified : ∀ blk ∈ blocks, verifyBlock ctx blk.block = .ok ())
    (ordered : acceptsInOrder ctx ledger.state blocks = true)
    (reached : Reached ctx admitted ledger) :
    ∃ post, ledger.state.acceptBlocks ctx blocks = .ok post ∧
      Reached ctx admitted { ledger with state := post } := by
  induction blocks generalizing ledger with
  | nil => exact ⟨ledger.state, rfl, reached⟩
  | cons blk rest ih =>
    rw [acceptsInOrder, Bool.and_eq_true, List.all_eq_true] at ordered
    obtain ⟨history, ordered⟩ := ordered
    cases run : ledger.state.acceptBlock ctx blk with
    | error err => simp [run] at ordered
    | ok mid =>
      rw [run] at ordered
      have ancestors : ∀ anc ∈ blk.ancestors,
          ledger.state.gcRound ctx < anc.round → anc ∈ ledger.state.recentBlocks := by
        intro anc mem above
        have checked := history anc mem
        rw [Bool.or_eq_true, decide_eq_true_eq] at checked
        exact checked.resolve_left (Nat.not_le_of_lt above)
      have taken : Reached ctx admitted { ledger with state := mid } :=
        reached.tail (.accept (validBlock_of_verifyBlock (verified blk (by simp))) ancestors run)
      obtain ⟨post, acc, final⟩ := ih
        (fun other mem => verified other (by simp [mem])) ordered taken
      exact ⟨post, (foldlM_step run).trans acc, final⟩

lemma reached_testState {ownIndex : Fin 4} {blocks : List VerifiedBlock}
    (verified : ∀ blk ∈ blocks, verifyBlock (Context.newForTest ownIndex) blk.block = .ok ())
    (ordered : acceptsInOrder (Context.newForTest ownIndex) initial blocks = true) :
    Reached (Context.newForTest ownIndex) admitted ⟨testState ownIndex blocks, [], []⟩ := by
  obtain ⟨post, run, reached⟩ := @reached_acceptBlocks _ _ start blocks verified ordered .refl
  have same : testState ownIndex blocks = post := by
    rw [testState]
    exact congrArg (fun res => (Except.toOption res).getD initial) run
  rw [same]
  exact reached

lemma sound_of_reached (reached : Reached ctx admitted ledger) :
    Sound ctx ledger.state ledger.commits := by
  induction reached with
  | refl => exact initial_sound ctx
  | tail _ step ih => exact sound_step step ih

/-- In every run the commits form a chain that lists each block at most once, and the
commit loop returns for any leaders of increasing rounds: none of its checks fails. -/
theorem commits_chain (reached : Reached ctx (fun _ _ => True) ledger) :
    Chain ctx ledger.commits ∧
      (ledger.commits.flatMap TrustedCommit.blocks).Nodup ∧
      ledger.state.lastCommit = ledger.commits.getLast? ∧
      ∀ leaders, Leaders ledger.state leaders →
        ∃ subDags post, handleCommit ctx ledger.state leaders = .ok (subDags, post) := by
  have sound := sound_of_reached reached
  refine ⟨sound.records.chain, chain_distinct sound.records.chain, sound.records.last, ?_⟩
  intro leaders proper
  obtain ⟨subDags, produced, post, run, -⟩ := handleCommit_ok sound proper []
  exact ⟨subDags, post, run⟩

theorem commits_chain_twoLeaders : ∃ ledger : Ledger,
    Reached (Context.newForTest 0) (fun _ _ => True) ledger ∧
      ledger.commits.map TrustedCommit.blocks = [[testRef 1 0, testRef 1 1, testRef 1 2],
        [testRef 2 0, testRef 2 1, testRef 2 2]] ∧
      Chain (Context.newForTest 0) ledger.commits ∧
      (ledger.commits.flatMap TrustedCommit.blocks).Nodup ∧
      ledger.state.lastCommit = ledger.commits.getLast? ∧
      ∀ leaders, Leaders ledger.state leaders → ∃ subDags post,
        handleCommit (Context.newForTest 0) ledger.state leaders = .ok (subDags, post) := by
  have acc : Reached (Context.newForTest 0) (fun _ _ => True)
      ⟨testState 0 threeRounds, [], []⟩ :=
    reached_testState (by decide +kernel) (by decide +kernel)
  have proper : Leaders (testState 0 threeRounds)
      [testBlock 1 0 [0, 1, 2], testBlock 2 1 [1, 0, 2]] :=
    ⟨by decide +kernel, by decide +kernel, by decide +kernel, by decide +kernel⟩
  have computed : (handleCommit (Context.newForTest 0) (testState 0 threeRounds)
      [testBlock 1 0 [0, 1, 2], testBlock 2 1 [1, 0, 2]]).map (fun res =>
        res.2.commitsToWrite.map TrustedCommit.blocks) =
      .ok [[testRef 1 0, testRef 1 1, testRef 1 2], [testRef 2 0, testRef 2 1, testRef 2 2]] := by
    decide +kernel
  obtain ⟨subDags, produced, post, run, loop⟩ :=
    handleCommit_ok (sound_of_reached acc) proper []
  rw [handleCommit, run] at computed
  have buffered := loop.commitsToWrite_eq
  have committed : Reached (Context.newForTest 0) (fun _ _ => True)
      ⟨post, [] ++ produced, [] ++ ([] ++ subDags)⟩ :=
    acc.tail (.commit proper trivial run buffered)
  refine ⟨_, committed, ?_, commits_chain committed⟩
  have nothingBefore : (testState 0 threeRounds).commitsToWrite = [] := by decide +kernel
  rw [nothingBefore] at buffered
  rw [← buffered]
  exact Except.ok.inj computed

end Ledger

end Linearizer

end Mysticeti
